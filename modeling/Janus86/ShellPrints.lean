import Janus86.DriverSpecs
import Janus86.FsModel
import Janus86.ListedNodes
import Janus86.PrintfBounds
import Janus86.ShellExec

/-!
# What the shell prints of its words and nodes

`shell_exec` prints the name that it does not know, and `help`, `ls`, `lsdrv` and `rmdrv`
print words of the line, names of files and names of drivers.  The buffer of `kprintf` has
100 bytes, so that a long name goes over its end.
-/

namespace Janus86
namespace Shell

open Video Janus86.Partition
open Printf (Arg Piece Directive)

/-- The buffer of `kprintf` has to hold the text.  Where it goes on the screen is left
out. -/
def kprintf (call : Call) : Except Fault Unit := do
  let _ ← formatted call.fmt call.args
  pure ()

def printed (fmt : String) (args : List Arg) : Call :=
  ⟨ascii fmt ++ [0], fun i => args.getD i ⟨0, []⟩⟩

def stringArg (text : List UInt8) : Arg := ⟨0, text ++ [0]⟩

def numberArg (n : ℕ) : Arg := ⟨UInt32.ofNat n, []⟩

/-! ## shell.c -/

/-- The texts in `cmdtab`. -/
def helpText : Builtin → String
  | .help => "help: help [command]"
  | .ls => "ls: ls [dir]"
  | .cd => "cd: cd [path]"
  | .reboot => "reboot: reboot"
  | .clear => "clear: clear"
  | .ppart => "ppart: ppart"
  | .more => "more: more filename"
  | .load => "load: load [p[partition number]or [-s -f] [sector no. filename]]"
  | .ldmod => "ldmod: ldmod [module name] [address]"
  | .root => "root: root p[partition number] "
  | .lsdrv => "lsdrv: lsdrv"
  | .rmdrv => "rmdrv: rmdrv [module name]"
  | .chload => "chload: chload"
  | .dump => "dump: dump -x or -c [Memory location]"

/-- What `shell_exec` prints behind its loop. -/
def cannotExec (name : List UInt8) : Call :=
  printed "Cannot exec \"%s\".\n" [stringArg name]

/-! ## shell_builtin.c and fs.c -/

def commandNotFound (name : List UInt8) : Call :=
  printed "Command \"%s\" not found.\n" [stringArg name]

def moduleNotFound (name : List UInt8) : Call :=
  printed "Module %s not found\n" [stringArg name]

/-- `cmd_help`; `argv` reads an argument.  No two names in `cmdtab` are the same, so it is
no matter that they are compared from the last one on. -/
def cmdHelp (argc : ℕ) (argv : ℕ → Except Fault (List UInt8)) : Except Fault Unit :=
  if argc ≤ 1 then do
    kprintf (printed "%d commands:\n" [numberArg cmdtab.length])
    cmdtab.reverse.forM fun entry => kprintf (printed "%s\n" [stringArg entry.1])
  else
    (List.range' 1 (argc - 1)).reverse.forM fun foo => do
      let name ← argv foo
      match findBuiltin name with
      | none => kprintf (commandNotFound name)
      | some cmd => kprintf (printed "%s\n" [stringArg (ascii (helpText cmd))])

def nameColumn (name : List UInt8) : Call := printed "%s " [stringArg name]

def lsRow (line : LsLine) : Call :=
  printed "%-15s %-10d %-06d %-20s\n" [stringArg (ascii line.typeName),
    numberArg line.size, numberArg line.start, stringArg line.name]

/-- `cmd_ls`.  A code other than `NULL` is no address of a node. -/
def cmdLs (argc : ℕ) (argv : ℕ → Except Fault (List UInt8)) (fsProp : Reply) :
    Except Fault Unit :=
  match fsProp with
  | .code 0 => kprintf (printed "Partition not supported\n" [])
  | .code _ => .error .outOfBounds
  | .list listing =>
      if argc = 1 then do
        listing.nodes.forM fun node => kprintf (nameColumn node.name)
        kprintf (printed "\n " [])
      else if argc = 2 then do
        let c ← argv 1
        if c.head? = some 45 then
          if (c.drop 1).head? = some 108 then do
            let lines ← lsLong listing.nodes
            lines.forM fun line => kprintf (lsRow line)
          else kprintf (printed "Wrong switch used: See help ls\n" [])
        else kprintf (printed "Wrong usage of command : See help ls\n" [])
      else kprintf (printed "Wrong usage of command : See help ls\n" [])

def driverRow (d : Fs.Driver) : Call :=
  printed "Name : %s  FS type : 0x%X  Mem : 0x%X\n"
    [stringArg d.drvName, numberArg d.fsTypeByte.toNat, numberArg d.loadMem]

def listDrivers (drvList : List Fs.Driver) : Except Fault Unit := do
  drvList.forM fun d => kprintf (driverRow d)
  kprintf (printed "\n" [])

/-! ## Texts that fit -/

def literalPieces (text : String) : List Piece := (ascii text).map .literal

def stringDirective (left : Bool) (width : ℕ) : Directive :=
  ⟨left, false, width, false, false, .string⟩

theorem lengthBound_literals (args : ℕ → Arg) (text : String) (ps : List Piece) (used : ℕ) :
    Printf.lengthBound args (literalPieces text ++ ps) used =
      (ascii text).length + Printf.lengthBound args ps used := by
  unfold literalPieces
  induction ascii text with
  | nil => exact (Nat.zero_add _).symm
  | cons c cs ih =>
      show 1 + Printf.lengthBound args (cs.map .literal ++ ps) used = _
      rw [ih, List.length_cons]
      omega

theorem lengthBound_directive (args : ℕ → Arg) (d : Directive) (ps : List Piece) (used : ℕ) :
    Printf.lengthBound args ([.directive d] ++ ps) used =
      d.bound (args used) + Printf.lengthBound args ps (used + 1) := rfl

theorem bound_stringArg (left : Bool) (width : ℕ) (text : List UInt8) :
    (stringDirective left width).bound (stringArg text) ≤ max width text.length := by
  have hlength : (cString (text ++ [0])).length ≤ text.length := by
    rw [cString_append_zero]
    exact (List.takeWhile_sublist _).length_le
  exact max_le_max le_rfl hlength

theorem kprintf_of_bound {fmt : String} {args : List Arg} (ps : List Piece)
    (hparse : Printf.parse (ascii fmt ++ [0]) = some ps)
    (hbound : Printf.lengthBound (printed fmt args).args ps 0 < Printf.bufferSize) :
    kprintf (printed fmt args) = .ok () := by
  obtain ⟨text, htext⟩ : ∃ text, formatted (printed fmt args).fmt (printed fmt args).args =
      .ok text := exists_formatted hparse hbound
  rw [kprintf, htext]
  rfl

/-- A string between two fixed texts. -/
theorem kprintf_string (front behind : String) {fmt : String} {text : List UInt8}
    (hparse : Printf.parse (ascii fmt ++ [0]) = some (literalPieces front ++
      ([.directive (stringDirective false 0)] ++ (literalPieces behind ++ []))))
    (hfit : (ascii front).length + text.length + (ascii behind).length < 100) :
    kprintf (printed fmt [stringArg text]) = .ok () := by
  apply kprintf_of_bound _ hparse
  have hstring := bound_stringArg false 0 text
  rw [Nat.zero_max] at hstring
  rw [lengthBound_literals, lengthBound_directive, lengthBound_literals]
  show _ + ((stringDirective false 0).bound (stringArg text) + (_ + 0)) < 100
  omega

theorem kprintf_fixed {text : String}
    (hparse : Printf.parse (ascii text ++ [0]) = some (literalPieces text ++ []))
    (hfit : (ascii text).length < 100) : kprintf (printed text []) = .ok () := by
  apply kprintf_of_bound _ hparse
  rw [lengthBound_literals]
  exact hfit

theorem forM_ok {α : Type} {f : α → Except Fault Unit} {l : List α}
    (hall : ∀ x ∈ l, f x = .ok ()) : l.forM f = .ok () := by
  induction l with
  | nil => rfl
  | cons x l ih =>
      obtain ⟨hx, hl⟩ := List.forall_mem_cons.mp hall
      rw [List.forM_eq_forM, List.forM_cons, hx, ok_bind]
      exact ih hl

theorem kprintf_cannotExec {name : List UInt8} (hshort : name.length ≤ 83) :
    kprintf (cannotExec name) = .ok () := by
  refine kprintf_string "Cannot exec \"" "\".\n" (by decide +kernel) ?_
  have hfixed : (ascii "Cannot exec \"").length = 13 ∧ (ascii "\".\n").length = 3 := by decide
  omega

theorem kprintf_commandNotFound {name : List UInt8} (hshort : name.length ≤ 77) :
    kprintf (commandNotFound name) = .ok () := by
  refine kprintf_string "Command \"" "\" not found.\n" (by decide +kernel) ?_
  have hfixed : (ascii "Command \"").length = 9 ∧ (ascii "\" not found.\n").length = 13 := by
    decide
  omega

theorem kprintf_line {text : List UInt8} (hshort : text.length < 99) :
    kprintf (printed "%s\n" [stringArg text]) = .ok () := by
  refine kprintf_string "" "\n" (by decide +kernel) ?_
  have hfixed : (ascii "").length = 0 ∧ (ascii "\n").length = 1 := by decide
  omega

theorem kprintf_nameColumn {name : List UInt8} (hshort : name.length < 99) :
    kprintf (nameColumn name) = .ok () := by
  refine kprintf_string "" " " (by decide +kernel) ?_
  have hfixed : (ascii "").length = 0 ∧ (ascii " ").length = 1 := by decide
  omega

/-! ## The commands and their arguments -/

theorem forM_congr {α : Type} {f g : α → Except Fault Unit} {l : List α}
    (hall : ∀ x ∈ l, f x = g x) : l.forM f = l.forM g := by
  induction l with
  | nil => rfl
  | cons x l ih =>
      obtain ⟨hx, hl⟩ := List.forall_mem_cons.mp hall
      simp only [List.forM_eq_forM, List.forM_cons] at ih ⊢
      rw [hx, ih hl]

section Congr

variable {argc : ℕ} {argv argv' : ℕ → Except Fault (List UInt8)}

/-- `help` reads the arguments that it has, and no others. -/
theorem cmdHelp_congr (hsame : ∀ i < argc, argv i = argv' i) :
    cmdHelp argc argv = cmdHelp argc argv' := by
  unfold cmdHelp
  by_cases hargc : argc ≤ 1
  · rw [if_pos hargc, if_pos hargc]
  · rw [if_neg hargc, if_neg hargc]
    refine forM_congr fun i hi => ?_
    rw [List.mem_reverse, List.mem_range'_1] at hi
    rw [hsame i (by omega)]

theorem cmdLs_congr (hsame : ∀ i < argc, argv i = argv' i) (fsProp : Reply) :
    cmdLs argc argv fsProp = cmdLs argc argv' fsProp := by
  unfold cmdLs
  split
  · rfl
  · rfl
  · by_cases htwo : argc = 2
    · rw [hsame 1 (by omega)]
    · simp only [if_neg htwo]

end Congr

/-- No text of `help` is too long; only unknown words can be. -/
theorem cmdHelp_ok {argc : ℕ} {argv : ℕ → Except Fault (List UInt8)}
    (hargv : ∀ i, 1 ≤ i → i < argc → ∃ name, argv i = .ok name ∧ name.length ≤ 77) :
    cmdHelp argc argv = .ok () := by
  unfold cmdHelp
  by_cases hargc : argc ≤ 1
  · have hnames : ∀ entry ∈ cmdtab.reverse, entry.1.length < 99 := by decide
    have hcount : kprintf (printed "%d commands:\n" [numberArg cmdtab.length]) = .ok () := by
      refine kprintf_of_bound ([.directive ⟨false, false, 0, false, false, .signed⟩] ++
        (literalPieces " commands:\n" ++ [])) (by decide +kernel) ?_
      rw [lengthBound_directive, lengthBound_literals]
      decide
    rw [if_pos hargc, hcount, ok_bind]
    exact forM_ok fun entry hmem => kprintf_line (hnames entry hmem)
  · have hhelp : ∀ cmd, (ascii (helpText cmd)).length < 99 := by
      intro cmd
      cases cmd <;> decide
    rw [if_neg hargc]
    refine forM_ok fun i hi => ?_
    rw [List.mem_reverse, List.mem_range'_1] at hi
    obtain ⟨name, hname, hshort⟩ := hargv i hi.1 (by omega)
    rw [hname, ok_bind]
    cases findBuiltin name with
    | none => exact kprintf_commandNotFound hshort
    | some cmd => exact kprintf_line (hhelp cmd)

/-- The names of the types have at most 12 characters. -/
theorem kprintf_lsRow {line : LsLine} (htype : line.typeName ∈ fileTypeNames)
    (hshort : line.name.length ≤ 58) : kprintf (lsRow line) = .ok () := by
  have htypes : ∀ typeName ∈ fileTypeNames, (ascii typeName).length ≤ 15 := by decide
  have hblank : (ascii " ").length = 1 ∧ (ascii "\n").length = 1 := by decide
  have hcolumn := bound_stringArg true 15 (ascii line.typeName)
  have hname := bound_stringArg true 20 line.name
  have hlt := htypes line.typeName htype
  refine kprintf_of_bound ([.directive (stringDirective true 15)] ++ (literalPieces " " ++
    ([.directive ⟨true, false, 10, false, false, .signed⟩] ++ (literalPieces " " ++
      ([.directive ⟨true, true, 6, false, false, .signed⟩] ++ (literalPieces " " ++
        ([.directive (stringDirective true 20)] ++ (literalPieces "\n" ++ []))))))))
    (by decide +kernel) ?_
  simp only [lengthBound_directive, lengthBound_literals, hblank]
  show (stringDirective true 15).bound (stringArg (ascii line.typeName)) + (1 + (11 + (1 +
    (11 + (1 + ((stringDirective true 20).bound (stringArg line.name) + (1 + 0))))))) < 100
  omega

theorem kprintf_driverRow {d : Fs.Driver} (hshort : d.drvName.length ≤ 45) :
    kprintf (driverRow d) = .ok () := by
  have hfixed : (ascii "Name : ").length = 7 ∧ (ascii "  FS type : 0x").length = 14 ∧
      (ascii "  Mem : 0x").length = 10 ∧ (ascii "\n").length = 1 := by decide
  have hname := bound_stringArg false 0 d.drvName
  rw [Nat.zero_max] at hname
  refine kprintf_of_bound (literalPieces "Name : " ++
    ([.directive (stringDirective false 0)] ++ (literalPieces "  FS type : 0x" ++
      ([.directive ⟨false, false, 0, false, false, .hexCaps⟩] ++ (literalPieces "  Mem : 0x" ++
        ([.directive ⟨false, false, 0, false, false, .hexCaps⟩] ++
          (literalPieces "\n" ++ []))))))) (by decide +kernel) ?_
  simp only [lengthBound_directive, lengthBound_literals, hfixed]
  show 7 + ((stringDirective false 0).bound (stringArg d.drvName) +
    (14 + (11 + (10 + (11 + (1 + 0)))))) < 100
  omega

theorem listDrivers_ok {drvList : List Fs.Driver}
    (hshort : ∀ d ∈ drvList, d.drvName.length ≤ 45) : listDrivers drvList = .ok () := by
  rw [listDrivers, forM_ok fun d hmem => kprintf_driverRow (hshort d hmem), ok_bind]
  exact kprintf_fixed (by decide +kernel) (by decide)

/-- The rows of `ls -l` have the names of types and files. -/
theorem of_mem_lsLong {nodes : List FsProperties} {lines : List LsLine}
    (hlines : lsLong nodes = .ok lines) {line : LsLine} (hmem : line ∈ lines) :
    line.typeName ∈ fileTypeNames ∧ ∃ node ∈ nodes, node.name ≠ [] ∧ line.name = node.name := by
  induction nodes generalizing lines with
  | nil =>
      cases hlines
      cases hmem
  | cons node rest ih =>
      rw [lsLong] at hlines
      by_cases hname : node.name = []
      · rw [if_pos hname] at hlines
        obtain ⟨htype, other, hother, hline⟩ := ih hlines hmem
        exact ⟨htype, other, List.mem_cons_of_mem node hother, hline⟩
      · rw [if_neg hname] at hlines
        cases htype : fileTypeNames[node.fileType]? with
        | none =>
            rw [htype] at hlines
            cases hlines
        | some typeName =>
            rw [htype] at hlines
            obtain ⟨more, hmore, hlast⟩ := bind_eq_ok_iff.mp hlines
            cases hlast
            rcases List.mem_cons.mp hmem with rfl | hmem
            · exact ⟨List.mem_of_getElem? htype, node, List.mem_cons_self, hname, rfl⟩
            · obtain ⟨htype', other, hother, hline⟩ := ih hmore hmem
              exact ⟨htype', other, List.mem_cons_of_mem node hother, hline⟩

/-- A node of this name and type can be shown by `ls` and `ls -l`. -/
structure Fits (entry : Entry) : Prop where
  name : entry.name.length ≤ 58
  fileType : entry.fileType < fileTypeNames.length

theorem cmdLs_ok {argc : ℕ} {argv : ℕ → Except Fault (List UInt8)} {listing : Listing}
    (hargv : argc = 2 → ∃ c, argv 1 = .ok c)
    (hfits : ∀ entry ∈ shownFiles listing.nodes, Fits entry) :
    cmdLs argc argv (.list listing) = .ok () := by
  have hnode : ∀ node ∈ listing.nodes, node.name ≠ [] → Fits node.entry := fun node hmem hname =>
    hfits _ (List.mem_filter.mpr ⟨List.mem_map_of_mem hmem, decide_eq_true hname⟩)
  have hnames : ∀ node ∈ listing.nodes, node.name.length ≤ 58 := by
    intro node hmem
    by_cases hname : node.name = []
    · rw [hname]
      exact Nat.zero_le _
    · exact (hnode node hmem hname).name
  unfold cmdLs
  dsimp only
  by_cases hone : argc = 1
  · rw [if_pos hone, forM_ok fun node hmem => kprintf_nameColumn
      (lt_of_le_of_lt (hnames node hmem) (by decide)), ok_bind]
    exact kprintf_fixed (by decide +kernel) (by decide)
  rw [if_neg hone]
  by_cases htwo : argc = 2
  · obtain ⟨c, hc⟩ := hargv htwo
    rw [if_pos htwo, hc, ok_bind]
    by_cases hswitch : c.head? = some 45
    · rw [if_pos hswitch]
      by_cases hlong : (c.drop 1).head? = some 108
      · obtain ⟨lines, hlines⟩ := (lsLong_ok_iff listing.nodes).mpr fun node hmem hname =>
          (hnode node hmem hname).fileType
        rw [if_pos hlong, hlines, ok_bind]
        refine forM_ok fun line hmem => ?_
        obtain ⟨htype, node, hnode, _, hname⟩ := of_mem_lsLong hlines hmem
        exact kprintf_lsRow htype (by rw [hname]; exact hnames node hnode)
      · rw [if_neg hlong]
        exact kprintf_fixed (by decide +kernel) (by decide)
    · rw [if_neg hswitch]
      exact kprintf_fixed (by decide +kernel) (by decide)
  · rw [if_neg htwo]
    exact kprintf_fixed (by decide +kernel) (by decide)

end Shell
end Janus86
