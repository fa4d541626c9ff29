import Janus86.DirectoryWalk
import Janus86.ShellExec
import Janus86.ShellLine

/-!
# The arrays that a line is copied into

A line is copied into `sc` of `shell_gen_args`, and an argument of `cd` from there
into `sc` of the driver's `chdir`.  Both copies come before anything is checked:
what bounds them is the length of the line and the length of the argument, and
neither bounds the other one enough.
-/

namespace Janus86
namespace Shell

open ZeroTerminated

/-- `ccp` over one component, with so many bytes of `sc` left. -/
def scanComponent (sc : Buffer) : ℕ → ℕ → Except Fault ℕ
  | 0, _ => .error .outOfBounds
  | left + 1, ccp =>
      if sc ccp = 0 then .ok ccp
      else if sc ccp = 47 then .ok ccp
      else scanComponent sc left (ccp + 1)

/-- The loop at the beginning of `chdir_fat32` and `ext2_chdir`. -/
def pathCutter : Cutter :=
  ⟨pathLen, directoryNum, scanComponent, fun c => c == 47 || c == 10⟩

/-- The static arrays of `shell_gen_args` and of the two drivers. -/
structure LineBuffers where
  shell : ArgArrays
  driver : FsKind → ArgArrays

/-- What a command finds: the driver behind `drv_chdir`, whether `shell_panic`
reports what the driver replies, and the driver that `fs_root` calls. -/
structure DriverReplies where
  mounted : Option FsKind
  panics : Bool
  rooted : Option FsKind

namespace LineBuffers

/-- The copies of a call of `chdir`, if there is one. -/
def chdir (b : LineBuffers) (kind : Option FsKind) (path : List UInt8) :
    Except Fault LineBuffers :=
  match kind with
  | none => .ok b
  | some kind => do
      let (_, a) ← pathCutter.cut (b.driver kind) path
      pure { b with driver := Function.update b.driver kind a }

/-- `cmd_cd`, which goes to `.` when the path was refused. -/
def cmdCd (b : LineBuffers) (w : DriverReplies) (argc : ℕ) : Except Fault LineBuffers :=
  if argc = 2 then do
    let path ← argString b.shell 1
    let b ← b.chdir w.mounted path
    if w.panics then b.chdir w.mounted [46] else pure b
  else .ok b

/-- The commands that call a driver's `chdir`: `more` lists the directory again, and
`root` goes to `/`. -/
def runBuiltin (b : LineBuffers) (w : DriverReplies) (argc : ℕ) :
    Builtin → Except Fault LineBuffers
  | .cd => b.cmdCd w argc
  | .more => if w.panics then .ok b else b.chdir w.mounted [46]
  | .root => b.chdir w.rooted [47]
  | _ => .ok b

/-- A line that `getline` has returned. -/
def runLine (b : LineBuffers) (w : DriverReplies) (input : List UInt8) :
    Except Fault LineBuffers := do
  let (argc, shell) ← shellParse b.shell input
  let b := { b with shell := shell }
  match argc with
  | none => pure b
  | some argc => do
      let name ← argString shell 0
      match findBuiltin name with
      | none => pure b
      | some cmd => b.runBuiltin w argc cmd

end LineBuffers

/-! ## The components of a path -/

theorem scanComponent_ok {sc : Buffer} {o : ℕ} {text : List UInt8}
    (htext : StringAt sc o text) {left : ℕ} (hleft : text.length < left) :
    scanComponent sc left o = .ok (o + (text.takeWhile (· != 47)).length) := by
  induction text generalizing o left with
  | nil =>
      obtain ⟨left, rfl⟩ := Nat.exists_eq_add_of_lt hleft
      rw [scanComponent, if_pos (stringAt_nil_iff.mp htext)]
      rfl
  | cons c text ih =>
      rw [List.length_cons] at hleft
      obtain ⟨left, rfl⟩ : ∃ n, left = n + 1 := ⟨left - 1, by omega⟩
      obtain ⟨hc, hhere, hrest⟩ := stringAt_cons_iff.mp htext
      rw [scanComponent, hhere, if_neg hc]
      by_cases hslash : c = 47
      · rw [if_pos hslash, List.takeWhile_cons_of_neg (by simp [hslash])]
        rfl
      · rw [if_neg hslash, ih hrest (by omega),
          List.takeWhile_cons_of_pos (by simpa using hslash), List.length_cons]
        congr 1
        omega

/-- What stands in front of the first slash, and from there on. -/
def takeComponent (path : List UInt8) : List UInt8 × List UInt8 :=
  (path.takeWhile (· != 47), path.dropWhile (· != 47))

theorem pathCutter_reads : pathCutter.Reads takeComponent fun _ => True where
  scan_eq _ htext hleft := scanComponent_ok htext hleft
  append _ := List.takeWhile_append_dropWhile
  behind path c hc := by
    have hhead := List.head?_dropWhile_not (· != 47) path
    rw [show (path.dropWhile (· != 47)).head? = some c from hc] at hhead
    have hslash : c = 47 := by simpa using hhead
    rw [hslash]
    rfl
  shortens {path} _ hne := by
    obtain ⟨c, path, rfl⟩ := List.exists_cons_of_ne_nil hne
    unfold takeComponent
    dsimp only
    by_cases hslash : c = 47
    · have hblank : pathCutter.blank c = true := by
        rw [hslash]
        rfl
      rw [List.dropWhile_cons_of_neg (by simp [hslash]), List.dropWhile_cons_of_pos hblank]
      exact Nat.lt_succ_of_le (List.length_dropWhile_le _ path)
    · rw [List.dropWhile_cons_of_pos (by simpa using hslash)]
      have hrest := List.length_dropWhile_le (· != 47) path
      have hskip := List.length_dropWhile_le pathCutter.blank (path.dropWhile (· != 47))
      exact Nat.lt_succ_of_le (hskip.trans hrest)
  good_behind _ := trivial
  blank_zero := rfl

/-- The components that a driver walks along are the pieces in its `sc`. -/
theorem pieces_eq_splitPath (n : ℕ) (path : List UInt8) :
    pieces takeComponent pathCutter.blank n path = splitPath n path := by
  induction n generalizing path with
  | zero => cases path <;> rfl
  | succ n ih =>
      cases path with
      | nil => rfl
      | cons c path =>
          rw [pieces, splitPath, ih]
          · rfl
          · exact List.cons_ne_nil c path

/-- A path that fits is cut into the components that the driver walks along. -/
theorem pathCutter_cut (a : ArgArrays) (path : List UInt8) :
    if (cString path).length ≤ pathLen then
      ∃ r, pathCutter.cut a path = .ok r ∧
        CutResult pathCutter [] (splitPath directoryNum (cString path)) r
    else pathCutter.cut a path = .error .outOfBounds := by
  rw [← pieces_eq_splitPath]
  exact pathCutter_reads.cut a trivial

theorem chdir_of_le (b : LineBuffers) (kind : Option FsKind) {path : List UInt8}
    (hfit : (cString path).length ≤ pathLen) : ∃ b', b.chdir kind path = .ok b' := by
  cases kind with
  | none => exact ⟨b, rfl⟩
  | some kind =>
      have hcut := pathCutter_cut (b.driver kind) path
      rw [if_pos hfit] at hcut
      obtain ⟨r, hcut, _⟩ := hcut
      unfold LineBuffers.chdir
      dsimp only
      rw [hcut]
      exact ⟨_, rfl⟩

theorem chdir_of_lt (b : LineBuffers) (kind : FsKind) {path : List UInt8}
    (hlong : pathLen < (cString path).length) :
    b.chdir (some kind) path = .error .outOfBounds := by
  have hcut := pathCutter_cut (b.driver kind) path
  rw [if_neg (Nat.not_le.mpr hlong)] at hcut
  unfold LineBuffers.chdir
  dsimp only
  rw [hcut]
  rfl

/-! ## A line -/

section Line

variable (b : LineBuffers) (w : DriverReplies)

/-- `cd` copies its argument when it has one and a driver is mounted. -/
theorem cmdCd_ok_iff {args : List (List UInt8)} (hargs : ArgsAre b.shell args) :
    (∃ b', b.cmdCd w args.length = .ok b') ↔
      ∀ name path, args = [name, path] → w.mounted.isSome → path.length ≤ pathLen := by
  unfold LineBuffers.cmdCd
  by_cases htwo : args.length = 2
  · obtain ⟨name, path, rfl⟩ := List.length_eq_two.mp htwo
    have hself : cString path = path := (cString_eq_self_iff path).mpr fun c hc h =>
      hargs.zero_free path (by simp) (h ▸ hc)
    rw [if_pos htwo, hargs.string (i := 1) rfl, ok_bind]
    constructor
    · rintro ⟨b', hrun⟩ _ _ hsame hmounted
      cases hsame
      obtain ⟨kind, hkind⟩ := Option.isSome_iff_exists.mp hmounted
      by_contra hlong
      rw [hkind, chdir_of_lt b kind (by rw [hself]; omega)] at hrun
      cases hrun
    · intro hfit
      have hok : ∃ b', b.chdir w.mounted path = .ok b' := by
        cases hmounted : w.mounted with
        | none => exact ⟨b, rfl⟩
        | some kind =>
            refine chdir_of_le b (some kind) ?_
            rw [hself]
            exact hfit name path rfl (by rw [hmounted]; rfl)
      obtain ⟨b', hb'⟩ := hok
      rw [hb', ok_bind]
      split
      · exact chdir_of_le b' w.mounted (by decide)
      · exact ⟨b', rfl⟩
  · rw [if_neg htwo]
    refine ⟨fun _ name path hsame => ?_, fun _ => ⟨b, rfl⟩⟩
    rw [hsame] at htwo
    exact absurd rfl htwo

theorem runBuiltin_ok_iff {args : List (List UInt8)} (hargs : ArgsAre b.shell args)
    (cmd : Builtin) :
    (∃ b', b.runBuiltin w args.length cmd = .ok b') ↔
      (cmd = .cd → ∀ name path, args = [name, path] → w.mounted.isSome →
        path.length ≤ pathLen) := by
  by_cases hcd : cmd = .cd
  · subst hcd
    exact (cmdCd_ok_iff b w hargs).trans ⟨fun h _ => h, fun h => h rfl⟩
  · refine ⟨fun _ h => absurd h hcd, fun _ => ?_⟩
    cases cmd with
    | cd => exact absurd rfl hcd
    | more =>
        unfold LineBuffers.runBuiltin
        dsimp only
        split
        · exact ⟨b, rfl⟩
        · exact chdir_of_le b w.mounted (by decide)
    | root => exact chdir_of_le b w.rooted (by decide)
    | _ => exact ⟨b, rfl⟩

/-- The name of `cd`. -/
def cdName : List UInt8 := [99, 100]

theorem findBuiltin_cd_iff {name : List UInt8} (hzero : 0 ∉ name) :
    findBuiltin name = some .cd ↔ name = cdName := by
  rw [findBuiltin_eq_some_iff hzero]
  simp [cmdtab, cdName]

/-- All the copies stay in their arrays when the line fits into `sc` of the shell
and, if it is a `cd` to a path on a mounted partition, the path into that of the
driver. -/
theorem runLine_inside_iff (input : List UInt8) :
    (∃ b', b.runLine w input = .ok b') ↔
      (commandLine input).length ≤ cmdLen ∧
        ∀ path, tokens (commandLine input) = [cdName, path] → w.mounted.isSome →
          path.length ≤ pathLen := by
  unfold LineBuffers.runLine
  by_cases hblank : commandLine input = []
  · rw [shellParse_blank b.shell hblank, hblank]
    exact ⟨fun _ => ⟨Nat.zero_le _, fun path h => absurd h (by simp [tokens, tokensFrom_nil])⟩,
      fun _ => ⟨_, rfl⟩⟩
  by_cases hlong : cmdLen < (commandLine input).length
  · rw [shellParse_long b.shell hlong]
    refine ⟨fun h => ?_, fun h => absurd h.1 (Nat.not_le.mpr hlong)⟩
    obtain ⟨b', hb'⟩ := h
    cases hb'
  obtain ⟨shell, hparse, hargs⟩ := shellParse_args b.shell hblank (Nat.not_lt.mp hlong)
  obtain ⟨name, more, htokens⟩ := List.exists_cons_of_ne_nil
    (tokens_ne_nil hblank (startsVisible_commandLine input))
  have hname : argString shell 0 = .ok name := hargs.string (by rw [htokens]; rfl)
  have hzero : 0 ∉ name := hargs.zero_free name (by simp [htokens])
  rw [hparse, ok_bind]
  dsimp only
  rw [hname, ok_bind]
  have hfits : ∀ P : Prop, ((commandLine input).length ≤ cmdLen ∧ P) ↔ P :=
    fun P => and_iff_right (Nat.not_lt.mp hlong)
  rw [hfits]
  cases hfind : findBuiltin name with
  | none =>
      refine ⟨fun _ path hsame _ => ?_, fun _ => ⟨_, rfl⟩⟩
      rw [htokens] at hsame
      rw [(List.cons.inj hsame).1, (findBuiltin_cd_iff (by decide)).mpr rfl] at hfind
      cases hfind
  | some cmd =>
      dsimp only
      rw [runBuiltin_ok_iff { b with shell := shell } w hargs cmd]
      have hcd : cmd = .cd ↔ name = cdName := by
        rw [← findBuiltin_cd_iff hzero, hfind, Option.some.injEq]
      rw [hcd, htokens]
      constructor
      · intro h path hsame hmounted
        exact h (List.cons.inj hsame).1 name path (by rw [hsame, (List.cons.inj hsame).1])
          hmounted
      · rintro h rfl name path hsame hmounted
        refine h path ?_ hmounted
        rw [hsame, (List.cons.inj hsame).1]

end Line

/-- Arrays that nothing was copied into. -/
def emptyBuffers : LineBuffers := ⟨emptyArrays, fun _ => emptyArrays⟩

theorem editedLine_eq_self {keys : List UInt8} (hplain : Video.backspace ∉ keys) :
    editedLine keys = keys := by
  have hfold : ∀ line : List UInt8, keys.foldl editKey line = line ++ keys := by
    induction keys with
    | nil => exact fun line => (List.append_nil line).symm
    | cons ch keys ih =>
        intro line
        rw [List.mem_cons, not_or] at hplain
        rw [List.foldl_cons, editKey, if_neg (Ne.symm hplain.1), ih hplain.2,
          List.append_assoc, List.singleton_append]
  exact hfold []

/-- A line of 257 characters is typed, and it does not fit. -/
theorem typed_line_overflows :
    ∃ mem c, getline 512 (fun _ => 0) (List.replicate 257 97) = .ok (mem, c) ∧
      StringAt mem c (List.replicate 257 97) ∧
      ∀ w, ¬ ∃ b', emptyBuffers.runLine w (List.replicate 257 97) = .ok b' := by
  have hmem : ∀ c ∈ List.replicate 257 (97 : UInt8), c = 97 :=
    fun c hc => List.eq_of_mem_replicate hc
  have hzero : (0 : UInt8) ∉ List.replicate 257 (97 : UInt8) :=
    fun h => absurd (hmem 0 h) (by decide)
  have hedited : editedLine (List.replicate 257 97) = List.replicate 257 97 :=
    editedLine_eq_self fun h => absurd (hmem _ h) (by decide)
  have hskip : skipBlanks (List.replicate 257 (97 : UInt8)) = List.replicate 257 97 := by
    rw [List.replicate_succ]
    exact skipBlanks_of_visible (by decide) _
  have hline : commandLine (List.replicate 257 97) = List.replicate 257 97 := by
    unfold commandLine
    rw [(cString_eq_self_iff _).mpr fun c hc h => hzero (h ▸ hc), hskip]
  have hreturns : ReturnsEditedLine 512 (fun _ => 0) (List.replicate 257 97) := by
    refine returnsEditedLine_of_visible ?_ ?_ ⟨97, ?_, by decide⟩
    · rw [List.length_replicate]
      omega
    · rwa [hedited]
    · rw [hedited]
      exact List.mem_replicate.mpr ⟨by decide, rfl⟩
  obtain ⟨mem, c, hrun, hstring⟩ := hreturns
  rw [hedited, hskip] at hstring
  refine ⟨mem, c, hrun, hstring, ?_⟩
  rintro w ⟨b', hb'⟩
  unfold LineBuffers.runLine at hb'
  rw [shellParse_long] at hb'
  · cases hb'
  · rw [hline, List.length_replicate]
    decide

end Shell
end Janus86
