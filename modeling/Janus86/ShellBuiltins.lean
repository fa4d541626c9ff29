import Janus86.FsDrives
import Janus86.SessionDirectory
import Janus86.ShellSession
import Janus86.ShellStrcat

/-!
# The commands at the arrays

The commands of `shell_builtin.c` as `shell_exec` calls them: they take their arguments
from the arrays of `shell_gen_args`, and `load` and `dump` join two of them there.  They
work on the mounted partition, on the list of drivers and on the memory that files and
sectors are loaded into.  A store into what the kernel or a module uses is a fault.
`reboot` and `pto_rmode` do not come back; what becomes of the machine then is a parameter.

Texts that are the same in every call, single characters and the rows of `ppart` and `dump`
always fit into the buffer of `kprintf` and are left out.
-/

namespace Janus86
namespace Shell

open StepMachine ZeroTerminated Janus86.Partition ChunkStores
open Fs (Machine Kernel)

/-- `inUse` says where the kernel, its stack and heap, the screen and the modules are, and
what is not mapped. -/
structure World where
  machine : Machine
  mem : Buffer
  inUse : ℕ → Bool

/-- The memory at the addresses of 32 bits. -/
def World.bytes (w : World) : Buffer := fun a => w.mem (a % 2 ^ 32)

/-- What a store to an address in use changes is not known. -/
def World.store (w : World) (stores : List Store) : Except Fault World :=
  if (wrapped stores).any fun s => w.inUse s.1 then .error .outOfBounds
  else .ok { w with mem := applyStores w.mem (wrapped stores) }

theorem World.store_ok {w : World} {stores : List Store}
    (hclear : ∀ s ∈ wrapped stores, w.inUse s.1 = false) :
    w.store stores = .ok { w with mem := applyStores w.mem (wrapped stores) } := by
  refine if_neg ?_
  rw [List.any_eq_true]
  rintro ⟨s, hs, huse⟩
  rw [hclear s hs] at huse
  cases huse

/-- `moduleArea` says what a module uses that is registered from an address on. -/
structure Surroundings where
  kernel : Kernel
  partitions : PartState
  scratch : LoadScratch
  atoi : List UInt8 → ℕ
  moduleArea : ℕ → ℕ → Bool
  leave : World → Except Fault World
  loadfile_ne : ∀ kind, (kernel.symbols kind).loadfile ≠ 0

namespace Surroundings

variable (e : Surroundings)

/-! ## shell_builtin.c, given the strings -/

/-- `fs_loadfile`, and what it stores. -/
def fsLoadfile (name : List UInt8) (loadMem : ℕ) (w : World) :
    Except Fault (ℕ × World) := do
  let load ← Fs.fileStored e.kernel e.scratch name loadMem w.machine
  let (reply, m) ← Fs.fsLoadfile e.kernel e.scratch name loadMem w.machine
  let w ← w.store (chunkStores (e.kernel.unit w.machine) load.reply load.chunks)
  pure (reply, { w with machine := m })

/-- A file that is found, and stored where nothing is in use. -/
theorem fsLoadfile_ok {name : List UInt8} {loadMem : ℕ} {w : World} {load : Load}
    {m : Machine}
    (hstored : Fs.fileStored e.kernel e.scratch name loadMem w.machine = .ok load)
    (hfs : Fs.fsLoadfile e.kernel e.scratch name loadMem w.machine = .ok (load.reply, m))
    (hclear : ∀ s ∈ wrapped (chunkStores (e.kernel.unit w.machine) load.reply load.chunks),
      w.inUse s.1 = false) :
    e.fsLoadfile name loadMem w = .ok (load.reply, { w with
      machine := m
      mem := applyStores w.mem
        (wrapped (chunkStores (e.kernel.unit w.machine) load.reply load.chunks)) }) := by
  rw [fsLoadfile, hstored, ok_bind, hfs, ok_bind]
  dsimp only
  rw [World.store_ok hclear, ok_bind]
  rfl

/-- `read_disk_sector` of one sector into the memory; a sector that cannot be read leaves
it. -/
def readSectorInto (loadMem lba : ℕ) (w : World) : Except Fault World :=
  match readDiskSector e.kernel.disk (fun _ => 0) w.machine.world.ext2.place.drive lba 1 with
  | none => .ok w
  | some buf => w.store (chunkStores 512 loadMem [buf])

def cmdCd (path : List UInt8) (w : World) : Except Fault World := do
  let m ← Fs.cmdCd e.kernel 2 (fun _ => path) w.machine
  pure { w with machine := m }

def cmdRoot (argc : ℕ) (c : List UInt8) (w : World) : Except Fault World := do
  let m ← Fs.cmdRoot e.kernel e.atoi e.partitions argc (fun _ => c) w.machine
  pure { w with machine := m }

def cmdMore (name : List UInt8) (w : World) : Except Fault World := do
  let (reply, w) ← e.fsLoadfile name 0 w
  if shellPanic reply then pure w
  else do
    let (_, m) ← Fs.fsChdir e.kernel [46] w.machine
    pure { w with machine := m }

/-- The first branch of `cmd_load`: the boot sector of a partition. -/
def loadBootSector (n : ℕ) (w : World) : Except Fault World :=
  match e.partitions.records.find? fun node => le32 node nameOffset == n with
  | none => .ok w
  | some node => e.readSectorInto 0x7C00 (le32 node stLbaOffset) w

/-- The branch `-s`. -/
def loadSector (n loadMem : ℕ) (w : World) : Except Fault World := do
  let w ← e.readSectorInto loadMem n w
  if n = 0 then e.leave w else pure w

/-- The branch `-f`. -/
def loadFile (name : List UInt8) (loadMem : ℕ) (w : World) : Except Fault World := do
  let (_, w) ← e.fsLoadfile name loadMem w
  pure w

/-- What `fs_loadfile` returns is taken for an address, also if it is a code. -/
def cmdLdmod (name d : List UInt8) (w : World) : Except Fault World := do
  let (loadMem, w) ← e.fsLoadfile name (e.atoi d) w
  let (code, m) ← Fs.registerModule w.bytes loadMem w.machine
  let inUse := if code = Fs.fsModuleRegistered then
    fun a => w.inUse a || e.moduleArea loadMem a else w.inUse
  pure { w with machine := m, inUse := inUse }

def cmdRmdrv (name : List UInt8) (w : World) : Except Fault World := do
  let (code, m) ← Fs.unregisterModule name w.machine
  if code = Fs.fsModuleNotFound then kprintf (moduleNotFound name)
  pure { w with machine := m }

/-- `root p` with a number calls `fs_root`. -/
theorem cmdRoot_partition {digits : List UInt8} (hzero : 0 ∉ digits) (w : World) :
    e.cmdRoot 2 (112 :: digits) w =
      (Fs.fsRoot e.kernel.rootRoutine e.partitions (toInt32 (e.atoi digits))
        w.machine).map fun r => { w with machine := r.2 } := by
  have hself : cString (112 :: digits) = 112 :: digits :=
    (cString_eq_self_iff _).mpr fun c hc h => by
      rcases List.mem_cons.mp hc with rfl | hc
      · cases h
      · exact hzero (h ▸ hc)
  rw [cmdRoot, Fs.cmdRoot, hself, if_pos ⟨rfl, le_rfl⟩, List.drop_one, List.tail_cons]
  cases Fs.fsRoot e.kernel.rootRoutine e.partitions (toInt32 (e.atoi digits)) w.machine <;>
    rfl

end Surroundings

/-! ## At the arrays -/

/-- `strcat(argv[1], argv[2])`. -/
def joinArgs (a : ArgArrays) : Except Fault ArgArrays :=
  match a.argtable 1, a.argtable 2 with
  | some s1, some s2 => do
      let sc ← strcat (cmdLen + 1) a.sc s1 s2
      pure { a with sc := sc }
  | _, _ => .error .nullPointer

/-- The words of a line as the arguments. -/
def wordAt (ws : List (List UInt8)) (i : ℕ) : Except Fault (List UInt8) := .ok (ws.getD i [])

namespace Surroundings

variable (e : Surroundings)

def cmdLoad (a : ArgArrays) (w : World) : Except Fault (ArgArrays × World) := do
  let c ← argString a 1
  if c.head? = some 112 then do
    let w ← e.loadBootSector (e.atoi (c.drop 1)) w
    pure (a, w)
  else if c.head? = some 45 then do
    let a ← joinArgs a
    let c ← argString a 1
    let c := c.drop 1
    if c.head? = some 115 then do
      let d ← argString a 3
      let w ← e.loadSector (e.atoi (c.drop 1)) (e.atoi d) w
      pure (a, w)
    else if c.head? = some 102 then do
      let d ← argString a 3
      let w ← e.loadFile (c.drop 1) (e.atoi d) w
      pure (a, w)
    else pure (a, w)
  else pure (a, w)

def builtins : Commands World
  | .cd, argc, a, w =>
      if argc = 2 then do
        let path ← argString a 1
        let w ← e.cmdCd path w
        pure (a, w)
      else .ok (a, w)
  | .root, argc, a, w => do
      let c ← argString a 1
      let w ← e.cmdRoot argc c w
      pure (a, w)
  | .more, _, a, w => do
      let name ← argString a 1
      let w ← e.cmdMore name w
      pure (a, w)
  | .load, _, a, w => e.cmdLoad a w
  | .ldmod, _, a, w => do
      let d ← argString a 2
      let name ← argString a 1
      let w ← e.cmdLdmod name d w
      pure (a, w)
  | .rmdrv, argc, a, w =>
      if argc = 2 then do
        let name ← argString a 1
        let w ← cmdRmdrv name w
        pure (a, w)
      else .ok (a, w)
  | .dump, _, a, w => do
      let a ← joinArgs a
      pure (a, w)
  | .reboot, _, a, w | .chload, _, a, w => do
      let w ← e.leave w
      pure (a, w)
  | .help, argc, a, w => do
      cmdHelp argc (argString a)
      pure (a, w)
  | .ls, argc, a, w => do
      cmdLs argc (argString a) w.machine.fsProp
      pure (a, w)
  | .lsdrv, _, a, w => do
      listDrivers w.machine.drvList
      pure (a, w)
  | .clear, _, a, w | .ppart, _, a, w => .ok (a, w)

/-! ## What the commands mean -/

/-- `load` with its words: nothing of them is joined. -/
def load (first second d : List UInt8) (w : World) : Except Fault World :=
  if first.head? = some 112 then e.loadBootSector (e.atoi (first.drop 1)) w
  else if first.head? = some 45 then
    let c := (first ++ second).drop 1
    if c.head? = some 115 then e.loadSector (e.atoi (c.drop 1)) (e.atoi d) w
    else if c.head? = some 102 then e.loadFile (c.drop 1) (e.atoi d) w
    else .ok w
  else .ok w

def meaning : Meaning World
  | .cd, ws, w => if ws.length = 2 then e.cmdCd (ws.getD 1 []) w else .ok w
  | .root, ws, w => e.cmdRoot ws.length (ws.getD 1 []) w
  | .more, ws, w => e.cmdMore (ws.getD 1 []) w
  | .load, ws, w => e.load (ws.getD 1 []) (ws.getD 2 []) (ws.getD 3 []) w
  | .ldmod, ws, w => e.cmdLdmod (ws.getD 1 []) (ws.getD 2 []) w
  | .rmdrv, ws, w => if ws.length = 2 then cmdRmdrv (ws.getD 1 []) w else .ok w
  | .help, ws, w => do
      cmdHelp ws.length (wordAt ws)
      pure w
  | .ls, ws, w => do
      cmdLs ws.length (wordAt ws) w.machine.fsProp
      pure w
  | .lsdrv, _, w => do
      listDrivers w.machine.drvList
      pure w
  | .reboot, _, w | .chload, _, w => e.leave w
  | .clear, _, w | .ppart, _, w | .dump, _, w => .ok w

end Surroundings

/-! ## The arguments in the arrays -/

section Arguments

variable {a : ArgArrays} {ws : List (List UInt8)}

theorem WordsIn.arg (hwords : WordsIn a ws) {i : ℕ} (hi : i < ws.length) :
    argString a i = .ok (ws.getD i []) := by
  apply hwords.argsAre.string
  rw [List.getD_eq_getElem?_getD, List.getElem?_eq_getElem hi, Option.getD_some]

/-- Joining two words in place leaves the words behind them. -/
theorem WordsIn.join (hwords : WordsIn a ws) (hthree : 3 ≤ ws.length) :
    ∃ a', joinArgs a = .ok a' ∧ argString a' 1 = .ok (ws.getD 1 [] ++ ws.getD 2 []) ∧
      ∀ k, 3 ≤ k → k < ws.length → argString a' k = .ok (ws.getD k []) := by
  obtain ⟨⟨strings, hcut, rfl⟩, _⟩ := hwords
  rw [List.length_map] at hthree
  have hword : ∀ {k p}, strings[k]? = some p → (strings.map Prod.snd).getD k [] = p.2 := by
    intro k p hp
    rw [List.getD_eq_getElem?_getD, List.getElem?_map, hp]
    rfl
  obtain ⟨p, hp⟩ : ∃ p, strings[1]? = some p := ⟨_, List.getElem?_eq_getElem (by omega)⟩
  obtain ⟨q, hq⟩ : ∃ q, strings[2]? = some q := ⟨_, List.getElem?_eq_getElem (by omega)⟩
  obtain ⟨sc', hstrcat, hjoined, hothers⟩ := cutInto_strcat hcut hp hq
  have hapart := hcut.apart (by decide) hp hq
  have hinside := hcut.inside q (List.mem_of_getElem? hq)
  refine ⟨{ a with sc := sc' }, ?_, ?_, ?_⟩
  · simp only [joinArgs, hcut.pointers 1 p hp, hcut.pointers 2 q hq, hstrcat, ok_bind]
    rfl
  · rw [hword hp, hword hq, argString]
    simp only [hcut.pointers 1 p hp]
    refine readString_ok hjoined ?_
    rw [List.length_append]
    omega
  · intro k hk hlt
    rw [List.length_map] at hlt
    obtain ⟨r, hr⟩ : ∃ r, strings[k]? = some r := ⟨_, List.getElem?_eq_getElem hlt⟩
    have hrInside := hcut.inside r (List.mem_of_getElem? hr)
    rw [hword hr, argString]
    simp only [hcut.pointers k r hr]
    exact readString_ok (hothers k r hr (by omega) (by omega)) (by omega)

end Arguments

/-! ## The commands do what they mean -/

section Follows

variable (e : Surroundings) {a : ArgArrays} {ws : List (List UInt8)}

theorem map_snd_pure (a : ArgArrays) (x : Except Fault World) :
    (do
      let w ← x
      pure (a, w) : Except Fault (ArgArrays × World)).map Prod.snd = x := by
  cases x <;> rfl

theorem map_snd_print (a : ArgArrays) (w : World) (x : Except Fault Unit) :
    (do
      x
      pure (a, w) : Except Fault (ArgArrays × World)).map Prod.snd =
      (do
        x
        pure w) := by
  cases x <;> rfl

theorem Surroundings.cmdLoad_follows (hwords : WordsIn a ws)
    (henough : (invocationOf ws).Enough .load) (w : World) :
    (e.cmdLoad a w).map Prod.snd =
      e.load (ws.getD 1 []) (ws.getD 2 []) (ws.getD 3 []) w := by
  obtain ⟨htwo, hmore⟩ : 2 ≤ ws.length ∧ ((ws.getD 1 []).head? = some 45 →
      3 ≤ ws.length ∧ (((ws.getD 1 []) ++ (ws.getD 2 [])).tail.head? ∈
        [some 115, some 102] → 4 ≤ ws.length)) := henough
  rw [Surroundings.cmdLoad, Surroundings.load, hwords.arg (by omega), ok_bind]
  by_cases hp : (ws.getD 1 []).head? = some 112
  · rw [if_pos hp, if_pos hp]
    exact map_snd_pure a _
  by_cases hswitch : (ws.getD 1 []).head? = some 45
  · obtain ⟨hthree, hfour⟩ := hmore hswitch
    obtain ⟨a', hjoin, hjoined, hothers⟩ := hwords.join hthree
    rw [if_neg hp, if_neg hp, if_pos hswitch, if_pos hswitch, hjoin, ok_bind, hjoined,
      ok_bind]
    simp only [List.drop_one]
    by_cases hs : (ws.getD 1 [] ++ ws.getD 2 []).tail.head? = some 115
    · have hd := hfour (hs ▸ List.mem_cons_self)
      rw [if_pos hs, if_pos hs, hothers 3 le_rfl hd, ok_bind]
      exact map_snd_pure a' _
    · by_cases hf : (ws.getD 1 [] ++ ws.getD 2 []).tail.head? = some 102
      · have hd := hfour (hf ▸ List.mem_cons_of_mem _ List.mem_cons_self)
        rw [if_neg hs, if_neg hs, if_pos hf, if_pos hf, hothers 3 le_rfl hd, ok_bind]
        exact map_snd_pure a' _
      · rw [if_neg hs, if_neg hs, if_neg hf, if_neg hf]
        rfl
  · rw [if_neg hp, if_neg hp, if_neg hswitch, if_neg hswitch]
    rfl

/-- With enough arguments every command finds its words in the arrays, and what it stores
there does it no harm. -/
theorem Surroundings.builtins_follow : Follows e.builtins e.meaning := by
  intro cmd ws a hwords henough w
  cases cmd with
  | clear | ppart => rfl
  | lsdrv => exact map_snd_print a w _
  | help =>
      have hsame : ∀ i < ws.length, argString a i = wordAt ws i := fun i hi => hwords.arg hi
      simp only [builtins, meaning, cmdHelp_congr hsame]
      exact map_snd_print a w _
  | ls =>
      have hsame : ∀ i < ws.length, argString a i = wordAt ws i := fun i hi => hwords.arg hi
      simp only [builtins, meaning, cmdLs_congr hsame]
      exact map_snd_print a w _
  | reboot | chload => exact map_snd_pure a (e.leave w)
  | cd =>
      simp only [builtins, meaning]
      by_cases htwo : ws.length = 2
      · rw [if_pos htwo, if_pos htwo, hwords.arg (by omega), ok_bind]
        exact map_snd_pure a _
      · rw [if_neg htwo, if_neg htwo]
        rfl
  | rmdrv =>
      simp only [builtins, meaning]
      by_cases htwo : ws.length = 2
      · rw [if_pos htwo, if_pos htwo, hwords.arg (by omega), ok_bind]
        exact map_snd_pure a _
      · rw [if_neg htwo, if_neg htwo]
        rfl
  | more =>
      have htwo : 2 ≤ ws.length := henough
      simp only [builtins, meaning]
      rw [hwords.arg (by omega), ok_bind]
      exact map_snd_pure a _
  | root =>
      have htwo : 2 ≤ ws.length := henough
      simp only [builtins, meaning]
      rw [hwords.arg (by omega), ok_bind]
      exact map_snd_pure a _
  | ldmod =>
      have hthree : 3 ≤ ws.length := henough
      simp only [builtins, meaning]
      rw [hwords.arg (by omega), ok_bind, hwords.arg (by omega), ok_bind]
      exact map_snd_pure a _
  | dump =>
      have hthree : 3 ≤ ws.length := henough
      obtain ⟨a', hjoin, _⟩ := hwords.join hthree
      simp only [builtins, meaning]
      rw [hjoin, ok_bind]
      rfl
  | load => exact e.cmdLoad_follows hwords henough w

end Follows

/-- The kernel with its stack, the screen, the heap, the page tables and what they do not
map. -/
def kernelInUse : ℕ → Bool := fun a =>
  a < 0x20000 || (0x80000 ≤ a && a < 0x2000000) || 0x4000000 ≤ a

/-- The tree of the drivers' examples, and numbers that are all 1. -/
def treeSurroundings : Surroundings where
  kernel := Fs.treeKernel
  partitions := Fs.treePartition
  scratch := ⟨Fs.idleExt2.locals 0, 0, fun _ => 0, 0⟩
  atoi := Fs.one
  moduleArea := fun loadMem a => loadMem ≤ a && a < loadMem + 0x10000
  leave := .ok
  loadfile_ne := by
    intro kind
    cases kind <;> decide

end Shell
end Janus86
