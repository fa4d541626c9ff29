import Janus86.DriverCalls
import Janus86.FsModel

/-!
# Commands on the mounted partition

The definitions follow `fs_chdir` and `fs_loadfile` of `fs.c` and the commands
`cd`, `more`, `load` and `root` of `shell_builtin.c`, as far as they touch
`fs_prop` and the drivers.  The vfat driver is a module that is linked on its
own: it has its own `current_lba`, `current_drive` and `kmalloc`.  What a
command finds at `argv[k]` is given for every `k`, also behind the arguments
that were typed.
-/

namespace Janus86
namespace Fs

open Janus86.Partition

/-- Both drivers with their variables. -/
structure Drivers where
  ext2 : Ext2.State
  vfat : Fat32.State

abbrev Machine := FsState Drivers Reply

/-- The disks, and the addresses of the routines of the two drivers. -/
structure Kernel where
  disk : Disk
  ext2 : Symbols
  vfat : Symbols
  root_ne : ext2.root ≠ vfat.root
  ext2_chdir_ne : ext2.chdir ≠ 0
  vfat_chdir_ne : vfat.chdir ≠ 0

/-- The two drivers at some addresses. -/
def kernelOn (disk : Disk) : Kernel where
  disk := disk
  ext2 := ⟨1, 2, 3⟩
  vfat := ⟨4, 5, 6⟩
  root_ne := by decide
  ext2_chdir_ne := by decide
  vfat_chdir_ne := by decide

/-- An ext2 driver that nothing has been asked of. -/
def idleExt2 : Ext2.State :=
  ⟨⟨0, 0, 2⟩, ⟨fun _ => 0, 0, 0, fun _ => 0⟩, [],
    fun _ => ⟨fun _ => 0, fun _ => 0, fun _ => 0, fun _ => 0, fun _ => 0,
      fun _ => 0, fun _ => 0⟩⟩

def Kernel.symbols (k : Kernel) : FsKind → Symbols
  | .ext2 => k.ext2
  | .vfat => k.vfat

/-- The driver whose routines are installed. -/
def Kernel.mounted (k : Kernel) (m : Machine) : Option FsKind :=
  if m.symbols = k.ext2 then some .ext2
  else if m.symbols = k.vfat then some .vfat
  else none

def Drivers.place (drivers : Drivers) : FsKind → Place
  | .ext2 => drivers.ext2.place
  | .vfat => drivers.vfat.place

/-! ## Through the pointers -/

/-- What the routine behind `drv_root` does. -/
def Kernel.rootRoutine (k : Kernel) : RootRoutine Drivers Reply :=
  fun call drivers =>
    if call.symbol = k.ext2.root then do
      let (reply, s) ← Ext2.ext2Root k.disk call.lba call.drive call.start
        drivers.ext2
      pure (reply, { drivers with ext2 := s })
    else if call.symbol = k.vfat.root then do
      let (reply, s) ← Fat32.rootFat32 k.disk call.lba call.drive call.start
        drivers.vfat
      pure (reply, { drivers with vfat := s })
    else .error .outOfBounds

def fsChdir (k : Kernel) (path : List UInt8) (m : Machine) :
    Except Fault (Reply × Machine) :=
  if m.symbols.chdir = 0 then .ok (.code 0, m)
  else
    match k.mounted m with
    | some .ext2 => do
        let (reply, s) ← Ext2.ext2Chdir k.disk path m.world.ext2
        pure (reply, { m with world := { m.world with ext2 := s } })
    | some .vfat => do
        let (reply, s) ← Fat32.chdirFat32 k.disk path m.world.vfat
        pure (reply, { m with world := { m.world with vfat := s } })
    | none => .error .outOfBounds

def fsLoadfile (k : Kernel) (scratch : LoadScratch) (name : List UInt8)
    (loadMem : ℕ) (m : Machine) : Except Fault (ℕ × Machine) :=
  if m.symbols.loadfile = 0 then .ok (0, m)
  else
    match k.mounted m with
    | some .ext2 => do
        let (reply, s) ← Ext2.loadfileCurrent k.disk scratch name loadMem
          m.world.ext2
        pure (reply, { m with world := { m.world with ext2 := s } })
    | some .vfat => do
        let (reply, s) ← Fat32.loadCurrent k.disk scratch name loadMem m.world.vfat
        pure (reply, { m with world := { m.world with vfat := s } })
    | none => .error .outOfBounds

/-! ## The commands -/

def cmdCd (k : Kernel) (argc : ℕ) (argv : ℕ → List UInt8) (m : Machine) :
    Except Fault Machine :=
  if argc = 2 then do
    let (reply, m) ← fsChdir k (argv 1) m
    if reply.panics then do
      let (_, m) ← fsChdir k [46] m
      pure m
    else pure { m with fsProp := reply }
  else .ok m

/-- `cmd_more`, without what it prints. -/
def cmdMore (k : Kernel) (scratch : LoadScratch) (argv : ℕ → List UInt8)
    (m : Machine) : Except Fault Machine := do
  let (reply, m) ← fsLoadfile k scratch (argv 1) 0 m
  if shellPanic reply then pure m
  else do
    let (_, m) ← fsChdir k [46] m
    pure m

/-- `cmd_load`: the branch that loads a file; the others only read sectors. -/
def cmdLoad (k : Kernel) (scratch : LoadScratch) (atoi : List UInt8 → ℕ)
    (argv : ℕ → List UInt8) (m : Machine) : Except Fault Machine :=
  let text := cString (argv 1) ++ cString (argv 2)
  if (cString (argv 1)).head? = some 45 ∧ (text.drop 1).head? = some 102 then do
    let (_, m) ← fsLoadfile k scratch (text.drop 2) (atoi (argv 3)) m
    pure m
  else .ok m

def cmdRoot (k : Kernel) (atoi : List UInt8 → ℕ) (p : PartState) (argc : ℕ)
    (argv : ℕ → List UInt8) (m : Machine) : Except Fault Machine :=
  if (cString (argv 1)).head? = some 112 ∧ argc ≤ 2 then do
    let (_, m) ← fsRoot k.rootRoutine p (toInt32 (atoi ((cString (argv 1)).drop 1)))
      m
    pure m
  else .ok m

end Fs
end Janus86
