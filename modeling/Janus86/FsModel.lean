import Janus86.PartitionModel
import Janus86.ShellArguments

/-!
# Registered drivers

The definitions follow `fs.c`.  A driver is known by a type byte and by the
addresses of three routines; `fs_root` installs these addresses for the type
byte of a record, and everything later goes through them.  The routines
themselves are those of a driver, which may be a loaded module: what `drv_root`
does is an argument.
-/

namespace Janus86
namespace Fs

open Janus86.Partition
open Shell (strcmp)

/-- Three addresses of routines, 0 for `NULL`. -/
structure Symbols where
  root : ℕ
  chdir : ℕ
  loadfile : ℕ
  deriving DecidableEq

def Symbols.null : Symbols := ⟨0, 0, 0⟩

/-- An `fs_drv_reg`.  The registrations are numbered, so that a node can be told
from one that holds the same. -/
structure Driver where
  serial : ℕ
  fsTypeByte : UInt8
  loadMem : ℕ
  drvName : List UInt8
  symbols : Symbols

/-- The list of drivers, `drv_root`, `drv_chdir` and `drv_loadfile`, `fs_prop`,
and what the drivers keep. -/
structure FsState (κ π : Type) where
  drvList : List Driver
  symbols : Symbols
  fsProp : π
  world : κ
  registered : ℕ

structure RootCall where
  symbol : ℕ
  lba : ℕ
  drive : ℕ
  start : ℕ

abbrev RootRoutine (κ π : Type) := RootCall → κ → Except Fault (π × κ)

def fsDrvNotFound : ℤ := 0

def fsDrvFound : ℤ := 1

def fsModuleRegistered : ℤ := 2

def fsBadModuleFmt : ℤ := -1

def fsModuleRemoved : ℤ := 1

def fsModuleNotFound : ℤ := 0

variable {κ π : Type}

/-! ## The first driver -/

/-- `init_fs_modules`, with the driver that is compiled in; `nothing` is the
`NULL` of `fs_prop`. -/
def initFsModules (ext2 : Symbols) (nothing : π) (world : κ) : FsState κ π where
  drvList := [⟨0, 0x83, 0, ascii "ext2", ext2⟩]
  symbols := Symbols.null
  fsProp := nothing
  world := world
  registered := 1

/-! ## Mounting -/

/-- The first loop of `fs_root`: it ends at the node with the number, or at the
empty node behind the records. -/
def partitionNode (p : PartState) (n : ℤ) : Buffer :=
  (p.records.find? fun node => toInt32 (le32 node nameOffset) == n).getD
    p.partTemp

def driverFor (drvList : List Driver) (type : UInt8) : Option Driver :=
  drvList.find? fun d => d.fsTypeByte == type

/-- The body of its `if`. -/
def callRoot (root : RootRoutine κ π) (d : Driver) (lba : ℕ) (s : FsState κ π) :
    Except Fault (ℤ × FsState κ π) := do
  let (listing, world) ← root ⟨d.symbols.root, lba, 0, 2⟩ s.world
  pure (fsDrvFound,
    { s with symbols := d.symbols, fsProp := listing, world := world })

def fsRoot (root : RootRoutine κ π) (p : PartState) (n : ℤ) (s : FsState κ π) :
    Except Fault (ℤ × FsState κ π) :=
  let node := partitionNode p n
  match driverFor s.drvList (node typeByteOffset) with
  | none => .ok (fsDrvNotFound, s)
  | some d => callRoot root d (le32 node stLbaOffset) s

/-! ## Modules -/

def modSignature : ℕ := 0xEF86

def symVal (mem : Buffer) (symTabAddr i : ℕ) : ℕ :=
  le32 mem (symTabAddr + i * 16 + 12)

/-- `register_module`.  Only one byte behind `mod_name` belongs to the copy of
the header, so that `strcpy` has to find the end of the name before. -/
def registerModule (mem : Buffer) (loadAddr : ℕ) (s : FsState κ π) :
    Except Fault (ℤ × FsState κ π) :=
  if le16 mem loadAddr = modSignature then
    let symTabAddr := le32 mem (loadAddr + 12)
    let modName := (List.range 11).map fun j => mem (loadAddr + 17 + j)
    if 0 ∈ modName then
      let newMod : Driver :=
        { serial := s.registered
          fsTypeByte := mem (loadAddr + 16)
          loadMem := le32 mem (loadAddr + 4)
          drvName := cString modName
          symbols := ⟨symVal mem symTabAddr 0, symVal mem symTabAddr 1,
            symVal mem symTabAddr 2⟩ }
      .ok (fsModuleRegistered,
        { s with
          drvList := s.drvList ++ [newMod]
          registered := s.registered + 1 })
    else .error .outOfBounds
  else .ok (fsBadModuleFmt, s)

/-- What the loop of `unregister_module` finds: `prev_drv`, `tmp`, and the list
behind the first node without `tmp`. -/
structure Unlinked where
  prevDrv : Driver
  tmp : Driver
  rest : List Driver

/-- The loop from behind `prev_drv` on. -/
def unlink (drvName : List UInt8) (prevDrv : Driver) :
    List Driver → Option Unlinked
  | [] => none
  | tmp :: rest =>
      if strcmp tmp.drvName drvName = 0 then some ⟨prevDrv, tmp, rest⟩
      else (unlink drvName tmp rest).map fun u => { u with rest := tmp :: u.rest }

def unregisterModule (drvName : List UInt8) (s : FsState κ π) :
    Except Fault (ℤ × FsState κ π) :=
  match s.drvList with
  | [] => .error .nullPointer
  | head :: rest =>
      if strcmp head.drvName drvName = 0 then
        .ok (fsModuleRemoved, { s with drvList := rest })
      else
        match unlink drvName head rest with
        | none => .ok (fsModuleNotFound, s)
        | some u =>
            .ok (fsModuleRemoved,
              { s with drvList := head :: u.rest, symbols := u.prevDrv.symbols })

end Fs
end Janus86
