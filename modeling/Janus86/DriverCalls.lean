import Janus86.DirectoryWalk
import Janus86.Ext2Model
import Janus86.Fat32Model

/-!
# The calls that the drivers offer

The definitions follow `ext2_root`, `ext2_chdir` and `ext2_loadfile`, and
`root_fat32`, `chdir_fat32` and `load_fat32`.  A directory is changed to while
the path is resolved.  A driver that has come to a component it cannot enter
leaves it at that: the FAT driver returns a code, the ext2 driver prints the
error and returns the list of the directory that it has come to.
-/

namespace Janus86

/-- What `fs_prop` and the other pointers to lists hold: a list, or the bits of
a code (0 for `NULL`). -/
inductive Reply where
  | code (bits : ℕ)
  | list (listing : Listing)

/-- `shell_panic`: the codes that it knows, as the bits of an `int`. -/
def shellPanic (code : ℕ) : Bool :=
  [1, 5, 6, 7, 8, 9, 10, 13, 14, 15, 16].any fun n => code == 2 ^ 32 - n

def Reply.panics : Reply → Bool
  | .code bits => shellPanic bits
  | .list _ => false

/-- What a call of a loader will find: the local arrays, the remains behind
`dind` and `grblock`, and the block that `kmalloc` returns for the file. -/
structure LoadScratch where
  ext2Locals : Ext2.Stack
  stale : ℕ
  dangling : Buffer
  block : ℕ

variable {γ ψ : Type}

/-- `current_lba = lba; current_drive = drive; current_inode = inode`. -/
def DriverState.moved (s : DriverState γ ψ) (lba drive dir : ℕ) :
    DriverState γ ψ :=
  { s with place := ⟨drive, lba, dir⟩ }

def DriverState.volume (disk : Disk) (s : DriverState γ ψ) : Volume :=
  ⟨disk, s.place.drive, s.place.lba⟩

/-- The state behind a call that has used its local arrays. -/
def DriverState.after (s : DriverState γ ψ) (globals : γ)
    (fresh : List FreshBlock) : DriverState γ ψ :=
  { s with globals := globals, fresh := fresh, locals := fun k => s.locals (k + 1) }

namespace Ext2

abbrev State := DriverState Globals Stack

/-- `init_ext2(current_drive, current_lba, current_inode)`. -/
def initCurrent (disk : Disk) (s : State) : Except Fault (Listing × State) := do
  let (g, list, fresh) ← initExt2 (s.volume disk) (s.locals 0) s.place.dir
    s.globals s.fresh
  pure (⟨.ext2, s.place, list, list⟩, s.after g fresh)

def reader (disk : Disk) : Reader Globals Stack where
  kind := .ext2
  read := initCurrent disk
  stays := by
    intro s listing s' hread
    obtain ⟨⟨g, list, fresh⟩, _, hrest⟩ := bind_eq_ok_iff.mp hread
    cases hrest
    exact ⟨rfl, rfl, rfl⟩

def ext2Chdir (disk : Disk) (path : List UInt8) (s : State) :
    Except Fault (Reply × State) :=
  if pathLen < (cString path).length then .error .outOfBounds
  else
    match splitPath directoryNum (cString path) with
    | none => .ok (.code 0, s)
    | some args =>
        match walkPath (reader disk) args s with
        | .error (.fault e) => .error e
        | .error (.notDirectory c) => .ok (.list c.listing, c.state)
        | .error (.missing c) => do
            let (listing, s) ← (reader disk).read c.state
            pure (.list listing, s)
        | .ok c => .ok (.list c.listing, c.state)

def ext2Root (disk : Disk) (lba drive inode : ℕ) (s : State) :
    Except Fault (Reply × State) :=
  ext2Chdir disk [47] (s.moved lba drive inode)

/-- `ext2_loadfile` in the current directory: the reply, and the state that its
call of `init_ext2` leaves. -/
def loadfileCurrent (disk : Disk) (scratch : LoadScratch) (name : List UInt8)
    (loadMem : ℕ) (s : State) : Except Fault (ℕ × State) := do
  let load ← ext2Loadfile (s.volume disk) (s.locals 0) scratch.ext2Locals
    scratch.stale scratch.dangling s.place.dir s.globals s.fresh (cString name)
    loadMem scratch.block
  let (_, s) ← (reader disk).read s
  pure (load.reply, s)

end Ext2

namespace Fat32

abbrev State := DriverState Globals Stack

/-- `init_fat32(current_drive, current_lba, current_cluster)`. -/
def initCurrent (disk : Disk) (s : State) : Except Fault (Listing × State) := do
  let listed ← initFat32 (s.volume disk) (s.locals 0) s.place.dir s.globals
    s.fresh
  pure (⟨.vfat, s.place, listed.list, listed.search⟩,
    s.after listed.globals listed.fresh)

def reader (disk : Disk) : Reader Globals Stack where
  kind := .vfat
  read := initCurrent disk
  stays := by
    intro s listing s' hread
    obtain ⟨listed, _, hrest⟩ := bind_eq_ok_iff.mp hread
    cases hrest
    exact ⟨rfl, rfl, rfl⟩

/-- `chdir_fat32`, for which the path `.` is a case of its own. -/
def chdirFat32 (disk : Disk) (path : List UInt8) (s : State) :
    Except Fault (Reply × State) :=
  if pathLen < (cString path).length then .error .outOfBounds
  else
    match splitPath directoryNum (cString path) with
    | none => .ok (.code patLenExceed, s)
    | some args =>
        if cString path = [46] then do
          let (_, s) ← (reader disk).read s
          let (listing, s) ← (reader disk).read s
          pure (.list listing, s)
        else
          match walkPath (reader disk) args s with
          | .error (.fault e) => .error e
          | .error (.notDirectory c) => .ok (.code cdErr, c.state)
          | .error (.missing c) => do
              let (_, s) ← (reader disk).read c.state
              pure (.code dirNotFound, s)
          | .ok c => .ok (.list c.listing, c.state)

def rootFat32 (disk : Disk) (lba drive cluster : ℕ) (s : State) :
    Except Fault (Reply × State) :=
  chdirFat32 disk [47] (s.moved lba drive cluster)

/-- `load_fat32` in the current directory. -/
def loadCurrent (disk : Disk) (scratch : LoadScratch) (name : List UInt8)
    (loadMem : ℕ) (s : State) : Except Fault (ℕ × State) := do
  let load ← loadFat32 (s.volume disk) (s.locals 0) s.place.dir s.globals s.fresh
    (cString name) loadMem scratch.block
  let (_, s) ← (reader disk).read s
  pure (load.reply, s)

end Fat32
end Janus86
