import Janus86.CommandSpecs
import Janus86.DriveReads
import Janus86.Ext2MountGeometry
import Janus86.FsRoot

/-!
# The drive of a mounted partition

The record of a partition does not say on which drive it was found, and
`fs_root` passes drive 0 for every partition.  So the partitions of drive 0
are worked on as they should be, and in the place of any other partition the
sectors of drive 0 are read.
-/

namespace Janus86
namespace Fs

open Janus86.Partition

/-- A partition that `read_disk_partitions` has found on a drive: `before` and
`after` are the states around the scan of that drive. -/
structure FoundPartition where
  disk : Disk
  numIdeDrives : ℕ
  fuel : ℕ
  heap : PartState
  listed : PartState
  before : PartState
  after : PartState
  drive : ℕ
  saved : Saved
  scan : readDiskPartitions disk numIdeDrives fuel heap = .ok listed
  drive_lt : drive < numIdeDrives
  reached : (List.range drive).foldlM (scanDrive disk fuel) (emptyList heap) =
    .ok before
  scanned : scanDrive disk fuel before drive = .ok after
  found : saved ∈ after.saved.drop before.saved.length

/-! ## Working on a partition -/

inductive FileOp where
  | chdir (path : List UInt8)
  | load (scratch : LoadScratch) (name : List UInt8) (loadMem : ℕ)

inductive FileReply where
  | changed (reply : Reply)
  | loaded (load : Load)

/-- What a call of `fs_loadfile` stores. -/
def fileStored (k : Kernel) (scratch : LoadScratch) (name : List UInt8)
    (loadMem : ℕ) (m : Machine) : Except Fault Load :=
  if m.symbols.loadfile = 0 then .ok ⟨0, []⟩
  else
    match k.mounted m with
    | some .ext2 =>
        let s := m.world.ext2
        Ext2.ext2Loadfile (s.volume k.disk) (s.locals 0) scratch.ext2Locals
          scratch.stale scratch.dangling s.place.dir s.globals s.fresh
          (cString name) loadMem scratch.block
    | some .vfat =>
        let s := m.world.vfat
        Fat32.loadFat32 (s.volume k.disk) (s.locals 0) s.place.dir s.globals
          s.fresh (cString name) loadMem scratch.block
    | none => .error .outOfBounds

def runOp (k : Kernel) (m : Machine) : FileOp →
    Except Fault (FileReply × Machine)
  | .chdir path => do
      let (reply, m) ← fsChdir k path m
      pure (.changed reply, m)
  | .load scratch name loadMem => do
      let load ← fileStored k scratch name loadMem m
      let (_, m) ← fsLoadfile k scratch name loadMem m
      pure (.loaded load, m)

def runOps (k : Kernel) : List FileOp → Machine →
    Except Fault (List FileReply × Machine)
  | [], m => .ok ([], m)
  | op :: ops, m => do
      let (reply, m) ← runOp k m op
      let (replies, m) ← runOps k ops m
      pure (reply :: replies, m)

def mountAndUse (k : Kernel) (p : PartState) (n : ℤ) (ops : List FileOp)
    (m : Machine) : Except Fault (ℤ × List FileReply × Machine) := do
  let (code, m) ← fsRoot k.rootRoutine p n m
  let (replies, m) ← runOps k ops m
  pure (code, replies, m)

def Kernel.on (k : Kernel) (disk' : Disk) : Kernel := { k with disk := disk' }

/-- Whatever is done in the partition with a driver for it does not depend on
any drive but its own. -/
def FoundPartition.ReadsOwnDrive (f : FoundPartition) : Prop :=
  ∀ (k : Kernel) (kind : FsKind) (d : Driver) (m : Machine)
    (ops : List FileOp) (disk' : Disk), k.disk = f.disk →
    driverFor m.drvList
      (partitionNode f.listed (number f.saved) typeByteOffset) = some d →
    d.symbols = k.symbols kind → AgreesOn f.drive f.disk disk' →
    mountAndUse (k.on disk') f.listed (number f.saved) ops m =
      mountAndUse k f.listed (number f.saved) ops m

theorem ext2_loadfile_stored {disk : Disk} {scratch : LoadScratch}
    {name : List UInt8} {loadMem reply : ℕ} {s s' : Ext2.State}
    (hok : Ext2.loadfileCurrent disk scratch name loadMem s = .ok (reply, s')) :
    ∃ load, Ext2.ext2Loadfile (s.volume disk) (s.locals 0) scratch.ext2Locals
        scratch.stale scratch.dangling s.place.dir s.globals s.fresh
        (cString name) loadMem scratch.block = .ok load ∧
      load.reply = reply := by
  obtain ⟨load, hload, hrest⟩ := bind_eq_ok_iff.mp hok
  obtain ⟨_, _, hlast⟩ := bind_eq_ok_iff.mp hrest
  cases hlast
  exact ⟨load, hload, rfl⟩

theorem fat32_load_stored {disk : Disk} {scratch : LoadScratch}
    {name : List UInt8} {loadMem reply : ℕ} {s s' : Fat32.State}
    (hok : Fat32.loadCurrent disk scratch name loadMem s = .ok (reply, s')) :
    ∃ load, Fat32.loadFat32 (s.volume disk) (s.locals 0) s.place.dir s.globals
        s.fresh (cString name) loadMem scratch.block = .ok load ∧
      load.reply = reply := by
  obtain ⟨load, hload, hrest⟩ := bind_eq_ok_iff.mp hok
  obtain ⟨_, _, hlast⟩ := bind_eq_ok_iff.mp hrest
  cases hlast
  exact ⟨load, hload, rfl⟩

theorem fsLoadfile_stored {k : Kernel} {scratch : LoadScratch}
    {name : List UInt8} {loadMem reply : ℕ} {m m' : Machine}
    (hok : fsLoadfile k scratch name loadMem m = .ok (reply, m')) :
    ∃ load, fileStored k scratch name loadMem m = .ok load ∧
      load.reply = reply := by
  unfold fsLoadfile at hok
  unfold fileStored
  by_cases hnull : m.symbols.loadfile = 0
  · rw [if_pos hnull] at hok
    cases hok
    exact ⟨⟨0, []⟩, if_pos hnull, rfl⟩
  · rw [if_neg hnull] at hok ⊢
    cases hmounted : k.mounted m with
    | none =>
        rw [hmounted] at hok
        cases hok
    | some kind =>
        rw [hmounted] at hok
        cases kind with
        | ext2 =>
            obtain ⟨⟨r, s⟩, hrun, hrest⟩ := bind_eq_ok_iff.mp hok
            cases hrest
            exact ext2_loadfile_stored hrun
        | vfat =>
            obtain ⟨⟨r, s⟩, hrun, hrest⟩ := bind_eq_ok_iff.mp hok
            cases hrest
            exact fat32_load_stored hrun

/-! ## Drive 0 -/

section DriveZero

variable {k : Kernel} {disk' : Disk} (hzero : AgreesOn 0 k.disk disk')
include hzero

theorem fsRoot_on (p : PartState) (n : ℤ) (m : Machine) :
    fsRoot (k.on disk').rootRoutine p n m = fsRoot k.rootRoutine p n m := by
  unfold fsRoot callRoot Kernel.rootRoutine Kernel.on
  simp only [Ext2.ext2Root_on hzero, Fat32.rootFat32_on hzero]

variable {kind : FsKind} {m : Machine}

theorem fsChdir_on (hmounted : k.mounted m = some kind)
    (hdrive : (m.world.place kind).drive = 0) (path : List UInt8) :
    fsChdir (k.on disk') path m = fsChdir k path m := by
  have hmounted' : (k.on disk').mounted m = some kind := hmounted
  unfold fsChdir
  rw [hmounted, hmounted']
  rw [← hdrive] at hzero
  cases kind with
  | ext2 =>
      change (if m.symbols.chdir = 0 then _ else
        Ext2.ext2Chdir disk' path m.world.ext2 >>= _) = _
      rw [Ext2.ext2Chdir_on hzero]
  | vfat =>
      change (if m.symbols.chdir = 0 then _ else
        Fat32.chdirFat32 disk' path m.world.vfat >>= _) = _
      rw [Fat32.chdirFat32_on hzero]

theorem fileStored_on (hmounted : k.mounted m = some kind)
    (hdrive : (m.world.place kind).drive = 0) (scratch : LoadScratch)
    (name : List UInt8) (loadMem : ℕ) :
    fileStored (k.on disk') scratch name loadMem m =
      fileStored k scratch name loadMem m := by
  have hmounted' : (k.on disk').mounted m = some kind := hmounted
  unfold fileStored
  rw [hmounted, hmounted']
  have hown := hzero
  rw [← hdrive] at hown
  cases kind with
  | ext2 =>
      have hvolume : AgreesOn (m.world.ext2.volume k.disk).drive
          (m.world.ext2.volume k.disk).disk disk' := hown
      have hfirst : AgreesOn 0 (m.world.ext2.volume k.disk).disk disk' := hzero
      have hload := Ext2.ext2Loadfile_on hfirst m.world.ext2.globals hvolume
      simp only [← hload]
      rfl
  | vfat =>
      have hvolume : AgreesOn (m.world.vfat.volume k.disk).drive
          (m.world.vfat.volume k.disk).disk disk' := hown
      have hload := Fat32.loadFat32_on hvolume m.world.vfat.globals
      simp only [← hload]
      rfl

theorem fsLoadfile_on (hmounted : k.mounted m = some kind)
    (hdrive : (m.world.place kind).drive = 0) (scratch : LoadScratch)
    (name : List UInt8) (loadMem : ℕ) :
    fsLoadfile (k.on disk') scratch name loadMem m =
      fsLoadfile k scratch name loadMem m := by
  have hmounted' : (k.on disk').mounted m = some kind := hmounted
  unfold fsLoadfile
  rw [hmounted, hmounted']
  have hown := hzero
  rw [← hdrive] at hown
  cases kind with
  | ext2 =>
      change (if m.symbols.loadfile = 0 then _ else
        Ext2.loadfileCurrent disk' scratch name loadMem m.world.ext2 >>= _) = _
      rw [Ext2.loadfileCurrent_on hown hzero]
  | vfat =>
      change (if m.symbols.loadfile = 0 then _ else
        Fat32.loadCurrent disk' scratch name loadMem m.world.vfat >>= _) = _
      rw [Fat32.loadCurrent_on hown]

theorem runOp_on (hmounted : k.mounted m = some kind)
    (hdrive : (m.world.place kind).drive = 0) (op : FileOp) :
    runOp (k.on disk') m op = runOp k m op := by
  cases op with
  | chdir path =>
      simp only [runOp]
      rw [fsChdir_on hzero hmounted hdrive]
  | load scratch name loadMem =>
      simp only [runOp]
      rw [fileStored_on hzero hmounted hdrive, fsLoadfile_on hzero hmounted hdrive]

end DriveZero

theorem runOp_stays {k : Kernel} {kind : FsKind} {m m' : Machine} {op : FileOp}
    {reply : FileReply} (hmounted : k.mounted m = some kind)
    (hok : runOp k m op = .ok (reply, m')) :
    k.mounted m' = some kind ∧
      (m'.world.place kind).drive = (m.world.place kind).drive := by
  cases op with
  | chdir path =>
      obtain ⟨⟨r, m₁⟩, hchdir, hrest⟩ := bind_eq_ok_iff.mp hok
      cases hrest
      cases kind with
      | ext2 =>
          obtain ⟨s, hcall, rfl⟩ := fsChdir_ext2 hmounted hchdir
          exact ⟨hmounted, Ext2.drive_ext2Chdir hcall⟩
      | vfat =>
          obtain ⟨s, hcall, rfl⟩ := fsChdir_vfat hmounted hchdir
          exact ⟨hmounted, Fat32.drive_chdirFat32 hcall⟩
  | load scratch name loadMem =>
      obtain ⟨load, _, hrest⟩ := bind_eq_ok_iff.mp hok
      obtain ⟨⟨r, m₁⟩, hload, hlast⟩ := bind_eq_ok_iff.mp hrest
      cases hlast
      have hstays := fsLoadfile_staysPut hload
      refine ⟨?_, by rw [hstays.place kind]⟩
      apply Kernel.mounted_of_symbols
      rw [hstays.symbols]
      exact Kernel.mounted_eq_some hmounted

theorem runOps_on {k : Kernel} {disk' : Disk}
    (hzero : AgreesOn 0 k.disk disk') {kind : FsKind} (ops : List FileOp)
    {m : Machine} (hmounted : k.mounted m = some kind)
    (hdrive : (m.world.place kind).drive = 0) :
    runOps (k.on disk') ops m = runOps k ops m := by
  induction ops generalizing m with
  | nil => rfl
  | cons op ops ih =>
      unfold runOps
      rw [runOp_on hzero hmounted hdrive]
      cases hfirst : runOp k m op with
      | error e => simp only [error_bind]
      | ok r =>
          obtain ⟨reply, m'⟩ := r
          obtain ⟨hmounted', hdrive'⟩ := runOp_stays hmounted hfirst
          simp only [ok_bind]
          rw [ih hmounted' (hdrive'.trans hdrive)]

theorem FoundPartition.readsOwnDrive_of_zero {f : FoundPartition}
    (hdrive : f.drive = 0) : f.ReadsOwnDrive := by
  intro k kind d m ops disk' hdisk hdriver hkind hagrees
  rw [hdrive, ← hdisk] at hagrees
  unfold mountAndUse
  rw [fsRoot_on hagrees]
  cases hroot : fsRoot k.rootRoutine f.listed (number f.saved) m with
  | error e => simp only [error_bind]
  | ok r =>
      obtain ⟨code, m'⟩ := r
      obtain ⟨_, hsymbols, _, _, _, _, hplace, _⟩ :=
        fsRoot_of_driver hdriver hkind hroot
      have hmounted := Kernel.mounted_of_symbols hsymbols
      have hdrive' : (m'.world.place kind).drive = 0 := by rw [hplace]
      simp only [ok_bind]
      rw [runOps_on hagrees ops hmounted hdrive']

/-! ## Any other drive -/

/-- Drive 0 is another one, all sectors of which hold the same bytes. -/
def withFirstDrive (disk : Disk) (bytes : Buffer) : Disk where
  readable := fun drive n => if drive = 0 then true else disk.readable drive n
  byte := fun drive n o => if drive = 0 then bytes o else disk.byte drive n o

theorem agreesOn_withFirstDrive {drive : ℕ} (hne : drive ≠ 0) (disk : Disk)
    (bytes : Buffer) : AgreesOn drive disk (withFirstDrive disk bytes) :=
  ⟨fun _ => if_neg hne, fun _ _ => if_neg hne⟩

theorem withFirstDrive_holds (disk : Disk) (bytes : Buffer) (lba : ℕ) :
    Ext2.HoldsSuper ⟨withFirstDrive disk bytes, 0, lba⟩
      (fun o => bytes (o % 512)) :=
  ⟨fun _ _ => rfl, fun _ _ => rfl⟩

def ext2For (type : UInt8) : Machine where
  drvList := [⟨0, type, 0, [], ⟨1, 2, 3⟩⟩]
  symbols := Symbols.null
  fsProp := .code 0
  world :=
    { ext2 := Ext2.twoBlockState Ext2.twoGroups
      vfat := ⟨⟨0, 0, 2⟩, ⟨0, 0, 0⟩, [], fun _ => ⟨fun _ => 0, fun _ => 0⟩⟩ }
  registered := 1

theorem ext2For_driver (type : UInt8) :
    driverFor (ext2For type).drvList type = some ⟨0, type, 0, [], ⟨1, 2, 3⟩⟩ := by
  unfold driverFor ext2For
  rw [List.find?_cons_of_pos]
  exact beq_self_eq_true type

theorem mountAndUse_ext2For {disk : Disk} {p : PartState} {n : ℤ} {e : Fault}
    (herror : Ext2.initExt2 ⟨disk, 0, le32 (partitionNode p n) stLbaOffset⟩
      Ext2.zeroStack 2 Ext2.twoGroups [blank, blank] = .error e) :
    mountAndUse (kernelOn disk) p n []
      (ext2For (partitionNode p n typeByteOffset)) = .error e := by
  have hroot : Ext2.ext2Root disk (le32 (partitionNode p n) stLbaOffset) 0 2
      (Ext2.twoBlockState Ext2.twoGroups) = .error e :=
    Ext2.ext2Root_eq_error_iff.mpr herror
  unfold mountAndUse fsRoot
  simp only [ext2For_driver]
  unfold callRoot Kernel.rootRoutine
  rw [if_pos (by rfl)]
  change (((Ext2.ext2Root disk (le32 (partitionNode p n) stLbaOffset) 0 2
    (Ext2.twoBlockState Ext2.twoGroups) >>= _) >>= _) >>= _) = _
  rw [hroot]
  simp only [error_bind]

theorem initExt2_zeros (disk : Disk) (lba : ℕ) :
    Ext2.initExt2 ⟨withFirstDrive disk fun _ => 0, 0, lba⟩ Ext2.zeroStack 2
      Ext2.twoGroups [blank, blank] = .error .divideByZero := by
  obtain ⟨super', hsame, hsuper⟩ := (withFirstDrive_holds disk (fun _ => 0)
    lba).rdSuperblock blank.bytes Ext2.twoGroups
  rw [if_neg (by decide)] at hsuper
  exact Ext2.initExt2_divides hsuper
    ((Ext2.inodesPerGroup_congr hsame).trans (by decide)) _ _

def shiftingBytes : Buffer := fun o =>
  if o = 24 then 32 else if o = 56 then 0x53 else if o = 57 then 0xEF else 0

theorem initExt2_shifting (disk : Disk) (lba : ℕ) :
    Ext2.initExt2 ⟨withFirstDrive disk shiftingBytes, 0, lba⟩ Ext2.zeroStack 2
      Ext2.twoGroups [blank, blank] = .error .badShift := by
  obtain ⟨super', _, hsuper⟩ := (withFirstDrive_holds disk shiftingBytes
    lba).rdSuperblock blank.bytes Ext2.twoGroups
  rw [if_pos (by decide), if_neg (by decide)] at hsuper
  exact Ext2.initExt2_eq_error hsuper _ _

/-- Two drives in the place of drive 0 are told apart by the mount. -/
theorem FoundPartition.ReadsOwnDrive.drive_eq {f : FoundPartition}
    (hreads : f.ReadsOwnDrive) : f.drive = 0 := by
  by_contra hne
  have hrun : ∀ bytes, mountAndUse (kernelOn (withFirstDrive f.disk bytes))
      f.listed (number f.saved) []
      (ext2For (partitionNode f.listed (number f.saved) typeByteOffset)) =
    mountAndUse (kernelOn f.disk) f.listed (number f.saved) []
      (ext2For (partitionNode f.listed (number f.saved) typeByteOffset)) :=
    fun bytes => hreads (kernelOn f.disk) .ext2 _ _ [] _ rfl (ext2For_driver _)
      rfl (agreesOn_withFirstDrive hne f.disk bytes)
  have hsame := (hrun fun _ => 0).trans (hrun shiftingBytes).symm
  rw [mountAndUse_ext2For (initExt2_zeros f.disk _),
    mountAndUse_ext2For (initExt2_shifting f.disk _)] at hsame
  cases hsame

/-- Exactly the partitions of drive 0 are worked on without another drive. -/
theorem FoundPartition.readsOwnDrive_iff (f : FoundPartition) :
    f.ReadsOwnDrive ↔ f.drive = 0 :=
  ⟨FoundPartition.ReadsOwnDrive.drive_eq,
    FoundPartition.readsOwnDrive_of_zero⟩

/-- Drive 0 is empty, and drive 1 has a Linux partition at sector 63. -/
def twoDrives : Disk where
  readable := fun _ _ => true
  byte := fun drive n o =>
    if drive = 1 ∧ n = 0 then
      if o = 450 then 0x83 else if o = 454 then 63
      else if o = 510 then 0x55 else if o = 511 then 0xAA else 0
    else 0

def secondDrivePartition : FoundPartition where
  disk := twoDrives
  numIdeDrives := 2
  fuel := 1
  heap := heapOf 0
  listed := _
  before := _
  after := _
  drive := 1
  saved := ⟨⟨0x83, 63, 0⟩, 0, 1, fun _ => 0⟩
  scan := rfl
  drive_lt := by decide
  reached := rfl
  scanned := rfl
  found := List.mem_cons_self

theorem second_drive_reads_first : ¬ secondDrivePartition.ReadsOwnDrive := by
  intro hreads
  exact absurd hreads.drive_eq (by decide)

end Fs
end Janus86
