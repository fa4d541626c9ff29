import Janus86.DriverSpecs

/-!
# The drives that the drivers read

What a call reads is what its result depends on.  A call of the FAT driver
depends on the current drive alone, and so does the listing of the ext2
driver; the file itself is read from drive 0, whatever the current drive is.
-/

namespace Janus86

open StepMachine

/-- The drive has the same sectors in both sets of drives. -/
structure AgreesOn (drive : ℕ) (disk disk' : Disk) : Prop where
  readable : ∀ n, disk'.readable drive n = disk.readable drive n
  byte : ∀ n o, disk'.byte drive n o = disk.byte drive n o

def Volume.on (vol : Volume) (disk' : Disk) : Volume := { vol with disk := disk' }

@[simp] theorem Volume.on_drive (vol : Volume) (disk' : Disk) :
    (vol.on disk').drive = vol.drive := rfl

@[simp] theorem Volume.on_lba (vol : Volume) (disk' : Disk) :
    (vol.on disk').lba = vol.lba := rfl

theorem readDiskSector_on {drive : ℕ} {disk disk' : Disk}
    (hagrees : AgreesOn drive disk disk') (buf : Buffer) (lba n : ℕ) :
    readDiskSector disk' buf drive lba n = readDiskSector disk buf drive lba n := by
  unfold readDiskSector
  simp only [hagrees.readable, hagrees.byte]

variable {vol : Volume} {disk' : Disk}

/-! ## ext2 -/

namespace Ext2

theorem ext2RdBlock_on {drive : ℕ} (hagrees : AgreesOn drive vol.disk disk')
    (lba sectors capacity : ℕ) (buf : Buffer) :
    ext2RdBlock (vol.on disk') drive lba sectors capacity buf =
      ext2RdBlock vol drive lba sectors capacity buf := by
  unfold ext2RdBlock Volume.on
  rw [readDiskSector_on hagrees]

theorem readBlock_on {drive : ℕ} (hagrees : AgreesOn drive vol.disk disk')
    (g : Globals) (block : ℕ) (buf : Buffer) :
    readBlock (vol.on disk') drive g block buf = readBlock vol drive g block buf :=
  ext2RdBlock_on hagrees _ _ _ _

theorem readInode_on {drive : ℕ} (hagrees : AgreesOn drive vol.disk disk')
    (g : Globals) (inode : ℕ) (buf : Buffer) :
    readInode (vol.on disk') drive g inode buf =
      readInode vol drive g inode buf := by
  unfold readInode
  simp only [ext2RdBlock_on hagrees]
  rfl

section Listing

variable (hagrees : AgreesOn vol.drive vol.disk disk') (g : Globals)
include hagrees

theorem ext2RdSuperblock_on (buf : Buffer) :
    ext2RdSuperblock (vol.on disk') buf g = ext2RdSuperblock vol buf g := by
  unfold ext2RdSuperblock Volume.on
  rw [readDiskSector_on hagrees]

theorem fillNode_on (dirbuf : Buffer) (o : ℕ) (c : DirCursor) :
    fillNode (vol.on disk') g dirbuf o c = fillNode vol g dirbuf o c := by
  unfold fillNode
  simp only [Volume.on_drive, readInode_on hagrees]

theorem recordTurn_on (dirbuf : Buffer) :
    recordTurn (vol.on disk') g dirbuf = recordTurn vol g dirbuf := by
  funext s
  unfold recordTurn
  rw [fillNode_on hagrees]

theorem readDirBlock_on (block : ℕ) (s : Buffer × DirCursor) :
    readDirBlock (vol.on disk') g block s = readDirBlock vol g block s := by
  unfold readDirBlock readRecords
  simp only [Volume.on_drive, readBlock_on hagrees, recordTurn_on hagrees]

theorem ext2RdDir_on (iblock : ℕ → ℕ) (dirbuf : Buffer) (c : DirCursor) :
    ext2RdDir (vol.on disk') g iblock dirbuf c =
      ext2RdDir vol g iblock dirbuf c := by
  unfold ext2RdDir
  simp only [readDirBlock_on hagrees]

theorem ext2RdInode_on (stack : Stack) (inode : ℕ) (c : DirCursor) :
    ext2RdInode (vol.on disk') stack inode g c =
      ext2RdInode vol stack inode g c := by
  unfold ext2RdInode
  simp only [Volume.on_drive, Volume.on_lba, ext2RdBlock_on hagrees,
    readInode_on hagrees, ext2RdDir_on hagrees]

theorem initExt2_on (stack : Stack) (inode : ℕ) (fresh : List FreshBlock) :
    initExt2 (vol.on disk') stack inode g fresh =
      initExt2 vol stack inode g fresh := by
  unfold initExt2
  simp only [ext2RdSuperblock_on hagrees, ext2RdInode_on hagrees]

end Listing

/-! The file, with drive 0 in every call. -/

section File

variable (hzero : AgreesOn 0 vol.disk disk') (g : Globals)
include hzero

theorem copyBlock_on (block : ℕ) (c : FileCursor) :
    copyBlock (vol.on disk') g block c = copyBlock vol g block c := by
  unfold copyBlock
  rw [readBlock_on hzero]

theorem rdDirect_on (iblock : ℕ → ℕ) (c : FileCursor) :
    rdDirect (vol.on disk') g iblock c = rdDirect vol g iblock c := by
  unfold rdDirect
  simp only [copyBlock_on hzero]

theorem rdSinglyIndirect_on (block : ℕ) (c : FileCursor) :
    rdSinglyIndirect (vol.on disk') g block c =
      rdSinglyIndirect vol g block c := by
  unfold rdSinglyIndirect
  simp only [readBlock_on hzero, copyBlock_on hzero]

theorem rdSecondLevel_on (stale siblock : ℕ) (c : FileCursor) :
    rdSecondLevel (vol.on disk') g stale siblock c =
      rdSecondLevel vol g stale siblock c := by
  unfold rdSecondLevel
  simp only [readBlock_on hzero, copyBlock_on hzero]

theorem rdDoublyIndirect_on (stale block : ℕ) (c : FileCursor) :
    rdDoublyIndirect (vol.on disk') g stale block c =
      rdDoublyIndirect vol g stale block c := by
  unfold rdDoublyIndirect
  simp only [readBlock_on hzero, rdSecondLevel_on hzero]

theorem ext2LoadFile_on (stack : Stack) (stale inode : ℕ) :
    ext2LoadFile (vol.on disk') stack stale g inode =
      ext2LoadFile vol stack stale g inode := by
  unfold ext2LoadFile ext2RdFile
  simp only [readInode_on hzero, rdDirect_on hzero, rdSinglyIndirect_on hzero,
    rdDoublyIndirect_on hzero]

theorem ext2Loadfile_on (hagrees : AgreesOn vol.drive vol.disk disk')
    (stack loadStack : Stack) (stale : ℕ) (dangling : Buffer) (inode : ℕ)
    (fresh : List FreshBlock) (name : List UInt8) (loadMem block : ℕ) :
    ext2Loadfile (vol.on disk') stack loadStack stale dangling inode g fresh name
        loadMem block =
      ext2Loadfile vol stack loadStack stale dangling inode g fresh name loadMem
        block := by
  unfold ext2Loadfile
  simp only [initExt2_on hagrees, ext2LoadFile_on hzero]

end File

end Ext2

/-! ## FAT32 -/

namespace Fat32

section Reads

variable (hagrees : AgreesOn vol.drive vol.disk disk') (g : Globals)
include hagrees

theorem readClusterSector_on (cluster k : ℕ) (buf : Buffer) :
    readClusterSector (vol.on disk') g cluster k buf =
      readClusterSector vol g cluster k buf :=
  readDiskSector_on hagrees _ _ _

theorem fat32RdBootsec_on (bootsec : Buffer) :
    fat32RdBootsec (vol.on disk') bootsec g = fat32RdBootsec vol bootsec g := by
  unfold fat32RdBootsec Volume.on
  rw [readDiskSector_on hagrees]

theorem fat32RdFAT_on (cluster : ℕ) :
    fat32RdFAT (vol.on disk') g cluster = fat32RdFAT vol g cluster := by
  unfold fat32RdFAT Volume.on
  rw [readDiskSector_on hagrees]

theorem longTurn_on (cluster : ℕ) :
    longTurn (vol.on disk') g cluster = longTurn vol g cluster := by
  funext s
  unfold longTurn previousSector
  rw [readClusterSector_on hagrees]

theorem generateLongName_on (cluster : ℕ) (buf : Buffer) (i k : ℕ)
    (c : ListCursor) :
    generateLongName (vol.on disk') g cluster buf i k c =
      generateLongName vol g cluster buf i k c := by
  unfold generateLongName
  simp only [longTurn_on hagrees, readClusterSector_on hagrees]

theorem readOrReturn_on (cluster k : ℕ) (s : ClusterState) :
    readOrReturn (vol.on disk') g cluster k s =
      readOrReturn vol g cluster k s := by
  unfold readOrReturn
  rw [readClusterSector_on hagrees]

theorem entryStep_on (cluster k : ℕ) :
    entryStep (vol.on disk') g cluster k = entryStep vol g cluster k := by
  funext s i
  unfold entryStep longEntry
  simp only [readOrReturn_on hagrees, generateLongName_on hagrees]

theorem sectorStep_on (cluster : ℕ) :
    sectorStep (vol.on disk') g cluster = sectorStep vol g cluster := by
  funext s k
  unfold sectorStep
  simp only [readOrReturn_on hagrees, entryStep_on hagrees]

theorem fat32RdCluster_on (direntry : Buffer) (fuel cluster : ℕ)
    (c : ListCursor) :
    fat32RdCluster (vol.on disk') g direntry fuel cluster c =
      fat32RdCluster vol g direntry fuel cluster c := by
  induction fuel generalizing cluster c with
  | zero => rfl
  | succ fuel ih =>
      unfold fat32RdCluster
      simp only [sectorStep_on hagrees, fat32RdFAT_on hagrees, ih]

theorem initFat32_on (stack : Stack) (cluster : ℕ) (fresh : List FreshBlock) :
    initFat32 (vol.on disk') stack cluster g fresh =
      initFat32 vol stack cluster g fresh := by
  unfold initFat32
  simp only [fat32RdBootsec_on hagrees, fat32RdCluster_on hagrees]

theorem mmapCopy_on (cluster n k : ℕ) :
    mmapCopy (vol.on disk') g cluster n k = mmapCopy vol g cluster n k := by
  induction n generalizing k with
  | zero => rfl
  | succ n ih =>
      unfold mmapCopy
      simp only [readClusterSector_on hagrees, ih]

theorem fat32Mmap_on (fuel cluster : ℕ) (size : ℤ) :
    fat32Mmap (vol.on disk') g fuel cluster size =
      fat32Mmap vol g fuel cluster size := by
  induction fuel generalizing cluster size with
  | zero => rfl
  | succ fuel ih =>
      unfold fat32Mmap
      simp only [mmapCopy_on hagrees, fat32RdFAT_on hagrees, ih]

theorem loadFat32_on (stack : Stack) (cluster : ℕ) (fresh : List FreshBlock)
    (name : List UInt8) (loadMem block : ℕ) :
    loadFat32 (vol.on disk') stack cluster g fresh name loadMem block =
      loadFat32 vol stack cluster g fresh name loadMem block := by
  unfold loadFat32
  simp only [initFat32_on hagrees, fat32Mmap_on hagrees]

end Reads

end Fat32

/-! ## The walk along a path -/

section Walk

variable {γ ψ : Type} {reader reader' : Reader γ ψ} {drive : ℕ}

/-- The readers do the same in every directory of the drive. -/
def ReadsAlike (drive : ℕ) (reader reader' : Reader γ ψ) : Prop :=
  ∀ s, s.place.drive = drive → reader'.read s = reader.read s

theorem drive_read {s s' : DriverState γ ψ} {listing : Listing}
    (hread : reader.read s = .ok (listing, s')) :
    s'.place.drive = s.place.drive := by
  rw [(reader.stays s listing s' hread).2.2]

theorem drive_enter {c c' : Cursor γ ψ} {name : List UInt8}
    (hdrive : c.state.place.drive = drive)
    (harrives : Arrives (enter reader c name) c') :
    c'.state.place.drive = drive := by
  rcases enter_arrives harrives with rfl | ⟨dir, hread⟩
  · exact hdrive
  · exact (drive_read hread).trans hdrive

/-- Wherever a walk comes to, it is on the drive on which it started. -/
theorem drive_walkPath {args : List (List UInt8)} {s : DriverState γ ψ}
    {c : Cursor γ ψ} (harrives : Arrives (walkPath reader args s) c) :
    c.state.place.drive = s.place.drive := by
  unfold walkPath at harrives
  cases hread : reader.read s with
  | error e =>
      rw [hread] at harrives
      rcases harrives with h | h | h <;> cases h
  | ok x =>
      rw [hread] at harrives
      exact entries_invariant (fun _ _ _ => drive_enter) (drive_read hread)
        harrives

theorem enter_alike (halike : ReadsAlike drive reader reader')
    {c : Cursor γ ψ} (hdrive : c.state.place.drive = drive) (name : List UInt8) :
    enter reader' c name = enter reader c name := by
  have hread : ∀ node : FsProperties,
      reader'.read { c.state with place := { c.state.place with dir := node.start } } =
        reader.read
          { c.state with place := { c.state.place with dir := node.start } } :=
    fun node => halike _ hdrive
  unfold enter
  simp only [hread]

theorem entries_alike (halike : ReadsAlike drive reader reader')
    (args : List (List UInt8)) {c : Cursor γ ψ}
    (hdrive : c.state.place.drive = drive) :
    args.foldlM (enter reader') c = args.foldlM (enter reader) c := by
  induction args generalizing c with
  | nil => rfl
  | cons name args ih =>
      rw [List.foldlM_cons, List.foldlM_cons, enter_alike halike hdrive]
      cases hfirst : enter reader c name with
      | error halt => rfl
      | ok middle =>
          exact ih (drive_enter hdrive (Or.inl hfirst))

theorem walkPath_alike (halike : ReadsAlike drive reader reader')
    (args : List (List UInt8)) {s : DriverState γ ψ}
    (hdrive : s.place.drive = drive) :
    walkPath reader' args s = walkPath reader args s := by
  unfold walkPath
  rw [halike s hdrive]
  cases hread : reader.read s with
  | error e => rfl
  | ok x => exact entries_alike halike args ((drive_read hread).trans hdrive)

end Walk

/-! ## The calls -/

variable {disk : Disk}

namespace Ext2

theorem reader_alike {drive : ℕ} (hagrees : AgreesOn drive disk disk') :
    ReadsAlike drive (reader disk) (reader disk') := by
  intro s hdrive
  have hvolume : AgreesOn (s.volume disk).drive (s.volume disk).disk disk' := by
    rw [← hdrive] at hagrees
    exact hagrees
  change initCurrent disk' s = initCurrent disk s
  unfold initCurrent
  rw [← initExt2_on hvolume]
  rfl

section Current

variable {s : State} (hagrees : AgreesOn s.place.drive disk disk')
include hagrees

theorem ext2Chdir_on (path : List UInt8) :
    ext2Chdir disk' path s = ext2Chdir disk path s := by
  have halike := reader_alike hagrees
  unfold ext2Chdir
  simp only [walkPath_alike halike _ rfl]
  split
  · rfl
  · split
    · rfl
    · next args _ =>
        cases hwalk : walkPath (reader disk) args s with
        | ok c => rfl
        | error halt =>
            cases halt with
            | fault e => rfl
            | notDirectory c => rfl
            | missing c =>
                have hdrive : c.state.place.drive = s.place.drive :=
                  drive_walkPath (Or.inr (Or.inl hwalk))
                simp only [halike c.state hdrive]

theorem loadfileCurrent_on (hzero : AgreesOn 0 disk disk')
    (scratch : LoadScratch) (name : List UInt8) (loadMem : ℕ) :
    loadfileCurrent disk' scratch name loadMem s =
      loadfileCurrent disk scratch name loadMem s := by
  have hvolume : AgreesOn (s.volume disk).drive (s.volume disk).disk disk' :=
    hagrees
  have hload := ext2Loadfile_on (show AgreesOn 0 (s.volume disk).disk disk' from
    hzero) s.globals hvolume
  unfold loadfileCurrent
  rw [reader_alike hagrees s rfl, ← hload]
  rfl

end Current

theorem ext2Root_on {drive : ℕ} (hagrees : AgreesOn drive disk disk')
    (lba inode : ℕ) (s : State) :
    ext2Root disk' lba drive inode s = ext2Root disk lba drive inode s :=
  ext2Chdir_on (s := s.moved lba drive inode) hagrees [47]

theorem drive_ext2Chdir {path : List UInt8} {s s' : State} {reply : Reply}
    (hok : ext2Chdir disk path s = .ok (reply, s')) :
    s'.place.drive = s.place.drive := by
  rcases ext2Chdir_spec hok with ⟨_, _, rfl⟩ |
    ⟨args, c, listing, _, hlast, _, _, hplace⟩
  · rfl
  · rw [hplace]
    exact drive_walkPath hlast.arrives

end Ext2

namespace Fat32

theorem reader_alike {drive : ℕ} (hagrees : AgreesOn drive disk disk') :
    ReadsAlike drive (reader disk) (reader disk') := by
  intro s hdrive
  have hvolume : AgreesOn (s.volume disk).drive (s.volume disk).disk disk' := by
    rw [← hdrive] at hagrees
    exact hagrees
  change initCurrent disk' s = initCurrent disk s
  unfold initCurrent
  rw [← initFat32_on hvolume]
  rfl

section Current

variable {s : State} (hagrees : AgreesOn s.place.drive disk disk')
include hagrees

theorem chdirFat32_on (path : List UInt8) :
    chdirFat32 disk' path s = chdirFat32 disk path s := by
  have halike := reader_alike hagrees
  unfold chdirFat32
  simp only [walkPath_alike halike _ rfl]
  split
  · rfl
  · split
    · rfl
    · next args _ =>
        split
        · rw [halike s rfl]
          cases hread : (reader disk).read s with
          | error e => rfl
          | ok r =>
              -- the second read for `.`
              simp only [ok_bind, halike r.2 (drive_read hread)]
        · cases hwalk : walkPath (reader disk) args s with
          | ok c => rfl
          | error halt =>
              cases halt with
              | fault e => rfl
              | notDirectory c => rfl
              | missing c =>
                  have hdrive : c.state.place.drive = s.place.drive :=
                    drive_walkPath (Or.inr (Or.inl hwalk))
                  simp only [halike c.state hdrive]

theorem loadCurrent_on (scratch : LoadScratch) (name : List UInt8)
    (loadMem : ℕ) :
    loadCurrent disk' scratch name loadMem s =
      loadCurrent disk scratch name loadMem s := by
  have hvolume : AgreesOn (s.volume disk).drive (s.volume disk).disk disk' :=
    hagrees
  have hload := loadFat32_on hvolume s.globals
  unfold loadCurrent
  rw [reader_alike hagrees s rfl, ← hload]
  rfl

end Current

theorem rootFat32_on {drive : ℕ} (hagrees : AgreesOn drive disk disk')
    (lba cluster : ℕ) (s : State) :
    rootFat32 disk' lba drive cluster s = rootFat32 disk lba drive cluster s :=
  chdirFat32_on (s := s.moved lba drive cluster) hagrees [47]

theorem drive_chdirFat32 {path : List UInt8} {s s' : State} {reply : Reply}
    (hok : chdirFat32 disk path s = .ok (reply, s')) :
    s'.place.drive = s.place.drive := by
  rcases chdirFat32_spec hok with ⟨_, _, rfl⟩ | ⟨_, _, hplace⟩ |
    ⟨args, c, _, _, hplace, ⟨hwalk, _⟩ | ⟨hstops, _⟩⟩
  · rfl
  · rw [hplace]
  · rw [hplace]
    exact drive_walkPath (Or.inl hwalk)
  · rw [hplace]
    exact drive_walkPath (Arrives.of_stops hstops)

end Fat32

end Janus86
