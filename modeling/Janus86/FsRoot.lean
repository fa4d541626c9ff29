import Janus86.FsModel
import Janus86.PartitionScan

/-!
# Mounting a partition

`fs_root` takes the type byte from the record of the partition.  That byte was
written for four types only; for any other type, and in the empty node at which
the search for an unknown number ends, it is what the heap held there.  So a
driver is chosen as it should be exactly when that byte selects the same
routines as the type on the disk.
-/

namespace Janus86
namespace Fs

open Janus86.Partition

/-! ## The records and what was put into them -/

def refill (e : Saved) : Buffer := fillNode e.partIn e.pe e.lba e.block

def Filled (s : PartState) : Prop := s.records = s.saved.map refill

theorem filled_savePartProps {s : PartState} (pe : Slot) (lba : ℕ)
    (hfilled : Filled s) : Filled (savePartProps pe lba s) := by
  unfold Filled at hfilled ⊢
  simp only [savePartProps, List.map_append, List.map_cons, List.map_nil, hfilled]
  rfl

theorem filled_primary {s : PartState} (hfilled : Filled s) :
    Filled (traversePrimaryPartitions s) := by
  have hfold : ∀ (is : List ℕ) (s' : PartState), Filled s' →
      Filled (is.foldl (fun s' i => savePartProps (s.bslist.part i) 0 s') s') := by
    intro is
    induction is with
    | nil => exact fun _ h => h
    | cons i is ih => exact fun s' h => ih _ (filled_savePartProps _ _ h)
  unfold traversePrimaryPartitions
  split
  · exact hfold _ s hfilled
  · exact hfilled

variable {disk : Disk}

theorem filled_visitBoot {drive lba : ℕ} {s : PartState} (hfilled : Filled s) :
    Filled (visitBoot disk drive s lba) := by
  unfold visitBoot
  cases bootAt disk drive lba with
  | none => exact hfilled
  | some bs =>
      simp only
      split
      · exact filled_savePartProps _ _ hfilled
      · exact hfilled

theorem filled_walks {drive : ℕ} {s : PartState} (lbas : List ℕ)
    (hfilled : Filled s) : Filled (lbas.foldl (visitBoot disk drive) s) := by
  induction lbas generalizing s with
  | nil => exact hfilled
  | cons lba lbas ih => exact ih (filled_visitBoot hfilled)

theorem filled_scanDrive {drive fuel : ℕ} {s s' : PartState}
    (hfilled : Filled s) (hscan : scanDrive disk fuel s drive = .ok s') :
    Filled s' := by
  have hmbr : Filled (readMbr disk drive s) := by
    unfold readMbr
    split <;> exact hfilled
  rw [scanDrive_eq] at hscan
  obtain ⟨walks, _, rfl⟩ := seenWalks_of_scan hscan
  exact filled_walks _ (filled_primary hmbr)

theorem filled_readDiskPartitions {numIdeDrives fuel : ℕ} {s p : PartState}
    (hscan : readDiskPartitions disk numIdeDrives fuel s = .ok p) :
    Filled p := by
  have hstart : Filled (emptyList s) := rfl
  refine StepMachine.foldlM_invariant Filled (fun s' drive s'' hfilled hok => ?_)
    hstart hscan
  exact filled_scanDrive hfilled hok

/-! ## What the search finds -/

def number (e : Saved) : ℤ := toInt32 (e.partIn % 2 ^ 32)

def start (e : Saved) : ℕ := (e.lba + e.pe.startLba) % 2 ^ 32

def numbered (p : PartState) (n : ℤ) : Option Saved :=
  p.saved.find? fun e => number e == n

/-- The type byte that `fs_root` comes upon: what was in the block, where
nothing was written over it. -/
def typeByteRead (p : PartState) (n : ℤ) : UInt8 :=
  match numbered p n with
  | none => p.partTemp typeByteOffset
  | some e =>
      if isLinux e.pe.type || isFat32 e.pe.type then e.pe.type
      else e.block typeByteOffset

theorem partitionNode_eq {p : PartState} (hfilled : Filled p) (n : ℤ) :
    partitionNode p n = ((numbered p n).map refill).getD p.partTemp := by
  have hnumber : (fun node => toInt32 (le32 node nameOffset) == n) ∘ refill =
      fun e => number e == n := by
    funext e
    rw [Function.comp_apply, refill, number_fillNode]
    rfl
  rw [partitionNode, hfilled, List.find?_map, hnumber]
  rfl

theorem partitionNode_typeByte {p : PartState} (hfilled : Filled p) (n : ℤ) :
    partitionNode p n typeByteOffset = typeByteRead p n := by
  rw [partitionNode_eq hfilled, typeByteRead]
  cases numbered p n with
  | none => rfl
  | some e => exact typeByte_fillNode e.partIn e.pe e.lba e.block

theorem partitionNode_start {p : PartState} (hfilled : Filled p) {n : ℤ}
    {e : Saved} (hnumbered : numbered p n = some e) :
    le32 (partitionNode p n) stLbaOffset = start e := by
  rw [partitionNode_eq hfilled, hnumbered]
  exact start_fillNode e.partIn e.pe e.lba e.block

/-! ## The driver for a partition -/

/-- The entry of a partition is in a boot sector of a disk, at the address from
which the start of the partition counts.  It is not when the MBR could not be
read and the heap held a signature. -/
def onDisk (disk : Disk) (numIdeDrives : ℕ) (e : Saved) : Bool :=
  (List.range numIdeDrives).any fun drive =>
    match bootAt disk drive e.lba with
    | none => false
    | some bs => (List.range 4).any fun i => bs.part i == e.pe

/-- The recorded partition with the number, if it is on a disk. -/
def recordedPartition (disk : Disk) (numIdeDrives : ℕ) (p : PartState) (n : ℤ) :
    Option Saved :=
  (numbered p n).filter (onDisk disk numIdeDrives)

/-- The first driver for the type that the partition has on the disk, and the
start of the partition. -/
def recordedDriver (disk : Disk) (numIdeDrives : ℕ) (p : PartState) (n : ℤ)
    (drvList : List Driver) : Option (Driver × ℕ) :=
  match recordedPartition disk numIdeDrives p n with
  | none => none
  | some e => (driverFor drvList e.pe.type).map fun d => (d, start e)

variable {κ π : Type}

/-- Whatever the routines of the drivers do: the driver for the partition that
was recorded is installed and called, and without one nothing happens. -/
def RootsAsRecorded (disk : Disk) (numIdeDrives : ℕ) (p : PartState) (n : ℤ)
    (s : FsState κ π) : Prop :=
  ∀ root : RootRoutine κ π,
    fsRoot root p n s =
      match recordedDriver disk numIdeDrives p n s.drvList with
      | none => .ok (fsDrvNotFound, s)
      | some (d, lba) => callRoot root d lba s

def symbolsFor (drvList : List Driver) (type : UInt8) : Option Symbols :=
  (driverFor drvList type).map Driver.symbols

/-- The byte that `fs_root` comes upon selects the routines for the type on the
disk, and none when there is no such partition. -/
def TypeByteFits (disk : Disk) (numIdeDrives : ℕ) (p : PartState) (n : ℤ)
    (drvList : List Driver) : Prop :=
  symbolsFor drvList (typeByteRead p n) =
    match recordedPartition disk numIdeDrives p n with
    | none => none
    | some e => symbolsFor drvList e.pe.type

/-- The four types whose byte is written are never mistaken. -/
theorem typeByteFits_of_written {numIdeDrives : ℕ} {p : PartState} {n : ℤ}
    {e : Saved} (drvList : List Driver)
    (hrecorded : recordedPartition disk numIdeDrives p n = some e)
    (hwritten : (isLinux e.pe.type || isFat32 e.pe.type) = true) :
    TypeByteFits disk numIdeDrives p n drvList := by
  have hnumbered : numbered p n = some e :=
    (Option.filter_eq_some_iff.mp hrecorded).1
  rw [TypeByteFits, hrecorded, typeByteRead, hnumbered]
  simp only [hwritten, if_true]

theorem callRoot_congr {d d' : Driver} (hsame : d.symbols = d'.symbols)
    (root : RootRoutine κ π) (lba : ℕ) (s : FsState κ π) :
    callRoot root d lba s = callRoot root d' lba s := by
  rw [callRoot, callRoot, hsame]

def returning (listing : π) : RootRoutine κ π := fun _ world => .ok (listing, world)

theorem callRoot_returning (d : Driver) (lba : ℕ) (s : FsState κ π) :
    callRoot (returning s.fsProp) d lba s =
      .ok (fsDrvFound, { s with symbols := d.symbols }) :=
  rfl

theorem recordedDriver_symbols {numIdeDrives : ℕ} (p : PartState) (n : ℤ)
    (drvList : List Driver) :
    (recordedDriver disk numIdeDrives p n drvList).map (fun x => x.1.symbols) =
      match recordedPartition disk numIdeDrives p n with
      | none => none
      | some e => symbolsFor drvList e.pe.type := by
  unfold recordedDriver
  cases recordedPartition disk numIdeDrives p n with
  | none => rfl
  | some e => simp only [Option.map_map]; rfl

theorem recordedDriver_start {numIdeDrives : ℕ} {p : PartState} {n : ℤ}
    {drvList : List Driver} {d : Driver} {lba : ℕ}
    (hdriver : recordedDriver disk numIdeDrives p n drvList = some (d, lba)) :
    ∃ e, numbered p n = some e ∧ lba = start e := by
  unfold recordedDriver at hdriver
  cases hrecorded : recordedPartition disk numIdeDrives p n with
  | none => simp [hrecorded] at hdriver
  | some e =>
      have hnumbered : numbered p n = some e :=
        (Option.filter_eq_some_iff.mp hrecorded).1
      simp only [hrecorded, Option.map_eq_some_iff, Prod.mk.injEq] at hdriver
      obtain ⟨_, _, _, rfl⟩ := hdriver
      exact ⟨e, hnumbered, rfl⟩

theorem fsRoot_eq {p : PartState} (hfilled : Filled p) (root : RootRoutine κ π)
    (n : ℤ) (s : FsState κ π) :
    fsRoot root p n s =
      match driverFor s.drvList (typeByteRead p n) with
      | none => .ok (fsDrvNotFound, s)
      | some d => callRoot root d (le32 (partitionNode p n) stLbaOffset) s := by
  cases hread : driverFor s.drvList (typeByteRead p n) with
  | none => simp only [fsRoot, partitionNode_typeByte hfilled, hread]
  | some d => simp only [fsRoot, partitionNode_typeByte hfilled, hread]

theorem rootsAsRecorded_of_typeByteFits {numIdeDrives : ℕ} {p : PartState}
    (hfilled : Filled p) {n : ℤ} {s : FsState κ π}
    (hfits : TypeByteFits disk numIdeDrives p n s.drvList) :
    RootsAsRecorded disk numIdeDrives p n s := by
  intro root
  rw [TypeByteFits, symbolsFor, ← recordedDriver_symbols] at hfits
  rw [fsRoot_eq hfilled]
  cases hread : driverFor s.drvList (typeByteRead p n) with
  | none =>
      rw [hread, Option.map_none, eq_comm, Option.map_eq_none_iff] at hfits
      rw [hfits]
  | some d =>
      rw [hread, Option.map_some, eq_comm, Option.map_eq_some_iff] at hfits
      obtain ⟨⟨d', lba⟩, hdriver, hsame⟩ := hfits
      obtain ⟨e, hnumbered, rfl⟩ := recordedDriver_start hdriver
      rw [hdriver, partitionNode_start hfilled hnumbered]
      exact callRoot_congr hsame.symm root (start e) s

theorem typeByteFits_of_rootsAsRecorded {numIdeDrives : ℕ} {p : PartState}
    (hfilled : Filled p) {n : ℤ} {s : FsState κ π}
    (hroots : RootsAsRecorded disk numIdeDrives p n s) :
    TypeByteFits disk numIdeDrives p n s.drvList := by
  have hrun := hroots (returning s.fsProp)
  rw [fsRoot_eq hfilled] at hrun
  rw [TypeByteFits, symbolsFor, ← recordedDriver_symbols]
  cases hread : driverFor s.drvList (typeByteRead p n) with
  | none =>
      cases hdriver : recordedDriver disk numIdeDrives p n s.drvList with
      | none => rfl
      | some x =>
          rw [hread, hdriver] at hrun
          simp [callRoot_returning, fsDrvFound, fsDrvNotFound] at hrun
  | some d =>
      cases hdriver : recordedDriver disk numIdeDrives p n s.drvList with
      | none =>
          rw [hread, hdriver] at hrun
          simp [callRoot_returning, fsDrvFound, fsDrvNotFound] at hrun
      | some x =>
          rw [hread, hdriver] at hrun
          simp only [callRoot_returning, Except.ok.injEq, Prod.mk.injEq, true_and,
            FsState.mk.injEq, and_true] at hrun
          rw [Option.map_some, Option.map_some, hrun]

/-- After a scan, `fs_root` does what the records of the scan ask for exactly
when the type byte it comes upon selects the routines it should. -/
theorem rootsAsRecorded_iff {numIdeDrives fuel : ℕ} {s₀ p : PartState}
    (hscan : readDiskPartitions disk numIdeDrives fuel s₀ = .ok p) (n : ℤ)
    (s : FsState κ π) :
    RootsAsRecorded disk numIdeDrives p n s ↔
      TypeByteFits disk numIdeDrives p n s.drvList := by
  have hfilled : Filled p := filled_readDiskPartitions hscan
  constructor
  · exact typeByteFits_of_rootsAsRecorded hfilled
  · exact rootsAsRecorded_of_typeByteFits hfilled

/-! ## A disk without partitions -/

def emptyDisk : Disk := ⟨fun _ _ => true, fun _ _ _ => 0⟩

theorem scan_emptyDisk (c : UInt8) :
    ∃ p, readDiskPartitions emptyDisk 1 1 (heapOf c) = .ok p ∧ p.saved = [] ∧
      p.partTemp typeByteOffset = c :=
  ⟨_, rfl, rfl, rfl⟩

def startedFs : FsState Unit ℕ := initFsModules ⟨1, 2, 3⟩ 0 ()

/-- The heap says that the empty node is an ext2 partition. -/
theorem unrecorded_partition_mounted :
    ∃ p, readDiskPartitions emptyDisk 1 1 (heapOf 0x83) = .ok p ∧
      ¬RootsAsRecorded emptyDisk 1 p 1 startedFs := by
  obtain ⟨p, hscan, hsaved, hbyte⟩ := scan_emptyDisk 0x83
  refine ⟨p, hscan, fun hroots => ?_⟩
  have hfits := typeByteFits_of_rootsAsRecorded
    (filled_readDiskPartitions hscan) hroots
  have hnumbered : numbered p 1 = none := by rw [numbered, hsaved]; rfl
  simp only [TypeByteFits, typeByteRead, recordedPartition, hnumbered, hbyte,
    Option.filter_none] at hfits
  cases hfits

/-! ## A recorded partition -/

/-- The first slot is an ext2 partition. -/
def linuxDisk : Disk := tableDisk fun n => if n = 0 then [(0x83, 63, 4096)] else []

def linuxScan : Except Fault PartState := readDiskPartitions linuxDisk 1 1 (heapOf 0xAA)

theorem linuxScan_records :
    ∃ p, linuxScan = .ok p ∧ (numbered p 1).map (fun e => (e.pe.type, start e)) =
        some (0x83, 63) ∧
      (numbered p 1).any (onDisk linuxDisk 1) = true := by
  have hany : linuxScan.toOption.any (fun p =>
      decide ((numbered p 1).map (fun e => (e.pe.type, start e)) = some (0x83, 63)) &&
        (numbered p 1).any (onDisk linuxDisk 1)) = true := by
    decide +kernel
  obtain ⟨p, hscan, hboth⟩ := exists_ok_of_any hany
  obtain ⟨hnumbered, hdisk⟩ := Bool.and_eq_true_iff.mp hboth
  exact ⟨p, hscan, of_decide_eq_true hnumbered, hdisk⟩

/-- The partition is mounted by the driver that is registered for its type. -/
theorem rootsAsRecorded_iff_linux :
    ∃ p, linuxScan = .ok p ∧
      (recordedDriver linuxDisk 1 p 1 startedFs.drvList).map (fun d => (d.1.symbols, d.2)) =
        some (⟨1, 2, 3⟩, 63) ∧
      RootsAsRecorded linuxDisk 1 p 1 startedFs := by
  obtain ⟨p, hscan, hentry, hdisk⟩ := linuxScan_records
  cases hnumbered : numbered p 1 with
  | none =>
      rw [hnumbered] at hentry
      cases hentry
  | some e =>
      rw [hnumbered] at hentry hdisk
      obtain ⟨htype, hstart⟩ := Prod.mk.inj (Option.some.inj hentry)
      have hrecorded : recordedPartition linuxDisk 1 p 1 = some e :=
        Option.filter_eq_some_iff.mpr ⟨hnumbered, hdisk⟩
      refine ⟨p, hscan, ?_, (rootsAsRecorded_iff hscan 1 startedFs).mpr ?_⟩
      · rw [recordedDriver, hrecorded]
        dsimp only at htype hstart ⊢
        rw [htype, hstart]
        rfl
      · refine typeByteFits_of_written startedFs.drvList hrecorded ?_
        rw [htype]
        rfl

end Fs
end Janus86
