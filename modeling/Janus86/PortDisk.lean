import Janus86.AtaRoundTrip
import Janus86.PartitionScan
import Janus86.RequestPrograms

/-!
# The disk behind the ports

`read_disk_sector` programs the registers of a drive and takes its words from the data port.
The drives keep their words meanwhile, so that the ports are, for whatever is read through
them and in whatever order, one disk: the one that the file systems and the scan of the
partitions are about.  The requests are for one sector each: behind a sector a drive may be
busy again, and `read_sector` waits only in front of the first one.  No drive reports an
error.
-/

namespace Janus86
namespace Ata

open StepMachine RequestPrograms

/-! ## Words and bytes -/

/-- The bytes of words in the memory, the low one first. -/
def bytesOf (words : Words) : Buffer :=
  fun o => UInt8.ofNat ((words (o / 2)).toNat / 2 ^ (8 * (o % 2)))

/-- A buffer as `read_sector` takes it. -/
def wordsOf (buf : Buffer) : Words := fun i => BitVec.ofNat 16 (le16 buf (2 * i))

theorem bytesOf_wordsOf (buf : Buffer) : bytesOf (wordsOf buf) = buf := by
  funext o
  have hlow := (buf (2 * (o / 2))).toNat_lt
  have hhigh := (buf (2 * (o / 2) + 1)).toNat_lt
  apply UInt8.toNat_inj.mp
  rcases (by omega : o % 2 = 0 ∨ o % 2 = 1) with hparity | hparity
  · have ho : 2 * (o / 2) = o := by omega
    rw [ho] at hlow hhigh
    simp only [bytesOf, wordsOf, le16, hparity, ho, UInt8.toNat_ofNat', BitVec.toNat_ofNat]
    omega
  · have ho : 2 * (o / 2) + 1 = o := by omega
    rw [ho] at hhigh
    simp only [bytesOf, wordsOf, le16, hparity, ho, UInt8.toNat_ofNat', BitVec.toNat_ofNat]
    omega

/-- The disk that the drives hold. -/
def Drives.disk (d : Drives) : Disk where
  readable := fun _ _ => true
  byte := fun drive n o => bytesOf (d.words drive) (512 * n + o)

/-! ## A request -/

/-- A call of `read_disk_sector`. -/
structure ReadRequest where
  buf : Buffer
  drive : ℕ
  lba : ℕ
  numSectors : ℕ

def ReadRequest.answer (disk : Disk) (r : ReadRequest) : Option Buffer :=
  readDiskSector disk r.buf r.drive r.lba r.numSectors

/-- `read_disk_sector` at the ports; `none` is `IDE_ERR_IO_ERROR`. -/
def readDiskSectorAtPorts (fuel : ℕ) (r : ReadRequest) (d : Drives) :
    Option (Option Buffer × Drives) :=
  match readSector fuel (wordsOf r.buf) r.drive r.lba r.numSectors d with
  | none => none
  | some (code, words, d) =>
      some (if code = IDE_ERR_IO_ERROR then none else some (bytesOf words), d)

/-- A request for one sector of one of the two drives. -/
structure ReadRequest.Fits (r : ReadRequest) : Prop where
  drive : r.drive < 2
  numSectors : r.numSectors = 1

section Request

variable {driveNum lba numSectors fuel : ℕ} {d : Drives}

theorem lba_programmed_eq : (programmed driveNum lba numSectors d).lba = ataLba lba := by
  simp only [programmed, Drives.lba, ataLba]
  omega

theorem le_length_programmed (hle : numSectors ≤ 256) :
    256 * numSectors ≤ (programmed driveNum lba numSectors d).length := by
  have hlength : (programmed driveNum lba numSectors d).length =
      256 * if numSectors % 2 ^ 8 = 0 then 256 else numSectors % 2 ^ 8 := rfl
  rw [hlength]
  split <;> omega

/-- The drives behind a read. -/
def afterRead (driveNum lba numSectors : ℕ) (d : Drives) : Drives :=
  { programmed driveNum lba numSectors d with
    transfer := .reading (256 * ataLba lba + 256 * numSectors)
      ((programmed driveNum lba numSectors d).length - 256 * numSectors)
    waits := d.waits + 1 }

theorem readSector_spec (hdrive : driveNum < 2) (hle : numSectors ≤ 256) (wordbuf : Words)
    (hfuel : d.busy d.waits < fuel) :
    readSector fuel wordbuf driveNum lba numSectors d =
      some (IDE_ERR_NOERROR, overwrite wordbuf 0 (256 * numSectors)
        fun i => d.words driveNum (256 * ataLba lba + i),
        afterRead driveNum lba numSectors d) := by
  have hselected := @selected_programmed driveNum lba numSectors d hdrive
  have hrequest : request IDE_CMD_READ_SECTORS_RETRY driveNum lba numSectors d =
      { programmed driveNum lba numSectors d with
        transfer := .reading (256 * ataLba lba)
          (programmed driveNum lba numSectors d).length } := by
    rw [request_eq hdrive, ← @lba_programmed_eq driveNum lba numSectors d]
    rfl
  simp only [readSector, hrequest]
  rw [waitWhileBusy_of_lt (by exact hfuel)]
  simp only [ready_no_error, ne_eq, not_true_eq_false, if_false]
  rw [read_loop wordbuf (le_length_programmed hle) rfl (by exact hselected)]
  rfl

/-- The words that are read are the bytes of the sectors. -/
theorem bytesOf_overwrite (buf : Buffer) :
    bytesOf (overwrite (wordsOf buf) 0 (256 * numSectors)
        fun i => d.words driveNum (256 * ataLba lba + i)) =
      fun o =>
        if o < 512 * numSectors then d.disk.byte driveNum (ataLba lba + o / 512) (o % 512)
        else buf o := by
  funext o
  by_cases hin : o < 512 * numSectors
  · have hword : 256 * ataLba lba + o / 2 = (512 * (ataLba lba + o / 512) + o % 512) / 2 := by
      omega
    have hparity : (512 * (ataLba lba + o / 512) + o % 512) % 2 = o % 2 := by omega
    simp only [hin, if_true, Drives.disk, bytesOf, overwrite, hparity, ← hword, Nat.sub_zero]
    rw [if_pos (by omega)]
  · rw [if_neg hin, ← congrFun (bytesOf_wordsOf buf) o]
    simp only [bytesOf, overwrite]
    rw [if_neg (by omega)]

end Request

/-- The ports answer like the disk behind them, and leave it as it is. -/
theorem ports_serve (disk : Disk) :
    Program.Serves readDiskSectorAtPorts (ReadRequest.answer disk) ReadRequest.Fits
      (fun d => d.disk = disk) := by
  rintro r d ⟨hdrive, hone⟩ rfl
  have hle : r.numSectors ≤ 256 := by omega
  refine ⟨afterRead r.drive r.lba r.numSectors d, rfl, d.busy d.waits + 1,
    fun fuel hfuel => ?_⟩
  rw [readDiskSectorAtPorts, readSector_spec hdrive hle (wordsOf r.buf) hfuel]
  simp only [show IDE_ERR_NOERROR ≠ IDE_ERR_IO_ERROR by decide, if_false,
    bytesOf_overwrite, ReadRequest.answer]
  rw [readDiskSector_of_readable r.buf fun _ _ => rfl]

/-- Whatever sectors are read through the ports, one at a time, and however what is read
decides on what is read next, it is what the disk behind them holds, which does not
change. -/
theorem program_at_ports {α : Type} {p : Program ReadRequest (Option Buffer) α}
    (hp : p.Asks ReadRequest.Fits) (d : Drives) :
    ∃ d', d'.disk = d.disk ∧ ∃ enough, ∀ fuel, enough ≤ fuel →
      p.exec readDiskSectorAtPorts fuel d = some (p.run (ReadRequest.answer d.disk), d') :=
  Program.exec_eq_run (ports_serve d.disk) hp rfl

/-- Drives that are busy now and then, and whose sectors end in the word of a boot sector. -/
def numberedDrives : Drives :=
  { emptyDrives with
    words := fun drive i =>
      if i % 256 = 255 then 0xAA55 else numbers (drive + i)
    busy := fun i => i % 3 }

/-- The first sector of one drive names a sector of the other one. -/
def followProgram : Program ReadRequest (Option Buffer) (Option Buffer) :=
  .ask ⟨fun _ => 0, 0, 0, 1⟩ fun
    | none => .done none
    | some buf => .ask ⟨buf, 1, le32 buf 0, 1⟩ .done

theorem asks_followProgram : followProgram.Asks ReadRequest.Fits := by
  refine .ask ⟨by decide, rfl⟩ fun reply => ?_
  cases reply with
  | none => exact .done _
  | some buf => exact .ask ⟨show 1 < 2 by decide, rfl⟩ fun _ => .done _

theorem program_at_ports_follow :
    ∃ d', d'.disk = numberedDrives.disk ∧ ∃ enough, ∀ fuel, enough ≤ fuel →
      followProgram.exec readDiskSectorAtPorts fuel numberedDrives =
        some (followProgram.run (ReadRequest.answer numberedDrives.disk), d') :=
  program_at_ports asks_followProgram numberedDrives

/-! ## The scan of the partitions -/

section Scan

open Janus86.Partition
open RequestPrograms.Program (bindOk foldOk)

abbrev ScanProgram : Type := Program ReadRequest (Option Buffer) (Except Fault PartState)

/-- One sector into an array of the stack. -/
def askSector (drive lba : ℕ) (rest : Option Buffer → ScanProgram) : ScanProgram :=
  .ask ⟨fun _ => 0, drive, lba, 1⟩ rest

def readMbrProgram (drive : ℕ) (s : PartState) : ScanProgram :=
  askSector drive 0 fun
    | none => .done (.ok { s.dropBlock with bslist := staleSector (s.fresh 0) })
    | some buf => .done (.ok { s.dropBlock with bslist := bootSectorOf buf })

def getBootSectorProgram (drive extlba : ℕ) : ℕ → ℕ → PartState → ScanProgram
  | 0, _, _ => .done (.error .outOfFuel)
  | fuel + 1, lba, s =>
      askSector drive lba fun
        | none => .done (.ok { s.dropBlock with temp := staleSector (s.fresh 0) })
        | some buf =>
            let bs := bootSectorOf buf
            let s := { s.dropBlock with temp := bs }
            if bs.signature = mbrSignature then
              let s := savePartProps (bs.part 0) lba
                { s with booted := s.booted ++ [(drive, ataLba lba)] }
              if (bs.part 1).type ≠ 0 then
                getBootSectorProgram drive extlba fuel (nextBoot bs extlba) s
              else .done (.ok s)
            else .done (.ok s)

def checkIfExtendedProgram (drive fuel : ℕ) (s : PartState) (i : ℕ) : ScanProgram :=
  let pe := s.temp.part i
  if isExtended pe.type then getBootSectorProgram drive pe.startLba fuel pe.startLba s
  else .done (.ok s)

def scanDriveProgram (fuel : ℕ) (s : PartState) (drive : ℕ) : ScanProgram :=
  (readMbrProgram drive s).bindOk fun s =>
    let s := traversePrimaryPartitions s
    foldOk (checkIfExtendedProgram drive fuel) (List.range 4) { s with temp := s.bslist }

/-- `read_disk_partitions` as a program for the ports. -/
def readDiskPartitionsProgram (numIdeDrives fuel : ℕ) (s : PartState) : ScanProgram :=
  foldOk (scanDriveProgram fuel) (List.range numIdeDrives) (emptyList s)

variable (disk : Disk)

theorem run_readMbrProgram (drive : ℕ) (s : PartState) :
    (readMbrProgram drive s).run (ReadRequest.answer disk) = .ok (readMbr disk drive s) := by
  simp only [readMbrProgram, askSector, Program.run, ReadRequest.answer, readMbr]
  cases readDiskSector disk (fun _ => 0) drive 0 1 <;> rfl

theorem run_getBootSectorProgram (drive extlba fuel : ℕ) (lba : ℕ) (s : PartState) :
    (getBootSectorProgram drive extlba fuel lba s).run (ReadRequest.answer disk) =
      getBootSector disk drive extlba fuel lba s := by
  induction fuel generalizing lba s with
  | zero => rfl
  | succ fuel ih =>
      simp only [getBootSectorProgram, askSector, Program.run, ReadRequest.answer, getBootSector]
      cases readDiskSector disk (fun _ => 0) drive lba 1 with
      | none => rfl
      | some buf =>
          dsimp only
          by_cases hsigned : (bootSectorOf buf).signature = mbrSignature
          · rw [if_pos hsigned, if_pos hsigned]
            by_cases hnext : ((bootSectorOf buf).part 1).type ≠ 0
            · rw [if_pos hnext, if_pos hnext]
              exact ih _ _
            · rw [if_neg hnext, if_neg hnext]
              rfl
          · rw [if_neg hsigned, if_neg hsigned]
            rfl

theorem run_checkIfExtendedProgram (drive fuel : ℕ) (s : PartState) (i : ℕ) :
    (checkIfExtendedProgram drive fuel s i).run (ReadRequest.answer disk) =
      checkIfExtended disk drive fuel s i := by
  unfold checkIfExtendedProgram checkIfExtended
  by_cases hextended : isExtended (s.temp.part i).type = true
  · rw [if_pos hextended, if_pos hextended]
    exact run_getBootSectorProgram disk drive _ fuel _ s
  · rw [if_neg hextended, if_neg hextended]
    rfl

/-- On a disk the program is the scan. -/
theorem run_readDiskPartitionsProgram (numIdeDrives fuel : ℕ) (s : PartState) :
    (readDiskPartitionsProgram numIdeDrives fuel s).run (ReadRequest.answer disk) =
      readDiskPartitions disk numIdeDrives fuel s := by
  have hdrive : ∀ s drive, (scanDriveProgram fuel s drive).run (ReadRequest.answer disk) =
      scanDrive disk fuel s drive := by
    intro s drive
    rw [scanDriveProgram, Program.run_bindOk, run_readMbrProgram, ok_bind,
      Program.run_foldOk]
    simp only [run_checkIfExtendedProgram]
    rfl
  rw [readDiskPartitionsProgram, Program.run_foldOk]
  simp only [hdrive]
  rfl

theorem asks_getBootSectorProgram {drive : ℕ} (hdrive : drive < 2) (extlba fuel lba : ℕ)
    (s : PartState) : (getBootSectorProgram drive extlba fuel lba s).Asks ReadRequest.Fits := by
  induction fuel generalizing lba s with
  | zero => exact .done _
  | succ fuel ih =>
      refine .ask ⟨hdrive, rfl⟩ fun reply => ?_
      cases reply with
      | none => exact .done _
      | some buf =>
          dsimp only
          split
          · split
            · exact ih _ _
            · exact .done _
          · exact .done _

theorem asks_readDiskPartitionsProgram {numIdeDrives : ℕ} (hnum : numIdeDrives ≤ 2)
    (fuel : ℕ) (s : PartState) :
    (readDiskPartitionsProgram numIdeDrives fuel s).Asks ReadRequest.Fits := by
  refine Program.Asks.foldOk (fun drive hmem s => ?_) _
  have hdrive : drive < 2 := (List.mem_range.mp hmem).trans_le hnum
  refine Program.Asks.bindOk (.ask ⟨hdrive, rfl⟩ fun reply => ?_)
    fun s => Program.Asks.foldOk (fun i _ s => ?_) _
  · cases reply <;> exact .done _
  · rw [checkIfExtendedProgram]
    by_cases hextended : isExtended (s.temp.part i).type = true
    · rw [if_pos hextended]
      exact asks_getBootSectorProgram hdrive _ fuel _ s
    · rw [if_neg hextended]
      exact .done _

/-- Through the ports of drives that report no error the scan finds what it finds on the
disk behind them. -/
theorem scan_at_ports (d : Drives) {numIdeDrives : ℕ} (hnum : numIdeDrives ≤ 2)
    (fuel : ℕ) (s : PartState) :
    ∃ d', d'.disk = d.disk ∧ ∃ enough, ∀ waits, enough ≤ waits →
      (readDiskPartitionsProgram numIdeDrives fuel s).exec readDiskSectorAtPorts waits d =
        some (readDiskPartitions d.disk numIdeDrives fuel s, d') := by
  rw [← run_readDiskPartitionsProgram]
  exact Program.exec_eq_run (ports_serve d.disk) (asks_readDiskPartitionsProgram hnum fuel s) rfl

theorem scan_at_ports_both :
    ∃ d', d'.disk = numberedDrives.disk ∧ ∃ enough, ∀ waits, enough ≤ waits →
      (readDiskPartitionsProgram 2 5 (heapOf 0)).exec readDiskSectorAtPorts waits numberedDrives =
        some (readDiskPartitions numberedDrives.disk 2 5 (heapOf 0), d') :=
  scan_at_ports numberedDrives le_rfl 5 (heapOf 0)

end Scan

end Ata
end Janus86
