import Janus86.StepMachine

/-!
# The ATA driver

`hd.c` talks to the IDE drives through their ports.  The drives are idealised here: a
write command stores the words that the data port gets then, a read command gives back
what is stored, and the status register shows that a drive is busy as often as it likes
before it is ready.  `x86.h` declares neither `outportw` nor `inportw`, and
`write_sector` calls `outportw` with the port alone and stores what the call seems to
return.
-/

namespace Janus86
namespace Ata

open StepMachine

def IDE_DATA_PORT : ℕ := 0x1F0
def IDE_SECTOR_COUNT : ℕ := 0x1F2
def IDE_SECTOR_NUMBER : ℕ := 0x1F3
def IDE_CYLINDER_LOW : ℕ := 0x1F4
def IDE_CYLINDER_HIGH : ℕ := 0x1F5
def IDE_DRIVE_HEAD : ℕ := 0x1F6
def IDE_COMMAND : ℕ := 0x1F7

def IDE_CMD_READ_SECTORS_RETRY : ℕ := 0x20
def IDE_CMD_WRITE_SECTORS_RETRY : ℕ := 0x30

def IDE_STATUS_BUSY : ℕ := 0x80
def IDE_STATUS_READY : ℕ := 0x40
def IDE_STATUS_DATA_REQUEST : ℕ := 0x08
def IDE_STATUS_ERROR : ℕ := 0x01

def IDE_ERR_NOERROR : ℤ := 0x01
def IDE_ERR_IO_ERROR : ℤ := -1

def IDE_DRIVE0 : ℕ := 0xE0
def IDE_DRIVE1 : ℕ := 0xF0

def LBA_LOW_BYTE (x : ℕ) : ℕ := x &&& 0xFF
def LBA_HIGH_BYTE (x : ℕ) : ℕ := (x >>> 8) &&& 0xFF
def LBA_EXTENDED_LOW_BYTE (x : ℕ) : ℕ := (x >>> 16) &&& 0xFF
def LBA_EXTENDED_HIGH_BYTE (x : ℕ) : ℕ := (x >>> 24) &&& 0xFF &&& 0x0F

abbrev Words := ℕ → BitVec 16

/-- What a drive does with its data port: from which word on, and for how many words. -/
inductive Transfer where
  | none
  | reading (word left : ℕ)
  | writing (word left : ℕ)
  deriving DecidableEq, Repr

/-- The drives behind the ports: the registers, the current transfer, the words of each
drive, and how many reads of the status register see them busy in each wait. -/
structure Drives where
  sectorCount : ℕ
  sectorNumber : ℕ
  cylinderLow : ℕ
  cylinderHigh : ℕ
  driveHead : ℕ
  transfer : Transfer
  words : ℕ → Words
  busy : ℕ → ℕ
  waits : ℕ

/-! ## The drives -/

/-- The drive that is selected by bit 4 of the drive and head register. -/
def Drives.selected (d : Drives) : ℕ := d.driveHead / 16 % 2

def Drives.lba (d : Drives) : ℕ :=
  d.sectorNumber + 2 ^ 8 * d.cylinderLow + 2 ^ 16 * d.cylinderHigh +
    2 ^ 24 * (d.driveHead % 16)

/-- The words of the sectors that are asked for; a count of 0 stands for 256 sectors. -/
def Drives.length (d : Drives) : ℕ :=
  256 * if d.sectorCount = 0 then 256 else d.sectorCount

def Drives.command (d : Drives) (command : ℕ) : Drives :=
  if command = IDE_CMD_READ_SECTORS_RETRY then
    { d with transfer := .reading (256 * d.lba) d.length }
  else if command = IDE_CMD_WRITE_SECTORS_RETRY then
    { d with transfer := .writing (256 * d.lba) d.length }
  else d

/-- `outb`: the low byte of the value gets to the port. -/
def outportb (port val : ℕ) (d : Drives) : Drives :=
  let byte := val % 2 ^ 8
  if port = IDE_SECTOR_COUNT then { d with sectorCount := byte }
  else if port = IDE_SECTOR_NUMBER then { d with sectorNumber := byte }
  else if port = IDE_CYLINDER_LOW then { d with cylinderLow := byte }
  else if port = IDE_CYLINDER_HIGH then { d with cylinderHigh := byte }
  else if port = IDE_DRIVE_HEAD then { d with driveHead := byte }
  else if port = IDE_COMMAND then d.command byte
  else d

/-- `outw`: a word for the data port is stored when the drive waits for one. -/
def outportw (port : ℕ) (val : BitVec 16) (d : Drives) : Drives :=
  if port = IDE_DATA_PORT then
    match d.transfer with
    | .writing word (left + 1) =>
        { d with
          words := Function.update d.words d.selected
            (Function.update (d.words d.selected) word val)
          transfer := .writing (word + 1) left }
    | _ => d
  else d

/-- `inw`: the data port gives the next word when there is one to read. -/
def inportw (port : ℕ) (d : Drives) : BitVec 16 × Drives :=
  if port = IDE_DATA_PORT then
    match d.transfer with
    | .reading word (left + 1) =>
        (d.words d.selected word, { d with transfer := .reading (word + 1) left })
    | _ => (0, d)
  else (0, d)

/-- The status register, after so many reads of it in the current wait. -/
def status (d : Drives) (reads : ℕ) : ℕ :=
  if reads < d.busy d.waits then IDE_STATUS_BUSY
  else IDE_STATUS_READY ||| IDE_STATUS_DATA_REQUEST

/-! ## The driver -/

/-- The register writes with which both functions begin. -/
def request (command driveNum lba numSectors : ℕ) (d : Drives) : Drives :=
  let d := outportb IDE_SECTOR_COUNT numSectors d
  let d := outportb IDE_SECTOR_NUMBER (LBA_LOW_BYTE lba) d
  let d := outportb IDE_CYLINDER_LOW (LBA_HIGH_BYTE lba) d
  let d := outportb IDE_CYLINDER_HIGH (LBA_EXTENDED_LOW_BYTE lba) d
  let d :=
    if driveNum = 0 then
      outportb IDE_DRIVE_HEAD (IDE_DRIVE0 ||| LBA_EXTENDED_HIGH_BYTE lba) d
    else if driveNum = 1 then
      outportb IDE_DRIVE_HEAD (IDE_DRIVE1 ||| LBA_EXTENDED_HIGH_BYTE lba) d
    else d
  outportb IDE_COMMAND command d

/-- A turn of `while (inportb(IDE_STATUS) & IDE_STATUS_BUSY);`. -/
def waitTurn (d : Drives) (reads : ℕ) : Turn ℕ ℕ :=
  if status d reads &&& IDE_STATUS_BUSY ≠ 0 then .next (reads + 1) else .stop (reads + 1)

/-- The wait, and what the next read of the status register sees. -/
def waitWhileBusy (fuel : ℕ) (d : Drives) : Option (ℕ × Drives) :=
  match runFuel (waitTurn d) fuel 0 with
  | none => none
  | some reads => some (status d reads, { d with waits := d.waits + 1 })

def readSector (fuel : ℕ) (wordbuf : Words) (driveNum lba numSectors : ℕ) (d : Drives) :
    Option (ℤ × Words × Drives) :=
  let d := request IDE_CMD_READ_SECTORS_RETRY driveNum lba numSectors d
  match waitWhileBusy fuel d with
  | none => none
  | some (status, d) =>
      if status &&& IDE_STATUS_ERROR ≠ 0 then some (IDE_ERR_IO_ERROR, wordbuf, d)
      else
        let read := (List.range (256 * numSectors)).foldl (fun (buf, d) i =>
          let (word, d) := inportw IDE_DATA_PORT d
          (Function.update buf i word, d)) (wordbuf, d)
        some (IDE_ERR_NOERROR, read)

/-- The calls of `outportw` without their second argument: the word that is found in its
place and sent, and the word that each call leaves in the register of the result. -/
structure Stray where
  sent : Words
  left : Words

def writeSector (stray : Stray) (fuel : ℕ) (wordbuf : Words) (driveNum lba numSectors : ℕ)
    (d : Drives) : Option (ℤ × Words × Drives) :=
  let d := request IDE_CMD_WRITE_SECTORS_RETRY driveNum lba numSectors d
  match waitWhileBusy fuel d with
  | none => none
  | some (_, d) =>
      let (buf, d) := (List.range (256 * numSectors)).foldl (fun (buf, d) i =>
        (Function.update buf i (stray.left i), outportw IDE_DATA_PORT (stray.sent i) d))
        (wordbuf, d)
      match waitWhileBusy fuel d with
      | none => none
      | some (status, d) =>
          if status &&& IDE_STATUS_ERROR ≠ 0 then some (IDE_ERR_IO_ERROR, buf, d)
          else some (IDE_ERR_NOERROR, buf, d)

end Ata
end Janus86
