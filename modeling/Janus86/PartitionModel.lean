import Janus86.DiskModel

/-!
# Partition tables

The definitions follow `diskio.c`.  A record of the partition list is a block
that `kmalloc` returned, with whatever it held before: only some of its fields
are written for every partition, and the longest of the type names runs over
the field behind it.  The walk along an extended partition and the walk over
the slots of the MBR share the pointer `temp`.

`saved` and `booted` are no variables of the source: they tell what was put
into the records, and which extended boot sectors were.
-/

namespace Janus86
namespace Partition

/-! ## Boot sectors -/

/-- What is used of a `partition_entry`. -/
structure Slot where
  type : UInt8
  startLba : ℕ
  numSec : ℕ
  deriving DecidableEq

structure BootSector where
  part : ℕ → Slot
  signature : ℕ

def mbrSignature : ℕ := 0xAA55

/-- The entry at an offset. -/
def slotAt (buf : Buffer) (o : ℕ) : Slot where
  type := buf (o + 4)
  startLba := le32 buf (o + 8)
  numSec := le32 buf (o + 12)

/-- What is taken from a sector into a `struct bootsector`. -/
def bootSectorOf (buf : Buffer) : BootSector where
  part := fun i => slotAt buf (446 + i * 16)
  signature := le16 buf 510

/-- A `struct bootsector` in a block that was not filled: the entries hold words, so that
`part` is aligned and lies two bytes further back than in a sector. -/
def staleSector (block : Buffer) : BootSector where
  part := fun i => slotAt block (448 + i * 16)
  signature := le16 block 512

/-! ## Records -/

/-- Bytes over those of a buffer. -/
def putBytes (buf : Buffer) (o : ℕ) (bytes : List UInt8) : Buffer :=
  fun i => if o ≤ i ∧ i < o + bytes.length then bytes.getD (i - o) 0 else buf i

/-- A 32-bit word over the bytes of a buffer. -/
def put32 (buf : Buffer) (o v : ℕ) : Buffer :=
  putBytes buf o
    ((List.range 4).map fun j => UInt8.ofNat (v / 256 ^ j))

/-- The offsets of `struct part_props`. -/
def nameOffset : ℕ := 0

def typeByteOffset : ℕ := 4

def typeOffset : ℕ := 5

def stLbaOffset : ℕ := 16

def partSizeOffset : ℕ := 20

/-- The cases of the `switch` in `save_part_props`. -/
def typeNames : List (UInt8 × String) :=
  [(0x00, "Unknown"),
   (0x01, "DOS_FAT12"),
   (0x04, "DOS3_FAT16"),
   (0x05, "DOS3_Extended"),
   (0x06, "DOS4_FAT16"),
   (0x07, "NTFS"),
   (0x0B, "FAT32"),
   (0x0C, "FAT32"),
   (0x0E, "FAT16"),
   (0x0F, "Win95_Ext"),
   (0x82, "Lin Swap"),
   (0x83, "LINUX"),
   (0x85, "Linux Ext"),
   (0x93, "LINUX"),
   (0xA5, "BSD_386"),
   (0xA6, "OpenBSD"),
   (0xA9, "NetBSD"),
   (0xC2, "LINUX")]

def ascii (text : String) : List UInt8 :=
  text.toList.map fun c => UInt8.ofNat c.toNat

/-- `strcpy(part_temp->type, ...)`: a type without a name leaves the field as
it is, and a name of more than 10 characters goes on behind it. -/
def putTypeName (node : Buffer) (type : UInt8) : Buffer :=
  match typeNames.lookup type with
  | none => node
  | some text => putBytes node typeOffset (ascii text ++ [0])

/-- The types with a driver of their own, for which `type_byte` is written. -/
def isLinux (type : UInt8) : Bool := type == 0x93 || type == 0x83

def isFat32 (type : UInt8) : Bool := type == 0x0C || type == 0x0B

/-- What `save_part_props` writes into its node. -/
def fillNode (partIn : ℕ) (pe : Slot) (lba : ℕ) (node : Buffer) : Buffer :=
  let node := put32 node nameOffset partIn
  let node := putTypeName node pe.type
  let node := put32 node stLbaOffset (lba + pe.startLba)
  let node :=
    if isLinux pe.type || isFat32 pe.type then
      putBytes node typeByteOffset [pe.type]
    else node
  put32 node partSizeOffset (pe.numSec / 2048)

/-! ## The scan -/

/-- What was put into a record: the entry, the base of its address, the number
and the old contents of the node. -/
structure Saved where
  pe : Slot
  lba : ℕ
  partIn : ℕ
  block : Buffer

/-- The globals of the scan; `fresh` are the blocks that `kmalloc` will
return. -/
structure PartState where
  partIn : ℕ
  records : List Buffer
  partTemp : Buffer
  fresh : ℕ → Buffer
  currentLba : ℕ
  bslist : BootSector
  temp : BootSector
  saved : List Saved
  booted : List (ℕ × ℕ)

def PartState.dropBlock (s : PartState) : PartState :=
  { s with fresh := fun k => s.fresh (k + 1) }

/-- `read_mbr`: a block that is not filled keeps what it held. -/
def readMbr (disk : Disk) (drive : ℕ) (s : PartState) : PartState :=
  match readDiskSector disk (fun _ => 0) drive 0 1 with
  | none => { s.dropBlock with bslist := staleSector (s.fresh 0) }
  | some buf => { s.dropBlock with bslist := bootSectorOf buf }

def savePartProps (pe : Slot) (lba : ℕ) (s : PartState) : PartState :=
  { s.dropBlock with
    partIn := s.partIn + 1
    records := s.records ++ [fillNode s.partIn pe lba s.partTemp]
    partTemp := s.fresh 0
    currentLba :=
      if isLinux pe.type then (lba + pe.startLba) % 2 ^ 32 else s.currentLba
    saved := s.saved ++ [⟨pe, lba, s.partIn, s.partTemp⟩] }

/-- `traverse_primary_partitions`; nobody looks at its code. -/
def traversePrimaryPartitions (s : PartState) : PartState :=
  if s.bslist.signature = mbrSignature then
    (List.range 4).foldl (fun s' i => savePartProps (s.bslist.part i) 0 s') s
  else s

/-- The link of an extended boot sector. -/
def nextBoot (bs : BootSector) (extlba : ℕ) : ℕ :=
  ((bs.part 1).startLba + extlba) % 2 ^ 32

/-- `get_boot_sector`; nobody looks at its code. -/
def getBootSector (disk : Disk) (drive extlba : ℕ) :
    ℕ → ℕ → PartState → Except Fault PartState
  | 0, _, _ => .error .outOfFuel
  | fuel + 1, lba, s =>
      match readDiskSector disk (fun _ => 0) drive lba 1 with
      | none => .ok { s.dropBlock with temp := staleSector (s.fresh 0) }
      | some buf =>
          let bs := bootSectorOf buf
          let s := { s.dropBlock with temp := bs }
          if bs.signature = mbrSignature then
            let s := savePartProps (bs.part 0) lba
              { s with booted := s.booted ++ [(drive, ataLba lba)] }
            if (bs.part 1).type ≠ 0 then
              getBootSector disk drive extlba fuel (nextBoot bs extlba) s
            else .ok s
          else .ok s

def isExtended (type : UInt8) : Bool :=
  type == 0x05 || type == 0x0F || type == 0x85

/-- `check_if_extended` for a slot of the boot sector that `temp` points to. -/
def checkIfExtended (disk : Disk) (drive fuel : ℕ) (s : PartState) (i : ℕ) :
    Except Fault PartState :=
  let pe := s.temp.part i
  if isExtended pe.type then
    getBootSector disk drive pe.startLba fuel pe.startLba s
  else .ok s

def traverseExtendedPartitions (disk : Disk) (drive fuel : ℕ) (s : PartState) :
    Except Fault PartState :=
  (List.range 4).foldlM (checkIfExtended disk drive fuel)
    { s with temp := s.bslist }

/-- The loop of `read_disk_partitions` for one drive. -/
def scanDrive (disk : Disk) (fuel : ℕ) (s : PartState) (drive : ℕ) :
    Except Fault PartState :=
  traverseExtendedPartitions disk drive fuel
    (traversePrimaryPartitions (readMbr disk drive s))

/-- The state before the loop: one empty node. -/
def emptyList (s : PartState) : PartState :=
  { s.dropBlock with
    partIn := 1
    records := []
    partTemp := s.fresh 0
    saved := []
    booted := [] }

def readDiskPartitions (disk : Disk) (numIdeDrives fuel : ℕ) (s : PartState) :
    Except Fault PartState :=
  (List.range numIdeDrives).foldlM (scanDrive disk fuel) (emptyList s)

end Partition
end Janus86
