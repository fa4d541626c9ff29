import Janus86.CommandSpecs
import Janus86.FsRoot

/-!
# Mounting without a file system

Neither `init_ext2` nor `init_fat32` is asked whether it could read a header:
`ext2_chdir` and `chdir_fat32` go on after it, and `fs_root` has installed the
driver before it calls it.  So `fs_root` never reports that a partition has no
file system of the driver.
-/

namespace Janus86
namespace Fs

open Janus86.Partition

/-- The header that the driver should find at the start of a partition cannot be
read or is not one. -/
def BadHeader (disk : Disk) : FsKind → ℕ → ℕ → Prop
  | .ext2, drive, lba =>
      ∀ buf, readDiskSector disk (fun _ => 0) drive
        ((lba + Ext2.superBlockOffset) % 2 ^ 32) 2 = some buf →
        le16 buf 56 ≠ Ext2.ext2Magic
  | .vfat, drive, lba =>
      ∀ buf, readDiskSector disk (fun _ => 0) drive lba 1 = some buf →
        le16 buf 510 ≠ 0xAA55

/-- `fs_root` reports failure, and what was mounted is as before. -/
def RefusesMount (k : Kernel) (p : PartState) (n : ℤ) (m : Machine) : Prop :=
  ∃ code m', fsRoot k.rootRoutine p n m = .ok (code, m') ∧ code ≠ fsDrvFound ∧
    m'.symbols = m.symbols ∧ m'.fsProp = m.fsProp ∧
    ∀ kind, m'.world.place kind = m.world.place kind

/-- Whatever stands in place of the header, `fs_root` does not refuse: where it
comes back, it has found the driver, which is installed and in that partition. -/
theorem fsRoot_never_refuses {k : Kernel} {p : PartState} {n : ℤ} {m : Machine}
    {kind : FsKind} {d : Driver}
    (hdriver : driverFor m.drvList (partitionNode p n typeByteOffset) = some d)
    (hkind : d.symbols = k.symbols kind)
    (_hbad : BadHeader k.disk kind 0 (le32 (partitionNode p n) stLbaOffset)) :
    ¬RefusesMount k p n m ∧
      ∀ code m', fsRoot k.rootRoutine p n m = .ok (code, m') →
        code = fsDrvFound ∧ m'.symbols = k.symbols kind ∧
          m'.world.place kind = ⟨0, le32 (partitionNode p n) stLbaOffset, 2⟩ := by
  constructor
  · rintro ⟨code, m', hok, hcode, _⟩
    exact hcode (fsRoot_of_driver hdriver hkind hok).1
  · intro code m' hok
    obtain ⟨hcode, hsymbols, listing, _, _, _, hplace, _⟩ :=
      fsRoot_of_driver hdriver hkind hok
    exact ⟨hcode, hsymbols, hplace⟩

/-! ## An empty partition -/

def emptyKernel : Kernel := kernelOn emptyDisk

/-- Only the vfat driver is registered, and nothing is mounted. -/
def vfatStarted : Machine where
  drvList := [⟨1, 0x0C, 0x20000, ascii "vfat", ⟨4, 5, 6⟩⟩]
  symbols := Symbols.null
  fsProp := .code 0
  world :=
    { ext2 := idleExt2
      vfat := ⟨⟨0, 0, 2⟩, ⟨0, 0, 0⟩, [blank], fun _ => ⟨fun _ => 0, fun _ => 0⟩⟩ }
  registered := 2

/-- One record, of a FAT32 partition. -/
def fatPartition : PartState :=
  { heapOf 0 with records := [fillNode 1 ⟨0x0C, 63, 4096⟩ 0 fun _ => 0] }

theorem vfatStarted_symbols :
    (⟨4, 5, 6⟩ : Symbols) = emptyKernel.symbols .vfat :=
  rfl

theorem vfatStarted_driver :
    driverFor vfatStarted.drvList (partitionNode fatPartition 1 typeByteOffset) =
      some ⟨1, 0x0C, 0x20000, ascii "vfat", ⟨4, 5, 6⟩⟩ :=
  rfl

theorem emptyDisk_badHeader (drive lba : ℕ) :
    BadHeader emptyDisk .vfat drive lba := by
  intro buf hread
  rw [readDiskSector_of_readable (fun _ => 0) fun _ _ => rfl,
    Option.some.injEq] at hread
  rw [← hread]
  simp [le16, emptyDisk]

/-- The partition has no boot sector, and `fs_root` mounts it. -/
theorem badBootSector_mounted :
    BadHeader emptyKernel.disk .vfat 0 63 ∧
      (∃ m', fsRoot emptyKernel.rootRoutine fatPartition 1 vfatStarted =
        .ok (fsDrvFound, m')) ∧
      ¬RefusesMount emptyKernel fatPartition 1 vfatStarted := by
  refine ⟨emptyDisk_badHeader 0 63, ⟨_, rfl⟩, ?_⟩
  rintro ⟨code, m', hok, hcode, _⟩
  exact hcode (fsRoot_of_driver vfatStarted_driver vfatStarted_symbols hok).1

theorem fsRoot_never_refuses_emptyDisk :
    ¬RefusesMount emptyKernel fatPartition 1 vfatStarted := by
  have hbad : BadHeader emptyKernel.disk .vfat 0
      (le32 (partitionNode fatPartition 1) stLbaOffset) :=
    emptyDisk_badHeader 0 _
  exact (fsRoot_never_refuses vfatStarted_driver vfatStarted_symbols hbad).1

end Fs
end Janus86
