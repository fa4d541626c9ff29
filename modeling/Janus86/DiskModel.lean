import Mathlib.Data.List.TakeWhile
import Mathlib.Tactic

/-!
# Disks, buffers and machine words

`read_disk_sector` hands its request to the ATA driver, which sends 28 bits
of the sector number to the drive.  A request that the drive refuses leaves
the buffer as it was.  Buffers are byte functions: a local array starts with
whatever its memory held before.
-/

namespace Janus86

/-- The contents of an array of bytes. -/
abbrev Buffer := ℕ → UInt8

/-- The IDE drives: which sectors can be read, and their bytes. -/
structure Disk where
  readable : ℕ → ℕ → Bool
  byte : ℕ → ℕ → ℕ → UInt8

/-- A disk, and the partition of it that a driver works on. -/
structure Volume where
  disk : Disk
  drive : ℕ
  lba : ℕ

/-- What stops the driver code from going on in a defined way. -/
inductive Fault where
  | outOfFuel
  | outOfBounds
  | nullPointer
  | divideByZero
  | badShift
  | signedOverflow
  deriving DecidableEq, Repr

/-- The sector that the drive is asked for: bits 28 to 31 are not sent. -/
def ataLba (lba : ℕ) : ℕ := lba % 2 ^ 28

/-- `read_disk_sector(buf, drive, lba, n)`: the new contents of the buffer,
or `none` for `IDE_ERR_IO_ERROR`. -/
def readDiskSector (disk : Disk) (buf : Buffer) (drive lba n : ℕ) :
    Option Buffer :=
  if ∀ i < n, disk.readable drive (ataLba lba + i) = true then
    some fun o =>
      if o < 512 * n then disk.byte drive (ataLba lba + o / 512) (o % 512)
      else buf o
  else none

/-- The bytes of a sector, as the drive delivers it. -/
def Volume.sector (vol : Volume) (n : ℕ) : Buffer :=
  fun o => vol.disk.byte vol.drive (ataLba n) o

/-- A little-endian `USHORT` at an offset of a buffer. -/
def le16 (buf : Buffer) (o : ℕ) : ℕ :=
  (buf o).toNat + 2 ^ 8 * (buf (o + 1)).toNat

/-- A little-endian `UINT` at an offset of a buffer. -/
def le32 (buf : Buffer) (o : ℕ) : ℕ := le16 buf o + 2 ^ 16 * le16 buf (o + 2)

/-- Subtraction of `unsigned int`s. -/
def sub32 (a b : ℕ) : ℕ := (a + (2 ^ 32 - b % 2 ^ 32)) % 2 ^ 32

/-- The `int` with the bits of an `unsigned int`. -/
def toInt32 (a : ℕ) : ℤ := (a : ℤ).bmod (2 ^ 32)

/-- The string that starts an array of characters. -/
def cString (bytes : List UInt8) : List UInt8 := bytes.takeWhile (· != 0)

theorem le16_lt (buf : Buffer) (o : ℕ) : le16 buf o < 2 ^ 16 := by
  have hlow := (buf o).toNat_lt
  have hhigh := (buf (o + 1)).toNat_lt
  simp only [le16]
  omega

theorem le32_lt (buf : Buffer) (o : ℕ) : le32 buf o < 2 ^ 32 := by
  have hlow := le16_lt buf o
  have hhigh := le16_lt buf (o + 2)
  simp only [le32]
  omega

theorem le16_congr {buf buf' : Buffer} {o : ℕ}
    (hsame : ∀ i, o ≤ i → i < o + 2 → buf' i = buf i) :
    le16 buf' o = le16 buf o := by
  simp only [le16]
  rw [hsame o (by omega) (by omega), hsame (o + 1) (by omega) (by omega)]

theorem le32_congr {buf buf' : Buffer} {o : ℕ}
    (hsame : ∀ i, o ≤ i → i < o + 4 → buf' i = buf i) :
    le32 buf' o = le32 buf o := by
  simp only [le32]
  rw [le16_congr fun i h h' => hsame i (by omega) (by omega),
    le16_congr fun i h h' => hsame i (by omega) (by omega)]

theorem cString_append_zero (name rest : List UInt8) :
    cString (name ++ 0 :: rest) = cString name := by
  induction name with
  | nil => rfl
  | cons c name ih =>
      simp only [cString] at ih ⊢
      rw [List.cons_append, List.takeWhile_cons, List.takeWhile_cons, ih]

theorem cString_eq_self_iff (bytes : List UInt8) :
    cString bytes = bytes ↔ ∀ c ∈ bytes, c ≠ 0 := by
  unfold cString
  rw [List.takeWhile_eq_self_iff]
  simp

theorem sub32_add {a b : ℕ} (ha : a < 2 ^ 32) :
    (sub32 a b + b) % 2 ^ 32 = a := by
  simp only [sub32]
  omega

theorem sub32_of_le {a b : ℕ} (hle : b ≤ a) (ha : a < 2 ^ 32) :
    sub32 a b = a - b := by
  simp only [sub32]
  omega

theorem toInt32_of_lt {a : ℕ} (ha : a < 2 ^ 31) : toInt32 a = a := by
  unfold toInt32
  apply Int.bmod_eq_of_le <;> omega

theorem toInt32_mod (a : ℕ) : toInt32 (a % 2 ^ 32) = (a : ℤ).bmod (2 ^ 32) := by
  unfold toInt32
  rw [Int.natCast_mod]
  exact Int.emod_bmod (a : ℤ) (2 ^ 32)

theorem ataLba_of_lt {lba : ℕ} (hlba : lba < 2 ^ 28) : ataLba lba = lba :=
  Nat.mod_eq_of_lt hlba

theorem readDiskSector_of_readable {disk : Disk} {drive lba n : ℕ}
    (buf : Buffer)
    (hread : ∀ i < n, disk.readable drive (ataLba lba + i) = true) :
    readDiskSector disk buf drive lba n = some fun o =>
      if o < 512 * n then disk.byte drive (ataLba lba + o / 512) (o % 512)
      else buf o :=
  if_pos hread

theorem readDiskSector_one {disk : Disk} {drive lba : ℕ} (buf : Buffer)
    (hread : disk.readable drive (ataLba lba) = true) :
    ∃ buf', readDiskSector disk buf drive lba 1 = some buf' ∧
      ∀ o < 512, buf' o = disk.byte drive (ataLba lba) o := by
  refine ⟨_, readDiskSector_of_readable buf ?_, ?_⟩
  · intro i hi
    have hzero : i = 0 := by omega
    rw [hzero]
    exact hread
  · intro o ho
    simp [ho, Nat.div_eq_of_lt ho, Nat.mod_eq_of_lt ho]

theorem readDiskSector_one_eq_none {disk : Disk} {drive lba : ℕ}
    (buf : Buffer) (hread : disk.readable drive (ataLba lba) = false) :
    readDiskSector disk buf drive lba 1 = none := by
  unfold readDiskSector
  rw [if_neg]
  intro hall
  have h := hall 0 (by omega)
  rw [Nat.add_zero, hread] at h
  contradiction

/-! ## Computations that can fail -/

theorem ok_bind {ε α β : Type} (a : α) (f : α → Except ε β) :
    (Except.ok a >>= f) = f a :=
  rfl

theorem error_bind {ε α β : Type} (e : ε) (f : α → Except ε β) :
    (Except.error e >>= f) = .error e :=
  rfl

theorem bind_eq_ok_iff {ε α β : Type} {x : Except ε α} {f : α → Except ε β}
    {b : β} : x >>= f = .ok b ↔ ∃ a, x = .ok a ∧ f a = .ok b := by
  cases x with
  | error e => simp [bind, Except.bind]
  | ok a => simp [bind, Except.bind]

theorem bind_eq_error_iff {ε α β : Type} {x : Except ε α} {f : α → Except ε β}
    {e : ε} : x >>= f = .error e ↔
      x = .error e ∨ ∃ a, x = .ok a ∧ f a = .error e := by
  cases x with
  | error e' => simp [bind, Except.bind]
  | ok a => simp [bind, Except.bind]

/-- A computation that can be run to a result with a property. -/
theorem exists_ok_of_any {ε α : Type} {x : Except ε α} {p : α → Bool}
    (hany : x.toOption.any p = true) : ∃ a, x = .ok a ∧ p a = true := by
  cases x with
  | error e => cases hany
  | ok a => exact ⟨a, rfl, hany⟩

end Janus86
