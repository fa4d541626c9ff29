import Janus86.AtaModel

/-!
# Sectors that are written and read back

Both functions ask for the same words of the same drive.  What `write_sector` sends is
what the calls of `outportw` find in the place of their second argument, and what it
leaves in the buffer is what they seem to return, so the sectors come back as they were,
and the buffer stays as it was, exactly when both happen to be the words of the buffer.
-/

namespace Janus86
namespace Ata

open StepMachine

/-- Both functions return without an error, the words that were written are read back, and
writing them leaves the buffer alone. -/
def RoundTrips (stray : Stray) (wordbuf other : Words) (driveNum lba numSectors : ℕ)
    (d : Drives) : Prop :=
  ∃ written d' read d'', (∃ enough, ∀ fuel, enough ≤ fuel →
      writeSector stray fuel wordbuf driveNum lba numSectors d =
        some (IDE_ERR_NOERROR, written, d') ∧
      readSector fuel other driveNum lba numSectors d' =
        some (IDE_ERR_NOERROR, read, d'')) ∧
    (∀ i < 256 * numSectors, read i = wordbuf i) ∧ written = wordbuf

/-- `n` words from `start` on are replaced. -/
def overwrite (words : Words) (start n : ℕ) (source : Words) : Words :=
  fun word => if start ≤ word ∧ word < start + n then source (word - start) else words word

variable {driveNum lba numSectors fuel : ℕ} {d : Drives}

/-! ## The registers -/

theorem and_255 (x : ℕ) : x &&& 0xFF = x % 2 ^ 8 := Nat.and_two_pow_sub_one_eq_mod x 8

theorem and_15 (x : ℕ) : x &&& 0x0F = x % 2 ^ 4 := Nat.and_two_pow_sub_one_eq_mod x 4

/-- The drive and head register. -/
theorem driveHead_eq (hdrive : driveNum < 2) {head : ℕ} (hhead : head < 16) :
    (if driveNum = 0 then IDE_DRIVE0 ||| head else IDE_DRIVE1 ||| head) =
      0xE0 + 16 * driveNum + head := by
  have hzero : ∀ head < 16, IDE_DRIVE0 ||| head = 0xE0 + head := by decide
  have hone : ∀ head < 16, IDE_DRIVE1 ||| head = 0xF0 + head := by decide
  by_cases hdriveNum : driveNum = 0
  · rw [if_pos hdriveNum, hzero head hhead, hdriveNum]
  · rw [if_neg hdriveNum, hone head hhead]
    omega

/-- The registers as both functions program them. -/
def programmed (driveNum lba numSectors : ℕ) (d : Drives) : Drives :=
  { d with
    sectorCount := numSectors % 2 ^ 8
    sectorNumber := lba % 2 ^ 8
    cylinderLow := lba / 2 ^ 8 % 2 ^ 8
    cylinderHigh := lba / 2 ^ 16 % 2 ^ 8
    driveHead := 0xE0 + 16 * driveNum + lba / 2 ^ 24 % 2 ^ 4 }

section Registers

variable (val : ℕ)

@[simp] theorem outportb_sectorCount :
    outportb IDE_SECTOR_COUNT val d = { d with sectorCount := val % 2 ^ 8 } := rfl

@[simp] theorem outportb_sectorNumber :
    outportb IDE_SECTOR_NUMBER val d = { d with sectorNumber := val % 2 ^ 8 } := rfl

@[simp] theorem outportb_cylinderLow :
    outportb IDE_CYLINDER_LOW val d = { d with cylinderLow := val % 2 ^ 8 } := rfl

@[simp] theorem outportb_cylinderHigh :
    outportb IDE_CYLINDER_HIGH val d = { d with cylinderHigh := val % 2 ^ 8 } := rfl

@[simp] theorem outportb_driveHead :
    outportb IDE_DRIVE_HEAD val d = { d with driveHead := val % 2 ^ 8 } := rfl

@[simp] theorem outportb_command :
    outportb IDE_COMMAND val d = d.command (val % 2 ^ 8) := rfl

end Registers

theorem request_eq (hdrive : driveNum < 2) (command : ℕ) :
    request command driveNum lba numSectors d =
      (programmed driveNum lba numSectors d).command (command % 2 ^ 8) := by
  have hnibble : lba / 2 ^ 24 % 2 ^ 4 < 16 := Nat.mod_lt _ (by decide)
  have hhead := driveHead_eq hdrive hnibble
  have hbyte : LBA_EXTENDED_HIGH_BYTE lba = lba / 2 ^ 24 % 2 ^ 4 := by
    rw [LBA_EXTENDED_HIGH_BYTE, and_255, and_15, Nat.shiftRight_eq_div_pow]
    omega
  have hfits : (0xE0 + 16 * driveNum + lba / 2 ^ 24 % 2 ^ 4) % 2 ^ 8 =
      0xE0 + 16 * driveNum + lba / 2 ^ 24 % 2 ^ 4 := Nat.mod_eq_of_lt (by omega)
  simp only [request, outportb_sectorCount, outportb_sectorNumber, outportb_cylinderLow,
    outportb_cylinderHigh, outportb_driveHead, outportb_command, hbyte, programmed,
    LBA_LOW_BYTE, LBA_HIGH_BYTE, LBA_EXTENDED_LOW_BYTE, and_255, Nat.shiftRight_eq_div_pow,
    Nat.mod_mod]
  rcases (by omega : driveNum = 0 ∨ driveNum = 1) with rfl | rfl
  · rw [if_pos rfl] at hhead ⊢
    rw [hhead, hfits]
  · rw [if_neg (by decide)] at hhead ⊢
    rw [if_pos rfl, hhead, hfits]

/-- The drive finds the address and the count again. -/
theorem lba_programmed (hlba : lba < 2 ^ 28) :
    (programmed driveNum lba numSectors d).lba = lba := by
  simp only [programmed, Drives.lba]
  omega

theorem selected_programmed (hdrive : driveNum < 2) :
    (programmed driveNum lba numSectors d).selected = driveNum := by
  simp only [programmed, Drives.selected]
  omega

theorem length_programmed (hpos : 1 ≤ numSectors) (hle : numSectors ≤ 255) :
    (programmed driveNum lba numSectors d).length = 256 * numSectors := by
  have hcount : numSectors % 2 ^ 8 = numSectors := Nat.mod_eq_of_lt (by omega)
  simp only [programmed, Drives.length, hcount]
  rw [if_neg (by omega)]

/-! ## The waits -/

def READY : ℕ := IDE_STATUS_READY ||| IDE_STATUS_DATA_REQUEST

theorem runFuel_waitTurn (hfuel : d.busy d.waits < fuel) :
    runFuel (waitTurn d) fuel 0 = some (d.busy d.waits + 1) := by
  refine runFuel_count (fun reads hreads => ?_) ?_ (Nat.zero_le (d.busy d.waits)) hfuel
  · simp [waitTurn, status, hreads, IDE_STATUS_BUSY]
  · simp [waitTurn, status, IDE_STATUS_BUSY, IDE_STATUS_READY, IDE_STATUS_DATA_REQUEST]

theorem waitWhileBusy_of_lt (hfuel : d.busy d.waits < fuel) :
    waitWhileBusy fuel d = some (READY, { d with waits := d.waits + 1 }) := by
  have hrun := runFuel_waitTurn hfuel
  simp [waitWhileBusy, hrun, status, READY]

/-! ## The transfer loops -/

@[simp] theorem overwrite_zero (words : Words) (start : ℕ) (source : Words) :
    overwrite words start 0 source = words := by
  funext word
  exact if_neg (by omega)

theorem overwrite_succ (words : Words) (start n : ℕ) (source : Words) :
    overwrite words start (n + 1) source =
      Function.update (overwrite words start n source) (start + n) (source n) := by
  funext word
  by_cases hlast : word = start + n
  · subst hlast
    simp [overwrite]
  · rw [Function.update_of_ne hlast]
    have hrange : (start ≤ word ∧ word < start + (n + 1)) ↔
        start ≤ word ∧ word < start + n := by omega
    simp only [overwrite, hrange]

theorem overwrite_inside {words source : Words} {start n i : ℕ} (hi : i < n) :
    overwrite words start n source (start + i) = source i := by
  rw [overwrite, if_pos (by omega), Nat.add_sub_cancel_left]

theorem overwrite_congr {words source source' : Words} {start n : ℕ}
    (hsame : ∀ i < n, source i = source' i) :
    overwrite words start n source = overwrite words start n source' := by
  funext word
  by_cases hin : start ≤ word ∧ word < start + n
  · rw [overwrite, overwrite, if_pos hin, if_pos hin, hsame _ (by omega)]
  · rw [overwrite, overwrite, if_neg hin, if_neg hin]

/-- The loop of `read_sector` puts the words of the drive into the buffer. -/
theorem read_loop (buf : Words) {word left n : ℕ} (hn : n ≤ left)
    (htransfer : d.transfer = .reading word left) (hselected : d.selected = driveNum) :
    (List.range n).foldl (fun (buf, d) i =>
        let (word, d) := inportw IDE_DATA_PORT d
        (Function.update buf i word, d)) (buf, d) =
      (overwrite buf 0 n fun i => d.words driveNum (word + i),
        { d with transfer := .reading (word + n) (left - n) }) := by
  subst hselected
  induction n with
  | zero =>
      rw [overwrite_zero, Nat.add_zero, Nat.sub_zero, ← htransfer]
      rfl
  | succ n ih =>
      obtain ⟨more, hmore⟩ : ∃ more, left - n = more + 1 := ⟨left - n - 1, by omega⟩
      have hrest : left - (n + 1) = more := by omega
      rw [List.range_succ, List.foldl_append, ih (by omega), hmore, hrest, overwrite_succ,
        Nat.zero_add]
      rfl

/-- The loop of `write_sector` puts the words that are sent on the drive. -/
theorem write_loop (stray : Stray) (buf : Words) {word left n : ℕ} (hn : n ≤ left)
    (htransfer : d.transfer = .writing word left) (hselected : d.selected = driveNum) :
    (List.range n).foldl (fun (buf, d) i =>
        (Function.update buf i (stray.left i), outportw IDE_DATA_PORT (stray.sent i) d)) (buf, d) =
      (overwrite buf 0 n stray.left,
        { d with
          words := Function.update d.words driveNum
            (overwrite (d.words driveNum) word n stray.sent)
          transfer := .writing (word + n) (left - n) }) := by
  subst hselected
  induction n with
  | zero =>
      rw [overwrite_zero, overwrite_zero, Function.update_eq_self, Nat.add_zero, Nat.sub_zero,
        ← htransfer]
      rfl
  | succ n ih =>
      obtain ⟨more, hmore⟩ : ∃ more, left - n = more + 1 := ⟨left - n - 1, by omega⟩
      have hrest : left - (n + 1) = more := by omega
      rw [List.range_succ, List.foldl_append, ih (by omega), hmore, hrest, overwrite_succ,
        overwrite_succ, Nat.zero_add]
      simp only [List.foldl_cons, List.foldl_nil, outportw, if_true, Drives.selected]
      simp [Nat.add_assoc]

/-! ## The two functions -/

/-- What a request can be made for. -/
structure Request (driveNum lba numSectors : ℕ) : Prop where
  drive : driveNum < 2
  lba : lba < 2 ^ 28
  pos : 1 ≤ numSectors
  le : numSectors ≤ 255

/-- The drives behind a write, and behind the wait that follows it. -/
def writtenDrives (stray : Stray) (driveNum lba numSectors : ℕ) (d : Drives) : Drives :=
  { programmed driveNum lba numSectors d with
    words := Function.update d.words driveNum
      (overwrite (d.words driveNum) (256 * lba) (256 * numSectors) stray.sent)
    transfer := .writing (256 * lba + 256 * numSectors) 0
    waits := d.waits + 2 }

/-- The drives behind a read. -/
def readDrives (driveNum lba numSectors : ℕ) (d : Drives) : Drives :=
  { programmed driveNum lba numSectors d with
    transfer := .reading (256 * lba + 256 * numSectors) 0
    waits := d.waits + 1 }

theorem request_write (hreq : Request driveNum lba numSectors) :
    request IDE_CMD_WRITE_SECTORS_RETRY driveNum lba numSectors d =
      { programmed driveNum lba numSectors d with
        transfer := .writing (256 * lba) (256 * numSectors) } := by
  rw [request_eq hreq.drive]
  show (programmed driveNum lba numSectors d).command IDE_CMD_WRITE_SECTORS_RETRY = _
  rw [Drives.command, if_neg (by decide), if_pos rfl, lba_programmed hreq.lba,
    length_programmed hreq.pos hreq.le]

theorem request_read (hreq : Request driveNum lba numSectors) :
    request IDE_CMD_READ_SECTORS_RETRY driveNum lba numSectors d =
      { programmed driveNum lba numSectors d with
        transfer := .reading (256 * lba) (256 * numSectors) } := by
  rw [request_eq hreq.drive]
  show (programmed driveNum lba numSectors d).command IDE_CMD_READ_SECTORS_RETRY = _
  rw [Drives.command, if_pos rfl, lba_programmed hreq.lba, length_programmed hreq.pos hreq.le]

theorem ready_no_error : READY &&& IDE_STATUS_ERROR = 0 := by decide

theorem writeSector_eq (hreq : Request driveNum lba numSectors) (stray : Stray)
    (wordbuf : Words) (hfirst : d.busy d.waits < fuel) (hsecond : d.busy (d.waits + 1) < fuel) :
    writeSector stray fuel wordbuf driveNum lba numSectors d =
      some (IDE_ERR_NOERROR, overwrite wordbuf 0 (256 * numSectors) stray.left,
        writtenDrives stray driveNum lba numSectors d) := by
  have hselected := @selected_programmed driveNum lba numSectors d hreq.drive
  simp only [writeSector, request_write hreq]
  rw [waitWhileBusy_of_lt (by exact hfirst)]
  simp only
  rw [write_loop stray wordbuf le_rfl rfl (by exact hselected),
    waitWhileBusy_of_lt (by exact hsecond)]
  simp only [ready_no_error, ne_eq, not_true_eq_false, if_false, writtenDrives, Nat.sub_self]
  rfl

theorem readSector_eq (hreq : Request driveNum lba numSectors) (other : Words)
    (hfuel : d.busy d.waits < fuel) :
    readSector fuel other driveNum lba numSectors d =
      some (IDE_ERR_NOERROR, overwrite other 0 (256 * numSectors)
        fun i => d.words driveNum (256 * lba + i), readDrives driveNum lba numSectors d) := by
  have hselected := @selected_programmed driveNum lba numSectors d hreq.drive
  simp only [readSector, request_read hreq]
  rw [waitWhileBusy_of_lt (by exact hfuel)]
  simp only [ready_no_error, ne_eq, not_true_eq_false, if_false]
  rw [read_loop other le_rfl rfl (by exact hselected)]
  simp only [readDrives, Nat.sub_self]
  rfl

/-- The first words of the buffer are those that are left there, and it is as it was. -/
theorem overwrite_eq_self_iff {words source : Words} {n : ℕ} :
    overwrite words 0 n source = words ↔ ∀ i < n, source i = words i := by
  constructor
  · intro hsame i hi
    have hword := @overwrite_inside words source 0 n i hi
    rw [hsame, Nat.zero_add] at hword
    exact hword.symm
  · intro hall
    funext word
    by_cases hin : word < n
    · rw [overwrite, if_pos (by omega), Nat.sub_zero, hall word hin]
    · rw [overwrite, if_neg (by omega)]

/-- The sectors come back, and the buffer stays as it was, exactly when the words found in
the place of the missing argument and the words that the calls leave behind are those of
the buffer. -/
theorem roundTrips_iff (hreq : Request driveNum lba numSectors) (stray : Stray)
    (wordbuf other : Words) (d : Drives) :
    RoundTrips stray wordbuf other driveNum lba numSectors d ↔
      ∀ i < 256 * numSectors, stray.sent i = wordbuf i ∧ stray.left i = wordbuf i := by
  -- the fuel that all waits get by with
  let enough := d.busy d.waits + d.busy (d.waits + 1) + d.busy (d.waits + 2) + 1
  have hwrite : ∀ fuel, enough ≤ fuel →
      writeSector stray fuel wordbuf driveNum lba numSectors d =
        some (IDE_ERR_NOERROR, overwrite wordbuf 0 (256 * numSectors) stray.left,
          writtenDrives stray driveNum lba numSectors d) := by
    intro fuel hfuel
    exact writeSector_eq hreq stray wordbuf (by omega) (by omega)
  have hread : ∀ fuel, enough ≤ fuel →
      readSector fuel other driveNum lba numSectors
          (writtenDrives stray driveNum lba numSectors d) =
        some (IDE_ERR_NOERROR, overwrite other 0 (256 * numSectors) stray.sent,
          readDrives driveNum lba numSectors (writtenDrives stray driveNum lba numSectors d)) := by
    intro fuel hfuel
    have hbusy : (writtenDrives stray driveNum lba numSectors d).busy
        (writtenDrives stray driveNum lba numSectors d).waits < fuel := by
      show d.busy (d.waits + 2) < fuel
      omega
    have hback : ∀ i < 256 * numSectors,
        (writtenDrives stray driveNum lba numSectors d).words driveNum (256 * lba + i) =
          stray.sent i := by
      intro i hi
      simp only [writtenDrives, Function.update_self]
      exact overwrite_inside hi
    rw [readSector_eq hreq other hbusy, overwrite_congr hback]
  constructor
  · rintro ⟨written, d', read, d'', ⟨enough', hruns⟩, hreads, rfl⟩ i hi
    obtain ⟨hw, hr⟩ := hruns (max enough enough') (le_max_right _ _)
    rw [hwrite _ (le_max_left _ _), Option.some.injEq, Prod.mk.injEq, Prod.mk.injEq] at hw
    obtain ⟨-, hbuffer, rfl⟩ := hw
    rw [hread _ (le_max_left _ _), Option.some.injEq, Prod.mk.injEq, Prod.mk.injEq] at hr
    obtain ⟨-, rfl, -⟩ := hr
    have hword := hreads i hi
    rw [← Nat.zero_add i, overwrite_inside hi, Nat.zero_add] at hword
    exact ⟨hword, overwrite_eq_self_iff.mp hbuffer i hi⟩
  · intro hall
    refine ⟨_, _, _, _, ⟨enough, fun fuel hfuel => ⟨hwrite fuel hfuel, hread fuel hfuel⟩⟩,
      ?_, overwrite_eq_self_iff.mpr fun i hi => (hall i hi).2⟩
    intro i hi
    have hword := @overwrite_inside other stray.sent 0 (256 * numSectors) i hi
    rw [Nat.zero_add] at hword
    exact hword.trans (hall i hi).1

/-- Drives with no words, which are ready at once. -/
def emptyDrives : Drives where
  sectorCount := 0
  sectorNumber := 0
  cylinderLow := 0
  cylinderHigh := 0
  driveHead := 0xE0
  transfer := .none
  words := fun _ _ => 0
  busy := fun _ => 0
  waits := 0

/-- Words that differ, and that the calls find and leave. -/
def numbers : Words := fun i => BitVec.ofNat 16 i

theorem roundTrips_numbers :
    RoundTrips ⟨numbers, numbers⟩ numbers (fun _ => 7) 1 (2 ^ 28 - 1) 255 emptyDrives ↔
      ∀ i < 256 * 255, numbers i = numbers i ∧ numbers i = numbers i :=
  roundTrips_iff ⟨by decide, by decide, by decide, by decide⟩ ⟨numbers, numbers⟩ numbers
    (fun _ => 7) emptyDrives

/-- The calls find and leave the word 5, and the buffer holds zeros. -/
theorem buffer_overwritten :
    ¬ ∀ (stray : Stray) (wordbuf other : Words) (driveNum lba numSectors : ℕ) (d : Drives),
      Request driveNum lba numSectors →
        RoundTrips stray wordbuf other driveNum lba numSectors d := by
  intro hclaim
  have hreq : Request 0 0 1 := ⟨by decide, by decide, by decide, by decide⟩
  have htrips := hclaim ⟨fun _ => 5, fun _ => 5⟩ (fun _ => 0) (fun _ => 0) 0 0 1
    emptyDrives hreq
  obtain ⟨written, d', read, d'', ⟨enough, hruns⟩, -, hbuffer⟩ := htrips
  have hwrite := (hruns (enough + 1) (Nat.le_succ enough)).1
  rw [writeSector_eq hreq _ _ (Nat.succ_pos enough) (Nat.succ_pos enough), Option.some.injEq,
    Prod.mk.injEq, Prod.mk.injEq] at hwrite
  have hword := congrFun (hwrite.2.1.trans hbuffer) 0
  exact absurd hword (by decide)

end Ata
end Janus86
