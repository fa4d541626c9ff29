import Mathlib.Tactic

/-!
# The interrupt mask

`enable_irq` and `disable_irq` keep the masks of the two interrupt controllers in one
word.  Line 2 of the master controller is the cascade: it is opened with every slave
line and closed when the last slave line is closed, so it is open exactly when some
slave line is.
-/

namespace Janus86
namespace Irq

def M_PIC : ℕ := 0x20
def M_IMR : ℕ := 0x21
def S_PIC : ℕ := 0xA0
def S_IMR : ℕ := 0xA1

/-- `irq_mask`, and the byte that was last written to each port. -/
structure Pic where
  irqMask : BitVec 32
  written : ℕ → BitVec 8

def outportb (port : ℕ) (val : BitVec 32) (pic : Pic) : Pic :=
  { pic with written := Function.update pic.written port (val.setWidth 8) }

/-- The two calls of `outportb` at the end of both functions. -/
def writeMasks (pic : Pic) : Pic :=
  outportb (S_PIC + 1) ((pic.irqMask >>> 8) &&& 0xFF)
    (outportb (M_PIC + 1) (pic.irqMask &&& 0xFF) pic)

def enableIrq (irqNo : ℕ) (pic : Pic) : Pic :=
  let mask := pic.irqMask &&& ~~~(1#32 <<< irqNo)
  let mask := if 8 ≤ irqNo then mask &&& ~~~(1#32 <<< 2) else mask
  writeMasks { pic with irqMask := mask }

def disableIrq (irqNo : ℕ) (pic : Pic) : Pic :=
  let mask := pic.irqMask ||| (1#32 <<< irqNo)
  let mask := if mask &&& 0xFF00 = 0xFF00 then mask ||| (1#32 <<< 2) else mask
  writeMasks { pic with irqMask := mask }

inductive Call where
  | enable (irqNo : ℕ)
  | disable (irqNo : ℕ)
  deriving DecidableEq, Repr

def Call.irqNo : Call → ℕ
  | .enable irqNo => irqNo
  | .disable irqNo => irqNo

def Call.run (pic : Pic) : Call → Pic
  | .enable irqNo => enableIrq irqNo pic
  | .disable irqNo => disableIrq irqNo pic

/-- `irq_mask` starts with all lines closed. -/
def start (written : ℕ → BitVec 8) : Pic := ⟨0xFFFF, written⟩

def afterCalls (written : ℕ → BitVec 8) (calls : List Call) : Pic :=
  calls.foldl Call.run (start written)

/-- The last call on a line. -/
def lastOn (irq : ℕ) (calls : List Call) : Option Call :=
  (calls.filter fun call => call.irqNo = irq).getLast?

/-- The line is not masked, and neither is the cascade if the line is a slave line. -/
def Open (mask : BitVec 32) (irq : ℕ) : Prop :=
  mask.getLsbD irq = false ∧ (8 ≤ irq → mask.getLsbD 2 = false)

/-- The calls are on the 15 lines that devices can use. -/
def OnDevices (calls : List Call) : Prop := ∀ call ∈ calls, call.irqNo < 16 ∧ call.irqNo ≠ 2

/-- Each bit shows the last call on its line, and the cascade is open exactly when some
slave line is. -/
structure Shows (calls : List Call) (mask : BitVec 32) : Prop where
  own : ∀ irq, irq < 16 → irq ≠ 2 →
    (mask.getLsbD irq = false ↔ lastOn irq calls = some (.enable irq))
  cascade : mask.getLsbD 2 = false ↔ ∃ irq, 8 ≤ irq ∧ irq < 16 ∧ mask.getLsbD irq = false

variable {mask : BitVec 32} {irq irqNo : ℕ}

/-! ## The bits of the mask -/

theorem getLsbD_bit (hirq : irq < 32) :
    (1#32 <<< irqNo).getLsbD irq = decide (irq = irqNo) := by
  rw [BitVec.getLsbD_shiftLeft, BitVec.getLsbD_one]
  grind

theorem getLsbD_cleared (hirq : irq < 32) :
    (mask &&& ~~~(1#32 <<< irqNo)).getLsbD irq =
      (mask.getLsbD irq && !decide (irq = irqNo)) := by
  rw [BitVec.getLsbD_and, BitVec.getLsbD_not, getLsbD_bit hirq]
  simp [hirq]

theorem getLsbD_set (hirq : irq < 32) :
    (mask ||| (1#32 <<< irqNo)).getLsbD irq =
      (mask.getLsbD irq || decide (irq = irqNo)) := by
  rw [BitVec.getLsbD_or, getLsbD_bit hirq]

/-- The slave byte of the mask is full when all slave lines are closed. -/
theorem slaves_closed_iff :
    mask &&& 0xFF00 = 0xFF00 ↔ ∀ irq, 8 ≤ irq → irq < 16 → mask.getLsbD irq = true := by
  have hbyte : ∀ irq < 32, (0xFF00 : BitVec 32).getLsbD irq = decide (8 ≤ irq ∧ irq < 16) := by
    decide
  constructor
  · intro hfull irq hlow hhigh
    have hbit := congrArg (fun m : BitVec 32 => m.getLsbD irq) hfull
    simp only [BitVec.getLsbD_and, hbyte irq (by omega)] at hbit
    simpa [hlow, hhigh] using hbit
  · intro hall
    apply BitVec.eq_of_getLsbD_eq
    intro irq hirq
    rw [BitVec.getLsbD_and, hbyte irq hirq]
    by_cases hslave : 8 ≤ irq ∧ irq < 16
    · simp [hslave, hall irq hslave.1 hslave.2]
    · simp [hslave]

/-! ## The last call on a line -/

theorem lastOn_snoc (calls : List Call) (call : Call) :
    lastOn irq (calls ++ [call]) =
      if call.irqNo = irq then some call else lastOn irq calls := by
  unfold lastOn
  by_cases hsame : call.irqNo = irq
  · simp [List.filter_append, hsame]
  · simp [List.filter_append, hsame]

theorem lastOn_enable_iff (calls : List Call) (call : Call) :
    lastOn irq (calls ++ [call]) = some (.enable irq) ↔
      call = .enable irq ∨ (call.irqNo ≠ irq ∧ lastOn irq calls = some (.enable irq)) := by
  rw [lastOn_snoc]
  by_cases hsame : call.irqNo = irq
  · simp [hsame]
  · have hne : call ≠ .enable irq := by
      rintro rfl
      exact hsame rfl
    simp [hsame, hne]

/-! ## What a call does to the mask -/

@[simp] theorem writeMasks_irqMask (pic : Pic) : (writeMasks pic).irqMask = pic.irqMask := rfl

/-- The mask bytes that the controllers were given last are those of `irq_mask`. -/
def Written (pic : Pic) : Prop :=
  (pic.written M_IMR).toNat = pic.irqMask.toNat % 256 ∧
    (pic.written S_IMR).toNat = pic.irqMask.toNat / 256 % 256

theorem written_writeMasks (pic : Pic) : Written (writeMasks pic) := by
  constructor
  · have hport : (writeMasks pic).written M_IMR = (pic.irqMask &&& 0xFF).setWidth 8 := rfl
    rw [hport, writeMasks_irqMask, BitVec.toNat_setWidth, BitVec.toNat_and]
    exact congrArg (· % 2 ^ 8) (Nat.and_two_pow_sub_one_eq_mod _ 8) |>.trans (Nat.mod_mod _ _)
  · have hport : (writeMasks pic).written S_IMR =
        ((pic.irqMask >>> 8) &&& 0xFF).setWidth 8 := rfl
    rw [hport, writeMasks_irqMask, BitVec.toNat_setWidth, BitVec.toNat_and,
      BitVec.toNat_ushiftRight, Nat.shiftRight_eq_div_pow]
    exact congrArg (· % 2 ^ 8) (Nat.and_two_pow_sub_one_eq_mod _ 8) |>.trans (Nat.mod_mod _ _)

theorem written_run (pic : Pic) (call : Call) : Written (call.run pic) := by
  cases call <;> exact written_writeMasks _

theorem enableIrq_irqMask (pic : Pic) :
    (enableIrq irqNo pic).irqMask =
      if 8 ≤ irqNo then pic.irqMask &&& ~~~(1#32 <<< irqNo) &&& ~~~(1#32 <<< 2)
      else pic.irqMask &&& ~~~(1#32 <<< irqNo) := rfl

theorem disableIrq_irqMask (pic : Pic) :
    (disableIrq irqNo pic).irqMask =
      if (pic.irqMask ||| (1#32 <<< irqNo)) &&& 0xFF00 = 0xFF00 then
        pic.irqMask ||| (1#32 <<< irqNo) ||| (1#32 <<< 2)
      else pic.irqMask ||| (1#32 <<< irqNo) := rfl

/-- What `enable_irq` does to the bits of the mask. -/
theorem enable_bit (pic : Pic) (hirq : irq < 32) :
    (enableIrq irqNo pic).irqMask.getLsbD irq =
      (pic.irqMask.getLsbD irq && !decide (irq = irqNo) &&
        !decide (8 ≤ irqNo ∧ irq = 2)) := by
  rw [enableIrq_irqMask]
  by_cases hslave : 8 ≤ irqNo
  · rw [if_pos hslave, getLsbD_cleared hirq, getLsbD_cleared hirq]
    simp [hslave]
  · rw [if_neg hslave, getLsbD_cleared hirq]
    simp [hslave]

/-- What `disable_irq` does to the bits other than the one of the cascade. -/
theorem disable_bit (pic : Pic) (hirq : irq < 32) (hne : irq ≠ 2) :
    (disableIrq irqNo pic).irqMask.getLsbD irq =
      (pic.irqMask.getLsbD irq || decide (irq = irqNo)) := by
  rw [disableIrq_irqMask]
  split
  · rw [getLsbD_set hirq, getLsbD_set hirq]
    simp [hne]
  · rw [getLsbD_set hirq]

/-- The cascade is closed with the last slave line. -/
theorem disable_cascade (pic : Pic) (hne : irqNo ≠ 2) :
    (disableIrq irqNo pic).irqMask.getLsbD 2 = false ↔
      pic.irqMask.getLsbD 2 = false ∧
        ∃ irq, 8 ≤ irq ∧ irq < 16 ∧
          (disableIrq irqNo pic).irqMask.getLsbD irq = false := by
  have hslave : ∀ irq, 8 ≤ irq → irq < 16 →
      (disableIrq irqNo pic).irqMask.getLsbD irq =
        (pic.irqMask ||| (1#32 <<< irqNo)).getLsbD irq := by
    intro irq hlow hhigh
    rw [disable_bit pic (by omega) (by omega), getLsbD_set (by omega)]
  by_cases hfull : (pic.irqMask ||| (1#32 <<< irqNo)) &&& 0xFF00 = 0xFF00
  · refine iff_of_false ?_ ?_
    · rw [disableIrq_irqMask, if_pos hfull, getLsbD_set (by omega)]
      simp
    · rintro ⟨_, irq, hlow, hhigh, hopen⟩
      rw [hslave irq hlow hhigh, slaves_closed_iff.mp hfull irq hlow hhigh] at hopen
      contradiction
  · have hopen : ∃ irq, 8 ≤ irq ∧ irq < 16 ∧
        (disableIrq irqNo pic).irqMask.getLsbD irq = false := by
      by_contra hclosed
      apply hfull
      rw [slaves_closed_iff]
      intro irq hlow hhigh
      rw [← hslave irq hlow hhigh]
      by_contra hbit
      exact hclosed ⟨irq, hlow, hhigh, Bool.not_eq_true _ ▸ hbit⟩
    rw [and_iff_left hopen, disableIrq_irqMask, if_neg hfull, getLsbD_set (by omega)]
    simp [Ne.symm hne]

/-! ## Runs of calls -/

theorem start_closed (hirq : irq < 16) : (0xFFFF : BitVec 32).getLsbD irq = true := by
  have hbits : ∀ irq < 16, (0xFFFF : BitVec 32).getLsbD irq = true := by decide
  exact hbits irq hirq

theorem shows_start : Shows [] 0xFFFF where
  own := by
    intro irq hirq _
    rw [start_closed hirq]
    exact iff_of_false (by decide) (by simp [lastOn])
  cascade := by
    rw [start_closed (by decide)]
    refine iff_of_false (by decide) ?_
    rintro ⟨irq, _, hirq, hopen⟩
    rw [start_closed hirq] at hopen
    contradiction

variable {calls : List Call} {pic : Pic}

theorem Shows.enable (hshows : Shows calls pic.irqMask) (hirq : irqNo < 16) (hne : irqNo ≠ 2) :
    Shows (calls ++ [.enable irqNo]) (enableIrq irqNo pic).irqMask where
  own := by
    intro irq hlt hdevice
    rw [enable_bit pic (by omega), lastOn_enable_iff]
    have hown := hshows.own irq hlt hdevice
    by_cases hsame : irq = irqNo
    · simp [hsame]
    · simp [hsame, hdevice, hown, Call.irqNo, Ne.symm hsame]
  cascade := by
    rw [enable_bit pic (by omega)]
    by_cases hslave : 8 ≤ irqNo
    · refine iff_of_true (by simp [hslave]) ⟨irqNo, hslave, hirq, ?_⟩
      rw [enable_bit pic (by omega)]
      simp
    · have hkept : ∀ irq, 8 ≤ irq → irq < 16 →
          (enableIrq irqNo pic).irqMask.getLsbD irq = pic.irqMask.getLsbD irq := by
        intro irq hlow hhigh
        have hother : irq ≠ irqNo := by omega
        rw [enable_bit pic (by omega)]
        simp [hslave, hother]
      simp only [hslave, false_and, decide_false, Bool.not_false, Bool.and_true,
        Ne.symm hne]
      rw [hshows.cascade]
      exact exists_congr fun irq => and_congr_right fun hlow => and_congr_right fun hhigh => by
        rw [hkept irq hlow hhigh]

theorem Shows.disable (hshows : Shows calls pic.irqMask) (hne : irqNo ≠ 2) :
    Shows (calls ++ [.disable irqNo]) (disableIrq irqNo pic).irqMask where
  own := by
    intro irq hlt hdevice
    rw [disable_bit pic (by omega) hdevice, lastOn_enable_iff]
    have hown := hshows.own irq hlt hdevice
    by_cases hsame : irq = irqNo
    · simp [hsame, Call.irqNo]
    · simp [hsame, hown, Call.irqNo, Ne.symm hsame]
  cascade := by
    rw [disable_cascade pic hne, hshows.cascade]
    refine and_iff_right_of_imp ?_
    rintro ⟨irq, hlow, hhigh, hopen⟩
    rw [disable_bit pic (by omega) (by omega), Bool.or_eq_false_iff] at hopen
    exact ⟨irq, hlow, hhigh, hopen.1⟩

theorem shows_afterCalls (written : ℕ → BitVec 8) (hcalls : OnDevices calls) :
    Shows calls (afterCalls written calls).irqMask := by
  induction calls using List.reverseRecOn with
  | nil => exact shows_start
  | append_singleton calls call ih =>
      have hbefore := ih fun c hc => hcalls c (List.mem_append_left _ hc)
      obtain ⟨hirq, hne⟩ := hcalls call (by simp)
      rw [afterCalls, List.foldl_append, List.foldl_cons, List.foldl_nil]
      cases call with
      | enable irqNo => exact hbefore.enable hirq hne
      | disable irqNo => exact hbefore.disable hne

theorem Shows.open_iff (hshows : Shows calls mask) (hirq : irq < 16) (hne : irq ≠ 2) :
    Open mask irq ↔ lastOn irq calls = some (.enable irq) := by
  rw [Open, hshows.own irq hirq hne]
  refine and_iff_left_of_imp fun hlast hslave => ?_
  rw [hshows.cascade]
  exact ⟨irq, hslave, hirq, (hshows.own irq hirq hne).mpr hlast⟩

theorem written_afterCalls (written : ℕ → BitVec 8) (hne : calls ≠ []) :
    Written (afterCalls written calls) := by
  induction calls using List.reverseRecOn with
  | nil => contradiction
  | append_singleton calls call _ =>
      rw [afterCalls, List.foldl_append, List.foldl_cons, List.foldl_nil]
      exact written_run _ call

/-- A line can reach the processor exactly when the last call on it was `enable_irq`,
and after every call the controllers have the two bytes of `irq_mask`. -/
theorem open_iff_enabled (written : ℕ → BitVec 8) (hcalls : OnDevices calls) :
    (∀ irq, irq < 16 → irq ≠ 2 →
      (Open (afterCalls written calls).irqMask irq ↔
        lastOn irq calls = some (.enable irq))) ∧
      (calls ≠ [] → Written (afterCalls written calls)) := by
  refine ⟨?_, written_afterCalls written⟩
  intro irq hirq hne
  exact (shows_afterCalls written hcalls).open_iff hirq hne

/-- The cascade stays open while line 12 is, and is closed behind it. -/
theorem open_iff_enabled_mouse :
    (Open (afterCalls (fun _ => 0) [.enable 12, .enable 14, .disable 14]).irqMask 12 ↔
        lastOn 12 [.enable 12, .enable 14, .disable 14] = some (.enable 12)) ∧
      Written (afterCalls (fun _ => 0) [.enable 12, .enable 14, .disable 14]) :=
  have hcalls : OnDevices [.enable 12, .enable 14, .disable 14] := by
    simp [OnDevices, Call.irqNo]
  have hrun := open_iff_enabled (fun _ => 0) hcalls
  ⟨hrun.1 12 (by decide) (by decide), hrun.2 (by decide)⟩

end Irq
end Janus86
