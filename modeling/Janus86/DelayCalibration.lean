import Janus86.TopBits
import Janus86.StepMachine
import Janus86.KeyboardModel

/-!
# Calibration of the delay loop

`calibrateDelayLoop` looks for the number of turns that `__delay` makes in one period of
the timer: it doubles `delay_count` until a delay is too long, and then sets the bits
below the highest one as long as the delay stays short enough.  The count it ends with
consists of the top bits of the largest short count.
-/

namespace Janus86
namespace Delay

open StepMachine
open TopBits

def MILLISEC : ℕ := 10
def PRECISION : ℕ := 8

/-- A timer, as the delays that start right behind one of its ticks see it: `during i c`
ticks come while the `i`th of them makes `c` turns, and `pause i` reads of `ticks` before
the tick that it starts behind. -/
structure Timer where
  threshold : ℕ
  pause : ℕ → ℕ
  during : ℕ → ℕ → ℕ
  two_le : 2 ≤ threshold
  le_two_pow : threshold ≤ 2 ^ 31
  spans_iff : ∀ i c, 0 < during i c ↔ threshold ≤ c
  -- the ticks of one delay do not take the 32-bit counter all the way round
  during_lt : ∀ i c, c < 2 ^ 32 → during i c < 2 ^ 32

/-- The counter of the interrupt handler, and how many delays have been measured. -/
structure Clock where
  ticks : BitVec 32
  measured : ℕ
  deriving DecidableEq, Repr

/-- A turn of `while(prevtick==ticks);` after so many reads. -/
def waitTurn (timer : Timer) (i : ℕ) (prevtick : BitVec 32) (reads : ℕ) :
    Turn ℕ (BitVec 32) :=
  let ticks := if reads < timer.pause i then prevtick else prevtick + 1
  if prevtick = ticks then .next (reads + 1) else .stop ticks

/-- Wait for a tick, make a delay, and see whether `prevtick` is still `ticks`. -/
def tickPasses (timer : Timer) (fuel : ℕ) (delayCount : BitVec 32) (clock : Clock) :
    Option (Bool × Clock) :=
  match runFuel (waitTurn timer clock.measured clock.ticks) fuel 0 with
  | none => none
  | some prevtick =>
      let ticks :=
        prevtick + BitVec.ofNat 32 (timer.during clock.measured delayCount.toNat)
      some (prevtick != ticks, ⟨ticks, clock.measured + 1⟩)

/-- The first stage, with at most so many turns of its loop. -/
def coarse (timer : Timer) (fuel : ℕ) :
    ℕ → BitVec 32 → Clock → Option (BitVec 32 × Clock)
  | 0, _, _ => none
  | turns + 1, delayCount, clock =>
      let delayCount := delayCount <<< 1
      match tickPasses timer fuel delayCount clock with
      | none => none
      | some (false, clock) => coarse timer fuel turns delayCount clock
      | some (true, clock) => some (delayCount, clock)

/-- The second stage, with so many turns of its loop left. -/
def fine (timer : Timer) (fuel : ℕ) :
    ℕ → BitVec 32 → BitVec 32 → Clock → Option (BitVec 32 × Clock)
  | 0, _, delayCount, clock => some (delayCount, clock)
  | left + 1, calibBit, delayCount, clock =>
      let calibBit := calibBit >>> 1
      if calibBit = 0 then some (delayCount, clock)
      else
        let delayCount := delayCount ||| calibBit
        match tickPasses timer fuel delayCount clock with
        | none => none
        | some (passed, clock) =>
            let delayCount := if passed then delayCount &&& ~~~calibBit else delayCount
            fine timer fuel left calibBit delayCount clock

/-- Both stages: `delay_count` just before it is divided by `MILLISEC`. -/
def calibrated (timer : Timer) (fuel : ℕ) (clock : Clock) : Option (BitVec 32) :=
  match coarse timer fuel fuel 1 clock with
  | none => none
  | some (delayCount, clock) =>
      let delayCount := delayCount >>> 1
      match fine timer fuel PRECISION delayCount delayCount clock with
      | none => none
      | some (delayCount, _) => some delayCount

/-- `calibrateDelayLoop`, which waits for a key before it returns. -/
def calibrateDelayLoop (timer : Timer) (fuel : ℕ) (clock : Clock) (kbd : Keyboard.Kbd) :
    Option (BitVec 32 × Keyboard.Kbd) :=
  match calibrated timer fuel clock, Keyboard.getch kbd with
  | some delayCount, some key => some (delayCount / BitVec.ofNat 32 MILLISEC, key.after)
  | _, _ => none

/-- The largest count of turns without a tick. -/
def Timer.short (timer : Timer) : ℕ := timer.threshold - 1

/-- The fuel is enough for the pauses of the measurements. -/
def Patient (timer : Timer) (fuel : ℕ) : Prop := 64 ≤ fuel ∧ ∀ i < 64, timer.pause i < fuel

variable {timer : Timer} {fuel : ℕ} {clock : Clock} {delayCount calibBit : BitVec 32}

theorem exists_patient (timer : Timer) : ∃ enough, ∀ fuel, enough ≤ fuel → Patient timer fuel := by
  refine ⟨(Finset.range 64).sup timer.pause + 64, fun fuel hfuel => ⟨by omega, ?_⟩⟩
  intro i hi
  have hle := Finset.le_sup (f := timer.pause) (Finset.mem_range.mpr hi)
  omega

/-! ## One measurement -/

theorem runFuel_waitTurn (i : ℕ) (prevtick : BitVec 32) (hfuel : timer.pause i < fuel) :
    runFuel (waitTurn timer i prevtick) fuel 0 = some (prevtick + 1) := by
  refine runFuel_count (fun reads hreads => ?_) ?_ (Nat.zero_le (timer.pause i)) hfuel
  · simp [waitTurn, hreads]
  · simp [waitTurn]

theorem changed_iff (prevtick : BitVec 32) {passed : ℕ} (hlt : passed < 2 ^ 32) :
    prevtick ≠ prevtick + BitVec.ofNat 32 passed ↔ 0 < passed := by
  rw [Ne, BitVec.self_eq_add_right, Nat.pos_iff_ne_zero, not_iff_not]
  constructor
  · intro hzero
    have hnat := congrArg BitVec.toNat hzero
    rwa [BitVec.toNat_ofNat, Nat.mod_eq_of_lt hlt] at hnat
  · rintro rfl
    rfl

/-- A tick is seen exactly when the count reaches the threshold. -/
theorem tickPasses_eq (hfuel : Patient timer fuel) (hmeasured : clock.measured < 64)
    (delayCount : BitVec 32) :
    ∃ ticks, tickPasses timer fuel delayCount clock =
      some (decide (timer.threshold ≤ delayCount.toNat), ⟨ticks, clock.measured + 1⟩) := by
  have hwait := runFuel_waitTurn clock.measured clock.ticks
    (hfuel.2 clock.measured hmeasured)
  have hseen := (changed_iff (clock.ticks + 1)
    (timer.during_lt clock.measured delayCount.toNat delayCount.isLt)).trans
      (timer.spans_iff clock.measured delayCount.toNat)
  simp only [tickPasses, hwait]
  rw [← decide_eq_decide.mpr hseen, decide_not, ← beq_eq_decide]
  exact ⟨_, rfl⟩

/-! ## The two stages -/

theorem toNat_double {d : BitVec 32} {j : ℕ} (hd : d.toNat = 2 ^ j) (hj : j < 31) :
    (d <<< 1).toNat = 2 ^ (j + 1) := by
  have hlt : 2 ^ (j + 1) < 2 ^ 32 := Nat.pow_lt_pow_right (by decide) (by omega)
  rw [BitVec.toNat_shiftLeft, hd, Nat.shiftLeft_eq, pow_one, ← pow_succ,
    Nat.mod_eq_of_lt hlt]

/-- The doubling stops at the first power of two that is too long. -/
theorem coarse_eq {m : ℕ} (hm : 2 ^ m < timer.threshold)
    (hm' : timer.threshold ≤ 2 ^ (m + 1)) (hfuel : Patient timer fuel) (turns j : ℕ)
    (hj : j ≤ m) (hturns : m - j < turns) (hd : delayCount.toNat = 2 ^ j)
    (hmeasured : clock.measured ≤ j) :
    ∃ (d : BitVec 32) (clock' : Clock),
      coarse timer fuel turns delayCount clock = some (d, clock') ∧
        d.toNat = 2 ^ (m + 1) ∧ clock'.measured ≤ m + 1 := by
  have hm31 : m < 31 := by
    rw [← Nat.pow_lt_pow_iff_right (a := 2) (by decide)]
    exact hm.trans_le timer.le_two_pow
  induction turns generalizing j delayCount clock with
  | zero => omega
  | succ turns ih =>
      have hdouble := toNat_double hd (by omega)
      obtain ⟨ticks, hpass⟩ := tickPasses_eq hfuel (by omega : clock.measured < 64)
        (delayCount <<< 1)
      rw [hdouble] at hpass
      by_cases hlast : j = m
      · subst hlast
        rw [decide_eq_true hm'] at hpass
        refine ⟨delayCount <<< 1, ⟨ticks, clock.measured + 1⟩, ?_, hdouble,
          Nat.succ_le_succ hmeasured⟩
        simp only [coarse, hpass]
      · have hshort : 2 ^ (j + 1) ≤ 2 ^ m := Nat.pow_le_pow_right (by decide) (by omega)
        rw [decide_eq_false (by omega)] at hpass
        simp only [coarse, hpass]
        exact ih (j + 1) (by omega) (by omega) hdouble (Nat.succ_le_succ hmeasured)

/-- A bit that is set for a measurement and cleared again leaves the count as it was. -/
theorem clear_set {d bit : BitVec 32} {k : ℕ} (hbit : bit.toNat = 2 ^ k)
    (hd : d.toNat.testBit k = false) : (d ||| bit) &&& ~~~bit = d := by
  apply BitVec.eq_of_getLsbD_eq
  intro i hi
  have hbiti : bit.getLsbD i = decide (k = i) := by
    rw [← BitVec.testBit_toNat, hbit, Nat.testBit_two_pow]
  rw [BitVec.getLsbD_and, BitVec.getLsbD_or, BitVec.getLsbD_not, hbiti]
  by_cases hik : k = i
  · subst hik
    rw [← BitVec.testBit_toNat, hd]
    simp
  · simp [hik, hi]

theorem toNat_halve {bit : BitVec 32} {k : ℕ} (hbit : bit.toNat = 2 ^ k) :
    (bit >>> 1).toNat = 2 ^ k / 2 := by
  rw [BitVec.toNat_ushiftRight, hbit, Nat.shiftRight_eq_div_pow, pow_one]

/-- A turn of the second stage brings the count one bit further down in the largest
short count. -/
theorem fine_turn {d bit : BitVec 32} {k : ℕ} (hfuel : Patient timer fuel)
    (hmeasured : clock.measured < 64) (hbit : bit.toNat = 2 ^ (k + 1))
    (hd : d.toNat = topBits timer.short (k + 1)) (left : ℕ) :
    ∃ (d' bit' : BitVec 32) (ticks : BitVec 32),
      fine timer fuel (left + 1) bit d clock =
          fine timer fuel left bit' d' ⟨ticks, clock.measured + 1⟩ ∧
        bit'.toNat = 2 ^ k ∧ d'.toNat = topBits timer.short k := by
  have hnext : (bit >>> 1).toNat = 2 ^ k := by
    rw [toNat_halve hbit, pow_succ, Nat.mul_div_cancel _ (by decide)]
  have hne : bit >>> 1 ≠ 0 := by
    intro hzero
    rw [hzero] at hnext
    exact absurd hnext.symm (Nat.two_pow_pos k).ne'
  have hset : (d ||| bit >>> 1).toNat = topBits timer.short (k + 1) + 2 ^ k := by
    rw [BitVec.toNat_or, hd, hnext, topBits_or]
  obtain ⟨ticks, hpass⟩ := tickPasses_eq hfuel hmeasured (d ||| bit >>> 1)
  rw [hset] at hpass
  have hstep := topBits_step timer.short k
  have hshort : timer.short + 1 = timer.threshold := Nat.sub_add_cancel (by
    have := timer.two_le
    omega)
  by_cases hlong : timer.threshold ≤ topBits timer.short (k + 1) + 2 ^ k
  · rw [decide_eq_true hlong] at hpass
    rw [if_neg (by omega)] at hstep
    refine ⟨d, bit >>> 1, ticks, ?_, hnext, hstep ▸ hd⟩
    have hclear : (d ||| bit >>> 1) &&& ~~~(bit >>> 1) = d :=
      clear_set hnext (hd ▸ testBit_topBits _ _)
    simp only [fine, if_neg hne, hpass, if_true, hclear]
  · rw [decide_eq_false hlong] at hpass
    rw [if_pos (by omega)] at hstep
    refine ⟨d ||| bit >>> 1, bit >>> 1, ticks, ?_, hnext, hset.trans hstep.symm⟩
    simp only [fine, if_neg hne, hpass]
    rfl

theorem fine_eq (hfuel : Patient timer fuel) (left k : ℕ) {d bit : BitVec 32}
    (hbit : bit.toNat = 2 ^ k) (hd : d.toNat = topBits timer.short k)
    (hmeasured : clock.measured + left ≤ 64) :
    ∃ (d' : BitVec 32) (clock' : Clock),
      fine timer fuel left bit d clock = some (d', clock') ∧
        d'.toNat = topBits timer.short (k - left) := by
  induction left generalizing k d bit clock with
  | zero => exact ⟨d, clock, rfl, hd⟩
  | succ left ih =>
      cases k with
      | zero =>
          -- the bits have run out
          have hzero : bit >>> 1 = 0 := by
            apply BitVec.eq_of_toNat_eq
            rw [toNat_halve hbit]
            rfl
          refine ⟨d, clock, ?_, by rw [hd, Nat.zero_sub]⟩
          simp only [fine, if_pos hzero]
      | succ k =>
          have hroom : clock.measured < 64 := by omega
          obtain ⟨d', bit', ticks, hturn, hbit', hd'⟩ := fine_turn hfuel hroom hbit hd left
          obtain ⟨last, clock', hrun, hlast⟩ :=
            @ih ⟨ticks, clock.measured + 1⟩ k d' bit' hbit' hd' (by simp only; omega)
          refine ⟨last, clock', hturn.trans hrun, ?_⟩
          rw [hlast, Nat.add_sub_add_right]

/-- Both stages end, with the top bits of the largest short count. -/
theorem calibrated_eq {m : ℕ} (hm : 2 ^ m < timer.threshold)
    (hm' : timer.threshold ≤ 2 ^ (m + 1)) (hfuel : Patient timer fuel)
    (hclock : clock.measured = 0) :
    ∃ d : BitVec 32, calibrated timer fuel clock = some d ∧
      d.toNat = topBits timer.short (m - PRECISION) := by
  have hm31 : m < 31 := by
    rw [← Nat.pow_lt_pow_iff_right (a := 2) (by decide)]
    exact hm.trans_le timer.le_two_pow
  obtain ⟨d, clock', hcoarse, hd, hmeasured⟩ :=
    @coarse_eq timer fuel clock 1 m hm hm' hfuel fuel 0 (Nat.zero_le m)
      (by have := hfuel.1; omega) rfl hclock.le
  have hhalf : (d >>> 1).toNat = 2 ^ m := by
    rw [toNat_halve hd, pow_succ, Nat.mul_div_cancel _ (by decide)]
  have hstart : (d >>> 1).toNat = topBits timer.short m := by
    rw [hhalf, topBits_highest]
    · simp only [Timer.short]
      omega
    · simp only [Timer.short]
      have := timer.two_le
      omega
  have hroom : clock'.measured + PRECISION ≤ 64 := by
    simp only [PRECISION]
    omega
  obtain ⟨last, clock'', hfine, hlast⟩ := fine_eq hfuel PRECISION m hhalf hstart hroom
  refine ⟨last, ?_, hlast⟩
  simp only [calibrated, hcoarse, hfine]

/-- The calibration ends below the threshold and within the lowest bit it has tried of
it: it keeps the top `PRECISION + 1` bits of the largest short count. -/
theorem calibrates (timer : Timer) {m : ℕ} (hm : 2 ^ m < timer.threshold)
    (hm' : timer.threshold ≤ 2 ^ (m + 1)) (ticks : BitVec 32) :
    ∃ d : BitVec 32,
      (∃ enough, ∀ fuel, enough ≤ fuel →
        calibrated timer fuel ⟨ticks, 0⟩ = some d ∧
          ∀ kbd key, Keyboard.getch kbd = some key →
            calibrateDelayLoop timer fuel ⟨ticks, 0⟩ kbd =
              some (d / BitVec.ofNat 32 MILLISEC, key.after)) ∧
      d.toNat < timer.threshold ∧ timer.threshold ≤ d.toNat + 2 ^ (m - PRECISION) ∧
      d.toNat = (timer.threshold - 1) / 2 ^ (m - PRECISION) * 2 ^ (m - PRECISION) := by
  obtain ⟨enough, henough⟩ := exists_patient timer
  obtain ⟨d, _, hd⟩ := @calibrated_eq timer enough ⟨ticks, 0⟩ m hm hm'
    (henough enough le_rfl) rfl
  have hle := topBits_le timer.short (m - PRECISION)
  have hlt := lt_topBits_add timer.short (m - PRECISION)
  have hpos : 0 < timer.threshold := Nat.lt_of_lt_of_le (by decide) timer.two_le
  have hshort : timer.short = timer.threshold - 1 := rfl
  refine ⟨d, ⟨enough, fun fuel hfuel => ?_⟩, by omega, by omega, hd⟩
  obtain ⟨d', hrun, hd'⟩ := @calibrated_eq timer fuel ⟨ticks, 0⟩ m hm hm'
    (henough fuel hfuel) rfl
  have hsame : d' = d := BitVec.eq_of_toNat_eq (hd'.trans hd.symm)
  rw [hsame] at hrun
  refine ⟨hrun, fun kbd key hkey => ?_⟩
  simp only [calibrateDelayLoop, hrun, hkey]

/-- A timer that ticks every `period` turns of the delay loop. -/
def periodic (period : ℕ) (h : 2 ≤ period) (h' : period ≤ 2 ^ 31) : Timer where
  threshold := period
  pause := fun _ => period
  during := fun _ c => c / period
  two_le := h
  le_two_pow := h'
  spans_iff := fun _ _ => Nat.div_pos_iff.trans (and_iff_right (by omega))
  during_lt := fun _ c hc => (Nat.div_le_self c period).trans_lt hc

/-- With 100000 turns between two ticks, the calibration ends with 99840. -/
theorem calibrates_periodic :
    ∃ d : BitVec 32, d.toNat < 100000 ∧ 100000 ≤ d.toNat + 2 ^ (16 - PRECISION) ∧
      d.toNat = 99840 := by
  obtain ⟨d, _, hlt, hle, htop⟩ :=
    calibrates (periodic 100000 (by decide) (by decide)) (m := 16) (by decide) (by decide) 0
  exact ⟨d, hlt, hle, htop⟩

end Delay
end Janus86
