import Janus86.DiskModel
import Janus86.StepMachine

/-!
# memcmp

The loop of `memcmp` moves both pointers and leaves the counter as it is.  It ends
when two bytes differ, so it does what it should exactly when the count is zero or there
is a difference within the count.
-/

namespace Janus86
namespace MemoryCompare

open StepMachine

/-- A byte read through a `signed char` pointer. -/
def signedChar (c : UInt8) : ℤ := c.toInt8.toInt

/-- The pointers, as distances from where they start, and the counter. -/
structure Cursor where
  s1 : ℕ
  s2 : ℕ
  n : ℕ
  deriving DecidableEq, Repr

/-- One turn of the loop, with the bytes that the pointers see from their starts on. -/
def memcmpTurn (a b : Buffer) (c : Cursor) : Turn Cursor ℤ :=
  if 0 < c.n then
    let cmp := signedChar (a c.s1) - signedChar (b c.s2)
    if cmp ≠ 0 then .stop cmp
    else .next { c with s1 := c.s1 + 1, s2 := c.s2 + 1 }
  else .stop 0

/-- The sign of the result is that of the first difference. -/
structure ComparesFirst (a b : Buffer) (n : ℕ) (result : ℤ) : Prop where
  equal : result = 0 ↔ ∀ i < n, a i = b i
  sign : ∀ i < n, (∀ j < i, a j = b j) → a i ≠ b i →
    result.sign = (signedChar (a i) - signedChar (b i)).sign

/-- `memcmp(a, b, n)` ends, has looked at the first `n` bytes only, and tells how they
compare. -/
def Meets (a b : Buffer) (n : ℕ) : Prop :=
  (∃ result, Halts (memcmpTurn a b) ⟨0, 0, n⟩ result ∧ ComparesFirst a b n result) ∧
    ∀ c, Reaches (memcmpTurn a b) ⟨0, 0, n⟩ c → 0 < c.n → c.s1 < n ∧ c.s2 < n

variable {a b : Buffer} {n : ℕ}

theorem signedChar_sub_eq_zero_iff (c d : UInt8) :
    signedChar c - signedChar d = 0 ↔ c = d := by
  rw [sub_eq_zero, signedChar, signedChar, Int8.toInt_inj]
  exact ⟨fun h => by simpa using congrArg Int8.toUInt8 h, fun h => congrArg _ h⟩

theorem memcmpTurn_equal {i : ℕ} (hn : 0 < n) (hsame : a i = b i) :
    memcmpTurn a b ⟨i, i, n⟩ = .next ⟨i + 1, i + 1, n⟩ := by
  have hcmp : signedChar (a i) - signedChar (b i) = 0 :=
    (signedChar_sub_eq_zero_iff _ _).mpr hsame
  simp [memcmpTurn, hn, hcmp]

theorem memcmpTurn_differ {i : ℕ} (hn : 0 < n) (hne : a i ≠ b i) :
    memcmpTurn a b ⟨i, i, n⟩ = .stop (signedChar (a i) - signedChar (b i)) := by
  have hcmp : signedChar (a i) - signedChar (b i) ≠ 0 :=
    mt (signedChar_sub_eq_zero_iff _ _).mp hne
  simp [memcmpTurn, hn, hcmp]

/-- The loop goes over equal bytes. -/
theorem reaches_equal {i : ℕ} (hn : 0 < n) (hsame : ∀ j < i, a j = b j) :
    Reaches (memcmpTurn a b) ⟨0, 0, n⟩ ⟨i, i, n⟩ := by
  induction i with
  | zero => exact Reaches.refl _
  | succ i ih =>
      have hbefore := ih fun j hj => hsame j (by omega)
      exact hbefore.trans ((Reaches.refl _).head (memcmpTurn_equal hn (hsame i (by omega))))

/-- The loop does not get past the first difference. -/
theorem reaches_le {i : ℕ} (hdiff : a i ≠ b i) {c : Cursor}
    (hreach : Reaches (memcmpTurn a b) ⟨0, 0, n⟩ c) :
    c.s1 = c.s2 ∧ c.n = n ∧ c.s1 ≤ i := by
  induction hreach with
  | refl => exact ⟨rfl, rfl, Nat.zero_le i⟩
  | @tail c c' _ hturn ih =>
      obtain ⟨hsame, hcount, hle⟩ := ih
      obtain ⟨s1, s2, m⟩ := c
      simp only at hsame hcount hle
      subst hsame hcount
      have hpos : 0 < m := by
        by_contra hzero
        simp [memcmpTurn, hzero] at hturn
      have hequal : a s1 = b s1 := by
        by_contra hne
        rw [memcmpTurn_differ hpos hne] at hturn
        contradiction
      rw [memcmpTurn_equal hpos hequal, Turn.next.injEq] at hturn
      subst hturn
      have hne : s1 ≠ i := by
        rintro rfl
        exact hdiff hequal
      exact ⟨rfl, rfl, Nat.lt_of_le_of_ne hle hne⟩

theorem meets_of_difference {i : ℕ} (hi : i < n) (hdiff : a i ≠ b i) : Meets a b n := by
  have hexists : ∃ k, a k ≠ b k := ⟨i, hdiff⟩
  -- the first place where the bytes differ
  obtain ⟨first, hfirst, hbefore⟩ : ∃ k, a k ≠ b k ∧ ∀ j < k, a j = b j :=
    ⟨Nat.find hexists, Nat.find_spec hexists, fun j hj => not_not.mp (Nat.find_min hexists hj)⟩
  have hle : first ≤ i := by
    by_contra hlater
    exact hdiff (hbefore i (by omega))
  have hpos : 0 < n := by omega
  refine ⟨⟨signedChar (a first) - signedChar (b first), ?_, ?_⟩, ?_⟩
  · rw [(reaches_equal hpos hbefore).halts_iff]
    exact Halts.of_stop (memcmpTurn_differ hpos hfirst)
  · constructor
    · rw [signedChar_sub_eq_zero_iff]
      exact iff_of_false hfirst fun hall => hdiff (hall i hi)
    · intro k _ hequal hne
      have hk : k = first := by
        rcases Nat.lt_trichotomy k first with h | h | h
        · exact absurd (hbefore k h) hne
        · exact h
        · exact absurd (hequal first h) hfirst
      rw [hk]
  · intro c hreach _
    obtain ⟨hsame, _, hlast⟩ := reaches_le hfirst hreach
    omega

theorem meets_zero : Meets a b 0 := by
  have hstop : memcmpTurn a b ⟨0, 0, 0⟩ = .stop 0 := rfl
  refine ⟨⟨0, Halts.of_stop hstop, by simp, by simp⟩, ?_⟩
  intro c hreach hpos
  rcases Relation.ReflTransGen.cases_head hreach with rfl | ⟨c', hturn, _⟩
  · exact absurd hpos (by decide)
  · rw [hstop] at hturn
    contradiction

/-- `memcmp` does what it should exactly when it has nothing to compare or finds a
difference: behind equal bytes it goes on. -/
theorem meets_iff (a b : Buffer) (n : ℕ) : Meets a b n ↔ n = 0 ∨ ∃ i < n, a i ≠ b i := by
  constructor
  · intro hmeets
    by_contra hcond
    rw [not_or] at hcond
    obtain ⟨hn, hnone⟩ := hcond
    have hequal : ∀ i < n, a i = b i := by
      intro i hi
      by_contra hne
      exact hnone ⟨i, hi, hne⟩
    have hpos : 0 < n := Nat.pos_of_ne_zero hn
    have hbehind := hmeets.2 _ (reaches_equal hpos hequal) hpos
    exact absurd hbehind.1 (Nat.lt_irrefl n)
  · rintro (rfl | ⟨i, hi, hdiff⟩)
    · exact meets_zero
    · exact meets_of_difference hi hdiff

/-- One equal byte, and different bytes behind it. -/
theorem reads_behind_equal : ¬ ∀ (a b : Buffer) (n : ℕ), Meets a b n := by
  intro hclaim
  have hmeets := hclaim (fun _ => 7) (Function.update (fun _ => 7) 1 9) 1
  have hreach : Reaches (memcmpTurn (fun _ => 7) (Function.update (fun _ => 7) 1 9))
      ⟨0, 0, 1⟩ ⟨1, 1, 1⟩ := (Reaches.refl _).head rfl
  exact absurd (hmeets.2 _ hreach (by decide)).1 (by decide)

end MemoryCompare
end Janus86
