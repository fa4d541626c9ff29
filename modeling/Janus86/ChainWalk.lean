import Mathlib.Data.List.Iterate
import Mathlib.Tactic

/-!
# Walks along a chain

A chain is followed by applying `next` until a node stops the walk; whether a
node stops it may depend on how far the walk has come, but a node that stops a
walk stops every walk that comes by it earlier.  A walk that stops has come by
no node twice, and a walk over finitely many nodes that comes by none twice
stops.
-/

namespace Janus86
namespace ChainWalk

variable {α : Type*} {next : α → α} {stops : ℕ → α → Prop}

/-- The walk from `a` on is stopped by the node it comes to after `i` steps. -/
def EndsAt (next : α → α) (stops : ℕ → α → Prop) (a : α) (i : ℕ) : Prop :=
  stops i (next^[i] a) ∧ ∀ k < i, ¬stops k (next^[k] a)

theorem EndsAt.unique {a : α} {i j : ℕ} (hi : EndsAt next stops a i)
    (hj : EndsAt next stops a j) : i = j := by
  rcases Nat.lt_trichotomy i j with hlt | heq | hgt
  · exact absurd hi.1 (hj.2 i hlt)
  · exact heq
  · exact absurd hj.1 (hi.2 j hgt)

theorem endsAt_zero_iff {a : α} : EndsAt next stops a 0 ↔ stops 0 a := by
  simp [EndsAt]

theorem endsAt_succ_iff {a : α} {i : ℕ} :
    EndsAt next stops a (i + 1) ↔
      ¬stops 0 a ∧ EndsAt next (fun k => stops (k + 1)) (next a) i := by
  simp only [EndsAt, Function.iterate_succ_apply]
  constructor
  · rintro ⟨hstop, hpass⟩
    refine ⟨hpass 0 (Nat.zero_lt_succ i), hstop, fun k hk => ?_⟩
    simpa using hpass (k + 1) (Nat.succ_lt_succ hk)
  · rintro ⟨hfirst, hstop, hpass⟩
    refine ⟨hstop, fun k hk => ?_⟩
    cases k with
    | zero => exact hfirst
    | succ k => simpa using hpass k (Nat.lt_of_succ_lt_succ hk)

/-- A walk that has come back to a node goes round without end. -/
theorem not_stops_of_repeat (hearly : ∀ i j x, i ≤ j → stops j x → stops i x)
    {a : α} {i j : ℕ} (hij : i < j) (hsame : next^[i] a = next^[j] a)
    (hpass : ∀ k < j, ¬stops k (next^[k] a)) (k : ℕ) :
    ¬stops k (next^[k] a) := by
  induction k using Nat.strong_induction_on with
  | _ k ih =>
      rcases Nat.lt_or_ge k j with hlt | hge
      · exact hpass k hlt
      · have hback : next^[k] a = next^[k - (j - i)] a := by
          have hk : k = (k - j) + j := by omega
          have hk' : k - (j - i) = (k - j) + i := by omega
          rw [hk', Function.iterate_add_apply, hsame,
            ← Function.iterate_add_apply, ← hk]
        rw [hback]
        intro hstop
        exact ih (k - (j - i)) (by omega) (hearly _ k _ (by omega) hstop)

theorem EndsAt.nodup (hearly : ∀ i j x, i ≤ j → stops j x → stops i x)
    {a : α} {i : ℕ} (hends : EndsAt next stops a i) :
    (List.iterate next a (i + 1)).Nodup := by
  have hapart : ∀ m n, m < n → n ≤ i → next^[m] a ≠ next^[n] a := by
    intro m n hmn hn hsame
    have hpass : ∀ k < n, ¬stops k (next^[k] a) :=
      fun k hk => hends.2 k (lt_of_lt_of_le hk hn)
    exact not_stops_of_repeat hearly hmn hsame hpass i hends.1
  rw [← List.range_map_iterate]
  refine List.nodup_range.map_on fun m hm n hn hsame => ?_
  rw [List.mem_range, Nat.lt_succ_iff] at hm hn
  rcases Nat.lt_trichotomy m n with hlt | heq | hgt
  · exact absurd hsame (hapart m n hlt hn)
  · exact heq
  · exact absurd hsame.symm (hapart n m hgt hm)

/-- Where a key decides how a walk goes on, no key comes twice either. -/
theorem EndsAt.nodup_map {β : Type*} {key : α → β} {halts : α → Prop}
    (hnext : ∀ x y, key x = key y → next x = next y)
    (hhalts : ∀ x y, key x = key y → halts x → halts y)
    {a : α} {i : ℕ} (hends : EndsAt next (fun _ => halts) a i) :
    ((List.iterate next a (i + 1)).map key).Nodup := by
  have hapart : ∀ m n, m < n → n ≤ i → key (next^[m] a) ≠ key (next^[n] a) := by
    intro m n hmn hn hsame
    rcases Nat.lt_or_eq_of_le hn with hlt | rfl
    · have hstep : next^[m + 1] a = next^[n + 1] a := by
        rw [Function.iterate_succ_apply', Function.iterate_succ_apply']
        exact hnext _ _ hsame
      have hpass : ∀ k < n + 1, ¬(fun _ => halts) k (next^[k] a) :=
        fun k hk => hends.2 k (by omega)
      exact not_stops_of_repeat (fun _ _ _ _ hstop => hstop)
        (Nat.succ_lt_succ hmn) hstep hpass i hends.1
    · exact hends.2 m hmn (hhalts _ _ hsame.symm hends.1)
  rw [← List.range_map_iterate, List.map_map]
  refine List.nodup_range.map_on fun m hm n hn hsame => ?_
  rw [List.mem_range, Nat.lt_succ_iff] at hm hn
  rcases Nat.lt_trichotomy m n with hlt | heq | hgt
  · exact absurd hsame (hapart m n hlt hn)
  · exact heq
  · exact absurd hsame.symm (hapart n m hgt hm)

end ChainWalk
end Janus86
