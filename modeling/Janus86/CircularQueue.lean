import Mathlib.Tactic

/-!
# Queues in a circular buffer

A queue that lives in a buffer of `cap` slots is the window of `len` slots
from `front` on, read around the end of the buffer.  The lemmas take the first
or the last slot off a window and move the first entry behind the last one.
-/

namespace Janus86
namespace CircularQueue

variable {α β : Type*}

/-- The entries in the `len` slots from `front` on. -/
def window (cap : ℕ) (slots : ℕ → α) (front len : ℕ) : List α :=
  (List.range len).map fun i => slots ((front + i) % cap)

variable (cap : ℕ) (slots : ℕ → α) (front len : ℕ)

@[simp] theorem length_window : (window cap slots front len).length = len := by
  simp [window]

@[simp] theorem window_mod :
    window cap slots (front % cap) len = window cap slots front len := by
  simp [window]

theorem window_cons :
    window cap slots front (len + 1) =
      slots (front % cap) :: window cap slots (front + 1) len := by
  simp only [window, List.range_succ_eq_map, List.map_cons, List.map_map,
    Nat.add_zero, List.cons.injEq, true_and]
  apply List.map_congr_left
  intro i _
  simp only [Function.comp_apply]
  congr 2
  omega

theorem window_snoc :
    window cap slots front (len + 1) =
      window cap slots front len ++ [slots ((front + len) % cap)] := by
  simp [window, List.range_succ]

variable {cap slots front len}

theorem slot_injective {i j : ℕ} (hi : i < cap) (hj : j < cap)
    (hsame : (front + i) % cap = (front + j) % cap) : i = j := by
  have hmod : i ≡ j [MOD cap] := Nat.ModEq.add_left_cancel' front hsame
  exact hmod.eq_of_lt_of_lt hi hj

theorem window_nodup (hlen : len ≤ cap) : (window cap id front len).Nodup := by
  refine List.nodup_range.map_on fun i hi j hj hsame => ?_
  rw [List.mem_range] at hi hj
  exact slot_injective (by omega) (by omega) hsame

theorem window_update (hlen : len < cap) (x : α) :
    window cap (Function.update slots ((front + len) % cap) x) front len =
      window cap slots front len := by
  apply List.map_congr_left
  intro i hi
  rw [List.mem_range] at hi
  apply Function.update_of_ne
  intro hsame
  have heq := slot_injective (by omega) hlen hsame
  omega

/-- The first entry is stored behind the last one, and the window moves on by
one slot. -/
theorem window_move (hlen : len < cap) (x : α) :
    window cap (Function.update slots ((front + len) % cap) x) (front + 1) len =
      (window cap slots front len ++ [x]).tail := by
  cases len with
  | zero => rfl
  | succ len =>
      have hend : front + (len + 1) = front + 1 + len := by omega
      rw [window_snoc, window_cons, hend, window_update (by omega)]
      simp

end CircularQueue
end Janus86
