import Mathlib.Tactic

/-!
# Strings that end with a zero

A string in memory is the cells from an address on up to the first zero.  What
is stored before its first cell or behind its zero does not change it, and a
zero that is stored inside of it cuts it off there.
-/

namespace Janus86
namespace ZeroTerminated

variable {α : Type*}

/-- The cells from an address on. -/
def CellsAt (mem : ℕ → α) : ℕ → List α → Prop
  | _, [] => True
  | o, c :: s => mem o = c ∧ CellsAt mem (o + 1) s

theorem cellsAt_append {mem : ℕ → α} {o : ℕ} {s t : List α} :
    CellsAt mem o (s ++ t) ↔ CellsAt mem o s ∧ CellsAt mem (o + s.length) t := by
  induction s generalizing o with
  | nil => simp [CellsAt]
  | cons c s ih =>
      have hlen : o + (s.length + 1) = o + 1 + s.length := by omega
      rw [List.cons_append, CellsAt, CellsAt, ih, List.length_cons, hlen, and_assoc]

theorem cellsAt_iff {mem : ℕ → α} {o : ℕ} {s : List α} :
    CellsAt mem o s ↔ ∀ i c, s[i]? = some c → mem (o + i) = c := by
  induction s generalizing o with
  | nil => simp [CellsAt]
  | cons d s ih =>
      have hindex : ∀ i, o + 1 + i = o + (i + 1) := fun i => by omega
      rw [CellsAt, ih]
      constructor
      · rintro ⟨hfirst, hrest⟩ i c hi
        cases i with
        | zero => exact hfirst.trans (Option.some.inj hi)
        | succ i =>
            rw [← hindex]
            exact hrest i c hi
      · intro hall
        refine ⟨hall 0 d rfl, fun i c hi => ?_⟩
        rw [hindex]
        exact hall (i + 1) c hi

theorem CellsAt.congr {mem mem' : ℕ → α} {o : ℕ} {s : List α}
    (hcells : CellsAt mem o s)
    (hsame : ∀ i, o ≤ i → i < o + s.length → mem' i = mem i) : CellsAt mem' o s := by
  induction s generalizing o with
  | nil => trivial
  | cons c s ih =>
      rw [List.length_cons] at hsame
      refine ⟨(hsame o le_rfl (by omega)).trans hcells.1, ih hcells.2 fun i hle hlt => ?_⟩
      exact hsame i (by omega) (by omega)

variable [OfNat α 0]

/-- The string at an address. -/
structure StringAt (mem : ℕ → α) (o : ℕ) (s : List α) : Prop where
  cells : CellsAt mem o s
  stop : mem (o + s.length) = 0
  zero_free : 0 ∉ s

variable {mem mem' : ℕ → α} {o : ℕ} {c : α} {s t : List α}

theorem stringAt_nil_iff : StringAt mem o [] ↔ mem o = 0 :=
  ⟨fun h => h.stop, fun h => ⟨trivial, h, List.not_mem_nil⟩⟩

theorem stringAt_cons_iff :
    StringAt mem o (c :: s) ↔ c ≠ 0 ∧ mem o = c ∧ StringAt mem (o + 1) s := by
  have hlen : o + (s.length + 1) = o + 1 + s.length := by omega
  constructor
  · rintro ⟨hcells, hstop, hfree⟩
    rw [List.length_cons, hlen] at hstop
    rw [List.mem_cons, not_or] at hfree
    exact ⟨Ne.symm hfree.1, hcells.1, hcells.2, hstop, hfree.2⟩
  · rintro ⟨hc, hfirst, hcells, hstop, hfree⟩
    refine ⟨⟨hfirst, hcells⟩, ?_, ?_⟩
    · rwa [List.length_cons, hlen]
    · rw [List.mem_cons, not_or]
      exact ⟨Ne.symm hc, hfree⟩

theorem StringAt.congr (hstring : StringAt mem o s)
    (hsame : ∀ i, o ≤ i → i ≤ o + s.length → mem' i = mem i) : StringAt mem' o s :=
  ⟨hstring.cells.congr fun i hle hlt => hsame i hle hlt.le,
    (hsame _ (by omega) le_rfl).trans hstring.stop, hstring.zero_free⟩

theorem StringAt.drop (hstring : StringAt mem o (s ++ t)) :
    StringAt mem (o + s.length) t := by
  obtain ⟨hcells, hstop, hfree⟩ := hstring
  rw [List.length_append, ← Nat.add_assoc] at hstop
  exact ⟨(cellsAt_append.mp hcells).2, hstop,
    fun h => hfree (List.mem_append_right s h)⟩

/-- A zero behind its first part leaves that part of a string. -/
theorem StringAt.cut (hstring : StringAt mem o (s ++ t))
    (hsame : ∀ i, o ≤ i → i < o + s.length → mem' i = mem i)
    (hzero : mem' (o + s.length) = 0) : StringAt mem' o s :=
  ⟨(cellsAt_append.mp hstring.cells).1.congr hsame, hzero,
    fun h => hstring.zero_free (List.mem_append_left t h)⟩

/-- Cells in front of a string make it longer. -/
theorem StringAt.prepend (hcells : CellsAt mem o s) (hfree : 0 ∉ s)
    (hstring : StringAt mem (o + s.length) t) : StringAt mem o (s ++ t) := by
  refine ⟨cellsAt_append.mpr ⟨hcells, hstring.cells⟩, ?_, ?_⟩
  · rw [List.length_append, ← Nat.add_assoc]
    exact hstring.stop
  · rw [List.mem_append, not_or]
    exact ⟨hfree, hstring.zero_free⟩

theorem StringAt.unique (hstring : StringAt mem o s) (hstring' : StringAt mem o t) :
    s = t := by
  induction s generalizing o t with
  | nil =>
      cases t with
      | nil => rfl
      | cons d t =>
          obtain ⟨hd, hfirst, _⟩ := stringAt_cons_iff.mp hstring'
          exact absurd (hfirst.symm.trans hstring.stop) hd
  | cons c s ih =>
      obtain ⟨hc, hfirst, hrest⟩ := stringAt_cons_iff.mp hstring
      cases t with
      | nil => exact absurd (hfirst.symm.trans hstring'.stop) hc
      | cons d t =>
          obtain ⟨_, hfirst', hrest'⟩ := stringAt_cons_iff.mp hstring'
          rw [ih hrest hrest', ← hfirst, ← hfirst']

end ZeroTerminated
end Janus86
