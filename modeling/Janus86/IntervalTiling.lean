import Mathlib.Tactic
import Mathlib.Data.List.Perm.Basic
import Mathlib.Order.CompletePartialOrder

/-!
# Blocks that tile a set of cells

A block is a run of consecutive cells.  `Tiles range blocks` says that the
blocks are apart from each other and together are exactly the cells of
`range`.  A tiling does not depend on the order of its blocks, and it is kept
when one block is cut in two or two adjacent ones are joined.  When no block
ends where another one starts, the blocks are the maximal runs of `range`, so
that the tiling is determined by the cells it covers.
-/

namespace Janus86
namespace IntervalTiling

/-- A run of `size` cells from `start` on. -/
structure Block where
  start : ℕ
  size : ℕ
  deriving DecidableEq, Repr

/-- The cells of a block. -/
def Block.cells (b : Block) : Set ℕ := Set.Ico b.start (b.start + b.size)

/-- One block ends before the other one starts. -/
def Block.Apart (a b : Block) : Prop :=
  a.start + a.size ≤ b.start ∨ b.start + b.size ≤ a.start

/-- The blocks are nonempty, apart from each other, and make up `range`. -/
structure Tiles (range : Set ℕ) (blocks : List Block) : Prop where
  nonempty : ∀ b ∈ blocks, 0 < b.size
  apart : blocks.Pairwise Block.Apart
  cover : ∀ u, (∃ b ∈ blocks, u ∈ b.cells) ↔ u ∈ range

@[simp] theorem Block.mem_cells (b : Block) (u : ℕ) :
    u ∈ b.cells ↔ b.start ≤ u ∧ u < b.start + b.size :=
  Iff.rfl

theorem Block.Apart.symm {a b : Block} (h : a.Apart b) : b.Apart a :=
  Or.symm h

theorem Block.Apart.disjoint {a b : Block} (h : a.Apart b) :
    Disjoint a.cells b.cells := by
  rw [Set.disjoint_left]
  intro u ha hb
  simp only [Block.mem_cells] at ha hb
  rcases h with h | h <;> omega

variable {range : Set ℕ} {blocks blocks' : List Block}

theorem Tiles.singleton (b : Block) (hb : 0 < b.size) :
    Tiles b.cells [b] := by
  constructor
  · simpa using hb
  · simp
  · intro u
    simp

theorem Tiles.perm (htiles : Tiles range blocks)
    (hperm : blocks.Perm blocks') : Tiles range blocks' := by
  constructor
  · intro b hb
    exact htiles.nonempty b (hperm.mem_iff.mpr hb)
  · exact (hperm.pairwise_iff Block.Apart.symm).mp htiles.apart
  · intro u
    rw [← htiles.cover u]
    simp only [hperm.mem_iff]

theorem Tiles.split {s m n : ℕ} (htiles : Tiles range (⟨s, m + n⟩ :: blocks))
    (hm : 0 < m) (hn : 0 < n) :
    Tiles range (⟨s, m⟩ :: ⟨s + m, n⟩ :: blocks) := by
  obtain ⟨hpos, hapart, hcover⟩ := htiles
  simp only [List.mem_cons, forall_eq_or_imp] at hpos
  rw [List.pairwise_cons] at hapart
  refine ⟨by simpa [hm, hn] using hpos.2, ?_, ?_⟩
  · simp only [List.pairwise_cons, List.mem_cons]
    refine ⟨?_, ?_, hapart.2⟩
    · rintro b (rfl | hb)
      · exact Or.inl le_rfl
      · have h := hapart.1 b hb
        simp only [Block.Apart] at h ⊢
        omega
    · intro b hb
      have h := hapart.1 b hb
      simp only [Block.Apart] at h ⊢
      omega
  · intro u
    rw [← hcover u]
    simp only [List.mem_cons, exists_eq_or_imp, Block.mem_cells]
    rw [← or_assoc]
    apply or_congr_left
    omega

theorem Tiles.join {s m n : ℕ}
    (htiles : Tiles range (⟨s, m⟩ :: ⟨s + m, n⟩ :: blocks)) :
    Tiles range (⟨s, m + n⟩ :: blocks) := by
  obtain ⟨hpos, hapart, hcover⟩ := htiles
  simp only [List.mem_cons, forall_eq_or_imp] at hpos
  obtain ⟨hm, hn, hpos⟩ := hpos
  simp only [List.pairwise_cons, List.mem_cons] at hapart
  constructor
  · simp only [List.mem_cons, forall_eq_or_imp]
    exact ⟨by omega, hpos⟩
  · rw [List.pairwise_cons]
    refine ⟨fun b hb => ?_, hapart.2.2⟩
    have hfirst := hapart.1 b (Or.inr hb)
    have hsecond := hapart.2.1 b hb
    have hb' := hpos b hb
    simp only [Block.Apart] at hfirst hsecond ⊢
    omega
  · intro u
    rw [← hcover u]
    simp only [List.mem_cons, exists_eq_or_imp, Block.mem_cells]
    rw [← or_assoc]
    apply or_congr_left
    omega

theorem Tiles.cells_subset (htiles : Tiles range blocks) {b : Block}
    (hb : b ∈ blocks) : b.cells ⊆ range := by
  intro u hu
  exact (htiles.cover u).mp ⟨b, hb, hu⟩

theorem Tiles.head_apart {a : Block} (htiles : Tiles range (a :: blocks))
    {b : Block} (hb : b ∈ blocks) : a.Apart b :=
  List.rel_of_pairwise_cons htiles.apart hb

/-- No block ends where another one starts. -/
def Separate (blocks : List Block) : Prop :=
  ∀ a ∈ blocks, ∀ b ∈ blocks, a.start + a.size ≠ b.start

theorem Separate.mono (hsep : Separate blocks) (hsub : blocks' ⊆ blocks) :
    Separate blocks' :=
  fun a ha b hb => hsep a (hsub ha) b (hsub hb)

theorem Tiles.eq_of_not_apart (htiles : Tiles range blocks) {a b : Block}
    (ha : a ∈ blocks) (hb : b ∈ blocks) (hmeet : ¬ a.Apart b) : a = b := by
  by_contra hne
  have hsymm : Std.Symm Block.Apart := ⟨fun _ _ h => h.symm⟩
  exact hmeet (htiles.apart.forall ha hb hne)

/-- A run of cells of `range` that no cell of `range` stands next to. -/
structure MaximalRun (range : Set ℕ) (b : Block) : Prop where
  nonempty : 0 < b.size
  inside : b.cells ⊆ range
  below : ∀ u, u + 1 = b.start → u ∉ range
  above : b.start + b.size ∉ range

/-- A maximal run holds the cells that can be reached from one of its own
through cells of the range. -/
theorem MaximalRun.cells_eq {b : Block} (hrun : MaximalRun range b) {u : ℕ}
    (hu : u ∈ b.cells) (v : ℕ) : v ∈ b.cells ↔ Set.uIcc u v ⊆ range := by
  rw [Block.mem_cells] at hu
  constructor
  · intro hv w hw
    rw [Block.mem_cells] at hv
    rw [Set.mem_uIcc] at hw
    apply hrun.inside
    rw [Block.mem_cells]
    omega
  · intro hsub
    rw [Block.mem_cells]
    by_contra hv
    rcases Nat.lt_or_ge v b.start with hlt | hge
    · refine hrun.below (b.start - 1) (by omega) (hsub ?_)
      rw [Set.mem_uIcc]
      omega
    · refine hrun.above (hsub ?_)
      rw [Set.mem_uIcc]
      omega

theorem Block.eq_of_cells {a b : Block} (ha : 0 < a.size) (hb : 0 < b.size)
    (hcells : ∀ u, u ∈ a.cells ↔ u ∈ b.cells) : a = b := by
  simp only [Block.mem_cells] at hcells
  have hfirst := hcells a.start
  have hfirst' := hcells b.start
  have hlast := hcells (a.start + a.size)
  have hlast' := hcells (b.start + b.size)
  have hstart : a.start = b.start := by omega
  have hsize : a.size = b.size := by omega
  cases a
  cases b
  simp_all

/-- A block of a separate tiling is a maximal run of what the tiling covers:
a cell next to it would lie in a block that touches it. -/
theorem Tiles.maximalRun (htiles : Tiles range blocks)
    (hsep : Separate blocks) {b : Block} (hb : b ∈ blocks) :
    MaximalRun range b := by
  have hpos := htiles.nonempty b hb
  have houter : ∀ w, w + 1 = b.start ∨ w = b.start + b.size → w ∉ range := by
    intro w hw hrange
    obtain ⟨a, ha, hwa⟩ := (htiles.cover w).mpr hrange
    rw [Block.mem_cells] at hwa
    by_cases hapart : a.Apart b
    · have hab := hsep a ha b hb
      have hba := hsep b hb a ha
      simp only [Block.Apart] at hapart
      omega
    · have heq := htiles.eq_of_not_apart ha hb hapart
      subst heq
      omega
  exact ⟨hpos, htiles.cells_subset hb, fun w hw => houter w (Or.inl hw),
    houter _ (Or.inr rfl)⟩

theorem Tiles.mem_iff_of_separate (htiles : Tiles range blocks)
    (hsep : Separate blocks) {b : Block} (hb : b ∈ blocks) {u : ℕ}
    (hu : u ∈ b.cells) (v : ℕ) : v ∈ b.cells ↔ Set.uIcc u v ⊆ range :=
  (htiles.maximalRun hsep hb).cells_eq hu v

/-- The blocks of a separate tiling are the maximal runs of what it covers. -/
theorem Tiles.mem_iff_maximalRun (htiles : Tiles range blocks)
    (hsep : Separate blocks) (b : Block) :
    b ∈ blocks ↔ MaximalRun range b := by
  refine ⟨htiles.maximalRun hsep, fun hb => ?_⟩
  have hpos := hb.nonempty
  have hfirst : b.start ∈ b.cells := ⟨le_rfl, by omega⟩
  obtain ⟨a, ha, hmem⟩ := (htiles.cover b.start).mpr (hb.inside hfirst)
  have heq : a = b := by
    apply Block.eq_of_cells (htiles.nonempty a ha) hpos
    intro u
    rw [htiles.mem_iff_of_separate hsep ha hmem, hb.cells_eq hfirst]
  exact heq ▸ ha

/-- Between separate tilings, a block that joins the range is found in the new
tiling together with the old blocks that it touches, and with nothing else. -/
theorem Tiles.exists_joined (htiles : Tiles range blocks)
    (hsep : Separate blocks) {c : Block} (hpos : 0 < c.size)
    (happart : Disjoint c.cells range) (htiles' : Tiles (range ∪ c.cells) blocks')
    (hsep' : Separate blocks') :
    ∃ m ∈ blocks', ∀ u, u ∈ m.cells ↔ u ∈ c.cells ∨ ∃ b ∈ blocks,
      (b.start + b.size = c.start ∨ c.start + c.size = b.start) ∧
        u ∈ b.cells := by
  have hout : ∀ w, c.start ≤ w → w < c.start + c.size → w ∉ range :=
    fun w hlo hhi => Set.disjoint_left.mp happart ⟨hlo, hhi⟩
  have hstart : c.start ∈ c.cells := ⟨le_rfl, by omega⟩
  obtain ⟨m, hm, hcm⟩ := (htiles'.cover c.start).mpr (Or.inr hstart)
  refine ⟨m, hm, fun u => ?_⟩
  rw [htiles'.mem_iff_of_separate hsep' hm hcm u]
  constructor
  · intro hsub
    by_cases huc : u ∈ c.cells
    · exact Or.inl huc
    right
    rw [Block.mem_cells] at huc
    have hreach : ∀ w, w ∈ Set.uIcc c.start u → w ∉ c.cells → w ∈ range :=
      fun w hw hwc => (hsub hw).resolve_right hwc
    simp only [Set.mem_uIcc, Block.mem_cells] at hreach
    rcases Nat.lt_or_ge u c.start with hlt | hge
    · -- below `c`: the block that holds the cell in front of it
      obtain ⟨b, hb, hwb⟩ := (htiles.cover (c.start - 1)).mpr
        (hreach _ (by omega) (by omega))
      have hend : ¬ c.start < b.start + b.size := fun hlong =>
        hout c.start le_rfl (by omega)
          (htiles.cells_subset hb ⟨by rw [Block.mem_cells] at hwb; omega, hlong⟩)
      refine ⟨b, hb, Or.inl (by rw [Block.mem_cells] at hwb; omega), ?_⟩
      rw [htiles.mem_iff_of_separate hsep hb hwb u]
      intro w hw
      rw [Set.mem_uIcc] at hw
      exact hreach w (by omega) (by omega)
    · -- above `c`: the block that holds the cell behind it
      obtain ⟨b, hb, hwb⟩ := (htiles.cover (c.start + c.size)).mpr
        (hreach _ (by omega) (by omega))
      have hbegin : ¬ b.start < c.start + c.size := fun hlow =>
        hout (c.start + c.size - 1) (by omega) (by omega)
          (htiles.cells_subset hb
            ⟨by omega, by rw [Block.mem_cells] at hwb; omega⟩)
      refine ⟨b, hb, Or.inr (by rw [Block.mem_cells] at hwb; omega), ?_⟩
      rw [htiles.mem_iff_of_separate hsep hb hwb u]
      intro w hw
      rw [Set.mem_uIcc] at hw
      exact hreach w (by omega) (by omega)
  · intro hu w hw
    rw [Set.mem_uIcc] at hw
    by_cases hwc : w ∈ c.cells
    · exact Or.inr hwc
    left
    rw [Block.mem_cells] at hwc
    rcases hu with hu | ⟨b, hb, htouch, hu⟩
    · rw [Block.mem_cells] at hu
      omega
    · apply htiles.cells_subset hb
      rw [Block.mem_cells] at hu ⊢
      omega

/-- The cells of `range` outside of the blocks. -/
def uncovered (range : Set ℕ) (blocks : List Block) : Set ℕ :=
  {u ∈ range | ∀ b ∈ blocks, u ∉ b.cells}

/-- What tiles a range together with other blocks tiles what those leave. -/
theorem Tiles.uncovered {others : List Block}
    (htiles : Tiles range (blocks ++ others)) :
    Tiles (uncovered range others) blocks := by
  have hapart := htiles.apart
  rw [List.pairwise_append] at hapart
  refine ⟨fun b hb => htiles.nonempty b (List.mem_append_left _ hb), hapart.1,
    fun u => ?_⟩
  have hcover := htiles.cover u
  simp only [List.mem_append, or_and_right, exists_or] at hcover
  constructor
  · rintro ⟨b, hb, hu⟩
    refine ⟨hcover.mp (Or.inl ⟨b, hb, hu⟩), fun c hc => ?_⟩
    exact Set.disjoint_left.mp (hapart.2.2 b hb c hc).disjoint hu
  · rintro ⟨hrange, hout⟩
    rcases hcover.mpr hrange with h | ⟨c, hc, hu⟩
    · exact h
    · exact absurd hu (hout c hc)

end IntervalTiling
end Janus86
