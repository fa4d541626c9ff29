import Janus86.KmallocFreeList

/-!
# Allocation from the gaps between the blocks in use

What the allocator does can be told without its free list.  A gap is a
maximal run of units of the heap outside of the blocks in use.  `kmalloc`
fails when no gap is big enough and else hands out the upper end of one;
`kfree` makes the units of the block part of the gaps.  In a run of safe
calls the blocks on the free list are the gaps, so that the list depends on
the blocks in use only and not on the calls that led to them.
-/

namespace Janus86
namespace Kmalloc

open StepMachine
open RingList
open IntervalTiling

/-- A gap between the blocks in use. -/
def Gap (live : List Block) (g : Block) : Prop :=
  MaximalRun (uncovered heapUnits live) g

/-- What a call does to the blocks in use. -/
inductive GapStep : List Block → Call → List Block → Prop
  | failed {live : List Block} {nbytes : ℕ}
      (full : ∀ g, Gap live g → g.size < nunits nbytes) :
      GapStep live (.kmalloc nbytes) live
  | allocated {live : List Block} {g : Block} {nbytes p : ℕ}
      (gap : Gap live g) (fits : nunits nbytes ≤ g.size)
      (upper : p + nunits nbytes = g.start + g.size) :
      GapStep live (.kmalloc nbytes) (⟨p, nunits nbytes⟩ :: live)
  | freed {live : List Block} {b : Block} (used : b ∈ live) :
      GapStep live (.kfree (b.start + 1)) (live.erase b)

/-- `g` is the only gap. -/
def OnlyGap (live : List Block) (g : Block) : Prop :=
  ∀ g', Gap live g' ↔ g' = g

/-- The call does not take the only gap whole, and does not free the block
below the only gap. -/
def GapSafe (live : List Block) : Call → Prop
  | .kmalloc nbytes => ¬ ∃ g, OnlyGap live g ∧ g.size = nunits nbytes
  | .kfree ap => ¬ ∃ g, OnlyGap live g ∧
      ∃ b ∈ live, ap = b.start + 1 ∧ b.start + b.size = g.start

def SafeGapStep (live : List Block) (call : Call) (live' : List Block) : Prop :=
  GapSafe live call ∧ GapStep live call live'

/-! ## The free list as the list of the gaps -/

/-- The blocks in use. -/
def State.blocks (s : State) : List Block := s.live.map s.heap.block

/-- `l` is the free list, tiles the heap together with the blocks in use, and
no two of its blocks touch. -/
structure Compact (s : State) (l : List ℕ) : Prop where
  ring : FreeRing s.heap l
  tiles : Tiles heapUnits (l.map s.heap.block ++ s.live.map s.heap.block)
  separate : Separate (l.map s.heap.block)

theorem FreeRing.coalesced {h : Heap} {l : List ℕ} (hring : FreeRing h l)
    (hsep : Separate (l.map h.block)) : Coalesced h l := by
  intro x hx
  have hnext := hring.ring.next_mem hx
  exact hsep _ (List.mem_map_of_mem hx) _ (List.mem_map_of_mem hnext)

section CompactHeap

variable {s : State} {l : List ℕ}

theorem Compact.gap_iff (hs : Compact s l) (g : Block) :
    Gap s.blocks g ↔ g ∈ l.map s.heap.block :=
  (hs.tiles.uncovered.mem_iff_maximalRun hs.separate g).symm

theorem Compact.freep_ne_zero (hs : Compact s l) : s.heap.freep ≠ 0 :=
  hs.ring.freep_ne_zero hs.tiles

theorem Compact.size_pos {l : List ℕ} (hs : Compact s l) {q : ℕ}
    (hq : s.heap.OnFreeList q ∨ q ∈ s.live) : 0 < s.heap.size q := by
  rw [hs.ring.onFreeList_iff] at hq
  refine hs.tiles.nonempty (s.heap.block q) (List.mem_append.mpr ?_)
  exact hq.imp List.mem_map_of_mem List.mem_map_of_mem

/-- The blocks on the free list are the gaps. -/
theorem Compact.onFreeList_iff (hs : Compact s l) (p n : ℕ) :
    s.heap.OnFreeList p ∧ s.heap.size p = n ↔ Gap s.blocks ⟨p, n⟩ := by
  rw [hs.gap_iff, hs.ring.onFreeList_iff, List.mem_map]
  constructor
  · rintro ⟨hp, rfl⟩
    exact ⟨p, hp, rfl⟩
  · rintro ⟨x, hx, heq⟩
    simp only [Heap.block, Block.mk.injEq] at heq
    obtain ⟨rfl, hsize⟩ := heq
    exact ⟨hx, hsize⟩

/-- A ring of one block is an only gap. -/
theorem Compact.onlyGap_iff (hs : Compact s l) (g : Block) :
    OnlyGap s.blocks g ↔
      s.heap.ptr s.heap.freep = s.heap.freep ∧
        g = s.heap.block s.heap.freep := by
  obtain ⟨rest, rfl⟩ := hs.ring.exists_cons
  have hnodup := hs.ring.sorted.nodup
  have hchain : Chain s.heap.ptr (s.heap.freep :: rest) s.heap.freep :=
    hs.ring.ring
  constructor
  · intro honly
    have hall : ∀ x ∈ s.heap.freep :: rest, s.heap.block x = g := by
      intro x hx
      rw [← honly, hs.gap_iff]
      exact List.mem_map_of_mem hx
    have hfreep := hall _ List.mem_cons_self
    refine ⟨?_, hfreep.symm⟩
    have hnext := hs.ring.ring.next_mem (x := s.heap.freep) (by simp)
    exact congrArg Block.start ((hall _ hnext).trans hfreep.symm)
  · rintro ⟨hself, rfl⟩ g'
    have hrest : rest = [] := by
      cases rest with
      | nil => rfl
      | cons y rest =>
          have hy : s.heap.ptr s.heap.freep = y := hchain.1
          simp [← hy, hself] at hnodup
    rw [hs.gap_iff, hrest]
    simp

theorem Compact.initHeap (hs : Compact s l) :
    Janus86.Kmalloc.initHeap s.heap = s.heap :=
  initHeap_of_freep hs.freep_ne_zero

theorem State.block_of_start {b : Block} (hb : b ∈ s.blocks) :
    b = s.heap.block b.start := by
  obtain ⟨x, _, rfl⟩ := List.mem_map.mp hb
  rfl

/-- The two situations that a call must avoid show in the gaps. -/
theorem Compact.safe_iff (hs : Compact s l) {call : Call}
    (hallowed : Allowed s call) : Safe s call ↔ GapSafe s.blocks call := by
  cases call with
  | kmalloc nbytes =>
      apply not_congr
      simp only [hs.initHeap, FitsWholeRing, hs.onlyGap_iff]
      constructor
      · rintro ⟨hself, hsize⟩
        exact ⟨_, ⟨hself, rfl⟩, hsize⟩
      · rintro ⟨g, ⟨hself, rfl⟩, hsize⟩
        exact ⟨hself, hsize⟩
  | kfree ap =>
      obtain ⟨bp, hbp, rfl⟩ := hallowed
      apply not_congr
      simp only [EndsAtWholeRing, hs.onlyGap_iff, Nat.add_sub_cancel]
      constructor
      · rintro ⟨hself, hend⟩
        exact ⟨_, ⟨hself, rfl⟩, _, List.mem_map_of_mem hbp, rfl, hend⟩
      · rintro ⟨g, ⟨hself, rfl⟩, b, hb, hstart, hend⟩
        have hbp' : b.start = bp := by omega
        have hb' := State.block_of_start hb
        rw [hbp'] at hb'
        subst hb'
        exact ⟨hself, hend⟩

end CompactHeap

theorem compact_idle {h : Heap} (hfreep : h.freep = 0) :
    Compact ⟨initHeap h, []⟩ [0x40000] := by
  obtain ⟨hring, htiles⟩ := initHeap_idle hfreep
  refine ⟨hring, by simpa using htiles, ?_⟩
  have hpos := htiles.nonempty ((initHeap h).block 0x40000) (by simp)
  rw [block_size] at hpos
  intro a ha b hb
  simp only [List.map_cons, List.map_nil, List.mem_singleton] at ha hb
  rw [ha, hb, block_start, block_size]
  omega

/-! ## One call -/

section OneCall

variable {s s' : State} {l : List ℕ} {call : Call}

theorem Compact.kmalloc {nbytes : ℕ} (hs : Compact s l)
    (hsafe : Safe s (.kmalloc nbytes)) :
    ∃ s' l', Step s (.kmalloc nbytes) s' ∧ Compact s' l' ∧
      GapStep s.blocks (.kmalloc nbytes) s'.blocks := by
  simp only [Safe, hs.initHeap] at hsafe
  rcases kmalloc_tiled hs.ring hs.tiles hsafe with ⟨hnull, hsmall⟩ |
    ⟨h', l', q, hreturns, hring, htiles, hmap, hblock, hsep, x, hx, hfits, hend⟩
  · refine ⟨s, l, .failed hnull, hs, .failed fun g hgap => ?_⟩
    rw [hs.gap_iff, List.mem_map] at hgap
    obtain ⟨y, hy, rfl⟩ := hgap
    exact hsmall y hy
  · refine ⟨⟨h', q :: s.live⟩, l', .allocated hreturns,
      ⟨hring, htiles, hsep hs.separate⟩, ?_⟩
    have hblocks : State.blocks ⟨h', q :: s.live⟩ =
        ⟨q, nunits nbytes⟩ :: s.blocks := by
      simp only [State.blocks, List.map_cons, hmap, hblock]
    rw [hblocks]
    apply GapStep.allocated (g := s.heap.block x)
    · rw [hs.gap_iff]
      exact List.mem_map_of_mem hx
    · exact hfits
    · exact hend

theorem Compact.kfree {bp : ℕ} (hs : Compact s l) (hbp : bp ∈ s.live)
    (hsafe : Safe s (.kfree (bp + 1))) :
    ∃ s' l', Step s (.kfree (bp + 1)) s' ∧ Compact s' l' ∧
      GapStep s.blocks (.kfree (bp + 1)) s'.blocks := by
  obtain ⟨h', l', hreturns, hring, htiles, hmap, hcoal⟩ :=
    kfree_tiled hs.ring hs.tiles hbp hsafe
  have hlist : FreeList h' l'
      (uncovered heapUnits ((s.live.erase bp).map h'.block)) :=
    ⟨hring, htiles.uncovered, fun u hu => hu.1,
      hcoal (hs.ring.coalesced hs.separate)⟩
  refine ⟨_, l', .freed hbp hreturns, ⟨hring, htiles, hlist.separate⟩, ?_⟩
  have hblocks : State.blocks ⟨h', s.live.erase bp⟩ =
      s.blocks.erase (s.heap.block bp) := by
    have hinj : Function.Injective s.heap.block :=
      fun x y heq => congrArg Block.start heq
    simp only [State.blocks]
    rw [hmap, List.map_erase hinj]
  rw [hblocks]
  exact GapStep.freed (b := s.heap.block bp) (List.mem_map_of_mem hbp)

theorem Compact.step (hs : Compact s l) (hstep : SafeStep s call s') :
    (∃ l', Compact s' l') ∧ SafeGapStep s.blocks call s'.blocks := by
  obtain ⟨hsafe, hstep⟩ := hstep
  have hallowed := hstep.allowed
  have hmatched : ∃ s₁ l₁, Step s call s₁ ∧ Compact s₁ l₁ ∧
      GapStep s.blocks call s₁.blocks := by
    cases call with
    | kmalloc nbytes => exact hs.kmalloc hsafe
    | kfree ap =>
        obtain ⟨bp, hbp, rfl⟩ := hallowed
        exact hs.kfree hbp hsafe
  obtain ⟨s₁, l₁, hstep₁, hs₁, hgap⟩ := hmatched
  rw [step_unique hstep hstep₁]
  exact ⟨⟨l₁, hs₁⟩, (hs.safe_iff hallowed).mp hsafe, hgap⟩

/-- The first call finds the heap as the one gap that it is. -/
theorem ready_step (hs : Idle s ∨ ∃ l, Compact s l)
    (hstep : SafeStep s call s') :
    (∃ l', Compact s' l') ∧ SafeGapStep s.blocks call s'.blocks := by
  rcases hs with ⟨hfreep, hlive⟩ | ⟨l, hs⟩
  · have hs₀ := compact_idle hfreep
    have hblocks : State.blocks ⟨initHeap s.heap, []⟩ = s.blocks := by
      simp [State.blocks, hlive]
    rw [← hblocks]
    apply hs₀.step
    obtain ⟨hsafe, hstep⟩ := hstep
    cases hstep with
    | failed hreturns =>
        simp only [Safe] at hsafe
        rw [hlive]
        refine ⟨?_, .failed (kmallocReturns_initHeap.mpr hreturns)⟩
        simpa only [Safe, hs₀.initHeap] using hsafe
    | allocated hreturns =>
        simp only [Safe] at hsafe
        rw [hlive]
        refine ⟨?_, .allocated (kmallocReturns_initHeap.mpr hreturns)⟩
        simpa only [Safe, hs₀.initHeap] using hsafe
    | freed hused _ => simp [hlive] at hused
  · exact hs.step hstep

/-- A call that the gaps show to be safe is one. -/
theorem ready_safe (hs : Idle s ∨ ∃ l, Compact s l)
    (hallowed : Allowed s call) (hgap : GapSafe s.blocks call) :
    Safe s call := by
  rcases hs with ⟨hfreep, hlive⟩ | ⟨l, hs⟩
  · have hs₀ := compact_idle hfreep
    cases call with
    | kmalloc nbytes =>
        have hcall : Allowed ⟨initHeap s.heap, []⟩ (.kmalloc nbytes) := trivial
        have hsafe : Safe ⟨initHeap s.heap, []⟩ (.kmalloc nbytes) := by
          rw [hs₀.safe_iff hcall]
          simpa [State.blocks, hlive] using hgap
        simpa only [Safe, hs₀.initHeap] using hsafe
    | kfree ap =>
        obtain ⟨bp, hbp, _⟩ := hallowed
        simp [hlive] at hbp
  · exact (hs.safe_iff hallowed).mpr hgap

end OneCall

/-! ## Runs -/

section Runs

variable {h h' : Heap} {calls calls' : List Call} {s s' : State}

theorem ready_of_run (hfreep : h.freep = 0)
    (hrun : Run SafeStep ⟨h, []⟩ calls s) : Idle s ∨ ∃ l, Compact s l := by
  apply hrun.invariant (Or.inl ⟨hfreep, rfl⟩)
  intro t call t' ht hstep
  exact Or.inr (ready_step ht hstep).1

theorem compact_of_run (hfreep : h.freep = 0)
    (hrun : Run SafeStep ⟨h, []⟩ calls s) (hne : calls ≠ []) :
    ∃ l, Compact s l := by
  have hstep : ∀ t call t', (Idle t ∨ ∃ l, Compact t l) →
      SafeStep t call t' → ∃ l, Compact t' l :=
    fun _ _ _ ht hnext => (ready_step ht hnext).1
  exact hrun.last_step hne (Or.inl ⟨hfreep, rfl⟩) hstep fun _ ht => Or.inr ht

/-- A run of safe calls is a run of the allocation from gaps; after it the
free list is the list of the gaps, and every call that the gaps show to be
safe returns. -/
theorem safe_run_gaps (hfreep : h.freep = 0)
    (hrun : Run SafeStep ⟨h, []⟩ calls s) :
    Run SafeGapStep [] calls s.blocks ∧
      (calls ≠ [] → ∀ p n, s.heap.OnFreeList p ∧ s.heap.size p = n ↔
        Gap s.blocks ⟨p, n⟩) ∧
      ∀ call, Allowed s call → GapSafe s.blocks call →
        ∃ s', SafeStep s call s' := by
  have hready := ready_of_run hfreep hrun
  refine ⟨?_, fun hne p n => ?_, fun call hallowed hgap => ?_⟩
  · have hstep : ∀ t live call t',
        ((Idle t ∨ ∃ l, Compact t l) ∧ t.blocks = live) → SafeStep t call t' →
        ∃ live', SafeGapStep live call live' ∧
          ((Idle t' ∨ ∃ l, Compact t' l) ∧ t'.blocks = live') := by
      rintro t _ call t' ⟨ht, rfl⟩ hnext
      obtain ⟨ht', hgap⟩ := ready_step ht hnext
      exact ⟨_, hgap, Or.inr ht', rfl⟩
    obtain ⟨live, hgaps, _, rfl⟩ :=
      hrun.simulated ⟨Or.inl ⟨hfreep, rfl⟩, rfl⟩ hstep
    exact hgaps
  · obtain ⟨l, hs⟩ := compact_of_run hfreep hrun hne
    exact hs.onFreeList_iff p n
  · have hsafe := ready_safe hready hallowed hgap
    obtain ⟨s', hstep, _⟩ := safe_call (hready.imp_right fun ⟨l, hs⟩ =>
      ⟨l, hs.ring, hs.tiles⟩) hallowed hsafe
    exact ⟨s', hsafe, hstep⟩

theorem run_hundred : Run SafeStep ⟨blankHeap, []⟩ [.kmalloc 100]
    ⟨heapAfterFirst 14, [0x1FFFF2]⟩ := by
  refine Run.snoc (Run.nil _) ⟨fun hfits => ?_, .allocated ⟨1, rfl⟩⟩
  exact absurd hfits.2 (by decide)

/-- The first hundred bytes come off the upper end of the heap. -/
theorem safe_run_gaps_hundred :
    Run SafeGapStep [] [.kmalloc 100] [⟨0x1FFFF2, 14⟩] := by
  exact (safe_run_gaps rfl run_hundred).1

/-- A request fails exactly when no gap is big enough. -/
theorem Compact.null_iff {l : List ℕ} (hs : Compact s l) (nbytes : ℕ) :
    (∃ h', KmallocReturns nbytes s.heap h' 0) ↔
      ∀ g, Gap s.blocks g → g.size < nunits nbytes := by
  obtain ⟨rest, rfl⟩ := hs.ring.exists_cons
  have hmem : ∀ y, y ∈ rest ++ [s.heap.freep] ↔ y ∈ s.heap.freep :: rest := by
    intro y
    simp [or_comm]
  have hgaps : (∀ g, Gap s.blocks g → g.size < nunits nbytes) ↔
      ∀ y ∈ rest ++ [s.heap.freep], s.heap.size y < nunits nbytes := by
    simp only [hs.gap_iff, List.forall_mem_map, hmem, block_size]
  simp only [hgaps, kmallocReturns_iff, hs.initHeap]
  rcases search_halts (nunits nbytes) hs.ring with
    ⟨hsmall, hhalts⟩ | ⟨w, x, v, hsplit, _, hx, hhalts⟩
  · exact iff_of_true ⟨_, hhalts⟩ hsmall
  · apply iff_of_false
    · rintro ⟨h', hnull⟩
      have heq := congrArg Prod.snd (hnull.unique hhalts)
      simp at heq
    · intro hsmall
      have hlt := hsmall x (by simp [hsplit])
      omega

/-- However two runs came to the same blocks in use, their free lists hold
the same blocks, and the same requests fail. -/
theorem same_blocks_same_list (hfreep : h.freep = 0) (hfreep' : h'.freep = 0)
    (hrun : Run SafeStep ⟨h, []⟩ calls s)
    (hrun' : Run SafeStep ⟨h', []⟩ calls' s') (hne : calls ≠ [])
    (hne' : calls' ≠ []) (hsame : ∀ b, b ∈ s.blocks ↔ b ∈ s'.blocks) :
    (∀ p n, s.heap.OnFreeList p ∧ s.heap.size p = n ↔
        s'.heap.OnFreeList p ∧ s'.heap.size p = n) ∧
      ∀ nbytes, (∃ h₁, KmallocReturns nbytes s.heap h₁ 0) ↔
        ∃ h₁, KmallocReturns nbytes s'.heap h₁ 0 := by
  obtain ⟨l, hs⟩ := compact_of_run hfreep hrun hne
  obtain ⟨l', hs'⟩ := compact_of_run hfreep' hrun' hne'
  have hfree : uncovered heapUnits s.blocks = uncovered heapUnits s'.blocks := by
    ext u
    simp only [uncovered, Set.mem_ofPred_eq, hsame]
  have hgap : ∀ g, Gap s.blocks g ↔ Gap s'.blocks g := by
    intro g
    rw [Gap, Gap, hfree]
  constructor
  · intro p n
    rw [hs.onFreeList_iff, hs'.onFreeList_iff, hgap]
  · intro nbytes
    simp only [hs.null_iff, hs'.null_iff, hgap]

/-- A block that is freed and allocated again leaves no trace. -/
theorem same_blocks_same_list_again :
    ∃ s, (∃ calls, 3 ≤ calls.length ∧ Run SafeStep ⟨blankHeap, []⟩ calls s) ∧
      ∀ p n, s.heap.OnFreeList p ∧ s.heap.size p = n ↔
        (heapAfterFirst 14).OnFreeList p ∧ (heapAfterFirst 14).size p = n := by
  have hfreed : Run SafeStep ⟨blankHeap, []⟩ [.kmalloc 100, .kfree 0x1FFFF3]
      ⟨putBehind (heapAfterFirst 14) 0x1FFFF2 0x40000, []⟩ := by
    refine Run.snoc run_hundred ⟨fun hends => ?_, .freed (by simp) ⟨1, rfl⟩⟩
    exact absurd hends.2 (by decide)
  have hagain : Run SafeStep ⟨blankHeap, []⟩
      [.kmalloc 100, .kfree 0x1FFFF3, .kmalloc 100]
      ⟨(takeUnits (putBehind (heapAfterFirst 14) 0x1FFFF2 0x40000) 14
        0x40000 0x40000).1, [0x1FFFF2]⟩ := by
    refine Run.snoc hfreed ⟨fun hfits => ?_, .allocated ⟨1, rfl⟩⟩
    exact absurd hfits.2 (by decide)
  refine ⟨_, ⟨_, le_rfl, hagain⟩, ?_⟩
  exact (same_blocks_same_list rfl rfl hagain run_hundred (by simp) (by simp)
    fun b => Iff.of_eq rfl).1

/-- Once every block has been given back, the heap is one free block again. -/
theorem all_freed (hfreep : h.freep = 0)
    (hrun : Run SafeStep ⟨h, []⟩ calls s) (hne : calls ≠ [])
    (hlive : s.live = []) (p n : ℕ) :
    s.heap.OnFreeList p ∧ s.heap.size p = n ↔ p = 0x40000 ∧ n = 0x1C0000 := by
  obtain ⟨l, hs⟩ := compact_of_run hfreep hrun hne
  have hs₀ := compact_idle (h := blankHeap) rfl
  have hblocks : State.blocks ⟨initHeap blankHeap, []⟩ = s.blocks := by
    simp [State.blocks, hlive]
  rw [hs.onFreeList_iff, ← hblocks, hs₀.gap_iff]
  simp [Heap.block, Heap.size, initHeap, blankHeap, KERNEL_MEM_START,
    KERNEL_MEM_SIZE, KERNEL_MEM_END, sizeofHeader, Heap.setSize, Heap.setPtr,
    Heap.setFreep]

end Runs

end Kmalloc
end Janus86
