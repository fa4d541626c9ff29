import Janus86.KmallocFreeRing

/-!
# Runs of the allocator

A run starts with `freep = NULL` and consists of calls of `kmalloc` and of
`kfree` on blocks that are in use.  Its state is the heap and the blocks that
are in use.  As long as no call meets one of the two one-block situations,
the free ring and the blocks in use tile the heap after every call.
-/

namespace Janus86
namespace Kmalloc

open StepMachine
open RingList
open IntervalTiling

/-- The heap and the headers of the blocks that are in use. -/
structure State where
  heap : Heap
  live : List ℕ

inductive Call where
  | kmalloc (nbytes : ℕ)
  | kfree (ap : ℕ)
  deriving DecidableEq, Repr

/-- A call that returns.  `kfree` takes a pointer that `kmalloc` returned and
that has not been freed since. -/
inductive Step : State → Call → State → Prop
  | failed {s : State} {h' : Heap} {nbytes : ℕ}
      (returns : KmallocReturns nbytes s.heap h' 0) :
      Step s (.kmalloc nbytes) ⟨h', s.live⟩
  | allocated {s : State} {h' : Heap} {nbytes p : ℕ}
      (returns : KmallocReturns nbytes s.heap h' (p + 1)) :
      Step s (.kmalloc nbytes) ⟨h', p :: s.live⟩
  | freed {s : State} {h' : Heap} {bp : ℕ} (live : bp ∈ s.live)
      (returns : KfreeReturns (bp + 1) s.heap h') :
      Step s (.kfree (bp + 1)) ⟨h', s.live.erase bp⟩

/-- The units of the heap. -/
def heapUnits : Set ℕ :=
  Set.Ico (KERNEL_MEM_START / sizeofHeader) (KERNEL_MEM_END / sizeofHeader)

/-- The units of the block at `p`, by the size in its header. -/
def Heap.units (h : Heap) (p : ℕ) : Set ℕ := Set.Ico p (p + h.size p)

/-- The circular list from `freep` comes by `p`. -/
def Heap.OnFreeList (h : Heap) (p : ℕ) : Prop := ∃ k, h.ptr^[k] h.freep = p

/-- The blocks in use and the blocks on the free list partition the heap. -/
structure Partition (s : State) : Prop where
  liveApart : s.live.Pairwise
    (fun a b => Disjoint (s.heap.units a) (s.heap.units b))
  liveFree : ∀ a ∈ s.live, ∀ b, s.heap.OnFreeList b →
    Disjoint (s.heap.units a) (s.heap.units b)
  freeApart : ∀ a b, s.heap.OnFreeList a → s.heap.OnFreeList b → a ≠ b →
    Disjoint (s.heap.units a) (s.heap.units b)
  cover : ∀ u, u ∈ heapUnits ↔
    (∃ a ∈ s.live, u ∈ s.heap.units a) ∨
      ∃ b, s.heap.OnFreeList b ∧ u ∈ s.heap.units b

/-- The call does not meet a one-block ring that it would take away whole or
that the freed block ends at. -/
def Safe (s : State) : Call → Prop
  | .kmalloc nbytes => ¬ FitsWholeRing (initHeap s.heap) (nunits nbytes)
  | .kfree ap => ¬ EndsAtWholeRing s.heap (ap - 1)

/-- What may be called: `kmalloc` always, `kfree` on a block in use. -/
def Allowed (s : State) : Call → Prop
  | .kmalloc _ => True
  | .kfree ap => ∃ bp ∈ s.live, ap = bp + 1

def SafeStep (s : State) (call : Call) (s' : State) : Prop :=
  Safe s call ∧ Step s call s'

/-! ## The invariant -/

def Idle (s : State) : Prop := s.heap.freep = 0 ∧ s.live = []

def Formed (s : State) : Prop :=
  ∃ l, FreeRing s.heap l ∧
    Tiles heapUnits (l.map s.heap.block ++ s.live.map s.heap.block)

theorem mem_heapUnits (u : ℕ) :
    u ∈ heapUnits ↔ 0x40000 ≤ u ∧ u < 0x200000 := by
  simp [heapUnits, KERNEL_MEM_START, KERNEL_MEM_END, sizeofHeader]

theorem initHeap_idle {h : Heap} (hfreep : h.freep = 0) :
    FreeRing (initHeap h) [0x40000] ∧
      Tiles heapUnits ([0x40000].map (initHeap h).block) := by
  have hinit : initHeap h =
      ((h.setPtr 0x40000 0x40000).setFreep 0x40000).setSize 0x40000 0x1C0000 := by
    simp [initHeap, hfreep, KERNEL_MEM_START, KERNEL_MEM_SIZE, KERNEL_MEM_END,
      sizeofHeader]
  constructor
  · refine ⟨by simp [hinit], by simp [Circular, hinit], ⟨[], [0x40000], rfl, ?_⟩⟩
    simp
  · have hblock : (initHeap h).block 0x40000 = ⟨0x40000, 0x1C0000⟩ := by
      simp [Heap.block, hinit]
    have hcells : heapUnits = (⟨0x40000, 0x1C0000⟩ : Block).cells := by
      ext u
      simp [mem_heapUnits]
    simp only [List.map_cons, List.map_nil, hblock]
    rw [hcells]
    exact Tiles.singleton _ (by simp)

section FormedHeap

variable {h : Heap} {l live : List ℕ}

theorem FreeRing.freep_mem (hring : FreeRing h l) : h.freep ∈ l := by
  obtain ⟨rest, rfl⟩ := hring.exists_cons
  simp

theorem FreeRing.freep_ne_zero {others : List Block} (hring : FreeRing h l)
    (htiles : Tiles heapUnits (l.map h.block ++ others)) : h.freep ≠ 0 := by
  have hmem : h.block h.freep ∈ l.map h.block ++ others := by
    rw [List.mem_append]
    exact Or.inl (List.mem_map_of_mem hring.freep_mem)
  have hpos := htiles.nonempty _ hmem
  have hin : h.freep ∈ heapUnits := by
    apply htiles.cells_subset hmem
    simp only [Block.mem_cells, block_start]
    omega
  rw [mem_heapUnits] at hin
  omega

theorem FreeRing.onFreeList_iff (hring : FreeRing h l) (p : ℕ) :
    h.OnFreeList p ↔ p ∈ l := by
  obtain ⟨rest, rfl⟩ := hring.exists_cons
  exact (hring.ring.mem_iff_iterate p).symm

theorem start_ne_of_tiles {range : Set ℕ} {a b : ℕ} {others : List Block}
    (htiles : Tiles range (h.block a :: others)) (hb : h.block b ∈ others) :
    a ≠ b := by
  have hapart := htiles.head_apart hb
  have hposa := htiles.nonempty (h.block a) (by simp)
  have hposb := htiles.nonempty (h.block b) (by simp [hb])
  simp only [Block.Apart, block_start, block_size] at hapart hposa hposb
  omega

theorem live_not_mem {range : Set ℕ}
    (htiles : Tiles range (l.map h.block ++ live.map h.block)) {a : ℕ}
    (ha : a ∈ live) : a ∉ l := by
  intro hal
  obtain ⟨u, v, rfl⟩ := List.append_of_mem hal
  refine start_ne_of_tiles (tiles_front htiles) ?_ (rfl : a = a)
  rw [List.mem_append]
  exact Or.inr (List.mem_map_of_mem ha)

theorem partition_of_formed {s : State} (hformed : Formed s) :
    Partition s := by
  obtain ⟨l, hring, htiles⟩ := hformed
  have hapart := htiles.apart
  rw [List.pairwise_append] at hapart
  obtain ⟨hfree, hlive, hboth⟩ := hapart
  constructor
  · rw [List.pairwise_map] at hlive
    exact hlive.imp fun h => h.disjoint
  · intro a ha b hb
    rw [hring.onFreeList_iff] at hb
    have h := hboth _ (List.mem_map_of_mem hb) _ (List.mem_map_of_mem ha)
    exact h.disjoint.symm
  · intro a b ha hb hne
    rw [hring.onFreeList_iff] at ha hb
    rw [List.pairwise_map] at hfree
    have hsymm : Std.Symm fun x y =>
        (s.heap.block x).Apart (s.heap.block y) := ⟨fun _ _ h => h.symm⟩
    exact (hfree.forall ha hb hne).disjoint
  · intro u
    rw [← htiles.cover u]
    simp only [hring.onFreeList_iff, List.mem_append, List.mem_map]
    constructor
    · rintro ⟨b, ⟨p, hp, rfl⟩ | ⟨p, hp, rfl⟩, hu⟩
      · exact Or.inr ⟨p, hp, hu⟩
      · exact Or.inl ⟨p, hp, hu⟩
    · rintro (⟨p, hp, hu⟩ | ⟨p, hp, hu⟩)
      · exact ⟨_, Or.inr ⟨p, hp, rfl⟩, hu⟩
      · exact ⟨_, Or.inl ⟨p, hp, rfl⟩, hu⟩

end FormedHeap

/-! ## One call -/

theorem kmallocReturns_initHeap {nbytes r : ℕ} {h h' : Heap} :
    KmallocReturns nbytes (initHeap h) h' r ↔ KmallocReturns nbytes h h' r := by
  have hidem : initHeap (initHeap h) = initHeap h := by
    by_cases hfreep : h.freep = 0
    · apply initHeap_of_freep
      obtain ⟨hring, htiles⟩ := initHeap_idle hfreep
      rw [← List.append_nil (List.map _ _)] at htiles
      exact hring.freep_ne_zero htiles
    · rw [initHeap_of_freep hfreep, initHeap_of_freep hfreep]
  rw [kmallocReturns_iff, kmallocReturns_iff, hidem]

theorem formed_initHeap {s : State} (hs : Idle s ∨ Formed s) :
    Formed ⟨initHeap s.heap, s.live⟩ := by
  rcases hs with ⟨hfreep, hlive⟩ | ⟨l, hring, htiles⟩
  · obtain ⟨hring, htiles⟩ := initHeap_idle hfreep
    exact ⟨_, hring, by simpa [hlive] using htiles⟩
  · rw [initHeap_of_freep (hring.freep_ne_zero htiles)]
    exact ⟨l, hring, htiles⟩

/-- `kmalloc` on a tiled heap: the blocks in use keep their headers, and the
block handed out is new among them. -/
theorem kmalloc_tiled {h : Heap} {l live : List ℕ} {nbytes : ℕ}
    (hring : FreeRing h l)
    (htiles : Tiles heapUnits (l.map h.block ++ live.map h.block))
    (hsafe : ¬ FitsWholeRing h (nunits nbytes)) :
    (KmallocReturns nbytes h h 0 ∧ ∀ y ∈ l, h.size y < nunits nbytes) ∨
      ∃ h' l' q, KmallocReturns nbytes h h' (q + 1) ∧ FreeRing h' l' ∧
        Tiles heapUnits (l'.map h'.block ++ (q :: live).map h'.block) ∧
        live.map h'.block = live.map h.block ∧
        h'.block q = ⟨q, nunits nbytes⟩ ∧
        (Separate (l.map h.block) → Separate (l'.map h'.block)) ∧
        ∃ x ∈ l, nunits nbytes ≤ h.size x ∧
          q + nunits nbytes = x + h.size x := by
  rcases kmalloc_spec hring htiles (hring.freep_ne_zero htiles) hsafe with
    hnull | ⟨h', l', q, hreturns, hring', htiles', hsize, hsame, hsep, hfound⟩
  · exact Or.inl hnull
  right
  have hblock : h'.block q = ⟨q, nunits nbytes⟩ := by
    simp [Heap.block, hsize]
  have hmap : live.map h'.block = live.map h.block := by
    apply map_block_congr
    intro a ha
    apply hsame a (live_not_mem htiles ha)
    rintro rfl
    have hmem : h.block a ∈ l'.map h'.block ++ live.map h.block := by
      rw [List.mem_append]
      exact Or.inr (List.mem_map_of_mem ha)
    have hapart := htiles'.head_apart hmem
    have hpos := htiles'.nonempty _ (List.mem_cons_of_mem _ hmem)
    have hn := nunits_pos nbytes
    simp only [Block.Apart, block_start, block_size] at hapart hpos
    omega
  refine ⟨h', l', q, hreturns, hring', ?_, hmap, hblock, hsep, hfound⟩
  simp only [List.map_cons, hmap, hblock]
  apply htiles'.perm
  exact List.perm_middle.symm

/-- A safe call of `kmalloc` returns, and leaves the heap tiled. -/
theorem kmalloc_formed {s : State} {nbytes : ℕ} (hs : Idle s ∨ Formed s)
    (hsafe : Safe s (.kmalloc nbytes)) :
    ∃ s', Step s (.kmalloc nbytes) s' ∧ Formed s' := by
  obtain ⟨l, hring, htiles⟩ := formed_initHeap hs
  simp only at hring htiles
  rcases kmalloc_tiled hring htiles hsafe with
    ⟨hnull, _⟩ | ⟨h', l', q, hreturns, hring', htiles', _⟩
  · exact ⟨_, .failed (kmallocReturns_initHeap.mp hnull), l, hring, htiles⟩
  · exact ⟨_, .allocated (kmallocReturns_initHeap.mp hreturns), l', hring',
      htiles'⟩

/-- `kfree` on a tiled heap: the other blocks in use keep their headers. -/
theorem kfree_tiled {h : Heap} {l live : List ℕ} {bp : ℕ}
    (hring : FreeRing h l)
    (htiles : Tiles heapUnits (l.map h.block ++ live.map h.block))
    (hbp : bp ∈ live) (hsafe : ¬ EndsAtWholeRing h bp) :
    ∃ h' l', KfreeReturns (bp + 1) h h' ∧ FreeRing h' l' ∧
      Tiles heapUnits (l'.map h'.block ++ (live.erase bp).map h'.block) ∧
      (live.erase bp).map h'.block = (live.erase bp).map h.block ∧
      (Coalesced h l → Coalesced h' l') := by
  have hperm : (l.map h.block ++ live.map h.block).Perm
      (h.block bp :: (l.map h.block ++ (live.erase bp).map h.block)) := by
    have hlive := (List.perm_cons_erase hbp).map h.block
    exact (hlive.append_left _).trans List.perm_middle
  have htiles₁ := htiles.perm hperm
  obtain ⟨h', l', hreturns, hring', htiles', hsame, hcoal⟩ :=
    kfree_spec hring (live_not_mem htiles hbp) hsafe htiles₁
  have hmap : (live.erase bp).map h'.block = (live.erase bp).map h.block := by
    apply map_block_congr
    intro a ha
    apply hsame a (live_not_mem htiles (List.mem_of_mem_erase ha))
    rintro rfl
    refine start_ne_of_tiles htiles₁ ?_ (rfl : a = a)
    rw [List.mem_append]
    exact Or.inr (List.mem_map_of_mem ha)
  refine ⟨h', l', hreturns, hring', ?_, hmap, hcoal⟩
  rw [hmap]
  exact htiles'

/-- A safe call of `kfree` on a block in use returns, and leaves the heap
tiled. -/
theorem kfree_formed {s : State} {bp : ℕ} (hs : Formed s)
    (hbp : bp ∈ s.live) (hsafe : Safe s (.kfree (bp + 1))) :
    ∃ s', Step s (.kfree (bp + 1)) s' ∧ Formed s' := by
  obtain ⟨l, hring, htiles⟩ := hs
  obtain ⟨h', l', hreturns, hring', htiles', _⟩ :=
    kfree_tiled hring htiles hbp hsafe
  exact ⟨_, .freed hbp hreturns, l', hring', htiles'⟩

theorem kmallocReturns_unique {nbytes r r' : ℕ} {h h₁ h₂ : Heap}
    (hfirst : KmallocReturns nbytes h h₁ r)
    (hsecond : KmallocReturns nbytes h h₂ r') : h₁ = h₂ ∧ r = r' := by
  rw [kmallocReturns_iff] at hfirst hsecond
  simpa using hfirst.unique hsecond

theorem kfreeReturns_unique {ap : ℕ} {h h₁ h₂ : Heap}
    (hfirst : KfreeReturns ap h h₁) (hsecond : KfreeReturns ap h h₂) :
    h₁ = h₂ := by
  obtain ⟨fuel, hrun⟩ := hfirst
  obtain ⟨fuel', hrun'⟩ := hsecond
  simp only [kfree, Option.map_eq_some_iff] at hrun hrun'
  obtain ⟨p, hp, rfl⟩ := hrun
  obtain ⟨p', hp', rfl⟩ := hrun'
  rw [Halts.unique ⟨fuel, hp⟩ ⟨fuel', hp'⟩]

theorem step_unique {s s₁ s₂ : State} {call : Call} (hfirst : Step s call s₁)
    (hsecond : Step s call s₂) : s₁ = s₂ := by
  cases hfirst with
  | failed hreturns =>
      cases hsecond with
      | failed hreturns' =>
          rw [(kmallocReturns_unique hreturns hreturns').1]
      | allocated hreturns' =>
          exact absurd (kmallocReturns_unique hreturns hreturns').2 (by simp)
  | allocated hreturns =>
      cases hsecond with
      | failed hreturns' =>
          exact absurd (kmallocReturns_unique hreturns hreturns').2 (by simp)
      | allocated hreturns' =>
          obtain ⟨rfl, hp⟩ := kmallocReturns_unique hreturns hreturns'
          rw [Nat.succ_injective hp]
  | freed _ hreturns =>
      cases hsecond with
      | freed _ hreturns' => rw [kfreeReturns_unique hreturns hreturns']

/-- A safe call that is allowed returns, and the heap is tiled after it. -/
theorem safe_call {s : State} {call : Call} (hs : Idle s ∨ Formed s)
    (hallowed : Allowed s call) (hsafe : Safe s call) :
    ∃ s', Step s call s' ∧ Formed s' := by
  cases call with
  | kmalloc nbytes => exact kmalloc_formed hs hsafe
  | kfree ap =>
      obtain ⟨bp, hbp, rfl⟩ := hallowed
      rcases hs with ⟨_, hlive⟩ | hformed
      · simp [hlive] at hbp
      · exact kfree_formed hformed hbp hsafe

theorem Step.allowed {s s' : State} {call : Call} (hstep : Step s call s') :
    Allowed s call := by
  cases hstep with
  | failed => trivial
  | allocated => trivial
  | freed hlive => exact ⟨_, hlive, rfl⟩

theorem safeStep_formed {s s' : State} {call : Call} (hs : Idle s ∨ Formed s)
    (hstep : SafeStep s call s') : Formed s' := by
  obtain ⟨hsafe, hstep⟩ := hstep
  obtain ⟨s₁, hstep₁, hformed⟩ := safe_call hs hstep.allowed hsafe
  rw [step_unique hstep hstep₁]
  exact hformed

/-! ## Runs -/

/-- In a run whose calls are all safe, the blocks in use and the free list
partition the heap after every call, and every further safe call returns. -/
theorem partition_of_safe_run {h : Heap} {calls : List Call} {s : State}
    (hfreep : h.freep = 0) (hrun : Run SafeStep ⟨h, []⟩ calls s) :
    (calls ≠ [] → Partition s) ∧
      ∀ call, Allowed s call → Safe s call → ∃ s', Step s call s' := by
  have hidle : Idle ⟨h, []⟩ := ⟨hfreep, rfl⟩
  constructor
  · intro hne
    apply partition_of_formed
    have hstep : ∀ t call t', Idle t ∨ Formed t → SafeStep t call t' →
        Formed t' :=
      fun _ _ _ ht hnext => safeStep_formed ht hnext
    exact hrun.last_step hne (Or.inl hidle) hstep fun _ ht => Or.inr ht
  · intro call hallowed hsafe
    have hs : Idle s ∨ Formed s := by
      apply hrun.invariant (Or.inl hidle)
      intro t label t' ht hstep
      exact Or.inr (safeStep_formed ht hstep)
    obtain ⟨s', hstep, _⟩ := safe_call hs hallowed hsafe
    exact ⟨s', hstep⟩

/-! ## Concrete runs -/

/-- Memory before the first call. -/
def blankHeap : Heap := ⟨fun _ => ⟨0, 0⟩, 0⟩

/-- The heap once a first request of `n` units has been answered. -/
def heapAfterFirst (n : ℕ) : Heap :=
  (takeUnits (initHeap blankHeap) n 0x40000 0x40000).1

/-- A block of 100 bytes is allocated and freed again. -/
theorem partition_of_safe_run_alloc_free :
    Partition ⟨putBehind (heapAfterFirst 14) 0x1FFFF2 0x40000, []⟩ := by
  have halloc : Run SafeStep ⟨blankHeap, []⟩ [.kmalloc 100]
      ⟨heapAfterFirst 14, [0x1FFFF2]⟩ := by
    refine Run.snoc (Run.nil _) ⟨fun hfits => ?_, .allocated ⟨1, rfl⟩⟩
    exact absurd hfits.2 (by decide)
  have hfree : Run SafeStep ⟨blankHeap, []⟩ [.kmalloc 100, .kfree 0x1FFFF3]
      ⟨putBehind (heapAfterFirst 14) 0x1FFFF2 0x40000, []⟩ := by
    refine Run.snoc halloc ⟨fun hends => ?_, .freed (by simp) ⟨1, rfl⟩⟩
    exact absurd hends.2 (by decide)
  exact (partition_of_safe_run rfl hfree).1 (by simp)

/-- A first request for the whole heap hands out the only free block and
leaves it on the free list. -/
theorem whole_heap_stays_free :
    ¬ ∀ (h : Heap) (calls : List Call) (s : State), h.freep = 0 →
      Run Step ⟨h, []⟩ calls s → calls ≠ [] → Partition s := by
  intro hclaim
  have hrun : Run Step ⟨blankHeap, []⟩ [.kmalloc 14680056]
      ⟨heapAfterFirst 0x1C0000, [0x40000]⟩ :=
    Run.snoc (Run.nil _) (.allocated ⟨1, rfl⟩)
  have hpartition := hclaim _ _ _ rfl hrun (by simp)
  have hdisjoint := hpartition.liveFree 0x40000 (by simp) 0x40000 ⟨0, rfl⟩
  rw [disjoint_self] at hdisjoint
  have hmem : 0x40000 ∈ (heapAfterFirst 0x1C0000).units 0x40000 := by
    refine ⟨le_rfl, ?_⟩
    have hsize : (heapAfterFirst 0x1C0000).size 0x40000 = 0x1C0000 := rfl
    simp only [hsize]
    omega
  rw [hdisjoint] at hmem
  exact hmem

end Kmalloc
end Janus86
