import Janus86.KmallocPartition

/-!
# Single calls on a well-formed free list

Here a call of the allocator is described by itself, whatever run led to the
free list it finds.  `kmalloc` takes the tail of the first block behind
`freep` that is big enough.  `kfree` gives the units of the block back and
joins it with the blocks that it touches, except below the only block of a
one-block list: there the search ends at the block that the freed one is to
be joined with, and the link to it becomes a link to a block inside the other.
The rounding of `kmalloc` makes a request of one unit out of the last sizes
below `2 ^ 32`.
-/

namespace Janus86
namespace Kmalloc

open StepMachine
open RingList
open IntervalTiling

/-- `l` are the blocks of the free list from `freep` on, apart from each other
and never adjacent, and `free` are their units. -/
structure FreeList (h : Heap) (l : List ℕ) (free : Set ℕ) : Prop where
  ring : FreeRing h l
  tiles : Tiles free (l.map h.block)
  inside : free ⊆ heapUnits
  coalesced : Coalesced h l

def Heap.Touches (h : Heap) (a b : ℕ) : Prop :=
  a + h.size a = b ∨ b + h.size b = a

section Lists

variable {h : Heap} {l : List ℕ} {free : Set ℕ}

theorem FreeList.freep_ne_zero (hlist : FreeList h l free) : h.freep ≠ 0 := by
  intro hzero
  have hmem : h.block h.freep ∈ l.map h.block :=
    List.mem_map_of_mem hlist.ring.freep_mem
  have hpos := hlist.tiles.nonempty _ hmem
  have hin : h.freep ∈ heapUnits := by
    apply hlist.inside (hlist.tiles.cells_subset hmem _)
    simp only [Block.mem_cells, block_start]
    omega
  rw [mem_heapUnits] at hin
  omega

theorem FreeList.size_pos (hlist : FreeList h l free) {x : ℕ} (hx : x ∈ l) :
    0 < h.size x :=
  hlist.tiles.nonempty (h.block x) (List.mem_map_of_mem hx)

theorem FreeList.separate (hlist : FreeList h l free) :
    Separate (l.map h.block) := by
  intro a ha b hb htouch
  obtain ⟨x, hx, rfl⟩ := List.mem_map.mp ha
  obtain ⟨y, hy, rfl⟩ := List.mem_map.mp hb
  simp only [block_start, block_size] at htouch
  have hpos := hlist.size_pos hx
  obtain ⟨u, v, rfl⟩ := List.append_of_mem hx
  have hring : Circular h.ptr (x :: (v ++ u)) := hlist.ring.ring.rotate
  have hsorted : CycSorted (x :: (v ++ u)) := hlist.ring.sorted.rotate
  have hperm : (u ++ x :: v).Perm (x :: (v ++ u)) := List.perm_append_comm
  have hnext : h.ptr x = (v ++ u).headD x := hring.1
  obtain ⟨hrise, hwrap⟩ := hsorted.gap
  rw [← hnext] at hrise hwrap
  have hy' := hperm.mem_iff.mp hy
  rcases Nat.lt_or_ge x (h.ptr x) with hlt | hge
  · -- the next block starts between the end of `x` and `y`
    have hle : h.ptr x ≤ y := (hrise hlt y hy').resolve_left (by omega)
    have hin : h.ptr x ∈ u ++ x :: v := hlist.ring.ring.next_mem hx
    have happart : ¬ (h.block x).Apart (h.block (h.ptr x)) ∨
        h.ptr x = x + h.size x := by
      have hpos' := hlist.size_pos hin
      simp only [Block.Apart, block_start, block_size]
      omega
    rcases happart with hmeet | hend
    · have heq := hlist.tiles.eq_of_not_apart (List.mem_map_of_mem hx)
        (List.mem_map_of_mem hin) hmeet
      have hsame : x = h.ptr x := congrArg Block.start heq
      omega
    · exact hlist.coalesced x hx hend.symm
  · have hle := (hwrap hge y hy').2
    omega

/-! ## kmalloc -/

/-- The search of `kmalloc` comes to an end: with the null pointer and an
unchanged heap when no block is big enough, and else with the last units of the
first block behind `freep` that is. -/
theorem kmalloc_first_fit (nbytes : ℕ) (hring : FreeRing h l)
    (hfreep : h.freep ≠ 0) :
    ∃ h' r, KmallocReturns nbytes h h' r ∧
      (r = 0 ↔ ∀ x ∈ l, h.size x < nunits nbytes) ∧ (r = 0 → h' = h) ∧
      (r ≠ 0 → ∃ x q,
        (l.rotate 1).find? (fun y => nunits nbytes ≤ h.size y) = some x ∧
          r = q + 1 ∧ q + nunits nbytes = x + h.size x ∧
          h'.size q = nunits nbytes) := by
  simp only [kmallocReturns_iff, initHeap_of_freep hfreep]
  have hn := nunits_pos nbytes
  generalize nunits nbytes = n at hn ⊢
  obtain ⟨rest, rfl⟩ := hring.exists_cons
  have horder : (h.freep :: rest).rotate 1 = rest ++ [h.freep] := by simp
  have hmem : ∀ y, y ∈ h.freep :: rest ↔ y ∈ rest ++ [h.freep] := by
    intro y
    simp [or_comm]
  simp only [horder, hmem]
  rcases search_halts n hring with
    ⟨hsmall, hhalts⟩ | ⟨w, x, v, hsplit, hw, hx, hhalts⟩
  · exact ⟨h, 0, hhalts, by simpa using hsmall, fun _ => rfl, by simp⟩
  · refine ⟨_, _, hhalts, ?_, by simp, fun _ => ⟨x, _, ?_, rfl, ?_⟩⟩
    · simp only [Nat.succ_ne_zero, false_iff, not_forall, not_lt]
      exact ⟨x, by simp [hsplit], hx⟩
    · rw [List.find?_eq_some_iff_append]
      exact ⟨by simpa using hx, w, v, hsplit, by simpa using hw⟩
    · unfold takeUnits
      split
      case isTrue hfit => simp [hfit]
      case isFalse hfit => simp; omega

/-! ## kfree -/

/-- The freed block and the free blocks that it touches are one block of the
new list. -/
def Merged (h : Heap) (l : List ℕ) (bp : ℕ) (h' : Heap) (l' : List ℕ) : Prop :=
  ∃ m ∈ l', ∀ u, u ∈ h'.units m ↔
    u ∈ h.units bp ∨ ∃ x ∈ l, h.Touches x bp ∧ u ∈ h.units x

theorem FreeList.merged {h' : Heap} {l' : List ℕ} {bp : ℕ}
    (hlist : FreeList h l free) (hpos : 0 < h.size bp)
    (happart : Disjoint (h.units bp) free)
    (hlist' : FreeList h' l' (free ∪ h.units bp)) : Merged h l bp h' l' := by
  obtain ⟨m, hm, hcells⟩ := hlist.tiles.exists_joined (c := h.block bp)
    hlist.separate hpos happart hlist'.tiles hlist'.separate
  obtain ⟨x, hx, rfl⟩ := List.mem_map.mp hm
  refine ⟨x, hx, fun u => (hcells u).trans (or_congr_right ?_)⟩
  simp only [List.mem_map, exists_exists_and_eq_and]
  rfl

theorem FreeList.tiles_cons {bp : ℕ} (hlist : FreeList h l free)
    (hpos : 0 < h.size bp) (happart : Disjoint (h.units bp) free) :
    Tiles (free ∪ h.units bp) (h.block bp :: l.map h.block) := by
  constructor
  · rw [List.forall_mem_cons]
    exact ⟨hpos, hlist.tiles.nonempty⟩
  · refine List.pairwise_cons.mpr ⟨fun b hb => ?_, hlist.tiles.apart⟩
    have hposb := hlist.tiles.nonempty b hb
    have hout : ∀ u, u ∈ b.cells → u ∉ h.units bp := fun u hu hbp =>
      Set.disjoint_left.mp happart hbp (hlist.tiles.cells_subset hb hu)
    have hlow := hout b.start ⟨le_rfl, by omega⟩
    by_contra hmeet
    simp only [Block.Apart, block_start, block_size] at hmeet
    refine hout bp ⟨?_, by omega⟩ ⟨le_rfl, by omega⟩
    simp only [Heap.units, Set.mem_Ico] at hlow
    omega
  · intro u
    rw [List.exists_mem_cons_iff, hlist.tiles.cover u, or_comm]
    rfl

theorem FreeList.not_mem {bp : ℕ} (hlist : FreeList h l free)
    (hpos : 0 < h.size bp) (happart : Disjoint (h.units bp) free) : bp ∉ l := by
  intro hmem
  have hfirst : bp ∈ h.units bp := ⟨le_rfl, by omega⟩
  refine Set.disjoint_left.mp happart hfirst ?_
  exact hlist.tiles.cells_subset (List.mem_map_of_mem hmem) hfirst

/-- What `kfree` leaves when the freed block ends where the only block of the
list begins: both are linked, the lower one grown over the upper one. -/
theorem kfree_below_only {bp : ℕ} (hpos : 0 < h.size bp)
    (hends : EndsAtWholeRing h bp) :
    ∃ h', KfreeReturns (bp + 1) h h' ∧ h'.freep = h.freep ∧
      h'.ptr h.freep = bp ∧ bp ≠ h.freep ∧
      h'.size bp = h.size bp + h.size h.freep ∧
      h'.size h.freep = h.size h.freep := by
  obtain ⟨hself, hend⟩ := hends
  have hplace : placeTurn h bp h.freep = .stop h.freep := by
    simp only [placeTurn, hself]
    split_ifs <;> first | rfl | omega
  have hbelow : ¬ h.freep = bp := by omega
  have hjoin : joinUpper h bp h.freep =
      (h.setSize bp (h.size bp + h.size h.freep)).setPtr bp h.freep := by
    simp [joinUpper, hself, hend]
  have hlink : joinLower (joinUpper h bp h.freep) bp h.freep =
      (joinUpper h bp h.freep).setPtr h.freep bp := by
    have happart : ¬ h.freep + h.size h.freep = bp := by omega
    simp [joinLower, hjoin, hbelow, happart]
  refine ⟨putBehind h bp h.freep, ⟨1, ?_⟩, ?_⟩
  · simp [kfree, runFuel, hplace]
  · simp [putBehind, hlink]
    simp [hjoin, hbelow, Ne.symm hbelow]

theorem not_freeList_of_below {h' : Heap} {l' : List ℕ} {units : Set ℕ}
    {p bp n : ℕ} (hfreep : h'.freep = p) (hnext : h'.ptr p = bp)
    (hne : bp ≠ p) (hsize : h'.size bp = n + h'.size p)
    (hend : bp + n = p) : ¬ FreeList h' l' units := by
  intro hlist
  have hp : p ∈ l' := hfreep ▸ hlist.ring.freep_mem
  have hbp : bp ∈ l' := hnext ▸ hlist.ring.ring.next_mem hp
  have hposp := hlist.size_pos hp
  have heq := hlist.tiles.eq_of_not_apart (List.mem_map_of_mem hbp)
    (List.mem_map_of_mem hp) (by
      simp only [Block.Apart, block_start, block_size]
      omega)
  exact hne (congrArg Block.start heq)

/-- `kfree` always returns.  It leaves a well-formed free list of the old units
and those of the freed block, joined with the blocks it touches, unless that
block ends where the only block of the list begins. -/
theorem kfree_freeList_iff {bp : ℕ} (hlist : FreeList h l free)
    (hpos : 0 < h.size bp) (hinside : h.units bp ⊆ heapUnits)
    (happart : Disjoint (h.units bp) free) :
    (∃ h', KfreeReturns (bp + 1) h h') ∧
      ((∃ h' l', KfreeReturns (bp + 1) h h' ∧
          FreeList h' l' (free ∪ h.units bp) ∧ Merged h l bp h' l') ↔
        ¬ EndsAtWholeRing h bp) := by
  by_cases hends : EndsAtWholeRing h bp
  · obtain ⟨h', hreturns, hfreep, hnext, hne, hsize, hsame⟩ :=
      kfree_below_only hpos hends
    refine ⟨⟨h', hreturns⟩, iff_of_false ?_ (not_not_intro hends)⟩
    rintro ⟨h'', l', hreturns', hlist', _⟩
    rw [← kfreeReturns_unique hreturns hreturns'] at hlist'
    rw [← hsame] at hsize
    exact not_freeList_of_below hfreep hnext hne hsize hends.2 hlist'
  · have htiles := hlist.tiles_cons hpos happart
    rw [← List.append_nil (l.map h.block)] at htiles
    obtain ⟨h', l', hreturns, hring', htiles', _, hcoalesced⟩ :=
      kfree_spec hlist.ring (hlist.not_mem hpos happart) hends htiles
    have hlist' : FreeList h' l' (free ∪ h.units bp) :=
      ⟨hring', by simpa using htiles', Set.union_subset hlist.inside hinside,
        hcoalesced hlist.coalesced⟩
    refine ⟨⟨h', hreturns⟩, iff_of_true ⟨h', l', hreturns, hlist', ?_⟩ hends⟩
    exact hlist.merged hpos happart hlist'

/-! ## The room in a block -/

/-- Before the first call, or with a well-formed free list. -/
def Usable (h : Heap) : Prop :=
  h.freep = 0 ∨ ∃ l free, FreeList h l free

theorem freeList_initHeap (husable : Usable h) :
    ∃ l free, FreeList (initHeap h) l free := by
  rcases husable with hfreep | ⟨l, free, hlist⟩
  · obtain ⟨hring, htiles⟩ := initHeap_idle hfreep
    refine ⟨_, _, hring, htiles, subset_rfl, fun x hx => ?_⟩
    have hself : (initHeap h).ptr x = x := by
      obtain rfl := List.mem_singleton.mp hx
      simpa [Circular] using hring.ring
    have hpos := htiles.nonempty _ (List.mem_map_of_mem hx)
    rw [block_size] at hpos
    omega
  · exact ⟨l, free, by rwa [initHeap_of_freep hlist.freep_ne_zero]⟩

theorem kmalloc_size (husable : Usable h) {h' : Heap} {nbytes q : ℕ}
    (hreturns : KmallocReturns nbytes h h' (q + 1)) :
    h'.size q = nunits nbytes := by
  obtain ⟨l, free, hlist⟩ := freeList_initHeap husable
  obtain ⟨rest, rfl⟩ := hlist.ring.exists_cons
  rw [kmallocReturns_iff] at hreturns
  rcases search_halts (nunits nbytes) hlist.ring with
    ⟨_, hhalts⟩ | ⟨w, x, v, _, _, _, hhalts⟩
  · have heq := hreturns.unique hhalts
    simp at heq
  · have heq := hreturns.unique hhalts
    simp only [Prod.mk.injEq, Nat.add_right_cancel_iff] at heq
    rw [heq.1, heq.2]
    exact takeUnits_size

theorem kmalloc_one_unit (husable : Usable h) {nbytes : ℕ}
    (hone : nunits nbytes = 1) :
    ∃ h' q, KmallocReturns nbytes h h' (q + 1) := by
  obtain ⟨l, free, hlist⟩ := freeList_initHeap husable
  obtain ⟨rest, rfl⟩ := hlist.ring.exists_cons
  simp only [kmallocReturns_iff]
  rcases search_halts (nunits nbytes) hlist.ring with
    ⟨hsmall, _⟩ | ⟨w, x, v, _, _, _, hhalts⟩
  · have hfirst := hsmall (initHeap h).freep (by simp)
    have hpos := hlist.size_pos hlist.ring.freep_mem
    omega
  · exact ⟨_, _, hhalts⟩

theorem nunits_of_lt {nbytes : ℕ} (hfits : nbytes + sizeofHeader - 1 < 2 ^ 32) :
    nbytes ≤ (nunits nbytes - 1) * sizeofHeader := by
  rw [nunits, Nat.mod_eq_of_lt hfits]
  simp only [sizeofHeader]
  omega

theorem nunits_of_wrap {nbytes : ℕ} (hword : nbytes < 2 ^ 32)
    (hwrap : 2 ^ 32 ≤ nbytes + sizeofHeader - 1) : nunits nbytes = 1 := by
  simp only [nunits, sizeofHeader] at hwrap ⊢
  omega

/-- A block that `kmalloc` hands out has room for the request exactly when the
rounding to units does not wrap. -/
theorem kmalloc_room_iff {nbytes : ℕ} (husable : Usable h)
    (hword : nbytes < 2 ^ 32) :
    (∀ h' q, KmallocReturns nbytes h h' (q + 1) →
        nbytes ≤ (h'.size q - 1) * sizeofHeader) ↔
      nbytes + sizeofHeader - 1 < 2 ^ 32 := by
  constructor
  · intro hroom
    by_contra hwrap
    have hone := nunits_of_wrap hword (not_lt.mp hwrap)
    obtain ⟨h', q, hreturns⟩ := kmalloc_one_unit husable hone
    have hnone := hroom h' q hreturns
    rw [kmalloc_size husable hreturns, hone] at hnone
    simp only [sizeofHeader] at hwrap hnone
    omega
  · intro hfits h' q hreturns
    rw [kmalloc_size husable hreturns]
    exact nunits_of_lt hfits

end Lists

/-! ## Concrete calls -/

/-- One free block of four units, all other headers with that size too. -/
def oneBlockHeap : Heap :=
  ⟨fun p => if p = 0x40010 then ⟨0x40010, 4⟩ else ⟨0, 4⟩, 0x40010⟩

theorem freeList_oneBlockHeap :
    FreeList oneBlockHeap [0x40010] (Set.Ico 0x40010 0x40014) := by
  constructor
  · exact ⟨rfl, by simp [Circular, Heap.ptr, oneBlockHeap], ⟨[], _, rfl, by simp⟩⟩
  · exact Tiles.singleton (oneBlockHeap.block 0x40010) (by decide)
  · intro u hu
    rw [mem_heapUnits]
    rw [Set.mem_Ico] at hu
    omega
  · simp [Coalesced, Heap.ptr, Heap.size, oneBlockHeap]

theorem units_oneBlockHeap (bp : ℕ) (hbp : bp ≠ 0x40010) :
    oneBlockHeap.units bp = Set.Ico bp (bp + 4) := by
  simp [Heap.units, Heap.size, oneBlockHeap, hbp]

theorem kmalloc_first_fit_eight_bytes :
    ∃ h' q, KmallocReturns 8 oneBlockHeap h' (q + 1) ∧ q + 2 = 0x40014 ∧
      h'.size q = 2 := by
  obtain ⟨h', r, hreturns, hnull, _, hfound⟩ :=
    kmalloc_first_fit 8 freeList_oneBlockHeap.ring (by decide)
  have hr : r ≠ 0 := fun hzero =>
    absurd (hnull.mp hzero 0x40010 (by simp)) (by decide)
  obtain ⟨x, q, hfirst, rfl, hend, hsize⟩ := hfound hr
  have hx : x = 0x40010 := by
    have hmem := List.mem_of_find?_eq_some hfirst
    simpa using hmem
  subst hx
  exact ⟨h', q, hreturns, hend, hsize⟩

theorem kfree_freeList_iff_above :
    ∃ h' l', KfreeReturns (0x40014 + 1) oneBlockHeap h' ∧
      FreeList h' l' (Set.Ico 0x40010 0x40014 ∪ oneBlockHeap.units 0x40014) ∧
      Merged oneBlockHeap [0x40010] 0x40014 h' l' := by
  have hunits := units_oneBlockHeap 0x40014 (by decide)
  refine (kfree_freeList_iff freeList_oneBlockHeap (by decide) ?_ ?_).2.mpr ?_
  · intro u hu
    rw [hunits, Set.mem_Ico] at hu
    rw [mem_heapUnits]
    omega
  · rw [hunits, Set.disjoint_left]
    intro u hu hfree
    rw [Set.mem_Ico] at hu hfree
    omega
  · exact fun hends => absurd hends.2 (by decide)

/-- The block below the only free one is freed. -/
theorem kfree_below_only_block :
    ¬ ∀ (h : Heap) (l : List ℕ) (free : Set ℕ) (bp : ℕ), FreeList h l free →
      0 < h.size bp → h.units bp ⊆ heapUnits → Disjoint (h.units bp) free →
      ∃ h' l', KfreeReturns (bp + 1) h h' ∧
        FreeList h' l' (free ∪ h.units bp) ∧ Merged h l bp h' l' := by
  intro hclaim
  have hunits := units_oneBlockHeap 0x4000C (by decide)
  obtain ⟨h', l', hreturns, hlist, _⟩ :=
    hclaim oneBlockHeap _ _ 0x4000C freeList_oneBlockHeap (by decide)
      (by
        intro u hu
        rw [hunits, Set.mem_Ico] at hu
        rw [mem_heapUnits]
        omega)
      (by
        rw [hunits, Set.disjoint_left]
        intro u hu hfree
        rw [Set.mem_Ico] at hu hfree
        omega)
  have hends : EndsAtWholeRing oneBlockHeap 0x4000C := ⟨rfl, rfl⟩
  obtain ⟨h₁, hreturns₁, hfreep, hnext, hne, hsize, hsame⟩ :=
    kfree_below_only (by decide) hends
  rw [← kfreeReturns_unique hreturns hreturns₁] at hfreep hnext hsize hsame
  rw [← hsame] at hsize
  exact not_freeList_of_below hfreep hnext hne hsize (by decide) hlist

theorem kmalloc_room_iff_hundred :
    (∀ h' q, KmallocReturns 100 blankHeap h' (q + 1) →
        100 ≤ (h'.size q - 1) * sizeofHeader) ↔
      100 + sizeofHeader - 1 < 2 ^ 32 :=
  kmalloc_room_iff (Or.inl rfl) (by decide)

/-- The request of `2 ^ 32 - 1` bytes is answered with a block of one unit. -/
theorem kmalloc_without_room :
    ¬ ∀ (h : Heap) (nbytes : ℕ), Usable h → nbytes < 2 ^ 32 →
      ∀ h' q, KmallocReturns nbytes h h' (q + 1) →
        nbytes ≤ (h'.size q - 1) * sizeofHeader := by
  intro hclaim
  have hreturns : KmallocReturns 4294967295 blankHeap (heapAfterFirst 1)
      (0x1FFFFF + 1) := ⟨1, rfl⟩
  have hroom := hclaim _ _ (Or.inl rfl) (by decide) _ _ hreturns
  exact absurd hroom (by decide)

end Kmalloc
end Janus86
