import Janus86.KmallocGaps
import Janus86.PageTables

/-!
# The heap under paging

The heap ends where the page directory begins.  What is stored into blocks
that `kmalloc` has handed out goes through the page tables, and the tables
stand in the same memory: each store could change how the next address is
translated.  In a run of safe calls no store does, every address of a block
leads to itself, and the headers of all blocks stay as the allocator left them.
-/

namespace Janus86
namespace Paging

open Kmalloc StepMachine IntervalTiling

/-- A double word of the block `p`, behind its header. -/
def InBlock (h : Heap) (p a : ℕ) : Prop :=
  sizeofHeader * (p + 1) ≤ a ∧ a + 4 ≤ sizeofHeader * (p + h.size p) ∧ a % 4 = 0

/-- A store of a double word: it faults when the address is not mapped or not
writable, and else goes where the tables lead at that time. -/
def storeVia (mem : ℕ → ℕ) (st : ℕ × ℕ) : Option (ℕ → ℕ) :=
  match pageWalk mem PAGE_TABLE_ADDR st.1 with
  | some (a, true) => some (Function.update mem a st.2)
  | _ => none

/-- The stores without paging. -/
def storeDirect (mem : ℕ → ℕ) (st : ℕ × ℕ) : ℕ → ℕ :=
  Function.update mem st.1 st.2

section Tables

variable {k a : ℕ} {mem mem' : ℕ → ℕ}

/-- The walk reads nothing below the directory. -/
theorem pageWalk_congr (hlow : 2 ≤ k) (hk : k ≤ 256) (ha : a < 2 ^ 32)
    (hsame : ∀ x, PAGE_TABLE_ADDR ≤ x → mem' x = (pageTables k mem).mem x) :
    pageWalk mem' PAGE_TABLE_ADDR a =
      pageWalk (pageTables k mem).mem PAGE_TABLE_ADDR a := by
  have hdir := pageTables_dir mem hlow hk (j := a / 2 ^ 22) (by omega)
  simp only [pageWalk, hsame _ (Nat.le_add_right PAGE_TABLE_ADDR _), hdir]
  by_cases hmapped : a / 2 ^ 22 < k / 2
  · rw [if_pos hmapped, hsame]
    simp only [pageOf, PAGE_TABLE_ADDR]
    omega
  · rw [if_neg hmapped]
    rfl

/-- Stores below the directory find the memory mapped to itself. -/
theorem storeVia_below (hlow : 2 ≤ k) (hk : k ≤ 256)
    (hsame : ∀ x, PAGE_TABLE_ADDR ≤ x → mem' x = (pageTables k mem).mem x)
    (hmapped : a < k / 2 * 2 ^ 22) (v : ℕ) :
    storeVia mem' (a, v) = some (storeDirect mem' (a, v)) := by
  have ha : a < 2 ^ 32 := by omega
  rw [storeVia, pageWalk_congr hlow hk ha hsame,
    pageWalk_pageTables mem hlow hk ha, if_pos hmapped]
  rfl

theorem storeDirect_of_ne {x : ℕ} {st : ℕ × ℕ} (hne : x ≠ st.1) :
    storeDirect mem st x = mem x :=
  Function.update_of_ne hne _ _

theorem storesDirect_of_not {stores : List (ℕ × ℕ)} {x : ℕ}
    (hout : ∀ st ∈ stores, x ≠ st.1) :
    stores.foldl storeDirect mem x = mem x := by
  induction stores generalizing mem with
  | nil => rfl
  | cons st stores ih =>
      rw [List.foldl_cons, ih fun st' hst' => hout st' (List.mem_cons_of_mem st hst'),
        storeDirect_of_ne (hout st List.mem_cons_self)]

/-- A run of stores below the directory. -/
theorem storesVia_below (hlow : 2 ≤ k) (hk : k ≤ 256)
    (hsame : ∀ x, PAGE_TABLE_ADDR ≤ x → mem' x = (pageTables k mem).mem x)
    {stores : List (ℕ × ℕ)}
    (hbelow : ∀ st ∈ stores,
      st.1 < PAGE_TABLE_ADDR ∧ st.1 < k / 2 * 2 ^ 22) :
    stores.foldlM storeVia mem' = some (stores.foldl storeDirect mem') := by
  induction stores generalizing mem' with
  | nil => rfl
  | cons st stores ih =>
      obtain ⟨hst, hmapped⟩ := hbelow st List.mem_cons_self
      have hnext : ∀ x, PAGE_TABLE_ADDR ≤ x →
          storeDirect mem' st x = (pageTables k mem).mem x := by
        intro x hx
        rw [storeDirect_of_ne (by omega), hsame x hx]
      rw [List.foldlM_cons, storeVia_below hlow hk hsame hmapped,
        Option.bind_eq_bind, Option.bind_some, List.foldl_cons]
      exact ih hnext fun st' hst' => hbelow st' (List.mem_cons_of_mem st hst')

end Tables

/-! ## Stores into blocks in use -/

section Blocks

variable {h : Heap} {calls : List Call} {s : State} {p a : ℕ}

theorem InBlock.below (hpart : Partition s) (hp : p ∈ s.live)
    (hin : InBlock s.heap p a) : a < PAGE_TABLE_ADDR := by
  obtain ⟨hlow, hhigh, _⟩ := hin
  simp only [sizeofHeader] at hlow hhigh
  have hunit : p + s.heap.size p - 1 ∈ heapUnits :=
    (hpart.cover _).mpr (Or.inl ⟨p, hp, by rw [Heap.units, Set.mem_Ico]; omega⟩)
  rw [mem_heapUnits] at hunit
  rw [PAGE_TABLE_ADDR]
  omega

/-- No store into a block meets the header of a block. -/
theorem InBlock.not_header (hpart : Partition s) (hp : p ∈ s.live)
    (hin : InBlock s.heap p a) {q : ℕ} (hq : s.heap.OnFreeList q ∨ q ∈ s.live)
    (hpos : 0 < s.heap.size q) {o : ℕ} (ho : o < sizeofHeader) :
    sizeofHeader * q + o ≠ a := by
  obtain ⟨hlow, hhigh, _⟩ := hin
  simp only [sizeofHeader] at hlow hhigh ho ⊢
  intro heq
  have hunitp : q ∈ s.heap.units p := by
    rw [Heap.units, Set.mem_Ico]
    omega
  have hunitq : q ∈ s.heap.units q := by
    rw [Heap.units, Set.mem_Ico]
    omega
  have hqp : q ≠ p := by omega
  rcases hq with hfree | hlive
  · exact Set.disjoint_left.mp (hpart.liveFree p hp q hfree) hunitp hunitq
  · have hsymm : Std.Symm fun a b =>
        Disjoint (s.heap.units a) (s.heap.units b) := ⟨fun _ _ h => h.symm⟩
    have hapart := hpart.liveApart.forall hlive hp hqp
    exact Set.disjoint_left.mp hapart hunitq hunitp

/-- After `page_init` the double words of the blocks in use can be stored to in any
order: each store goes to its own address, the mapping stays, and so do the
headers of the blocks. -/
theorem heap_stores_keep_mapping {k : ℕ} (hlow : 8 ≤ k) (hk : k ≤ 256)
    {mem : ℕ → ℕ} {c : Cursor} (hinit : PageInitReturns (k * 2 ^ 22) mem c)
    (hfreep : h.freep = 0) (hrun : Run SafeStep ⟨h, []⟩ calls s)
    (hne : calls ≠ []) {stores : List (ℕ × ℕ)}
    (hin : ∀ st ∈ stores, ∃ p ∈ s.live, InBlock s.heap p st.1) :
    ∃ mem', stores.foldlM storeVia c.mem = some mem' ∧
      mem' = stores.foldl storeDirect c.mem ∧
      (∀ a < 2 ^ 32, pageWalk mem' PAGE_TABLE_ADDR a =
        if a < k / 2 * 2 ^ 22 then some (a, true) else none) ∧
      ∀ q, s.heap.OnFreeList q ∨ q ∈ s.live → ∀ o < sizeofHeader,
        mem' (sizeofHeader * q + o) = c.mem (sizeofHeader * q + o) := by
  obtain ⟨l, hs⟩ := compact_of_run hfreep hrun hne
  have hpart : Partition s := partition_of_formed ⟨l, hs.ring, hs.tiles⟩
  rw [pageInitReturns_unique hinit (pageInit_returns mem hk)]
  have hbelow : ∀ st ∈ stores,
      st.1 < PAGE_TABLE_ADDR ∧ st.1 < k / 2 * 2 ^ 22 := by
    intro st hst
    obtain ⟨p, hp, hblock⟩ := hin st hst
    have hlt := hblock.below hpart hp
    refine ⟨hlt, ?_⟩
    rw [PAGE_TABLE_ADDR] at hlt
    omega
  refine ⟨_, storesVia_below (by omega) hk (fun _ _ => rfl) hbelow, rfl,
    fun a ha => ?_, fun q hq o ho => ?_⟩
  · rw [pageWalk_congr (by omega) hk ha, pageWalk_pageTables mem (by omega) hk ha]
    intro x hx
    apply storesDirect_of_not
    intro st hst
    have hlt := (hbelow st hst).1
    omega
  · apply storesDirect_of_not
    intro st hst
    obtain ⟨p, hp, hblock⟩ := hin st hst
    exact hblock.not_header hpart hp hq (hs.size_pos hq) ho

/-- Two stores into the hundred bytes that are allocated first. -/
theorem heap_stores_keep_mapping_hundred :
    ∃ mem', [(0xFFFF98, 1), (0xFFFFFC, 0x01001003)].foldlM storeVia
        (pageTables 32 fun _ => 0).mem = some mem' ∧
      pageWalk mem' PAGE_TABLE_ADDR 0xFFFF98 = some (0xFFFF98, true) := by
  have hsize : (heapAfterFirst 14).size 0x1FFFF2 = 14 := by decide
  have hin : ∀ st ∈ [((0xFFFF98, 1) : ℕ × ℕ), (0xFFFFFC, 0x01001003)],
      ∃ p ∈ [0x1FFFF2], InBlock (heapAfterFirst 14) p st.1 := by
    simp [InBlock, hsize, sizeofHeader]
  obtain ⟨mem', hstores, _, hwalk, _⟩ :=
    heap_stores_keep_mapping (k := 32) (by decide) (by decide)
      (pageInit_returns (fun _ => 0) (by decide)) rfl run_hundred (by simp) hin
  exact ⟨mem', hstores, (hwalk _ (by decide)).trans (by decide)⟩

end Blocks

end Paging
end Janus86
