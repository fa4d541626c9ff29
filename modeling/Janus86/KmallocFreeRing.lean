import Janus86.KmallocModel
import Janus86.RingList
import Janus86.IntervalTiling

/-!
# The free ring under kmalloc and kfree

The free blocks form a ring of increasing addresses with one wrap, read from
`freep` on.  Both operations of the allocator are followed on that ring: the
search of `kmalloc` stops at the first block that is big enough or comes back
to `freep`, and the search of `kfree` stops where the block belongs.  What
they do to the blocks is a cut or a join of the tiling they make up with the
blocks that are in use.

Two situations are left out here.  A one-block ring has no predecessor to
take the exactly fitting block out of, and no block to survive when the
freed block ends where its only block begins.
-/

namespace Janus86
namespace Kmalloc

open StepMachine
open RingList
open IntervalTiling

/-- The block that starts at the header `p`. -/
def Heap.block (h : Heap) (p : ℕ) : Block := ⟨p, h.size p⟩

/-- `l` lists the free blocks once around from `freep`, in order of address
up to one wrap. -/
structure FreeRing (h : Heap) (l : List ℕ) : Prop where
  starts : l.head? = some h.freep
  ring : Circular h.ptr l
  sorted : CycSorted l

/-- No free block ends where the next one begins. -/
def Coalesced (h : Heap) (l : List ℕ) : Prop :=
  ∀ x ∈ l, x + h.size x ≠ h.ptr x

theorem FreeRing.exists_cons {h : Heap} {l : List ℕ} (hring : FreeRing h l) :
    ∃ rest, l = h.freep :: rest := by
  cases l with
  | nil => exact hring.ring.elim
  | cons x rest =>
      have hx : x = h.freep := by simpa using hring.starts
      exact ⟨rest, by rw [hx]⟩

/-! ## The search of kmalloc -/

/-- The search walks over blocks that are too small as long as it does not
come back to `freep`. -/
theorem searchTurn_walk {h : Heap} {n : ℕ} (w : List ℕ) (prevp x last : ℕ)
    (v : List ℕ) (hchain : Chain h.ptr (prevp :: (w ++ x :: v)) last)
    (hsmall : ∀ y ∈ w, h.size y < n) (hfreep : ∀ y ∈ w, y ≠ h.freep) :
    Reaches (searchTurn n h) (prevp, h.ptr prevp)
      ((prevp :: w).getLast (by simp), x) := by
  induction w generalizing prevp with
  | nil =>
      have hnext : h.ptr prevp = x := by simpa using hchain.1
      rw [hnext]
      exact Reaches.refl _
  | cons y w ih =>
      have hnext : h.ptr prevp = y := by simpa using hchain.1
      have hturn : searchTurn n h (prevp, y) = .next (y, h.ptr y) := by
        have hy : ¬ n ≤ h.size y := not_le.mpr (hsmall y (by simp))
        have hy' : y ≠ h.freep := hfreep y (by simp)
        simp [searchTurn, hy, hy']
      rw [hnext, List.getLast_cons (by simp)]
      refine Reaches.head hturn (ih y hchain.2 ?_ ?_)
      · intro z hz
        exact hsmall z (by simp [hz])
      · intro z hz
        exact hfreep z (by simp [hz])

theorem exists_first {α : Type*} (P : α → Prop) (l : List α) :
    (∀ x ∈ l, ¬ P x) ∨
      ∃ u x v, l = u ++ x :: v ∧ (∀ y ∈ u, ¬ P y) ∧ P x := by
  classical
  induction l with
  | nil => simp
  | cons y l ih =>
      by_cases hy : P y
      · exact Or.inr ⟨[], y, l, by simp, by simp, hy⟩
      · rcases ih with hnone | ⟨u, x, v, rfl, hu, hx⟩
        · left
          simpa [hy] using hnone
        · exact Or.inr ⟨y :: u, x, v, by simp, by simpa [hy] using hu, hx⟩

/-- How the search of `kmalloc` ends on a ring `freep :: rest`: it gives up
when all blocks are too small; else it stops at the first block behind
`freep`, in ring order, that is big enough. -/
theorem search_halts {h : Heap} {rest : List ℕ} (n : ℕ)
    (hring : FreeRing h (h.freep :: rest)) :
    ((∀ y ∈ rest ++ [h.freep], h.size y < n) ∧
        Halts (searchTurn n h) (h.freep, h.ptr h.freep) (h, 0)) ∨
      ∃ w x v, rest ++ [h.freep] = w ++ x :: v ∧
        (∀ y ∈ w, h.size y < n) ∧ n ≤ h.size x ∧
        Halts (searchTurn n h) (h.freep, h.ptr h.freep)
          ((takeUnits h n ((h.freep :: w).getLast (by simp)) x).1,
            (takeUnits h n ((h.freep :: w).getLast (by simp)) x).2 + 1) := by
  have hnodup : (h.freep :: rest).Nodup := hring.sorted.nodup
  have hnotin : h.freep ∉ rest := (List.nodup_cons.mp hnodup).1
  have hchain : Chain h.ptr (h.freep :: rest) h.freep := hring.ring
  -- the walk reads the ring behind `freep` and `freep` itself last
  have hfull : Chain h.ptr (h.freep :: (rest ++ [h.freep])) (h.ptr h.freep) := by
    rw [← List.cons_append, chain_append]
    exact ⟨by simpa using hchain, by simp⟩
  rcases exists_first (fun y => n ≤ h.size y) (rest ++ [h.freep]) with
    hnone | ⟨w, x, v, hsplit, hw, hx⟩
  · left
    have hsmall : ∀ y ∈ rest ++ [h.freep], h.size y < n := by
      intro y hy
      exact not_le.mp (hnone y hy)
    refine ⟨hsmall, ?_⟩
    have hwalk := searchTurn_walk (n := n) rest h.freep h.freep _ [] hfull
      (fun y hy => hsmall y (by simp [hy]))
      (fun y hy heq => hnotin (heq ▸ hy))
    rw [hwalk.halts_iff]
    apply Halts.of_stop
    have hlast : ¬ n ≤ h.size h.freep := not_le.mpr (hsmall _ (by simp))
    simp [searchTurn, hlast]
  · right
    refine ⟨w, x, v, hsplit, fun y hy => not_le.mp (hw y hy), hx, ?_⟩
    have hwrest : ∀ y ∈ w, y ∈ rest := by
      have hprefix : w <+: rest ++ [h.freep] := ⟨x :: v, hsplit.symm⟩
      have hlen : w.length ≤ rest.length := by
        have hlength := congrArg List.length hsplit
        simp only [List.length_append, List.length_cons, List.length_nil]
          at hlength
        omega
      have hw' : w <+: rest :=
        List.prefix_of_prefix_length_le hprefix (List.prefix_append _ _) hlen
      exact fun y hy => hw'.subset hy
    rw [hsplit] at hfull
    have hwalk := searchTurn_walk (n := n) w h.freep x _ v hfull
      (fun y hy => not_le.mp (hw y hy))
      (fun y hy heq => hnotin (heq ▸ hwrest y hy))
    rw [hwalk.halts_iff]
    apply Halts.of_stop
    simp [searchTurn, hx]

/-- Unless the ring has one block, the block found and its predecessor are
neighbours on the ring. -/
theorem rotate_to_found {f x : ℕ} {rest w v : List ℕ}
    (hsplit : rest ++ [f] = w ++ x :: v) (hne : rest ≠ []) :
    ∃ a b t, f :: rest = a ++ b ∧
      b ++ a = (f :: w).getLast (by simp) :: x :: t := by
  have hw : f :: w = (f :: w).dropLast ++ [(f :: w).getLast (by simp)] :=
    (List.dropLast_append_getLast _).symm
  rcases List.eq_nil_or_concat v with rfl | ⟨v', y, rfl⟩
  · -- the search came around to `freep`
    have hrest : rest = w ∧ f = x := by
      have h := List.append_inj' hsplit rfl
      simpa using h
    obtain ⟨rfl, rfl⟩ := hrest
    cases hdrop : (f :: rest).dropLast with
    | nil =>
        rw [hdrop] at hw
        simp [hne] at hw
    | cons z c =>
        rw [hdrop] at hw
        have hz : z = f := by
          have h := congrArg List.head? hw
          simpa using h.symm
        subst hz
        exact ⟨z :: c, [(z :: rest).getLast (by simp)], c, hw, by simp⟩
  · have hsplit' : rest ++ [f] = (w ++ x :: v') ++ [y] := by
      simpa using hsplit
    have hrest := List.append_inj' hsplit' rfl
    refine ⟨(f :: w).dropLast, (f :: w).getLast (by simp) :: x :: v',
      v' ++ (f :: w).dropLast, ?_, by simp⟩
    have hcons : f :: rest = (f :: w) ++ x :: v' := by simp [hrest.1]
    rw [hcons]
    nth_rewrite 1 [hw]
    simp

/-! ## Handing a block out -/

section Tilings

variable {h : Heap} {range : Set ℕ} {others : List Block}

@[simp] theorem block_start (p : ℕ) : (h.block p).start = p := rfl

@[simp] theorem block_size (p : ℕ) : (h.block p).size = h.size p := rfl

theorem map_block_congr {h h' : Heap} {l : List ℕ}
    (hsame : ∀ y ∈ l, h'.size y = h.size y) :
    l.map h'.block = l.map h.block := by
  apply List.map_congr_left
  intro y hy
  simp [Heap.block, hsame y hy]

theorem tiles_front {u v : List ℕ} {x : ℕ}
    (htiles : Tiles range ((u ++ x :: v).map h.block ++ others)) :
    Tiles range (h.block x :: ((u ++ v).map h.block ++ others)) := by
  apply htiles.perm
  simp only [List.map_append, List.map_cons, List.append_assoc,
    List.cons_append]
  exact List.perm_middle

/-- The free block `x` is bigger than the request: its last `n` units are
handed out and the ring stays. -/
theorem takeUnits_tail {l : List ℕ} {prevp x n : ℕ} (hn : 0 < n)
    (hring : Circular h.ptr l) (hsorted : CycSorted l)
    (hstarts : l.head? = some prevp) (hx : x ∈ l) (hbig : n < h.size x)
    (htiles : Tiles range (l.map h.block ++ others)) :
    FreeRing (takeUnits h n prevp x).1 l ∧
      Tiles range (⟨(takeUnits h n prevp x).2, n⟩ ::
        (l.map (takeUnits h n prevp x).1.block ++ others)) ∧
      (takeUnits h n prevp x).1.size (takeUnits h n prevp x).2 = n ∧
      (∀ y, y ∉ l → y ≠ (takeUnits h n prevp x).2 →
        (takeUnits h n prevp x).1.size y = h.size y) ∧
      (Separate (l.map h.block) →
        Separate (l.map (takeUnits h n prevp x).1.block)) := by
  have hne : h.size x ≠ n := by omega
  set q := x + (h.size x - n) with hq
  have htake : takeUnits h n prevp x =
      (((h.setSize x (h.size x - n)).setSize q n).setFreep prevp, q) := by
    simp [takeUnits, hne, hq]
  rw [htake]
  simp only
  set h' := ((h.setSize x (h.size x - n)).setSize q n).setFreep prevp with hh'
  have hptr : ∀ y, h'.ptr y = h.ptr y := by simp [hh']
  have hxq : x ≠ q := by omega
  have hsize_x : h'.size x = h.size x - n := by simp [hh', hxq]
  have hsize_q : h'.size q = n := by simp [hh']
  have hsize : ∀ y, y ≠ x → y ≠ q → h'.size y = h.size y := by
    intro y hyx hyq
    simp [hh', hyx, hyq]
  obtain ⟨u, v, rfl⟩ := List.append_of_mem hx
  have hfront := tiles_front htiles
  have hxuv : x ∉ u ++ v := by
    have hperm : (u ++ x :: v).Perm (x :: (u ++ v)) := List.perm_middle
    exact (List.nodup_cons.mp (hperm.nodup_iff.mp hsorted.nodup)).1
  -- the new header lies inside the old block, away from all other blocks
  have hqfree : ∀ y ∈ u ++ v, y ≠ q := by
    intro y hy heq
    have hmem : h.block y ∈ (u ++ v).map h.block ++ others := by
      simp only [List.mem_append]
      exact Or.inl (List.mem_map_of_mem hy)
    have hapart := hfront.head_apart hmem
    have hpos := hfront.nonempty (h.block y) (List.mem_cons_of_mem _ hmem)
    simp only [Block.Apart, block_start, block_size] at hapart hpos
    omega
  refine ⟨⟨hstarts, hring.congr fun y _ => hptr y, hsorted⟩, ?_, hsize_q, ?_,
    fun hsep a ha b hb => ?_⟩
  · have hsplit : Tiles range (⟨x, (h.size x - n) + n⟩ ::
        ((u ++ v).map h.block ++ others)) := by
      have hsum : h.size x - n + n = h.size x := by omega
      rw [hsum]
      exact hfront
    have hcut := hsplit.split (by omega) hn
    have hblock : h'.block x = ⟨x, h.size x - n⟩ := by
      simp [Heap.block, hsize_x]
    have hmap : (u ++ v).map h'.block = (u ++ v).map h.block := by
      apply map_block_congr
      intro y hy
      exact hsize y (fun heq => hxuv (heq ▸ hy)) (hqfree y hy)
    rw [← hmap, ← hblock] at hcut
    apply hcut.perm
    refine (List.Perm.swap _ _ _).trans ?_
    apply List.Perm.cons
    simp only [List.map_append, List.map_cons, List.append_assoc,
      List.cons_append]
    exact List.perm_middle.symm
  · intro y hy hyq
    apply hsize y _ hyq
    rintro rfl
    exact hy (by simp)
  · obtain ⟨y, hy, rfl⟩ := List.mem_map.mp ha
    obtain ⟨z, hz, rfl⟩ := List.mem_map.mp hb
    have hzuv : z = x ∨ z ∈ u ++ v := by
      simp only [List.mem_append, List.mem_cons] at hz ⊢
      tauto
    have hyuv : y = x ∨ y ∈ u ++ v := by
      simp only [List.mem_append, List.mem_cons] at hy ⊢
      tauto
    simp only [block_start, block_size]
    rcases hyuv with rfl | hyuv
    · -- what is left of `x` ends at the new header
      rw [hsize_x]
      rcases hzuv with rfl | hzuv
      · omega
      · exact (hqfree z hzuv).symm
    · have hyx : y ≠ x := fun heq => hxuv (heq ▸ hyuv)
      rw [hsize y hyx (hqfree y hyuv)]
      exact hsep _ (List.mem_map_of_mem hy) _ (List.mem_map_of_mem hz)

/-- The free block `x` fits exactly: it leaves the ring. -/
theorem takeUnits_exact {t : List ℕ} {prevp x n : ℕ}
    (hring : Circular h.ptr (prevp :: x :: t))
    (hsorted : CycSorted (prevp :: x :: t)) (hfit : h.size x = n)
    (htiles : Tiles range ((prevp :: x :: t).map h.block ++ others)) :
    FreeRing (takeUnits h n prevp x).1 (prevp :: t) ∧
      Tiles range (⟨(takeUnits h n prevp x).2, n⟩ ::
        ((prevp :: t).map (takeUnits h n prevp x).1.block ++ others)) ∧
      (takeUnits h n prevp x).1.size (takeUnits h n prevp x).2 = n ∧
      (∀ y, (takeUnits h n prevp x).1.size y = h.size y) ∧
      (Separate ((prevp :: x :: t).map h.block) →
        Separate ((prevp :: t).map (takeUnits h n prevp x).1.block)) := by
  have htake : takeUnits h n prevp x =
      ((h.setPtr prevp (h.ptr x)).setFreep prevp, x) := by
    simp [takeUnits, hfit]
  rw [htake]
  simp only
  have hsize : ∀ y, ((h.setPtr prevp (h.ptr x)).setFreep prevp).size y =
      h.size y := by simp
  have hnodup := hsorted.nodup
  simp only [List.nodup_cons, List.mem_cons, not_or] at hnodup
  refine ⟨⟨by simp, ?_, hsorted.sublist (by simp)⟩, ?_, by simpa using hfit,
    hsize, fun hsep => ?_⟩
  · apply hring.remove_second
    · simp
    · intro y hy
      have hyp : y ≠ prevp := fun heq => hnodup.1.2 (heq ▸ hy)
      simp [hyp]
  · have hfront := tiles_front (u := [prevp]) htiles
    rw [map_block_congr fun y _ => hsize y, ← hfit]
    exact hfront
  · rw [map_block_congr fun y _ => hsize y]
    apply hsep.mono
    intro b hb
    simp only [List.map_cons, List.mem_cons] at hb ⊢
    tauto

/-- Either way the block handed out ends where `x` ended. -/
theorem takeUnits_end (prevp : ℕ) {x n : ℕ} (hbig : n ≤ h.size x) :
    (takeUnits h n prevp x).2 + n = x + h.size x := by
  unfold takeUnits
  split
  case isTrue hfit => simp [hfit]
  case isFalse hfit => simp; omega

theorem takeUnits_size {prevp x n : ℕ} :
    (takeUnits h n prevp x).1.size (takeUnits h n prevp x).2 = n := by
  unfold takeUnits
  split
  case isTrue hfit => simpa using hfit
  case isFalse hfit => simp

theorem nunits_pos (nbytes : ℕ) : 0 < nunits nbytes := Nat.succ_pos _

theorem initHeap_of_freep {h : Heap} (hfreep : h.freep ≠ 0) :
    initHeap h = h := by
  simp [initHeap, hfreep]

theorem kmallocReturns_iff {nbytes r : ℕ} {h h' : Heap} :
    KmallocReturns nbytes h h' r ↔
      Halts (searchTurn (nunits nbytes) (initHeap h))
        ((initHeap h).freep, (initHeap h).ptr (initHeap h).freep) (h', r) :=
  Iff.rfl

/-- The ring consists of one block that fits the request exactly. -/
def FitsWholeRing (h : Heap) (n : ℕ) : Prop :=
  h.ptr h.freep = h.freep ∧ h.size h.freep = n

/-- `kmalloc` on a free ring: it fails when no block is big enough, and else
cuts the block it hands out from the ring. -/
theorem kmalloc_spec {l : List ℕ} {nbytes : ℕ} (hring : FreeRing h l)
    (htiles : Tiles range (l.map h.block ++ others))
    (hfreep : h.freep ≠ 0) (hsafe : ¬ FitsWholeRing h (nunits nbytes)) :
    (KmallocReturns nbytes h h 0 ∧ ∀ y ∈ l, h.size y < nunits nbytes) ∨
      ∃ h' l' q, KmallocReturns nbytes h h' (q + 1) ∧ FreeRing h' l' ∧
        Tiles range (⟨q, nunits nbytes⟩ :: (l'.map h'.block ++ others)) ∧
        h'.size q = nunits nbytes ∧
        (∀ y, y ∉ l → y ≠ q → h'.size y = h.size y) ∧
        (Separate (l.map h.block) → Separate (l'.map h'.block)) ∧
        ∃ x ∈ l, nunits nbytes ≤ h.size x ∧
          q + nunits nbytes = x + h.size x := by
  have hn := nunits_pos nbytes
  simp only [kmallocReturns_iff, initHeap_of_freep hfreep]
  generalize nunits nbytes = n at hn hsafe ⊢
  obtain ⟨rest, rfl⟩ := hring.exists_cons
  rcases search_halts n hring with
    ⟨hsmall, hhalts⟩ | ⟨w, x, v, hsplit, _, hx, hhalts⟩
  · refine Or.inl ⟨hhalts, fun y hy => hsmall y ?_⟩
    simpa [or_comm] using hy
  right
  set prevp := (h.freep :: w).getLast (by simp) with hprevp
  -- a rotation of the ring that starts at the predecessor
  have hrot : ∃ l', Circular h.ptr l' ∧ CycSorted l' ∧
      Tiles range (l'.map h.block ++ others) ∧ l'.head? = some prevp ∧
      x ∈ l' ∧ (∀ y, y ∈ l' ↔ y ∈ h.freep :: rest) ∧
      (h.size x = n → ∃ t, l' = prevp :: x :: t) := by
    by_cases hrest : rest = []
    · subst hrest
      have hw : w = [] ∧ x = h.freep := by
        cases w with
        | nil =>
            simp only [List.nil_append, List.cons.injEq] at hsplit
            exact ⟨rfl, hsplit.1.symm⟩
        | cons y w => simp at hsplit
      obtain ⟨rfl, rfl⟩ := hw
      refine ⟨[h.freep], hring.ring, hring.sorted, htiles, by simp [hprevp],
        by simp, by simp, fun hfit => ?_⟩
      have hself : h.ptr h.freep = h.freep := by
        have hchain : Chain h.ptr [h.freep] h.freep := hring.ring
        simpa using hchain.1
      exact absurd ⟨hself, hfit⟩ hsafe
    · obtain ⟨a, b, t, hab, hba⟩ := rotate_to_found hsplit hrest
      have hringab : Circular h.ptr (a ++ b) := hab ▸ hring.ring
      have hsortedab : CycSorted (a ++ b) := hab ▸ hring.sorted
      rw [hab] at htiles ⊢
      refine ⟨b ++ a, hringab.rotate, hsortedab.rotate, ?_, by rw [hba]; rfl,
        by simp [hba], by simp [or_comm], fun _ => ⟨t, hba⟩⟩
      apply htiles.perm
      apply List.Perm.append_right
      exact List.perm_append_comm.map _
  obtain ⟨l', hring', hsorted', htiles', hstarts', hxl', hmem, hexact⟩ := hrot
  have hsep' : Separate ((h.freep :: rest).map h.block) →
      Separate (l'.map h.block) :=
    fun hsep => hsep.mono (List.map_subset _ fun y hy => (hmem y).mp hy)
  have hend := takeUnits_end prevp hx
  have hxl : x ∈ h.freep :: rest := (hmem x).mp hxl'
  by_cases hfit : h.size x = n
  · obtain ⟨t, rfl⟩ := hexact hfit
    obtain ⟨hfree, htiled, hsize, hsame, hsep⟩ :=
      takeUnits_exact hring' hsorted' hfit htiles'
    exact ⟨_, _, _, hhalts, hfree, htiled, hsize, fun y _ _ => hsame y,
      fun h => hsep (hsep' h), x, hxl, hx, hend⟩
  · obtain ⟨hfree, htiled, hsize, hsame, hsep⟩ :=
      takeUnits_tail hn hring' hsorted' hstarts' hxl' (by omega) htiles'
    refine ⟨_, _, _, hhalts, hfree, htiled, hsize, fun y hy hyq => ?_,
      fun h => hsep (hsep' h), x, hxl, hx, hend⟩
    exact hsame y (fun hmem' => hy ((hmem y).mp hmem')) hyq

/-! ## Taking a block back -/

theorem placeTurn_of_fits {bp p : ℕ} (hfits : FitsBehind bp p (h.ptr p)) :
    placeTurn h bp p = .stop p := by
  unfold placeTurn
  rcases hfits with hbetween | hwrap
  · rw [if_pos hbetween]
  · rw [if_pos hwrap, ite_self]

theorem placeTurn_of_not_fits {bp p : ℕ}
    (hfits : ¬ FitsBehind bp p (h.ptr p)) :
    placeTurn h bp p = .next (h.ptr p) := by
  have hcases := not_or.mp hfits
  unfold placeTurn
  rw [if_neg hcases.1, if_neg hcases.2]

theorem placeTurn_walk {bp : ℕ} (u : List ℕ) (x last : ℕ) (v : List ℕ)
    (hchain : Chain h.ptr (u ++ x :: v) last)
    (hu : ∀ y ∈ u, ¬ FitsBehind bp y (h.ptr y)) :
    Reaches (placeTurn h bp) (u.headD x) x := by
  induction u with
  | nil => exact Reaches.refl _
  | cons y u ih =>
      have hturn := placeTurn_of_not_fits (hu y (by simp))
      have hnext : h.ptr y = u.headD x := by
        have hhead := hchain.1
        cases u with
        | nil => simpa using hhead
        | cons z u => simpa using hhead
      rw [hnext] at hturn
      exact Reaches.head hturn
        (ih hchain.2 fun z hz => hu z (by simp [hz]))

/-- The search of `kfree` ends behind a block where `bp` belongs, and the
ring may be read from that block. -/
theorem place_halts {l : List ℕ} {bp : ℕ} (hring : FreeRing h l)
    (hbp : bp ∉ l) :
    ∃ p t, Halts (placeTurn h bp) h.freep p ∧ FitsBehind bp p (h.ptr p) ∧
      Circular h.ptr (p :: t) ∧ CycSorted (p :: t) ∧ (p :: t).Perm l := by
  obtain ⟨rest, rfl⟩ := hring.exists_cons
  obtain ⟨p₀, hp₀, hfits₀⟩ := hring.sorted.exists_fitsBehind hring.ring hbp
  rcases exists_first (fun y => FitsBehind bp y (h.ptr y)) (h.freep :: rest)
    with hnone | ⟨u, p, v, hsplit, hu, hfits⟩
  · exact absurd hfits₀ (hnone p₀ hp₀)
  have hchain : Chain h.ptr (u ++ p :: v) h.freep := hsplit ▸ hring.ring
  have hstart : u.headD p = h.freep := by
    have hhead := congrArg List.head? hsplit
    cases u with
    | nil => simpa using hhead.symm
    | cons y u => simpa using hhead.symm
  have hwalk := placeTurn_walk u p h.freep v hchain hu
  rw [hstart] at hwalk
  have hringup : Circular h.ptr (u ++ p :: v) := hsplit ▸ hring.ring
  have hsortedup : CycSorted (u ++ p :: v) := hsplit ▸ hring.sorted
  refine ⟨p, v ++ u, ?_, hfits, hringup.rotate, hsortedup.rotate, ?_⟩
  · rw [hwalk.halts_iff]
    exact Halts.of_stop (placeTurn_of_fits hfits)
  · rw [hsplit]
    rw [← List.cons_append]
    exact List.perm_append_comm

/-- Linking `bp` to the block above, joined to it when they touch: `t'` are
the nodes that follow `bp`. -/
theorem joinUpper_spec {bp p : ℕ} {t : List ℕ}
    (hring : Circular h.ptr (p :: t)) (hnodup : (p :: t).Nodup)
    (hbp : bp ∉ p :: t) (hsafe : ¬ (t = [] ∧ bp + h.size bp = p))
    (htiles : Tiles range (h.block bp :: ((p :: t).map h.block ++ others))) :
    ∃ t', t'.Sublist t ∧
      (joinUpper h bp p).ptr bp = t'.headD p ∧
      Chain (joinUpper h bp p).ptr t' p ∧
      Tiles range ((joinUpper h bp p).block bp ::
        ((p :: t').map (joinUpper h bp p).block ++ others)) ∧
      (∀ y, y ≠ bp → (joinUpper h bp p).size y = h.size y) ∧
      (Coalesced h (p :: t) → Coalesced (joinUpper h bp p) (bp :: t')) := by
  have hchain : Chain h.ptr (p :: t) p := hring
  have hnext : h.ptr p = t.headD p := hchain.1
  by_cases htouch : bp + h.size bp = h.ptr p
  · cases t with
    | nil =>
        rw [hnext] at htouch
        exact absurd ⟨rfl, htouch⟩ hsafe
    | cons q t' =>
        have hpq : h.ptr p = q := by simpa using hnext
        have hjoin : joinUpper h bp p =
            (h.setSize bp (h.size bp + h.size q)).setPtr bp (h.ptr q) := by
          simp [joinUpper, htouch, hpq]
        rw [hjoin]
        have hq : h.ptr q = t'.headD p := hchain.2.1
        have hsize : ∀ y, y ≠ bp →
            ((h.setSize bp (h.size bp + h.size q)).setPtr bp (h.ptr q)).size y =
              h.size y := by
          intro y hy
          simp [hy]
        refine ⟨t', by simp, by simp [hq], ?_, ?_, hsize, fun happart x hx => ?_⟩
        · apply chain_congr _ hchain.2.2
          intro y hy
          have hyb : y ≠ bp := fun heq => hbp (by simp [← heq, hy])
          simp [hyb]
        · -- `q` starts where `bp` ends: the two become one block
          have hperm : (h.block bp :: ((p :: q :: t').map h.block ++ others)).Perm
              (⟨bp, h.size bp⟩ :: ⟨bp + h.size bp, h.size q⟩ ::
                ((p :: t').map h.block ++ others)) := by
            rw [htouch, hpq]
            apply List.Perm.cons
            exact List.Perm.swap _ _ _
          have hjoined := (htiles.perm hperm).join
          rw [map_block_congr (h := h) fun y hy =>
            hsize y (fun heq => hbp (by
              rw [← heq]
              rcases List.mem_cons.mp hy with rfl | hy
              · simp
              · simp [hy]))]
          simpa [Heap.block] using hjoined
        · rcases List.mem_cons.mp hx with rfl | hx
          · -- the joined block ends where `q` ended
            have hqnext := happart q (by simp)
            simp only [Heap.setPtr_ptr, Heap.setPtr_size, Heap.setSize_size,
              if_pos]
            omega
          · have hxb : x ≠ bp := fun heq => hbp (by simp [← heq, hx])
            simpa [hxb] using happart x (by simp [hx])
  · have hjoin : joinUpper h bp p = h.setPtr bp (h.ptr p) := by
      simp [joinUpper, htouch]
    rw [hjoin]
    refine ⟨t, List.Sublist.refl t, by simp [hnext], ?_, ?_, by simp,
      fun happart x hx => ?_⟩
    · apply chain_congr _ hchain.2
      intro y hy
      have hyb : y ≠ bp := fun heq => hbp (by simp [← heq, hy])
      simp [hyb]
    · rw [map_block_congr (h := h) fun y _ => h.setPtr_size bp _ y]
      simpa [Heap.block] using htiles
    · rcases List.mem_cons.mp hx with rfl | hx
      · simpa using htouch
      · have hxb : x ≠ bp := fun heq => hbp (by simp [← heq, hx])
        simpa [hxb] using happart x (by simp [hx])

/-- Linking `p` to `bp`, joined to it when they touch. -/
theorem joinLower_spec {bp p : ℕ} {t : List ℕ} (hnodup : (p :: t).Nodup)
    (hbp : bp ∉ p :: t) (hptr : h.ptr bp = t.headD p)
    (hchain : Chain h.ptr t p)
    (htiles : Tiles range (h.block bp :: ((p :: t).map h.block ++ others))) :
    ∃ t', (t' = t ∨ t' = bp :: t) ∧
      Circular (joinLower h bp p).ptr (p :: t') ∧
      Tiles range ((p :: t').map (joinLower h bp p).block ++ others) ∧
      (∀ y, y ≠ p → (joinLower h bp p).size y = h.size y) ∧
      (Coalesced h (bp :: t) → Coalesced (joinLower h bp p) (p :: t')) := by
  have hpt : p ∉ t := (List.nodup_cons.mp hnodup).1
  have hpb : bp ≠ p := fun heq => hbp (by simp [heq])
  by_cases htouch : p + h.size p = bp
  · have hjoin : joinLower h bp p =
        (h.setSize p (h.size p + h.size bp)).setPtr p (h.ptr bp) := by
      simp [joinLower, htouch]
    rw [hjoin]
    have hsize : ∀ y, y ≠ p →
        ((h.setSize p (h.size p + h.size bp)).setPtr p (h.ptr bp)).size y =
          h.size y := by
      intro y hy
      simp [hy]
    refine ⟨t, Or.inl rfl, ⟨by simp [hptr], ?_⟩, ?_, hsize,
      fun happart x hx => ?_⟩
    · apply chain_congr _ hchain
      intro y hy
      have hyp : y ≠ p := fun heq => hpt (heq ▸ hy)
      simp [hyp]
    · have hperm : (h.block bp :: ((p :: t).map h.block ++ others)).Perm
          (⟨p, h.size p⟩ :: ⟨p + h.size p, h.size bp⟩ ::
            (t.map h.block ++ others)) := by
        rw [htouch]
        exact List.Perm.swap _ _ _
      have hjoined := (htiles.perm hperm).join
      have hmap : t.map
          ((h.setSize p (h.size p + h.size bp)).setPtr p (h.ptr bp)).block =
            t.map h.block := by
        apply map_block_congr
        intro y hy
        exact hsize y fun heq => hpt (heq ▸ hy)
      rw [List.map_cons, hmap]
      simpa [Heap.block] using hjoined
    · rcases List.mem_cons.mp hx with rfl | hx
      · -- the joined block ends where `bp` ended
        have hbpnext := happart bp (by simp)
        simp only [Heap.setPtr_ptr, Heap.setPtr_size, Heap.setSize_size,
          if_pos]
        omega
      · have hxp : x ≠ p := fun heq => hpt (heq ▸ hx)
        simpa [hxp] using happart x (by simp [hx])
  · have hjoin : joinLower h bp p = h.setPtr p bp := by
      simp [joinLower, htouch]
    rw [hjoin]
    refine ⟨bp :: t, Or.inr rfl, ⟨by simp, ?_, ?_⟩, ?_, by simp,
      fun happart x hx => ?_⟩
    · simp [hpb, hptr]
    · apply chain_congr _ hchain
      intro y hy
      have hyp : y ≠ p := fun heq => hpt (heq ▸ hy)
      simp [hyp]
    · rw [map_block_congr (h := h) fun y _ => h.setPtr_size p _ y]
      apply htiles.perm
      exact List.Perm.swap _ _ _
    · rcases List.mem_cons.mp hx with rfl | hx
      · simpa using htouch
      · have hxp : x ≠ p := by
          rcases List.mem_cons.mp hx with rfl | hx
          · exact hpb
          · exact fun heq => hpt (heq ▸ hx)
        simpa [hxp] using happart x hx

/-- The block being freed ends where the only block of the ring begins. -/
def EndsAtWholeRing (h : Heap) (bp : ℕ) : Prop :=
  h.ptr h.freep = h.freep ∧ bp + h.size bp = h.freep

/-- `kfree` on a free ring: the freed block joins the ring where it belongs
and is joined to the blocks it touches. -/
theorem kfree_spec {l : List ℕ} {bp : ℕ} (hring : FreeRing h l)
    (hbp : bp ∉ l) (hsafe : ¬ EndsAtWholeRing h bp)
    (htiles : Tiles range (h.block bp :: (l.map h.block ++ others))) :
    ∃ h' l', KfreeReturns (bp + 1) h h' ∧ FreeRing h' l' ∧
      Tiles range (l'.map h'.block ++ others) ∧
      (∀ y, y ∉ l → y ≠ bp → h'.size y = h.size y) ∧
      (Coalesced h l → Coalesced h' l') := by
  obtain ⟨p, t, hhalts, hfits, hringp, hsortedp, hperm⟩ := place_halts hring hbp
  have hbp' : bp ∉ p :: t := fun hmem => hbp (hperm.mem_iff.mp hmem)
  have hnodup := hsortedp.nodup
  have hchain : Chain h.ptr (p :: t) p := hringp
  have hsafe' : ¬ (t = [] ∧ bp + h.size bp = p) := by
    rintro ⟨rfl, htouch⟩
    obtain ⟨rest, rfl⟩ := hring.exists_cons
    have hone : h.freep :: rest = [p] := List.perm_singleton.mp hperm.symm
    simp only [List.cons.injEq] at hone
    obtain ⟨rfl, rfl⟩ := hone
    have hself : h.ptr h.freep = h.freep := by simpa using hchain.1
    exact hsafe ⟨hself, htouch⟩
  have htiles' : Tiles range (h.block bp :: ((p :: t).map h.block ++ others)) := by
    apply htiles.perm
    apply List.Perm.cons
    exact (hperm.symm.map h.block).append_right others
  obtain ⟨t₁, hsub₁, hptr₁, hchain₁, htiles₁, hsize₁, hcoal₁⟩ :=
    joinUpper_spec hringp hnodup hbp' hsafe' htiles'
  have hsub : (p :: t₁).Sublist (p :: t) := hsub₁.cons_cons p
  obtain ⟨t₂, ht₂, hring₂, htiles₂, hsize₂, hcoal₂⟩ :=
    joinLower_spec (hnodup.sublist hsub) (fun hmem => hbp' (hsub.subset hmem))
      hptr₁ hchain₁ htiles₁
  have hinserted : CycSorted (p :: bp :: t) := by
    apply hsortedp.insert_second
    rwa [← hchain.1]
  have hsorted₂ : CycSorted (p :: t₂) := by
    apply hinserted.sublist
    apply List.Sublist.cons_cons
    rcases ht₂ with rfl | rfl
    · exact hsub₁.cons bp
    · exact hsub₁.cons_cons bp
  refine ⟨putBehind h bp p, p :: t₂, ?_, ⟨rfl, ?_, hsorted₂⟩, ?_, ?_,
    fun hcoal => ?_⟩
  · obtain ⟨fuel, hrun⟩ := hhalts
    exact ⟨fuel, by simp [kfree, hrun]⟩
  · exact hring₂
  · exact htiles₂
  · intro y hy hyb
    have hyp : y ≠ p := fun heq => hy (hperm.mem_iff.mp (by simp [heq]))
    exact (hsize₂ y hyp).trans (hsize₁ y hyb)
  · exact hcoal₂ (hcoal₁ fun x hx => hcoal x (hperm.mem_iff.mp hx))

end Tilings

end Kmalloc
end Janus86
