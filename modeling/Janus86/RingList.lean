import Mathlib.Tactic

/-!
# Circular lists in order

A circular singly linked list is given by its link function and by the list
of its nodes, read once around from any of them.  `Circular` says that the links
lead around that list; it does not depend on the node one starts from.

The nodes of a free list are moreover in increasing order up to one wrap:
`CycSorted` says that some rotation of the list is sorted.  The lemmas give
the edits of such a list: start it elsewhere, take a node out, put a node in
behind the one it belongs to.
-/

namespace Janus86
namespace RingList

variable {α : Type*}

/-- Every node of the list links to the one behind it, the last to `last`. -/
def Chain (next : α → α) : List α → α → Prop
  | [], _ => True
  | x :: rest, last => next x = rest.headD last ∧ Chain next rest last

/-- The links lead once around the list. -/
def Circular (next : α → α) : List α → Prop
  | [] => False
  | x :: rest => Chain next (x :: rest) x

/-- Some rotation of the list is strictly increasing. -/
def CycSorted [LT α] (l : List α) : Prop :=
  ∃ u v, l = u ++ v ∧ (v ++ u).Pairwise (· < ·)

/-- The place of `b` is behind the node `p` whose link is `q`: between the
two, or at the wrap, where `p` is the highest node and `q` the lowest. -/
def FitsBehind [LT α] [LE α] (b p q : α) : Prop :=
  (p < b ∧ b < q) ∨ (q ≤ p ∧ (p < b ∨ b < q))

section Links

variable {next next' : α → α}

@[simp] theorem chain_nil (last : α) : Chain next [] last := trivial

@[simp] theorem chain_cons (x last : α) (rest : List α) :
    Chain next (x :: rest) last ↔
      next x = rest.headD last ∧ Chain next rest last :=
  Iff.rfl

theorem chain_append (u v : List α) (last : α) :
    Chain next (u ++ v) last ↔
      Chain next u (v.headD last) ∧ Chain next v last := by
  induction u with
  | nil => simp
  | cons x u ih =>
      cases u with
      | nil => simp
      | cons y u =>
          simp only [List.cons_append, chain_cons, List.headD_cons] at ih ⊢
          rw [ih]
          tauto

theorem chain_congr {l : List α} {last : α}
    (hsame : ∀ x ∈ l, next' x = next x) (hchain : Chain next l last) :
    Chain next' l last := by
  induction l with
  | nil => trivial
  | cons x rest ih =>
      refine ⟨(hsame x (by simp)).trans hchain.1, ih ?_ hchain.2⟩
      intro y hy
      exact hsame y (by simp [hy])

theorem Circular.ne_nil {l : List α} (hring : Circular next l) : l ≠ [] := by
  rintro rfl
  exact hring

theorem Circular.rotate {u v : List α} (hring : Circular next (u ++ v)) :
    Circular next (v ++ u) := by
  cases u with
  | nil => simpa using hring
  | cons x u =>
      cases v with
      | nil => simpa using hring
      | cons y v =>
          have hchain : Chain next ((x :: u) ++ (y :: v)) x := hring
          rw [chain_append] at hchain
          change Chain next ((y :: v) ++ (x :: u)) y
          rw [chain_append]
          exact ⟨hchain.2, hchain.1⟩

theorem Circular.next_mem {l : List α} (hring : Circular next l) {x : α}
    (hx : x ∈ l) : next x ∈ l := by
  obtain ⟨u, v, rfl⟩ := List.append_of_mem hx
  have hrot : Circular next (x :: (v ++ u)) := by
    simpa using hring.rotate
  have hnext : next x = (v ++ u).headD x := hrot.1
  rw [hnext]
  cases hvu : v ++ u with
  | nil => simp
  | cons y rest =>
      have hy : y ∈ v ++ u := by simp [hvu]
      simp only [List.headD_cons, List.mem_append, List.mem_cons] at hy ⊢
      tauto

/-- The nodes of a ring are those the links lead to from its first node. -/
theorem Circular.mem_iff_iterate {x : α} {rest : List α}
    (hring : Circular next (x :: rest)) (b : α) :
    b ∈ x :: rest ↔ ∃ k, next^[k] x = b := by
  constructor
  · intro hb
    have hreach : ∀ (u : List α) (y last : α) (v : List α),
        Chain next (y :: (u ++ v)) last →
          ∃ k, next^[k] y = (y :: u).getLast (by simp) := by
      intro u
      induction u with
      | nil =>
          intro y last v _
          exact ⟨0, rfl⟩
      | cons z u ih =>
          intro y last v hchain
          obtain ⟨k, hk⟩ := ih z last v hchain.2
          have hstep : next y = z := hchain.1
          refine ⟨k + 1, ?_⟩
          rw [Function.iterate_succ_apply, hstep, hk]
          simp
    obtain ⟨u, v, huv⟩ := List.append_of_mem hb
    cases u with
    | nil =>
        simp only [List.nil_append, List.cons.injEq] at huv
        exact ⟨0, huv.1⟩
    | cons y u =>
        simp only [List.cons_append, List.cons.injEq] at huv
        obtain ⟨rfl, rfl⟩ := huv
        have hchain : Chain next (x :: ((u ++ [b]) ++ v)) x := by
          rw [List.append_assoc]
          exact hring
        obtain ⟨k, hk⟩ := hreach (u ++ [b]) x x v hchain
        exact ⟨k, by simpa using hk⟩
  · rintro ⟨k, rfl⟩
    induction k with
    | zero => simp
    | succ k ih =>
        rw [Function.iterate_succ_apply']
        exact hring.next_mem ih

theorem Circular.remove_second {p x : α} {t : List α}
    (hring : Circular next (p :: x :: t)) (hp : next' p = next x)
    (hsame : ∀ y ∈ t, next' y = next y) : Circular next' (p :: t) := by
  have hxt : Chain next (x :: t) p := hring.2
  refine ⟨?_, chain_congr hsame hxt.2⟩
  rw [hp, hxt.1]

theorem Circular.insert_second {p b : α} {t : List α}
    (hring : Circular next (p :: t)) (hp : next' p = b) (hb : next' b = next p)
    (hsame : ∀ y ∈ t, next' y = next y) : Circular next' (p :: b :: t) := by
  refine ⟨by simpa using hp, ?_, chain_congr hsame hring.2⟩
  rw [hb, hring.1]

theorem Circular.congr {l : List α} (hring : Circular next l)
    (hsame : ∀ x ∈ l, next' x = next x) : Circular next' l := by
  cases l with
  | nil => exact hring
  | cons x rest => exact chain_congr hsame hring

end Links

section Order

variable [LinearOrder α]

theorem CycSorted.sublist {l l' : List α} (hsorted : CycSorted l)
    (hsub : l'.Sublist l) : CycSorted l' := by
  obtain ⟨u, v, rfl, hpair⟩ := hsorted
  obtain ⟨u', v', rfl, hu, hv⟩ := List.sublist_append_iff.mp hsub
  exact ⟨u', v', rfl, hpair.sublist (hv.append hu)⟩

theorem CycSorted.rotate {u v : List α} (hsorted : CycSorted (u ++ v)) :
    CycSorted (v ++ u) := by
  obtain ⟨a, b, hab, hpair⟩ := hsorted
  rcases List.append_eq_append_iff.mp hab with ⟨c, rfl, rfl⟩ | ⟨c, rfl, rfl⟩
  · exact ⟨c, b ++ u, by simp, by simpa using hpair⟩
  · exact ⟨v ++ a, c, by simp, by simpa using hpair⟩

theorem CycSorted.nodup {l : List α} (hsorted : CycSorted l) : l.Nodup := by
  obtain ⟨u, v, rfl, hpair⟩ := hsorted
  have hnodup : (v ++ u).Nodup := hpair.imp ne_of_lt
  exact (List.perm_append_comm.nodup_iff).mp hnodup

/-- The two shapes of a sorted circular list read from `p`: either `p` is
the lowest node, or the nodes behind `p` come up to the wrap, and the wrap
leads to the lowest node. -/
theorem CycSorted.cases_head {p : α} {t : List α}
    (hsorted : CycSorted (p :: t)) :
    ∃ u v, t = u ++ v ∧ (v ++ p :: u).Pairwise (· < ·) := by
  obtain ⟨u, v, huv, hpair⟩ := hsorted
  cases u with
  | nil =>
      simp only [List.nil_append] at huv
      subst huv
      exact ⟨t, [], by simp, by simpa using hpair⟩
  | cons x u =>
      simp only [List.cons_append, List.cons.injEq] at huv
      obtain ⟨rfl, rfl⟩ := huv
      exact ⟨u, v, rfl, hpair⟩

/-- No node lies between a node and its link, and at the wrap all nodes lie
between the two. -/
theorem CycSorted.gap {p : α} {t : List α} (hsorted : CycSorted (p :: t)) :
    (p < t.headD p → ∀ x ∈ p :: t, x ≤ p ∨ t.headD p ≤ x) ∧
      (t.headD p ≤ p → ∀ x ∈ p :: t, t.headD p ≤ x ∧ x ≤ p) := by
  obtain ⟨u, v, rfl, hpair⟩ := hsorted.cases_head
  rw [List.pairwise_append, List.pairwise_cons] at hpair
  obtain ⟨hv, ⟨hpu, hu⟩, hvu⟩ := hpair
  have hvp : ∀ x ∈ v, x < p := fun x hx => hvu x hx p (by simp)
  cases u with
  | nil =>
      cases v with
      | nil => simp
      | cons q v =>
          rw [List.pairwise_cons] at hv
          have hqp : q < p := hvp q (by simp)
          simp only [List.nil_append, List.headD_cons]
          refine ⟨fun hlt => absurd hqp (not_lt_of_gt hlt), fun _ x hx => ?_⟩
          rcases List.mem_cons.mp hx with rfl | hx
          · exact ⟨hqp.le, le_rfl⟩
          · refine ⟨?_, (hvp x hx).le⟩
            rcases List.mem_cons.mp hx with rfl | hx
            · exact le_rfl
            · exact (hv.1 x hx).le
  | cons q u =>
      rw [List.pairwise_cons] at hu
      have hpq : p < q := hpu q (by simp)
      simp only [List.cons_append, List.headD_cons]
      refine ⟨fun _ x hx => ?_, fun hle => absurd hpq (not_lt_of_ge hle)⟩
      simp only [List.mem_cons, List.mem_append] at hx
      rcases hx with rfl | rfl | hx | hx
      · exact Or.inl le_rfl
      · exact Or.inr le_rfl
      · exact Or.inr (hu.1 x hx).le
      · exact Or.inl (hvp x hx).le

/-- Putting a new node in where it fits keeps the order. -/
theorem CycSorted.insert_second {p b : α} {t : List α}
    (hsorted : CycSorted (p :: t)) (hfits : FitsBehind b p (t.headD p)) :
    CycSorted (p :: b :: t) := by
  have hgap := hsorted.gap
  obtain ⟨u, v, rfl, hpair⟩ := hsorted.cases_head
  have hpair' := hpair
  rw [List.pairwise_append, List.pairwise_cons] at hpair'
  obtain ⟨hv, ⟨hpu, hu⟩, hvu⟩ := hpair'
  have hvp : ∀ x ∈ v, x < p := fun x hx => hvu x hx p (by simp)
  rcases hfits with ⟨hpb, hbq⟩ | ⟨hqp, hpb | hbq⟩
  · -- between `p` and its link, which then lies in the rising part `u`
    refine ⟨p :: b :: u, v, by simp, ?_⟩
    have hbu : ∀ x ∈ u, b < x := by
      intro x hx
      rcases hgap.1 (hpb.trans hbq) x (by simp [hx]) with hle | hle
      · exact absurd (hpu x hx) (not_lt_of_ge hle)
      · exact hbq.trans_le hle
    rw [List.pairwise_append, List.pairwise_cons, List.pairwise_cons]
    refine ⟨hv, ⟨?_, hbu, hu⟩, ?_⟩
    · intro x hx
      rcases List.mem_cons.mp hx with rfl | hx
      · exact hpb
      · exact hpu x hx
    · intro x hx y hy
      simp only [List.mem_cons] at hy
      rcases hy with rfl | rfl | hy
      · exact hvp x hx
      · exact (hvp x hx).trans hpb
      · exact (hvp x hx).trans (hpu y hy)
  · -- above all nodes
    have hnil : u = [] := by
      cases u with
      | nil => rfl
      | cons y u => exact absurd (hpu y (by simp)) (not_lt_of_ge hqp)
    subst hnil
    refine ⟨[p, b], v, by simp, ?_⟩
    rw [List.pairwise_append]
    refine ⟨hv, by simpa using hpb, ?_⟩
    intro x hx y hy
    simp only [List.mem_cons, List.not_mem_nil, or_false] at hy
    rcases hy with rfl | rfl
    · exact hvp x hx
    · exact (hvp x hx).trans hpb
  · -- below all nodes
    have hnil : u = [] := by
      cases u with
      | nil => rfl
      | cons y u => exact absurd (hpu y (by simp)) (not_lt_of_ge hqp)
    subst hnil
    have hlow : ∀ x ∈ p :: v, b < x := by
      intro x hx
      exact hbq.trans_le (hgap.2 hqp x (by simpa using hx)).1
    refine ⟨[p], b :: v, by simp, ?_⟩
    rw [List.cons_append, List.pairwise_cons]
    refine ⟨?_, hpair⟩
    intro x hx
    apply hlow
    simpa [or_comm] using hx

/-- A new node fits behind some node of the list. -/
theorem CycSorted.exists_fitsBehind {next : α → α} {l : List α}
    (hsorted : CycSorted l) (hring : Circular next l) {b : α} (hb : b ∉ l) :
    ∃ p ∈ l, FitsBehind b p (next p) := by
  obtain ⟨u, v, rfl, hpair⟩ := hsorted
  have hring' : Circular next (v ++ u) := hring.rotate
  have hmem : ∀ x, x ∈ u ++ v ↔ x ∈ v ++ u := by
    intro x
    simp [or_comm]
  rw [hmem] at hb
  simp only [hmem]
  revert hpair hring' hb
  generalize v ++ u = s
  intro hpair hb hring'
  cases s with
  | nil => exact hring'.elim
  | cons lo s =>
      -- climb from the lowest node as long as `b` lies above the next one
      have hclimb : ∀ (s : List α) (x : α),
          Chain next (x :: s) lo → (x :: s).Pairwise (· < ·) →
          lo ≤ x → x < b → b ∉ x :: s →
          ∃ p ∈ x :: s, FitsBehind b p (next p) := by
        intro s
        induction s with
        | nil =>
            intro x hchain _ hlo hxb _
            have hnext : next x = lo := by simpa using hchain.1
            exact ⟨x, by simp, Or.inr ⟨by rw [hnext]; exact hlo, Or.inl hxb⟩⟩
        | cons y s ih =>
            intro x hchain hpair hlo hxb hb
            have hnext : next x = y := by simpa using hchain.1
            rw [List.pairwise_cons] at hpair
            have hxy : x < y := hpair.1 y (by simp)
            rcases lt_trichotomy b y with hby | hby | hyb
            · exact ⟨x, by simp, Or.inl ⟨hxb, by rw [hnext]; exact hby⟩⟩
            · exact absurd (by simp [hby]) hb
            · obtain ⟨p, hp, hfits⟩ := ih y hchain.2 hpair.2
                (hlo.trans hxy.le) hyb (fun hmem => hb (by simp [hmem]))
              exact ⟨p, by simp [hp], hfits⟩
      rcases lt_trichotomy b lo with hlt | heq | hgt
      · -- below all nodes: the wrap is behind the highest one
        have hlast : ∃ p ∈ lo :: s, next p = lo := by
          have hget : (lo :: s).getLast (by simp) ∈ lo :: s :=
            List.getLast_mem _
          refine ⟨_, hget, ?_⟩
          have hdrop : lo :: s =
              (lo :: s).dropLast ++ [(lo :: s).getLast (by simp)] :=
            (List.dropLast_append_getLast _).symm
          have hchain : Chain next (lo :: s) lo := hring'
          rw [hdrop, chain_append] at hchain
          exact hchain.2.1
        obtain ⟨p, hp, hnext⟩ := hlast
        rw [List.pairwise_cons] at hpair
        refine ⟨p, hp, Or.inr ⟨?_, Or.inr (by rw [hnext]; exact hlt)⟩⟩
        rw [hnext]
        rcases List.mem_cons.mp hp with rfl | hp
        · exact le_rfl
        · exact (hpair.1 p hp).le
      · exact absurd (by simp [heq]) hb
      · exact hclimb s lo hring' hpair le_rfl hgt hb

end Order

end RingList
end Janus86
