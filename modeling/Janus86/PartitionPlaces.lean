import Janus86.PartitionScan
import Mathlib.Logic.Relation

/-!
# The links of the boot sectors

A signed boot sector with a type in its second slot links to another one; the chain from
an address on is what the links lead to.  Every chain comes to an end unless a boot
sector on it leads back to itself.  The slots of a drive are looked at one after the
other: those of the MBR first, and behind each extended slot those of the boot sector
with which its chain ends.  For a sector that cannot be read there are the slots of a
block that `kmalloc` has returned; the blocks are counted.
-/

namespace Janus86
namespace Partition

open ChainWalk Relation

/-! ## Links -/

/-- The signed boot sector at `a` links to `b`. -/
def Link (disk : Disk) (drive extlba a b : ℕ) : Prop :=
  ∃ bs, bootAt disk drive a = some bs ∧ bs.signature = mbrSignature ∧
    (bs.part 1).type ≠ 0 ∧ b = nextBoot bs extlba

def LeadsTo (disk : Disk) (drive extlba : ℕ) : ℕ → ℕ → Prop :=
  ReflTransGen (Link disk drive extlba)

/-- No boot sector that the links lead to leads back to itself. -/
def NoRound (disk : Disk) (drive extlba a : ℕ) : Prop :=
  ∀ x y, LeadsTo disk drive extlba a x → TransGen (Link disk drive extlba) x y →
    ataLba y ≠ ataLba x

/-- The boot sectors from an address on, up to one without a link. -/
inductive Chain (disk : Disk) (drive extlba : ℕ) : ℕ → List ℕ → Prop
  | last {a : ℕ} (hend : ∀ b, ¬Link disk drive extlba a b) :
      Chain disk drive extlba a [a]
  | link {a b : ℕ} {w : List ℕ} (hlink : Link disk drive extlba a b)
      (hrest : Chain disk drive extlba b w) : Chain disk drive extlba a (a :: w)

variable {disk : Disk} {drive extlba : ℕ}

theorem link_iff {a b : ℕ} : Link disk drive extlba a b ↔
    ¬BootStops disk drive a ∧ b = linkOf disk drive extlba a := by
  unfold Link BootStops linkOf
  cases bootAt disk drive a with
  | none => simp
  | some bs => simp [and_assoc]

theorem chain_iff {a : ℕ} {w : List ℕ} : Chain disk drive extlba a w ↔
    ∃ i, WalkStops disk drive extlba a i ∧ w = walk disk drive extlba a i := by
  constructor
  · intro hchain
    induction hchain with
    | @last a hend =>
        have hstop : BootStops disk drive a :=
          Classical.not_not.mp fun hpass => hend _ (link_iff.mpr ⟨hpass, rfl⟩)
        exact ⟨0, endsAt_zero_iff.mpr hstop, rfl⟩
    | link hlink _ ih =>
        obtain ⟨hpass, rfl⟩ := link_iff.mp hlink
        obtain ⟨i, hstops, rfl⟩ := ih
        exact ⟨i + 1, endsAt_succ_iff.mpr ⟨hpass, hstops⟩, rfl⟩
  · rintro ⟨i, hstops, rfl⟩
    induction i generalizing a with
    | zero =>
        exact .last fun b hlink =>
          (link_iff.mp hlink).1 (endsAt_zero_iff.mp hstops)
    | succ i ih =>
        obtain ⟨hpass, hrest⟩ := endsAt_succ_iff.mp hstops
        exact .link (link_iff.mpr ⟨hpass, rfl⟩) (ih hrest)

theorem Chain.unique {a : ℕ} {w w' : List ℕ} (hchain : Chain disk drive extlba a w)
    (hchain' : Chain disk drive extlba a w') : w = w' := by
  obtain ⟨i, hstops, rfl⟩ := chain_iff.mp hchain
  obtain ⟨j, hstops', rfl⟩ := chain_iff.mp hchain'
  rw [EndsAt.unique hstops hstops']

theorem Chain.mem_iff {a : ℕ} {w : List ℕ} (hchain : Chain disk drive extlba a w)
    {x : ℕ} : x ∈ w ↔ LeadsTo disk drive extlba a x := by
  induction hchain with
  | @last a hend =>
      rw [List.mem_singleton]
      constructor
      · rintro rfl
        exact .refl
      · intro hleads
        rcases hleads.cases_head with heq | ⟨b, hlink, _⟩
        · exact heq.symm
        · exact absurd hlink (hend b)
  | @link a b w hlink _ ih =>
      rw [List.mem_cons, ih]
      constructor
      · rintro (rfl | hleads)
        · exact .refl
        · exact .head hlink hleads
      · intro hleads
        rcases hleads.cases_head with heq | ⟨b', hlink', hrest⟩
        · exact Or.inl heq.symm
        · obtain rfl : b' = b :=
            (link_iff.mp hlink').2.trans (link_iff.mp hlink).2.symm
          exact Or.inr hrest

/-- Only so many sectors can be told apart, so that a walk without an end comes back to
one of them. -/
theorem exists_repeat (f : ℕ → ℕ) : ∃ i j, i < j ∧ ataLba (f i) = ataLba (f j) := by
  have hbound : ∀ n, ataLba (f n) < 2 ^ 28 := fun n => Nat.mod_lt _ (by norm_num)
  obtain ⟨i, j, hne, hsame⟩ := Finite.exists_ne_map_eq_of_infinite
    fun n => (⟨ataLba (f n), hbound n⟩ : Fin (2 ^ 28))
  have heq : ataLba (f i) = ataLba (f j) := congrArg Fin.val hsame
  rcases Nat.lt_or_gt_of_ne hne with hlt | hgt
  · exact ⟨i, j, hlt, heq⟩
  · exact ⟨j, i, hgt, heq.symm⟩

theorem exists_chain_of_noRound {a : ℕ} (hround : NoRound disk drive extlba a) :
    ∃ w, Chain disk drive extlba a w := by
  by_contra hnone
  have hpass : ∀ k, ¬BootStops disk drive ((linkOf disk drive extlba)^[k] a) := by
    intro k
    induction k using Nat.strong_induction_on with
    | _ k ih => exact fun hstop => hnone ⟨_, chain_iff.mpr ⟨k, ⟨hstop, ih⟩, rfl⟩⟩
  have hlink : ∀ k, Link disk drive extlba ((linkOf disk drive extlba)^[k] a)
      ((linkOf disk drive extlba)^[k + 1] a) := fun k =>
    link_iff.mpr ⟨hpass k, Function.iterate_succ_apply' _ _ _⟩
  have hleads : ∀ k, LeadsTo disk drive extlba a ((linkOf disk drive extlba)^[k] a) := by
    intro k
    induction k with
    | zero => exact .refl
    | succ k ih => exact .tail ih (hlink k)
  have hon : ∀ i n, TransGen (Link disk drive extlba)
      ((linkOf disk drive extlba)^[i] a) ((linkOf disk drive extlba)^[i + n + 1] a) := by
    intro i n
    induction n with
    | zero => exact .single (hlink i)
    | succ n ih => exact .tail ih (hlink (i + n + 1))
  obtain ⟨i, j, hlt, hsame⟩ := exists_repeat fun k => (linkOf disk drive extlba)^[k] a
  obtain ⟨n, rfl⟩ : ∃ n, j = i + n + 1 := ⟨j - i - 1, by omega⟩
  exact hround _ _ (hleads i) (hon i n) hsame.symm

theorem Chain.noRound {a : ℕ} {w : List ℕ} (hchain : Chain disk drive extlba a w) :
    NoRound disk drive extlba a := by
  have hrest : ∀ x, LeadsTo disk drive extlba a x → ∃ w, Chain disk drive extlba x w := by
    intro x hleads
    induction hleads with
    | refl => exact ⟨w, hchain⟩
    | tail _ hlink ih =>
        obtain ⟨w, hmid⟩ := ih
        cases hmid with
        | last hend => exact absurd hlink (hend _)
        | link hlink' htail =>
            obtain rfl := (link_iff.mp hlink).2.trans (link_iff.mp hlink').2.symm
            exact ⟨_, htail⟩
  intro x y hleads hround hsame
  obtain ⟨w, hx⟩ := hrest x hleads
  obtain ⟨b, hlink, hback⟩ := TransGen.head'_iff.mp hround
  cases hx with
  | last hend => exact hend b hlink
  | @link _ b' w' hlink' htail =>
      obtain rfl := (link_iff.mp hlink).2.trans (link_iff.mp hlink').2.symm
      obtain ⟨i, hstops, hw⟩ := chain_iff.mp (Chain.link hlink htail)
      have hnodup := hstops.nodup
      rw [← hw, List.map_cons, List.nodup_cons] at hnodup
      exact hnodup.1 (List.mem_map.mpr ⟨y, htail.mem_iff.mpr hback, hsame⟩)

/-! ## The slots that are looked at -/

/-- The boot sector, or what stands in the block for it if it cannot be read. -/
def sectorAt (disk : Disk) (drive lba : ℕ) (block : Buffer) : BootSector :=
  (bootAt disk drive lba).getD (staleSector block)

/-- A boot sector whose slots are looked at, and how many blocks of the heap have been used
by then. -/
structure Place where
  lba : ℕ
  sector : BootSector
  blocks : ℕ

def Place.slots (p : Place) : ℕ → Slot := p.sector.part

/-- The MBR, for which the next block is. -/
def mbrPlace (disk : Disk) (heap : ℕ → Buffer) (drive n : ℕ) : Place where
  lba := 0
  sector := sectorAt disk drive 0 (heap n)
  blocks := n + 1 +
    if (sectorAt disk drive 0 (heap n)).signature = mbrSignature then 4 else 0

/-- The last boot sector of a chain: each has taken a block, and one more for its record if
it is signed. -/
def Place.behind (p : Place) (disk : Disk) (heap : ℕ → Buffer) (drive : ℕ) (w : List ℕ) :
    Place :=
  let n := p.blocks + w.length + (w.filter (recorded disk drive)).length
  ⟨w.getLastD 0, sectorAt disk drive (w.getLastD 0) (heap (n - 1)), n⟩

/-- Slot `i` of a drive is looked at in a place: the first one in the MBR, and the next one
in the same place, or behind a chain in its last boot sector. -/
inductive Comes (disk : Disk) (heap : ℕ → Buffer) (drives : ℕ) : ℕ → ℕ → Place → Prop
  | first (hdrives : 0 < drives) : Comes disk heap drives 0 0 (mbrPlace disk heap 0 1)
  | skip {drive i : ℕ} {p : Place} (hcomes : Comes disk heap drives drive i p)
      (hi : i < 4) (hslot : isExtended (p.slots i).type = false) :
      Comes disk heap drives drive (i + 1) p
  | follow {drive i : ℕ} {p : Place} {w : List ℕ}
      (hcomes : Comes disk heap drives drive i p) (hi : i < 4)
      (hslot : isExtended (p.slots i).type = true)
      (hchain : Chain disk drive (p.slots i).startLba (p.slots i).startLba w) :
      Comes disk heap drives drive (i + 1) (p.behind disk heap drive w)
  | drive {drive : ℕ} {p : Place} (hcomes : Comes disk heap drives drive 4 p)
      (hdrive : drive + 1 < drives) :
      Comes disk heap drives (drive + 1) 0 (mbrPlace disk heap (drive + 1) p.blocks)

variable {heap : ℕ → Buffer} {drives : ℕ}

theorem Comes.slot_le {i : ℕ} {p : Place} (hcomes : Comes disk heap drives drive i p) :
    i ≤ 4 := by
  cases hcomes with
  | first => omega
  | skip _ hi => omega
  | follow _ hi => omega
  | drive => omega

theorem Comes.unique {i : ℕ} {p p' : Place} (hcomes : Comes disk heap drives drive i p)
    (hcomes' : Comes disk heap drives drive i p') : p = p' := by
  induction hcomes generalizing p' with
  | first _ =>
      cases hcomes'
      rfl
  | skip _ _ hslot ih =>
      cases hcomes' with
      | skip hcomes' _ _ => exact ih hcomes'
      | follow hcomes' _ hslot' _ =>
          obtain rfl := ih hcomes'
          rw [hslot] at hslot'
          cases hslot'
  | follow _ _ hslot hchain ih =>
      cases hcomes' with
      | skip hcomes' _ hslot' =>
          obtain rfl := ih hcomes'
          rw [hslot] at hslot'
          cases hslot'
      | follow hcomes' _ _ hchain' =>
          obtain rfl := ih hcomes'
          rw [hchain.unique hchain']
  | drive _ _ ih =>
      cases hcomes' with
      | drive hcomes' _ => rw [ih hcomes']

/-! ## The scan in a place -/

/-- The state of the scan in a place. -/
structure InPlace (heap : ℕ → Buffer) (p : Place) (s : PartState) : Prop where
  temp : s.temp = p.sector
  fresh : ∀ k, s.fresh k = heap (k + p.blocks)

theorem InPlace.slots {p : Place} {s : PartState} (hplace : InPlace heap p s) :
    s.temp.part = p.slots :=
  congrArg BootSector.part hplace.temp

theorem fresh_visitBoot (s : PartState) (lba : ℕ) :
    ∀ k, (visitBoot disk drive s lba).fresh k =
      s.fresh (k + 1 + ([lba].filter (recorded disk drive)).length) := by
  intro k
  unfold visitBoot
  rw [List.filter_singleton, recorded]
  cases bootAt disk drive lba with
  | none => rfl
  | some bs =>
      by_cases hsigned : bs.signature = mbrSignature
      · simp [hsigned, savePartProps, PartState.dropBlock]
      · simp [hsigned, beq_eq_false_iff_ne.mpr hsigned, PartState.dropBlock]

theorem fresh_walk (w : List ℕ) (s : PartState) :
    ∀ k, (w.foldl (visitBoot disk drive) s).fresh k =
      s.fresh (k + w.length + (w.filter (recorded disk drive)).length) := by
  induction w generalizing s with
  | nil => exact fun k => rfl
  | cons lba w ih =>
      intro k
      rw [List.foldl_cons, ih, fresh_visitBoot, ← List.singleton_append (l := w),
        List.filter_append, List.length_append, List.length_append, List.length_singleton]
      congr 1
      omega

theorem temp_visitBoot_eq (s : PartState) (lba : ℕ) :
    (visitBoot disk drive s lba).temp = sectorAt disk drive lba (s.fresh 0) := by
  unfold visitBoot sectorAt
  cases bootAt disk drive lba with
  | none => rfl
  | some bs =>
      dsimp only
      split <;> rfl

theorem InPlace.behind {p : Place} {s : PartState} (hplace : InPlace heap p s) {w : List ℕ}
    (hne : w ≠ []) :
    InPlace heap (p.behind disk heap drive w) (w.foldl (visitBoot disk drive) s) := by
  obtain ⟨front, last, rfl⟩ : ∃ front last, w = front ++ [last] :=
    ⟨_, _, (List.dropLast_append_getLast hne).symm⟩
  constructor
  · rw [List.foldl_append, List.foldl_cons, List.foldl_nil, temp_visitBoot_eq, fresh_walk,
      hplace.fresh]
    simp only [Place.behind, sectorAt, List.getLastD_concat]
    -- a sector that cannot be read gets no record, so that its block is the last one
    cases hread : bootAt disk drive last with
    | some bs => rfl
    | none =>
        have hskip : recorded disk drive last = false := by simp [recorded, hread]
        simp only [List.filter_append, List.filter_singleton, hskip, cond_false,
          List.append_nil, List.length_append, List.length_singleton, Option.getD_none]
        congr 2
        omega
  · intro k
    rw [fresh_walk, hplace.fresh]
    simp only [Place.behind]
    congr 1
    omega

theorem fresh_foldl_savePartProps (bs : BootSector) (is : List ℕ) (s : PartState) :
    ∀ k, (is.foldl (fun s i => savePartProps (bs.part i) 0 s) s).fresh k =
      s.fresh (k + is.length) := by
  induction is generalizing s with
  | nil => exact fun k => rfl
  | cons i is ih =>
      intro k
      rw [List.foldl_cons, ih, List.length_cons]
      exact congrArg s.fresh (Nat.add_assoc k is.length 1)

theorem bslist_foldl_savePartProps (bs : BootSector) (is : List ℕ) (s : PartState) :
    (is.foldl (fun s i => savePartProps (bs.part i) 0 s) s).bslist = s.bslist := by
  induction is generalizing s with
  | nil => rfl
  | cons i is ih => exact ih _

theorem readMbr_eq (s : PartState) : readMbr disk drive s =
    { s.dropBlock with bslist := sectorAt disk drive 0 (s.fresh 0) } := by
  unfold readMbr sectorAt bootAt
  cases readDiskSector disk (fun _ => 0) drive 0 1 <;> rfl

theorem inPlace_mbr {s : PartState} {n : ℕ} (hfresh : ∀ k, s.fresh k = heap (k + n)) :
    InPlace heap (mbrPlace disk heap drive n) (beforeExtended disk drive s) := by
  have hblock : s.fresh 0 = heap n := by rw [hfresh, Nat.zero_add]
  unfold beforeExtended traversePrimaryPartitions mbrPlace
  rw [readMbr_eq, hblock]
  dsimp only
  by_cases hsigned : (sectorAt disk drive 0 (heap n)).signature = mbrSignature
  · rw [if_pos hsigned, if_pos hsigned]
    refine ⟨by rw [bslist_foldl_savePartProps], fun k => ?_⟩
    have hdrop : ∀ j, ({ s.dropBlock with
        bslist := sectorAt disk drive 0 (heap n) } : PartState).fresh j =
          heap (j + 1 + n) := fun j => hfresh (j + 1)
    dsimp only
    rw [fresh_foldl_savePartProps, hdrop, List.length_range]
    congr 1
    omega
  · rw [if_neg hsigned, if_neg hsigned]
    refine ⟨rfl, fun k => (hfresh (k + 1)).trans ?_⟩
    congr 1
    dsimp only
    omega

end Partition
end Janus86
