import Janus86.Ext2DirectoryBounds
import Janus86.Fat32Names
import Janus86.ListedNodes

/-!
# What an ext2 directory puts into its nodes

`ext2_rd_dir` fills a node from a record and then takes the next node, unless the
record is the last one of its block: the node behind it is the one that the next
block begins with.  So a record stays in the listing when it is not the last one
of its block, or when its block is the last one; and the node at the end of the
listing was filled unless the last block ends with a record of length 0, or there
is no block.
-/

namespace Janus86
namespace Ext2

open StepMachine

/-- `ext2_rd_dir` as far as the list goes. -/
def listDir (vol : Volume) (g : Globals) (iblock : ℕ → ℕ) (dirbuf indbuf : Buffer)
    (c : ListCursor) : Except Fault ListCursor := do
  let c ← ext2RdDir vol g iblock dirbuf { toListCursor := c, indbuf := indbuf }
  pure c.toListCursor

/-- The record has no name, or a type in the table. -/
def RecordNamed (dirbuf : Buffer) (o : ℕ) : Prop :=
  cString (recordName dirbuf o) ≠ [] →
    (dirbuf (o + 7)).toNat < fileTypeNames.length

/-- The records behind which another node was taken. -/
def KeptNamed (g : Globals) (dirbuf : Buffer) (o : ℕ) : Prop :=
  ∀ o', Reaches (offsetTurn g dirbuf) o o' → le16 dirbuf (o' + 4) + o' < g.bs →
    RecordNamed dirbuf o'

/-- The walk over a block comes to its end, with such a record. -/
def EndNamed (g : Globals) (dirbuf : Buffer) (o : ℕ) : Prop :=
  ∃ o', Reaches (offsetTurn g dirbuf) o o' ∧ g.bs ≤ le16 dirbuf (o' + 4) + o' ∧
    RecordNamed dirbuf o'

/-- Among the first `k` blocks the last one that is read ends as it should. -/
def LastNamed (g : Globals) (iblock : ℕ → ℕ) (buf : ℕ → Buffer) (k : ℕ) : Prop :=
  ∃ i < k, iblock i ≠ 0 ∧ (∀ j, i < j → j < k → iblock j = 0) ∧ EndNamed g (buf i) 0

/-- The records that stay in the listing of a directory; `buf k` is what `dirbuf` holds
for the `k`-th block. -/
structure DirectoryNamed (g : Globals) (iblock : ℕ → ℕ) (buf : ℕ → Buffer) (n : ℕ) :
    Prop where
  kept : ∀ k < n, iblock k ≠ 0 → KeptNamed g (buf k) 0
  last : LastNamed g iblock buf n

variable {vol : Volume} {g : Globals} {Old : List UInt8 → Prop}

/-! ## One record -/

structure OverDir (Old : List UInt8 → Prop) (m c : DirCursor) : Prop where
  list : OverList Old c.toListCursor m.toListCursor
  indbuf : c.indbuf = m.indbuf

/-- What `fillNode` leaves. -/
structure Filled (dirbuf : Buffer) (o : ℕ) (c c' : DirCursor) : Prop where
  done : c'.done = c.done
  fresh : c'.fresh = c.fresh
  ended : 0 ∈ c'.temp.filename
  named : Named c'.temp ↔ RecordNamed dirbuf o

theorem fillNode_filled {dirbuf : Buffer} {o : ℕ} {c c' : DirCursor}
    (hfill : fillNode vol g dirbuf o c = .ok c') : Filled dirbuf o c c' := by
  unfold fillNode at hfill
  dsimp only at hfill
  split at hfill
  · cases hfill
  · obtain ⟨node, hset, hrest⟩ := bind_eq_ok_iff.mp hfill
    obtain ⟨⟨indbuf, at'⟩, _, hrest⟩ := bind_eq_ok_iff.mp hrest
    cases hrest
    obtain ⟨_, rfl⟩ := setName_eq_ok_iff.mp hset
    refine ⟨rfl, rfl, by simp, ?_⟩
    unfold Named RecordNamed FsProperties.name
    dsimp only
    rw [cString_append_zero, Fat32.cString_escapeName]
    have hempty : ∀ name : List UInt8, escapeName name = [] ↔ name = [] := by
      intro name
      cases name with
      | nil => exact iff_of_true rfl rfl
      | cons c name =>
          refine iff_of_false ?_ (List.cons_ne_nil c name)
          unfold escapeName
          rw [List.flatMap_cons]
          split <;> simp
    rw [ne_eq, hempty]

theorem fillNode_simulates (dirbuf : Buffer) (o : ℕ) {m c : DirCursor}
    (hover : OverDir Old m c) :
    Simulates (OverDir Old) (fillNode vol g dirbuf o m) (fillNode vol g dirbuf o c) := by
  intro m' hm
  unfold fillNode at hm ⊢
  dsimp only at hm ⊢
  split at hm
  · cases hm
  · next hfits =>
      obtain ⟨mark, hset, hrest⟩ := bind_eq_ok_iff.mp hm
      obtain ⟨⟨indbuf, at'⟩, hread, hrest⟩ := bind_eq_ok_iff.mp hrest
      cases hrest
      obtain ⟨hlen, rfl⟩ := setName_eq_ok_iff.mp hset
      have hset' := (@setName_eq_ok_iff c.temp _
        (escapeName (recordName dirbuf o))).mpr ⟨hlen, rfl⟩
      rw [if_neg hfits, hset', ok_bind, hover.indbuf, hread, ok_bind]
      refine ⟨_, rfl, ⟨⟨hover.list.done, ⟨?_, fun _ => rfl, fun h => ?_⟩,
        hover.list.fresh, hover.list.old, hover.list.empty⟩, rfl⟩⟩
      · exact hover.list.temp.written_setName _
      · exact absurd h (List.ne_nil_of_mem (a := 0) (by simp))

theorem nextRecordNode_simulates {m c : DirCursor} (hover : OverDir Old m c) :
    Simulates (OverDir Old) (nextRecordNode m) (nextRecordNode c) := by
  intro m' hm
  obtain ⟨list, hnext, hrest⟩ := bind_eq_ok_iff.mp hm
  cases hrest
  obtain ⟨list', hnext', hlist⟩ := hover.list.nextNode hnext
  refine ⟨{ c with toListCursor := list' }, ?_, hlist, hover.indbuf⟩
  unfold nextRecordNode
  rw [hnext']
  rfl

theorem recordTurn_simulates (dirbuf : Buffer) {s t : ℕ × DirCursor}
    (ho : t.1 = s.1) (hover : OverDir Old s.2 t.2) :
    TurnSimulates (fun s t => t.1 = s.1 ∧ OverDir Old s.2 t.2) (OverDir Old)
      (recordTurn vol g dirbuf s) (recordTurn vol g dirbuf t) := by
  have hfill := @fillNode_simulates vol g Old dirbuf s.1 s.2 t.2 hover
  unfold recordTurn
  rw [ho]
  cases hm : fillNode vol g dirbuf s.1 s.2 with
  | error e => exact .fail
  | ok m =>
      obtain ⟨c, hc, hover'⟩ := hfill m hm
      rw [hc]
      dsimp only
      by_cases hout : g.bs ≤ le16 dirbuf (s.1 + 4) + s.1
      · rw [if_pos hout, if_pos hout]
        exact .stop hover'
      · rw [if_neg hout, if_neg hout]
        cases hnext : nextRecordNode m with
        | error e => exact .fail
        | ok m' =>
            obtain ⟨c', hc', hover''⟩ := nextRecordNode_simulates hover' m' hnext
            rw [hc']
            dsimp only
            split
            · exact .next ⟨rfl, hover''⟩
            · exact .stop hover''

theorem readRecords_simulates (dirbuf : Buffer) {m c : DirCursor}
    (hover : OverDir Old m c) :
    Simulates (OverDir Old) (readRecords vol g dirbuf m) (readRecords vol g dirbuf c) := by
  unfold readRecords
  apply Simulates.runFuel (S := fun (s t : ℕ × DirCursor) => t.1 = s.1 ∧ OverDir Old s.2 t.2)
  · intro s t hsame
    exact recordTurn_simulates dirbuf hsame.1 hsame.2
  · exact ⟨rfl, hover⟩

theorem readDirBlock_simulates (block : ℕ) {s t : Buffer × DirCursor}
    (hbuf : t.1 = s.1) (hover : OverDir Old s.2 t.2) :
    Simulates (fun s t => t.1 = s.1 ∧ OverDir Old s.2 t.2)
      (readDirBlock vol g block s) (readDirBlock vol g block t) := by
  unfold readDirBlock
  by_cases hzero : block = 0
  · rw [if_pos hzero, if_pos hzero]
    exact Simulates.ok ⟨hbuf, hover⟩
  · rw [if_neg hzero, if_neg hzero, hbuf]
    refine Simulates.bind (R := fun a b => a = b) (fun dirbuf h => ⟨dirbuf, h, rfl⟩) ?_
    intro dirbuf dirbuf' hsame
    subst hsame
    exact (readRecords_simulates dirbuf hover).bind fun _ _ h => Simulates.ok ⟨rfl, h⟩

theorem listDir_simulates (iblock : ℕ → ℕ) (dirbuf indbuf : Buffer) {m c : ListCursor}
    (hover : OverList Old c m) :
    Simulates (fun m c => OverList Old c m) (listDir vol g iblock dirbuf indbuf m)
      (listDir vol g iblock dirbuf indbuf c) := by
  have hstart : OverDir Old { toListCursor := m, indbuf := indbuf }
      { toListCursor := c, indbuf := indbuf } := ⟨hover, rfl⟩
  unfold listDir ext2RdDir
  refine Simulates.bind (R := OverDir Old) ?_ fun _ _ h => Simulates.ok h.list
  refine Simulates.bind (R := fun s t => t.1 = s.1 ∧ OverDir Old s.2 t.2) ?_
    fun _ _ h => Simulates.ok h.2
  exact Simulates.foldlM (fun k _ s t h => readDirBlock_simulates (iblock k) h.1 h.2)
    ⟨rfl, hstart⟩

/-! ## The records of a block -/

variable {dirbuf : Buffer} {o : ℕ}

theorem reaches_of_last
    (hlast : g.bs ≤ le16 dirbuf (o + 4) + o ∨ le16 dirbuf (o + 4) = 0) {o' : ℕ} :
    Reaches (offsetTurn g dirbuf) o o' ↔ o' = o := by
  constructor
  · intro hreach
    rcases Relation.ReflTransGen.cases_head hreach with hsame | ⟨next, hturn, _⟩
    · exact hsame.symm
    · obtain ⟨hpos, rfl, hlt⟩ := offsetTurn_eq_next hturn
      omega
  · rintro rfl
    exact Reaches.refl _

theorem reaches_of_next (hpass : ¬g.bs ≤ le16 dirbuf (o + 4) + o)
    (hpos : 0 < le16 dirbuf (o + 4)) {o' : ℕ} :
    Reaches (offsetTurn g dirbuf) o o' ↔
      o' = o ∨ Reaches (offsetTurn g dirbuf) (le16 dirbuf (o + 4) + o) o' := by
  constructor
  · intro hreach
    rcases Relation.ReflTransGen.cases_head hreach with hsame | ⟨next, hturn, hrest⟩
    · exact Or.inl hsame.symm
    · obtain ⟨_, rfl, _⟩ := offsetTurn_eq_next hturn
      exact Or.inr hrest
  · rintro (rfl | hrest)
    · exact Reaches.refl _
    · exact Reaches.head (offsetTurn_of_pass hpass hpos) hrest

theorem keptNamed_of_out (hout : g.bs ≤ le16 dirbuf (o + 4) + o) :
    KeptNamed g dirbuf o := by
  intro o' hreach hkept
  rw [reaches_of_last (Or.inl hout)] at hreach
  subst hreach
  omega

theorem keptNamed_of_zero (hpass : ¬g.bs ≤ le16 dirbuf (o + 4) + o)
    (hzero : le16 dirbuf (o + 4) = 0) : KeptNamed g dirbuf o ↔ RecordNamed dirbuf o := by
  unfold KeptNamed
  simp only [reaches_of_last (Or.inr hzero), forall_eq]
  exact imp_iff_right (Nat.not_le.mp hpass)

theorem keptNamed_of_next (hpass : ¬g.bs ≤ le16 dirbuf (o + 4) + o)
    (hpos : 0 < le16 dirbuf (o + 4)) :
    KeptNamed g dirbuf o ↔
      RecordNamed dirbuf o ∧ KeptNamed g dirbuf (le16 dirbuf (o + 4) + o) := by
  unfold KeptNamed
  simp only [reaches_of_next hpass hpos, or_imp, forall_and, forall_eq]
  rw [imp_iff_right (Nat.not_le.mp hpass)]

theorem endNamed_of_out (hout : g.bs ≤ le16 dirbuf (o + 4) + o) :
    EndNamed g dirbuf o ↔ RecordNamed dirbuf o := by
  unfold EndNamed
  simp only [reaches_of_last (Or.inl hout), exists_eq_left]
  exact and_iff_right hout

theorem not_endNamed_of_zero (hpass : ¬g.bs ≤ le16 dirbuf (o + 4) + o)
    (hzero : le16 dirbuf (o + 4) = 0) : ¬EndNamed g dirbuf o := by
  rintro ⟨o', hreach, hout, _⟩
  rw [reaches_of_last (Or.inr hzero)] at hreach
  subst hreach
  exact hpass hout

theorem endNamed_of_next (hpass : ¬g.bs ≤ le16 dirbuf (o + 4) + o)
    (hpos : 0 < le16 dirbuf (o + 4)) :
    EndNamed g dirbuf o ↔ EndNamed g dirbuf (le16 dirbuf (o + 4) + o) := by
  constructor
  · rintro ⟨o', hreach, hout, hnamed⟩
    rw [reaches_of_next hpass hpos] at hreach
    rcases hreach with rfl | hrest
    · exact absurd hout hpass
    · exact ⟨o', hrest, hout, hnamed⟩
  · rintro ⟨o', hreach, hend⟩
    exact ⟨o', (reaches_of_next hpass hpos).mpr (Or.inr hreach), hend⟩

/-- What the walk over a block from an offset on adds to a list on empty nodes. -/
structure BlockMarked (g : Globals) (dirbuf : Buffer) (o : ℕ) (m m' : DirCursor) :
    Prop where
  empty : ∀ block ∈ m'.fresh, block = blank
  ended : (∀ node ∈ m.done, 0 ∈ node.filename) → ∀ node ∈ m'.done, 0 ∈ node.filename
  kept : (∀ node ∈ m'.done, Named node) ↔
    (∀ node ∈ m.done, Named node) ∧ KeptNamed g dirbuf o
  last : (0 ∈ m'.temp.filename ∧ Named m'.temp) ↔ EndNamed g dirbuf o

/-- A record behind which another node was taken. -/
structure Kept (dirbuf : Buffer) (o : ℕ) (m m' : DirCursor) : Prop where
  empty : ∀ block ∈ m'.fresh, block = blank
  ended : (∀ node ∈ m.done, 0 ∈ node.filename) → ∀ node ∈ m'.done, 0 ∈ node.filename
  kept : (∀ node ∈ m'.done, Named node) ↔
    (∀ node ∈ m.done, Named node) ∧ RecordNamed dirbuf o
  unnamed : 0 ∉ m'.temp.filename

theorem Filled.kept {m mark m' : DirCursor} (hfilled : Filled dirbuf o m mark)
    (hempty : ∀ block ∈ m.fresh, block = blank)
    (hnext : nextRecordNode mark = .ok m') : Kept dirbuf o m m' := by
  obtain ⟨list, hnode, hrest⟩ := bind_eq_ok_iff.mp hnext
  cases hrest
  rw [← hfilled.fresh] at hempty
  obtain ⟨rest, hfresh, rfl⟩ := nextNode_blank hempty hnode
  rw [hfresh] at hempty
  constructor
  · exact (List.forall_mem_cons.mp hempty).2
  · intro hended node hmem
    rcases List.mem_append.mp hmem with hdone | hlast
    · exact hended node (hfilled.done ▸ hdone)
    · rw [List.mem_singleton.mp hlast]
      exact hfilled.ended
  · rw [List.forall_mem_append, hfilled.done, List.forall_mem_singleton, hfilled.named]
  · exact List.not_mem_nil

theorem Filled.blockMarked {m mark : DirCursor} (hfilled : Filled dirbuf o m mark)
    (hempty : ∀ block ∈ m.fresh, block = blank)
    (hout : g.bs ≤ le16 dirbuf (o + 4) + o) : BlockMarked g dirbuf o m mark where
  empty := hfilled.fresh ▸ hempty
  ended := fun hended => hfilled.done ▸ hended
  kept := by rw [hfilled.done, and_iff_left (keptNamed_of_out hout)]
  last := by rw [endNamed_of_out hout, ← hfilled.named, and_iff_right hfilled.ended]

theorem Kept.blockMarked {m m' : DirCursor} (hkept : Kept dirbuf o m m')
    (hpass : ¬g.bs ≤ le16 dirbuf (o + 4) + o) (hzero : le16 dirbuf (o + 4) = 0) :
    BlockMarked g dirbuf o m m' where
  empty := hkept.empty
  ended := hkept.ended
  kept := by rw [hkept.kept, keptNamed_of_zero hpass hzero]
  last := iff_of_false (fun h => hkept.unnamed h.1) (not_endNamed_of_zero hpass hzero)

theorem Kept.then {m m' m'' : DirCursor} (hkept : Kept dirbuf o m m')
    (hpass : ¬g.bs ≤ le16 dirbuf (o + 4) + o) (hpos : 0 < le16 dirbuf (o + 4))
    (hrest : BlockMarked g dirbuf (le16 dirbuf (o + 4) + o) m' m'') :
    BlockMarked g dirbuf o m m'' where
  empty := hrest.empty
  ended := fun hended => hrest.ended (hkept.ended hended)
  kept := by rw [hrest.kept, hkept.kept, keptNamed_of_next hpass hpos, and_assoc]
  last := by rw [hrest.last, endNamed_of_next hpass hpos]

theorem walk_marked {fuel : ℕ} {m m' : DirCursor}
    (hrun : runFuel (recordTurn vol g dirbuf) fuel (o, m) = some (.ok m'))
    (hempty : ∀ block ∈ m.fresh, block = blank) : BlockMarked g dirbuf o m m' := by
  induction fuel generalizing o m with
  | zero => cases hrun
  | succ fuel ih =>
      rcases @recordTurn_cases vol g dirbuf (o, m) with ⟨e, hturn⟩ |
        ⟨mark, hfill, hout, hturn⟩ | ⟨mark, m₁, hfill, hnext, hpass, hturn⟩
      · rw [runFuel_succ_of_stop hturn] at hrun
        cases hrun
      · rw [runFuel_succ_of_stop hturn] at hrun
        cases hrun
        exact (fillNode_filled hfill).blockMarked hempty hout
      · have hkept := (fillNode_filled hfill).kept hempty hnext
        by_cases hpos : 0 < le16 dirbuf (o + 4)
        · rw [if_pos hpos] at hturn
          rw [runFuel_succ_of_next hturn] at hrun
          exact hkept.then hpass hpos (ih hrun hkept.empty)
        · rw [if_neg hpos] at hturn
          rw [runFuel_succ_of_stop hturn] at hrun
          cases hrun
          exact hkept.blockMarked hpass (Nat.eq_zero_of_not_pos hpos)

theorem readRecords_marked {m m' : DirCursor}
    (hrun : readRecords vol g dirbuf m = .ok m')
    (hempty : ∀ block ∈ m.fresh, block = blank) : BlockMarked g dirbuf 0 m m' := by
  unfold readRecords at hrun
  cases hwalk : runFuel (recordTurn vol g dirbuf) (g.bs + 1) (0, m) with
  | none =>
      rw [hwalk] at hrun
      cases hrun
  | some result =>
      rw [hwalk] at hrun
      obtain rfl : result = .ok m' := hrun
      exact walk_marked hwalk hempty

/-! ## The blocks of a directory -/

variable {iblock : ℕ → ℕ} {buf : ℕ → Buffer} {k : ℕ}

theorem lastNamed_of_hole (hhole : iblock k = 0) :
    LastNamed g iblock buf (k + 1) ↔ LastNamed g iblock buf k := by
  constructor
  · rintro ⟨i, hi, hread, hholes, hend⟩
    have hlt : i < k := by
      rcases Nat.lt_succ_iff_lt_or_eq.mp hi with hlt | rfl
      · exact hlt
      · exact absurd hhole hread
    exact ⟨i, hlt, hread, fun j hij hj => hholes j hij (Nat.lt_succ_of_lt hj), hend⟩
  · rintro ⟨i, hi, hread, hholes, hend⟩
    refine ⟨i, Nat.lt_succ_of_lt hi, hread, fun j hij hj => ?_, hend⟩
    rcases Nat.lt_succ_iff_lt_or_eq.mp hj with hlt | rfl
    · exact hholes j hij hlt
    · exact hhole

theorem lastNamed_of_block (hread : iblock k ≠ 0) :
    LastNamed g iblock buf (k + 1) ↔ EndNamed g (buf k) 0 := by
  constructor
  · rintro ⟨i, hi, _, hholes, hend⟩
    rcases Nat.lt_succ_iff_lt_or_eq.mp hi with hlt | rfl
    · exact absurd (hholes k hlt k.lt_succ_self) hread
    · exact hend
  · intro hend
    exact ⟨k, k.lt_succ_self, hread, fun j hkj hj => absurd hj (by omega), hend⟩

/-- What the turns for the first `k` blocks leave of a list on empty nodes. -/
structure DirMarked (g : Globals) (iblock : ℕ → ℕ) (buf : ℕ → Buffer) (k : ℕ)
    (m : DirCursor) : Prop where
  empty : ∀ block ∈ m.fresh, block = blank
  ended : ∀ node ∈ m.done, 0 ∈ node.filename
  kept : (∀ node ∈ m.done, Named node) ↔
    ∀ i < k, iblock i ≠ 0 → KeptNamed g (buf i) 0
  last : (0 ∈ m.temp.filename ∧ Named m.temp) ↔ LastNamed g iblock buf k

theorem DirMarked.hole {m : DirCursor} (hmarked : DirMarked g iblock buf k m)
    (hhole : iblock k = 0) : DirMarked g iblock buf (k + 1) m where
  empty := hmarked.empty
  ended := hmarked.ended
  kept := by
    rw [hmarked.kept, Nat.forall_lt_succ_right]
    exact (and_iff_left fun hread => absurd hhole hread).symm
  last := by rw [hmarked.last, lastNamed_of_hole hhole]

theorem DirMarked.block {m m' : DirCursor} (hmarked : DirMarked g iblock buf k m)
    (hread : iblock k ≠ 0) (hblock : BlockMarked g (buf k) 0 m m') :
    DirMarked g iblock buf (k + 1) m' where
  empty := hblock.empty
  ended := hblock.ended hmarked.ended
  kept := by
    rw [hblock.kept, hmarked.kept, Nat.forall_lt_succ_right]
    exact and_congr_right fun _ => (imp_iff_right hread).symm
  last := by rw [hblock.last, lastNamed_of_block hread]

theorem foldlM_marked {dirbuf : Buffer} {m : DirCursor} {s : Buffer × DirCursor}
    (hstart : DirMarked g iblock (fun i => dirbufAfter vol g iblock dirbuf (i + 1)) 0 m)
    (hrun : (List.range k).foldlM (fun s k => readDirBlock vol g (iblock k) s)
      (dirbuf, m) = .ok s) :
    DirMarked g iblock (fun i => dirbufAfter vol g iblock dirbuf (i + 1)) k s.2 := by
  induction k generalizing s with
  | zero =>
      cases hrun
      exact hstart
  | succ k ih =>
      have hbuf := dirbufAfter_of_foldlM hrun
      obtain ⟨before, hbefore, hafter⟩ := StepMachine.foldlM_range_succ hrun
      have hmarked := ih hbefore
      unfold readDirBlock at hafter
      by_cases hhole : iblock k = 0
      · rw [if_pos hhole] at hafter
        cases hafter
        exact hmarked.hole hhole
      · rw [if_neg hhole] at hafter
        obtain ⟨dirbuf', _, hafter⟩ := bind_eq_ok_iff.mp hafter
        obtain ⟨m', hwalk, hafter⟩ := bind_eq_ok_iff.mp hafter
        cases hafter
        -- what the turn read is what is left in `dirbuf` behind it
        subst hbuf
        exact hmarked.block hhole (readRecords_marked hwalk hmarked.empty)

/-! ## The listing -/

theorem directoryNamed_iff : DirectoryNamed g iblock buf k ↔
    (∀ i < k, iblock i ≠ 0 → KeptNamed g (buf i) 0) ∧ LastNamed g iblock buf k :=
  ⟨fun h => ⟨h.kept, h.last⟩, fun h => ⟨h.1, h.2⟩⟩

theorem dirMarked_zero (n : ℕ) (indbuf : Buffer) :
    DirMarked g iblock buf 0 { toListCursor := emptyCursor n, indbuf := indbuf } where
  empty := fun _ h => List.eq_of_mem_replicate h
  ended := fun _ h => absurd h List.not_mem_nil
  kept := iff_of_true (fun _ h => absurd h List.not_mem_nil)
    fun i hi => absurd hi i.not_lt_zero
  last := iff_of_false (fun h => List.not_mem_nil h.1) fun ⟨i, hi, _⟩ => i.not_lt_zero hi

/-- An ext2 directory can be printed if all records that stay in its listing have
types in the table, and its last block does not end with a record of length 0. -/
theorem listDir_printable_iff {n : ℕ} {dirbuf indbuf : Buffer} {mark : ListCursor}
    (hmark : listDir vol g iblock dirbuf indbuf (emptyCursor n) = .ok mark) :
    ListsPrintable n (listDir vol g iblock dirbuf indbuf) ↔
      DirectoryNamed g iblock (fun k => dirbufAfter vol g iblock dirbuf (k + 1)) 12 := by
  obtain ⟨m, hdir, hrest⟩ := bind_eq_ok_iff.mp hmark
  obtain ⟨s, hfold, hlast⟩ := bind_eq_ok_iff.mp hdir
  cases hrest
  cases hlast
  have hmarked := foldlM_marked (dirMarked_zero n indbuf) hfold
  have hmarks : Marks n (listDir vol g iblock dirbuf indbuf) s.2.toListCursor :=
    ⟨hmark, fun Old c hover => listDir_simulates iblock dirbuf indbuf hover _ hmark,
      hmarked.ended⟩
  rw [listsPrintable_iff hmarks, directoryNamed_iff, hmarked.kept, hmarked.last]

end Ext2
end Janus86
