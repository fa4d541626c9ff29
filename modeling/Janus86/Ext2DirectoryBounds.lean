import Janus86.Ext2Directory

/-!
# The walk over the records of a directory block

`ext2_rd_dir` goes from record to record by `rec_len` and stops where the next
record would start behind the block.  Where a record ends is not looked at.
`offsetTurn` is the walk as far as the offsets go, whatever becomes of the
names and the nodes.
-/

namespace Janus86
namespace Ext2

open StepMachine

def offsetTurn (g : Globals) (dirbuf : Buffer) (o : ℕ) : Turn ℕ Unit :=
  let recLen := le16 dirbuf (o + 4)
  if g.bs ≤ recLen + o then .stop ()
  else if 0 < recLen then .next (recLen + o)
  else .stop ()

/-- What a turn reads of `dirbuf`: the header and the name. -/
def bytesRead (dirbuf : Buffer) (o : ℕ) : Set ℕ :=
  Set.Ico o (o + 8 + (dirbuf (o + 6)).toNat)

def loadBlock (vol : Volume) (g : Globals) (block : ℕ) (buf : Buffer) :
    Buffer :=
  (readDiskSector vol.disk buf vol.drive
    ((sub32 (vol.lba + g.bs / 512 * block) 2 + superBlockOffset) % 2 ^ 32)
    (g.bs / 512)).getD buf

/-- The contents of `dirbuf` after the turns for the first `k` entries. -/
def dirbufAfter (vol : Volume) (g : Globals) (iblock : ℕ → ℕ)
    (dirbuf : Buffer) : ℕ → Buffer
  | 0 => dirbuf
  | k + 1 =>
      if iblock k = 0 then dirbufAfter vol g iblock dirbuf k
      else loadBlock vol g (iblock k) (dirbufAfter vol g iblock dirbuf k)

/-! ## The walk and the loop -/

section Loop

variable {vol : Volume} {g : Globals} {dirbuf : Buffer} {o : ℕ}
  {c : DirCursor}

/-- A turn fails, leaves the loop with a filled node, or takes another node. -/
theorem recordTurn_cases (s : ℕ × DirCursor) :
    (∃ e, recordTurn vol g dirbuf s = .stop (.error e)) ∨
    (∃ filled, fillNode vol g dirbuf s.1 s.2 = .ok filled ∧
      g.bs ≤ le16 dirbuf (s.1 + 4) + s.1 ∧
      recordTurn vol g dirbuf s = .stop (.ok filled)) ∨
    ∃ filled c', fillNode vol g dirbuf s.1 s.2 = .ok filled ∧
      nextRecordNode filled = .ok c' ∧ ¬g.bs ≤ le16 dirbuf (s.1 + 4) + s.1 ∧
      recordTurn vol g dirbuf s =
        if 0 < le16 dirbuf (s.1 + 4) then .next (le16 dirbuf (s.1 + 4) + s.1, c')
        else .stop (.ok c') := by
  unfold recordTurn
  cases hfill : fillNode vol g dirbuf s.1 s.2 with
  | error e => exact Or.inl ⟨e, rfl⟩
  | ok filled =>
      dsimp only
      by_cases hout : g.bs ≤ le16 dirbuf (s.1 + 4) + s.1
      · rw [if_pos hout]
        exact Or.inr (Or.inl ⟨filled, rfl, hout, rfl⟩)
      · rw [if_neg hout]
        cases hnext : nextRecordNode filled with
        | error e => exact Or.inl ⟨e, rfl⟩
        | ok c' => exact Or.inr (Or.inr ⟨filled, c', rfl, hnext, hout, rfl⟩)

theorem offsetTurn_of_pass (hpass : ¬g.bs ≤ le16 dirbuf (o + 4) + o)
    (hpos : 0 < le16 dirbuf (o + 4)) :
    offsetTurn g dirbuf o = .next (le16 dirbuf (o + 4) + o) := by
  unfold offsetTurn
  dsimp only
  rw [if_neg hpass, if_pos hpos]

theorem recordTurn_eq_next {s s' : ℕ × DirCursor}
    (hturn : recordTurn vol g dirbuf s = .next s') :
    offsetTurn g dirbuf s.1 = .next s'.1 := by
  rcases recordTurn_cases s with ⟨e, hstop⟩ | ⟨filled, _, _, hstop⟩ |
    ⟨filled, c', _, _, hpass, hgoes⟩
  · rw [hstop] at hturn
    cases hturn
  · rw [hstop] at hturn
    cases hturn
  · rw [hgoes] at hturn
    by_cases hpos : 0 < le16 dirbuf (s.1 + 4)
    · rw [if_pos hpos] at hturn
      cases hturn
      exact offsetTurn_of_pass hpass hpos
    · rw [if_neg hpos] at hturn
      cases hturn

theorem reaches_offset {s s' : ℕ × DirCursor}
    (hreach : Reaches (recordTurn vol g dirbuf) s s') :
    Reaches (offsetTurn g dirbuf) s.1 s'.1 := by
  induction hreach with
  | refl => exact Reaches.refl _
  | tail _ hturn ih =>
      exact ih.trans (Reaches.head (recordTurn_eq_next hturn) (Reaches.refl _))

/-- A turn depends on no other byte of `dirbuf`. -/
theorem recordTurn_congr {dirbuf' : Buffer}
    (hsame : ∀ i ∈ bytesRead dirbuf o, dirbuf' i = dirbuf i) :
    recordTurn vol g dirbuf' (o, c) = recordTurn vol g dirbuf (o, c) := by
  have hbyte : ∀ i, o ≤ i → i < o + 8 + (dirbuf (o + 6)).toNat →
      dirbuf' i = dirbuf i := fun i hle hlt => hsame i ⟨hle, hlt⟩
  have hlen : dirbuf' (o + 6) = dirbuf (o + 6) := hbyte _ (by omega) (by omega)
  have hname : recordName dirbuf' o = recordName dirbuf o := by
    unfold recordName
    rw [hlen]
    apply List.map_congr_left
    intro j hj
    rw [List.mem_range] at hj
    exact hbyte _ (by omega) (by omega)
  have hinode : le32 dirbuf' o = le32 dirbuf o :=
    le32_congr fun i _ _ => hbyte i (by omega) (by omega)
  have hrec : le16 dirbuf' (o + 4) = le16 dirbuf (o + 4) :=
    le16_congr fun i _ _ => hbyte i (by omega) (by omega)
  have htype : dirbuf' (o + 7) = dirbuf (o + 7) := hbyte _ (by omega) (by omega)
  unfold recordTurn fillNode
  rw [hname, hinode, hrec, htype]

theorem offsetTurn_eq_next {o' : ℕ} (hturn : offsetTurn g dirbuf o = .next o') :
    0 < le16 dirbuf (o + 4) ∧ o' = le16 dirbuf (o + 4) + o ∧ o' < g.bs := by
  unfold offsetTurn at hturn
  dsimp only at hturn
  by_cases hout : g.bs ≤ le16 dirbuf (o + 4) + o
  · rw [if_pos hout] at hturn
    cases hturn
  · rw [if_neg hout] at hturn
    by_cases hpos : 0 < le16 dirbuf (o + 4)
    · rw [if_pos hpos, Turn.next.injEq] at hturn
      exact ⟨hpos, hturn.symm, by omega⟩
    · rw [if_neg hpos] at hturn
      cases hturn

theorem recordTurn_lt {s s' : ℕ × DirCursor}
    (hturn : recordTurn vol g dirbuf s = .next s') :
    g.bs - s'.1 < g.bs - s.1 := by
  obtain ⟨hpos, heq, hlt⟩ := offsetTurn_eq_next (recordTurn_eq_next hturn)
  omega

/-- The loop is left, and with the result that `readRecords` gives. -/
theorem readRecords_halts (vol : Volume) (g : Globals) (dirbuf : Buffer)
    (c : DirCursor) :
    Halts (recordTurn vol g dirbuf) (0, c) (readRecords vol g dirbuf c) := by
  have hturn : ∀ s s' : ℕ × DirCursor,
      recordTurn vol g dirbuf s = .next s' → g.bs - s'.1 < g.bs - s.1 :=
    fun s s' => recordTurn_lt
  obtain ⟨result, hhalts⟩ : ∃ result,
      Halts (recordTurn vol g dirbuf) (0, c) result :=
    exists_halts_of_measure (fun s => g.bs - s.1) trivial
      fun s s' _ hnext => ⟨trivial, hturn s s' hnext⟩
  have hrun := hhalts.runFuel_of_measure (fun s => g.bs - s.1) hturn
    (g.bs + 1) (Nat.lt_succ_of_le (Nat.sub_le g.bs 0))
  unfold readRecords
  rw [hrun]
  exact hhalts

theorem readBlock_ok {block : ℕ} {buf buf' : Buffer}
    (hok : readBlock vol vol.drive g block buf = .ok buf') :
    buf' = loadBlock vol g block buf := by
  unfold readBlock ext2RdBlock at hok
  unfold loadBlock
  split at hok
  · next hnone =>
      rw [hnone]
      cases hok
      rfl
  · next hsome =>
      rw [hsome]
      split at hok
      · cases hok
        rfl
      · cases hok

theorem dirbufAfter_of_foldlM {iblock : ℕ → ℕ} {k : ℕ}
    {s : Buffer × DirCursor}
    (hrun : (List.range k).foldlM
      (fun s k => readDirBlock vol g (iblock k) s) (dirbuf, c) = .ok s) :
    s.1 = dirbufAfter vol g iblock dirbuf k := by
  induction k generalizing s with
  | zero =>
      cases hrun
      rfl
  | succ k ih =>
      obtain ⟨before, hbefore, hafter⟩ := StepMachine.foldlM_range_succ hrun
      have hbuf := ih hbefore
      unfold readDirBlock at hafter
      by_cases hzero : iblock k = 0
      · rw [if_pos hzero] at hafter
        cases hafter
        rw [dirbufAfter, if_pos hzero, hbuf]
      · rw [if_neg hzero] at hafter
        obtain ⟨buf, hload, hafter⟩ := bind_eq_ok_iff.mp hafter
        obtain ⟨c', _, hafter⟩ := bind_eq_ok_iff.mp hafter
        cases hafter
        rw [dirbufAfter, if_neg hzero, readBlock_ok hload, hbuf]

end Loop

/-! ## The records on the walk -/

/-- A turn reads inside the block, and takes an element of `intab1`. -/
structure TurnInside (g : Globals) (dirbuf : Buffer) (o : ℕ) : Prop where
  read_lt : ∀ i ∈ bytesRead dirbuf o, i < g.bs
  divisor_ne : g.inodesPerGroup ≠ 0
  index_nonneg : 0 ≤ getIndex g (le32 dirbuf o)
  index_le : getIndex g (le32 dirbuf o) ≤ 3

/-- The loop over the records of a block is left, and its turns read inside
the block. -/
structure WalksInside (vol : Volume) (g : Globals) (dirbuf : Buffer) :
    Prop where
  ends : ∀ c, ∃ result, Halts (recordTurn vol g dirbuf) (0, c) result
  inside : ∀ o, Reaches (offsetTurn g dirbuf) 0 o → TurnInside g dirbuf o

/-- A record that ends in the block, with an inode number that is none of the
last of a group.  A number from `2 ^ 31` on in its group is taken for a
negative one. -/
structure RecordSound (g : Globals) (dirbuf : Buffer) (o : ℕ) : Prop where
  fits : o + 8 + (dirbuf (o + 6)).toNat ≤ g.bs
  group_ne : g.inodesPerGroup ≠ 0
  slot_ne : le32 dirbuf o % g.inodesPerGroup ≠ 0
  slot_small : le32 dirbuf o % g.inodesPerGroup < 2 ^ 31 ∨
    le32 dirbuf o % g.inodesPerGroup % 4 = 1

/-- The records from an offset on are sound, each `rec_len` leading to the next
one, up to the first that is the last of the block or has length 0. -/
inductive Intact (g : Globals) (dirbuf : Buffer) : ℕ → Prop
  | last {o : ℕ} (sound : RecordSound g dirbuf o)
      (stops : le16 dirbuf (o + 4) = 0 ∨ g.bs ≤ le16 dirbuf (o + 4) + o) :
      Intact g dirbuf o
  | next {o : ℕ} (sound : RecordSound g dirbuf o)
      (rest : Intact g dirbuf (le16 dirbuf (o + 4) + o)) : Intact g dirbuf o

section Records

variable {vol : Volume} {g : Globals} {dirbuf : Buffer} {o : ℕ}

theorem getIndex_inRange_iff {n : ℕ} (hne : g.inodesPerGroup ≠ 0) :
    (0 ≤ getIndex g n ∧ getIndex g n ≤ 3) ↔
      n % g.inodesPerGroup ≠ 0 ∧ (n % g.inodesPerGroup < 2 ^ 31 ∨
        n % g.inodesPerGroup % 4 = 1) := by
  have hlt : n % g.inodesPerGroup < 2 ^ 32 :=
    lt_trans (Nat.mod_lt n (Nat.pos_of_ne_zero hne)) (le32_lt g.super 40)
  unfold getIndex
  generalize n % g.inodesPerGroup = slot at hlt
  rw [Int.tmod_eq_emod]
  rcases lt_or_ge slot (2 ^ 31) with hsmall | hlarge
  · rw [toInt32_of_lt hsmall]
    split <;> omega
  · have hneg : toInt32 slot = (slot : ℤ) - 2 ^ 32 := by
      unfold toInt32
      rw [Int.bmod_def]
      omega
    rw [hneg]
    split <;> omega

theorem bytesRead_lt_iff :
    (∀ i ∈ bytesRead dirbuf o, i < g.bs) ↔
      o + 8 + (dirbuf (o + 6)).toNat ≤ g.bs := by
  constructor
  · intro hread
    have hlast := hread (o + 7 + (dirbuf (o + 6)).toNat) ⟨by omega, by omega⟩
    omega
  · intro hle i hi
    exact lt_of_lt_of_le hi.2 hle

theorem turnInside_iff : TurnInside g dirbuf o ↔ RecordSound g dirbuf o := by
  constructor
  · intro hinside
    have hslot := (getIndex_inRange_iff hinside.divisor_ne).mp
      ⟨hinside.index_nonneg, hinside.index_le⟩
    exact ⟨bytesRead_lt_iff.mp hinside.read_lt, hinside.divisor_ne, hslot.1,
      hslot.2⟩
  · intro hsound
    have hindex := (getIndex_inRange_iff hsound.group_ne).mpr
      ⟨hsound.slot_ne, hsound.slot_small⟩
    exact ⟨bytesRead_lt_iff.mpr hsound.fits, hsound.group_ne, hindex.1,
      hindex.2⟩

theorem Intact.sound (hintact : Intact g dirbuf o) : RecordSound g dirbuf o := by
  cases hintact with
  | last hsound _ => exact hsound
  | next hsound _ => exact hsound

theorem Intact.after (hintact : Intact g dirbuf o) {o' : ℕ}
    (hturn : offsetTurn g dirbuf o = .next o') : Intact g dirbuf o' := by
  obtain ⟨hpos, rfl, hlt⟩ := offsetTurn_eq_next hturn
  cases hintact with
  | last _ hstops => omega
  | next _ hrest => exact hrest

theorem Intact.of_reaches (hintact : Intact g dirbuf o) {o' : ℕ}
    (hreach : Reaches (offsetTurn g dirbuf) o o') : Intact g dirbuf o' := by
  induction hreach with
  | refl => exact hintact
  | tail _ hturn ih => exact ih.after hturn

theorem intact_of_reached
    (hsound : ∀ o', Reaches (offsetTurn g dirbuf) o o' →
      RecordSound g dirbuf o') : Intact g dirbuf o := by
  induction hleft : g.bs - o using Nat.strong_induction_on generalizing o with
  | _ left ih =>
      have hfirst := hsound o (Reaches.refl o)
      by_cases hstops : le16 dirbuf (o + 4) = 0 ∨ g.bs ≤ le16 dirbuf (o + 4) + o
      · exact .last hfirst hstops
      · push Not at hstops
        have hturn : offsetTurn g dirbuf o = .next (le16 dirbuf (o + 4) + o) :=
          offsetTurn_of_pass (by omega) (by omega)
        refine .next hfirst (ih _ (by omega) ?_ rfl)
        intro o' hreach
        exact hsound o' (Reaches.head hturn hreach)

theorem walksInside_iff_intact :
    WalksInside vol g dirbuf ↔ Intact g dirbuf 0 := by
  constructor
  · intro hwalk
    apply intact_of_reached
    intro o hreach
    exact turnInside_iff.mp (hwalk.inside o hreach)
  · intro hintact
    constructor
    · intro c
      exact ⟨_, readRecords_halts vol g dirbuf c⟩
    · intro o hreach
      exact turnInside_iff.mpr (hintact.of_reaches hreach).sound

end Records

/-! ## All blocks of a directory -/

/-- A call of `ext2_rd_dir`; `dirbuf` is what the array holds at the entry. -/
structure DirCall where
  vol : Volume
  g : Globals
  iblock : ℕ → ℕ
  dirbuf : Buffer
  blockSize : g.bs ≤ 4096

def DirCall.loaded (call : DirCall) (k : ℕ) : Buffer :=
  dirbufAfter call.vol call.g call.iblock call.dirbuf (k + 1)

def DirCall.StaysInside (call : DirCall) : Prop :=
  ∀ k < 12, call.iblock k ≠ 0 → WalksInside call.vol call.g (call.loaded k)

/-- The loops over the records always end; they read inside the blocks, and
index `intab1` inside its bounds, exactly when all records on their ways are
sound. -/
theorem DirCall.staysInside_iff_intact (call : DirCall) :
    call.StaysInside ↔
      ∀ k < 12, call.iblock k ≠ 0 → Intact call.g (call.loaded k) 0 := by
  unfold DirCall.StaysInside
  simp only [walksInside_iff_intact]

/-- The block is filled up to four bytes by one record, so a second header
starts four bytes in front of its end. -/
def shortOfEnd : DirCall where
  vol :=
    { disk :=
        { readable := fun _ _ => true
          byte := fun _ _ o =>
            if o = 0 then 1 else if o = 4 then 0xFC else if o = 5 then 3 else 0 }
      drive := 0
      lba := 0 }
  g := twoGroups
  iblock := fun k => if k = 0 then 5 else 0
  dirbuf := fun _ => 0
  blockSize := by decide

theorem header_read_behind_block : ¬ shortOfEnd.StaysInside := by
  intro hinside
  have hwalk := hinside 0 (by decide) (by decide)
  have hreach : Reaches (offsetTurn shortOfEnd.g (shortOfEnd.loaded 0)) 0 1020 :=
    Reaches.head (by decide) (Reaches.refl 1020)
  have hsound := turnInside_iff.mp (hwalk.inside 1020 hreach)
  have hfits := hsound.fits
  have hbs : shortOfEnd.g.bs = 1024 := rfl
  omega

end Ext2
end Janus86
