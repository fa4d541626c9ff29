import Janus86.Ext2InodePlacement

/-!
# The listing of an ext2 directory

A block of a directory is tiled by records.  `ext2_rd_dir` fills a node from
each record and then fetches the next node, but on the way out of a block it
does not fetch one: the first record of the following block goes into the
node that the last record was put in.  Records that are not in use are
treated like the others.
-/

namespace Janus86
namespace Ext2

open StepMachine

/-- The bytes of a block. -/
def blockBytes (vol : Volume) (drive : ℕ) (g : Globals) (block : ℕ) : Buffer :=
  fun o => vol.disk.byte drive
    (ataLba (vol.lba + g.bs / 512 * block) + o / 512) (o % 512)

structure DirRecord where
  inode : ℕ
  recLen : ℕ
  fileType : ℕ
  name : List UInt8

def recordAt (block : Buffer) (o : ℕ) : DirRecord where
  inode := le32 block o
  recLen := le16 block (o + 4)
  fileType := (block (o + 7)).toNat
  name := recordName block o

def DirRecord.WellFormed (r : DirRecord) : Prop :=
  4 ∣ r.recLen ∧ 8 + r.name.length ≤ r.recLen

/-- The bytes of a block from an offset on are tiled by the records. -/
inductive Tiled (block : Buffer) (bs : ℕ) : ℕ → List DirRecord → Prop
  | last {o : ℕ} (form : (recordAt block o).WellFormed)
      (fills : o + (recordAt block o).recLen = bs) :
      Tiled block bs o [recordAt block o]
  | next {o : ℕ} {rs : List DirRecord} (form : (recordAt block o).WellFormed)
      (rest : Tiled block bs (o + (recordAt block o).recLen) rs) :
      Tiled block bs o (recordAt block o :: rs)

/-- The numbers of the data blocks among the direct ones. -/
def dataBlocks (iblock : ℕ → ℕ) : List ℕ :=
  ((List.range 12).map iblock).filter (· ≠ 0)

/-- `i_size` of an inode, in the table that the descriptor of its group
points to. -/
def sizeOfInode (vol : Volume) (g : Globals) (n : ℕ) : ℕ :=
  let descr := 32 * inodeGroup g n
  let table := le32 (vol.sector (vol.lba +
    g.bs / 512 * (g.firstDataBlock + 1) + descr / 512)) (descr % 512 + 8)
  le32 (vol.sector (vol.lba + g.bs / 512 * table + inodeSlot g n / 4))
    (128 * (inodeSlot g n % 4) + 4)

/-- `i_size` at the place where the driver looks for an inode. -/
def sizeFound (vol : Volume) (g : Globals) (n : ℕ) : ℕ :=
  match inodeToLba g n with
  | .error _ => 0
  | .ok lba => le32 (vol.sector (vol.lba + lba + superBlockOffset))
      (128 * (getIndex g n).toNat + 4)

/-- What a listing has to say about a record. -/
def DirRecord.entry (vol : Volume) (g : Globals) (r : DirRecord) : Entry where
  name := escapeName r.name
  start := r.inode
  size := sizeOfInode vol g r.inode
  fileType := r.fileType

/-- The node filled from a record. -/
def DirRecord.shown (vol : Volume) (g : Globals) (r : DirRecord) : Entry where
  name := cString (escapeName r.name)
  start := r.inode
  size := sizeFound vol g r.inode
  fileType := r.fileType

/-- A directory on a drive that can be read: its blocks are tiled by the
records, block by block. -/
structure Directory (vol : Volume) (g : Globals) (iblock : ℕ → ℕ)
    (records : List (List DirRecord)) : Prop where
  readable : ∀ sector, vol.disk.readable vol.drive sector = true
  blockSize : g.bs = 1024 ∨ g.bs = 2048 ∨ g.bs = 4096
  inodes_pos : 0 < g.inodesPerGroup
  inodes_le : g.inodesPerGroup ≤ 8 * g.bs
  tiled : List.Forall₂
    (fun block rs => Tiled (blockBytes vol vol.drive g block) g.bs 0 rs)
    (dataBlocks iblock) records

/-- The directories that the driver lists. -/
structure Listable (vol : Volume) (g : Globals) (room : ℕ)
    (records : List (List DirRecord)) : Prop where
  oneBlock : records.length = 1
  placed : ∀ r ∈ records.flatten, ¬ g.inodesPerGroup ∣ r.inode
  sizes : ∀ r ∈ records.flatten,
    sizeFound vol g r.inode = sizeOfInode vol g r.inode
  names : ∀ r ∈ records.flatten,
    (escapeName r.name).length < 255 ∧ ∀ c ∈ r.name, c ≠ 0
  nodes : records.flatten.length ≤ room + 1

/-! ## Reads of a drive without errors -/

theorem ext2RdBlock_of_readable {vol : Volume} {drive : ℕ} (buf : Buffer)
    (lba sectors capacity : ℕ) (hread : ∀ sector, vol.disk.readable drive sector = true)
    (hfits : 512 * sectors ≤ capacity) :
    ∃ buf', ext2RdBlock vol drive lba sectors capacity buf = .ok buf' ∧
      ∀ o < 512 * sectors, buf' o = vol.disk.byte drive
        (ataLba (lba + superBlockOffset) + o / 512) (o % 512) := by
  have hlba : ataLba ((lba + superBlockOffset) % 2 ^ 32) =
      ataLba (lba + superBlockOffset) :=
    Nat.mod_mod_of_dvd _ (by decide)
  unfold ext2RdBlock
  rw [readDiskSector_of_readable buf fun i _ => hread _]
  simp only [if_pos hfits, hlba]
  refine ⟨_, rfl, ?_⟩
  intro o ho
  simp only [if_pos ho]

theorem readBlock_of_readable {vol : Volume} {drive : ℕ} {g : Globals}
    (buf : Buffer) (block : ℕ)
    (hread : ∀ sector, vol.disk.readable drive sector = true)
    (hbs : g.bs = 1024 ∨ g.bs = 2048 ∨ g.bs = 4096) :
    ∃ buf', readBlock vol drive g block buf = .ok buf' ∧
      ∀ o < g.bs, buf' o = blockBytes vol drive g block o := by
  have hlba : ataLba (sub32 (vol.lba + g.bs / 512 * block) 2 +
      superBlockOffset) = ataLba (vol.lba + g.bs / 512 * block) := by
    simp only [ataLba, sub32, superBlockOffset]
    omega
  obtain ⟨buf', hok, hbytes⟩ := ext2RdBlock_of_readable buf
    (sub32 (vol.lba + g.bs / 512 * block) 2) (g.bs / 512) 4096 hread (by omega)
  refine ⟨buf', hok, ?_⟩
  intro o ho
  rw [hbytes o (by omega), hlba, blockBytes]

theorem exists_inodeToLba {g : Globals} (n : ℕ) (hpos : 0 < g.inodesPerGroup) :
    ∃ lba, inodeToLba g n = .ok lba := by
  unfold inodeToLba
  rw [if_neg hpos.ne']
  dsimp only
  by_cases hsparse : n / g.inodesPerGroup ∈ sparseGroups
  · rw [if_pos hsparse]
    exact ⟨_, rfl⟩
  · rw [if_neg hsparse]
    exact ⟨_, rfl⟩

theorem readInode_of_placed {vol : Volume} {g : Globals} {n : ℕ} (buf : Buffer)
    (hread : ∀ sector, vol.disk.readable vol.drive sector = true)
    (hpos : 0 < g.inodesPerGroup) (hindex : 0 ≤ getIndex g n) :
    ∃ buf', readInode vol vol.drive g n buf =
        .ok (buf', 128 * (getIndex g n).toNat) ∧
      le32 buf' (128 * (getIndex g n).toNat + 4) = sizeFound vol g n := by
  obtain ⟨lba, hlba⟩ := exists_inodeToLba n hpos
  have hlt : getIndex g n < 4 := Int.tmod_lt_of_pos _ (by omega)
  obtain ⟨buf', hok, hbytes⟩ := ext2RdBlock_of_readable buf
    (vol.lba + lba) 1 512 hread (by omega)
  refine ⟨buf', ?_, ?_⟩
  · simp [readInode, hlba, hok, hindex, bind, Except.bind, pure, Except.pure]
  · rw [sizeFound, hlba]
    apply le32_congr
    intro i _ hi
    have hsector : i < 512 := by omega
    rw [hbytes i (by omega), Nat.div_eq_of_lt hsector, Nat.mod_eq_of_lt hsector]
    rfl

theorem readInode_ne_ok {vol : Volume} {g : Globals} {n : ℕ} {buf : Buffer}
    (hindex : ¬ 0 ≤ getIndex g n) (r : Buffer × ℕ) :
    readInode vol vol.drive g n buf ≠ .ok r := by
  intro hok
  obtain ⟨lba, _, hok⟩ := bind_eq_ok_iff.mp hok
  obtain ⟨buf', _, hok⟩ := bind_eq_ok_iff.mp hok
  rw [if_neg hindex] at hok
  cases hok

theorem getIndex_nonneg_iff {g : Globals} {n : ℕ} (hpos : 0 < g.inodesPerGroup)
    (hle : g.inodesPerGroup ≤ 2 ^ 31) :
    0 ≤ getIndex g n ↔ ¬ g.inodesPerGroup ∣ n := by
  constructor
  · intro hindex hdvd
    rw [getIndex_of_dvd hdvd] at hindex
    omega
  · intro hdvd
    have hmod : n % g.inodesPerGroup ≠ 0 := fun h =>
      hdvd (Nat.dvd_of_mod_eq_zero h)
    have hlt := Nat.mod_lt n hpos
    unfold getIndex
    rw [toInt32_of_lt (by omega)]
    exact Int.tmod_nonneg _ (by omega)

/-! ## One record -/

/-- `fillNode` in terms of the record. -/
def fillFrom (vol : Volume) (g : Globals) (r : DirRecord) (c : DirCursor) :
    Except Fault DirCursor := do
  let node ← c.temp.setName (escapeName r.name)
  let (indbuf, o) ← readInode vol vol.drive g r.inode c.indbuf
  pure { c with
    temp := { node with
      start := r.inode
      size := le32 indbuf (o + 4)
      fileType := r.fileType }
    indbuf := indbuf }

def fillAndNext (vol : Volume) (g : Globals) (r : DirRecord) (c : DirCursor) :
    Except Fault DirCursor :=
  fillFrom vol g r c >>= nextRecordNode

/-- The records from one of a block on, up to the way out of the block. -/
def absorb (vol : Volume) (g : Globals) :
    List DirRecord → DirCursor → Except Fault DirCursor
  | [], c => pure c
  | [r], c => fillFrom vol g r c
  | r :: r' :: rs, c => fillAndNext vol g r c >>= absorb vol g (r' :: rs)

variable {vol : Volume} {g : Globals} {block dirbuf : Buffer} {o : ℕ}
  {rs : List DirRecord}

theorem Tiled.end_le (htiled : Tiled block g.bs o rs) : o ≤ g.bs := by
  induction htiled with
  | last _ hfills => omega
  | next _ _ ih => omega

theorem Tiled.head_le (htiled : Tiled block g.bs o rs) :
    (recordAt block o).WellFormed ∧ o + (recordAt block o).recLen ≤ g.bs := by
  cases htiled with
  | last hform hfills => exact ⟨hform, hfills.le⟩
  | next hform hrest => exact ⟨hform, hrest.end_le⟩

theorem recordAt_congr (hwf : (recordAt block o).WellFormed)
    (hle : o + (recordAt block o).recLen ≤ g.bs)
    (hsame : ∀ i < g.bs, dirbuf i = block i) :
    recordAt dirbuf o = recordAt block o := by
  have hlen : (recordName block o).length = (block (o + 6)).toNat := by
    simp [recordName]
  have hfits : 8 + (block (o + 6)).toNat ≤ (recordAt block o).recLen := by
    rw [← hlen]
    exact hwf.2
  have hname : recordName dirbuf o = recordName block o := by
    unfold recordName
    rw [hsame (o + 6) (by omega)]
    apply List.map_congr_left
    intro j hj
    rw [List.mem_range] at hj
    exact hsame _ (by omega)
  unfold recordAt
  rw [le32_congr fun i _ _ => hsame i (by omega),
    le16_congr fun i _ _ => hsame i (by omega), hsame (o + 7) (by omega), hname]

theorem Tiled.congr (htiled : Tiled block g.bs o rs)
    (hsame : ∀ i < g.bs, dirbuf i = block i) : Tiled dirbuf g.bs o rs := by
  induction htiled with
  | last hform hfills =>
      have heq := recordAt_congr hform hfills.le hsame
      rw [← heq] at hform hfills ⊢
      exact .last hform hfills
  | next hform hrest ih =>
      have heq := recordAt_congr hform hrest.end_le hsame
      rw [← heq] at hform ih ⊢
      exact .next hform ih

theorem fillNode_eq (htiled : Tiled dirbuf g.bs o rs) (hbs : g.bs ≤ 4096)
    (c : DirCursor) :
    fillNode vol g dirbuf o c = fillFrom vol g (recordAt dirbuf o) c := by
  obtain ⟨⟨_, hlen⟩, hle⟩ := htiled.head_le
  have hname : (recordAt dirbuf o).name = recordName dirbuf o := rfl
  rw [hname] at hlen
  unfold fillNode
  rw [if_neg (by omega)]
  rfl

theorem recordTurn_last (hbs : g.bs ≤ 4096)
    (htiled : Tiled dirbuf g.bs o rs)
    (hfills : o + (recordAt dirbuf o).recLen = g.bs) (c : DirCursor) :
    recordTurn vol g dirbuf (o, c) =
      .stop (fillFrom vol g (recordAt dirbuf o) c) := by
  have hle : g.bs ≤ le16 dirbuf (o + 4) + o := by
    change g.bs ≤ (recordAt dirbuf o).recLen + o
    omega
  unfold recordTurn
  rw [fillNode_eq htiled hbs]
  cases fillFrom vol g (recordAt dirbuf o) c with
  | error e => rfl
  | ok c' => simp only [if_pos hle]

theorem recordTurn_next (vol : Volume) (hbs : g.bs ≤ 4096)
    (htiled : Tiled dirbuf g.bs o rs) (hpos : 0 < (recordAt dirbuf o).recLen)
    (hlt : o + (recordAt dirbuf o).recLen < g.bs) (c : DirCursor) :
    recordTurn vol g dirbuf (o, c) =
      match fillAndNext vol g (recordAt dirbuf o) c with
      | .error e => .stop (.error e)
      | .ok c' => .next (o + (recordAt dirbuf o).recLen, c') := by
  have hgo : ¬ g.bs ≤ le16 dirbuf (o + 4) + o := by
    change ¬ g.bs ≤ (recordAt dirbuf o).recLen + o
    omega
  have hagain : 0 < le16 dirbuf (o + 4) := hpos
  unfold recordTurn fillAndNext
  rw [fillNode_eq htiled hbs]
  cases fillFrom vol g (recordAt dirbuf o) c with
  | error e => rfl
  | ok c₁ =>
      simp only [if_neg hgo, if_pos hagain, bind, Except.bind]
      rw [Nat.add_comm]
      rfl

theorem runFuel_recordTurn (hbs : g.bs ≤ 4096)
    (htiled : Tiled dirbuf g.bs o rs) (c : DirCursor) (fuel : ℕ)
    (hfuel : g.bs < fuel + o) :
    runFuel (recordTurn vol g dirbuf) fuel (o, c) =
      some (absorb vol g rs c) := by
  induction htiled generalizing c fuel with
  | @last o hform hfills =>
      obtain ⟨fuel, rfl⟩ : ∃ k, fuel = k + 1 := ⟨fuel - 1, by omega⟩
      exact runFuel_succ_of_stop
        (recordTurn_last hbs (.last hform hfills) hfills c) fuel
  | @next o rs hform hrest ih =>
      have hlen := hform.2
      have hlt : o + (recordAt dirbuf o).recLen < g.bs := by
        have hlen' := hrest.head_le.1.2
        have hle := hrest.head_le.2
        omega
      have hturn := recordTurn_next vol hbs (.next hform hrest)
        (by omega) hlt c
      obtain ⟨fuel, rfl⟩ : ∃ k, fuel = k + 1 := ⟨fuel - 1, by omega⟩
      have habsorb : absorb vol g (recordAt dirbuf o :: rs) c =
          fillAndNext vol g (recordAt dirbuf o) c >>= absorb vol g rs := by
        cases hrest with
        | last => rfl
        | next => rfl
      rw [habsorb]
      cases hstep : fillAndNext vol g (recordAt dirbuf o) c with
      | error e =>
          rw [hstep] at hturn
          exact runFuel_succ_of_stop hturn fuel
      | ok c' =>
          rw [hstep] at hturn
          rw [runFuel_succ_of_next hturn, ih c' fuel (by omega)]
          rfl

theorem readRecords_eq (hbs : g.bs ≤ 4096) (htiled : Tiled dirbuf g.bs 0 rs)
    (c : DirCursor) : readRecords vol g dirbuf c = absorb vol g rs c := by
  unfold readRecords
  rw [runFuel_recordTurn hbs htiled c _ (by omega)]
  rfl

/-! ## The records of a block -/

/-- The records from which a node can be filled. -/
def Fillable (g : Globals) (r : DirRecord) : Prop :=
  (escapeName r.name).length < 255 ∧ ¬ g.inodesPerGroup ∣ r.inode

section Listing

variable {iblock : ℕ → ℕ} {records : List (List DirRecord)} {r : DirRecord}
  {c c' : DirCursor}

theorem fillFrom_ok (hread : ∀ sector, vol.disk.readable vol.drive sector = true)
    (hpos : 0 < g.inodesPerGroup) (hle : g.inodesPerGroup ≤ 2 ^ 31)
    (hfill : fillFrom vol g r c = .ok c') :
    Fillable g r ∧ c'.done = c.done ∧ c'.fresh = c.fresh ∧
      c'.temp.entry = r.shown vol g := by
  obtain ⟨node, hname, hfill⟩ := bind_eq_ok_iff.mp hfill
  obtain ⟨⟨buf, off⟩, hinode, hfill⟩ := bind_eq_ok_iff.mp hfill
  cases hfill
  have hindex : 0 ≤ getIndex g r.inode := by
    by_contra hneg
    exact readInode_ne_ok hneg _ hinode
  obtain ⟨buf', hok, hsize⟩ := readInode_of_placed c.indbuf hread hpos hindex
  rw [hok, Except.ok.injEq, Prod.mk.injEq] at hinode
  obtain ⟨rfl, rfl⟩ := hinode
  have hentry := entry_of_setName hname
  refine ⟨⟨(setName_eq_ok_iff.mp hname).1,
    (getIndex_nonneg_iff hpos hle).mp hindex⟩, rfl, rfl, ?_⟩
  simp only [FsProperties.entry, Entry.mk.injEq] at hentry
  simp [FsProperties.entry, FsProperties.name, DirRecord.shown, hsize,
    ← hentry.1]

theorem fillFrom_of_fillable
    (hread : ∀ sector, vol.disk.readable vol.drive sector = true)
    (hpos : 0 < g.inodesPerGroup) (hle : g.inodesPerGroup ≤ 2 ^ 31)
    (hfillable : Fillable g r) (c : DirCursor) :
    ∃ c', fillFrom vol g r c = .ok c' := by
  obtain ⟨hname, hdvd⟩ := hfillable
  obtain ⟨buf', hok, _⟩ := readInode_of_placed c.indbuf hread hpos
    ((getIndex_nonneg_iff hpos hle).mpr hdvd)
  exact ⟨_, bind_eq_ok_iff.mpr ⟨_, setName_eq_ok_iff.mpr ⟨hname, rfl⟩,
    bind_eq_ok_iff.mpr ⟨_, hok, rfl⟩⟩⟩

theorem nextRecordNode_ok (hnext : nextRecordNode c = .ok c') :
    c'.done = c.done ++ [c.temp] ∧ c'.fresh.length + 1 = c.fresh.length := by
  obtain ⟨list, hlist, hnext⟩ := bind_eq_ok_iff.mp hnext
  cases hnext
  exact nextNode_ok hlist

theorem nextRecordNode_of_room (hroom : 0 < c.fresh.length) :
    ∃ c', nextRecordNode c = .ok c' := by
  obtain ⟨list, hlist⟩ := nextNode_of_room hroom
  exact ⟨_, bind_eq_ok_iff.mpr ⟨list, hlist, rfl⟩⟩

/-- The records of a block leave one node each behind the finished part of
the list. -/
theorem absorb_ok (hread : ∀ sector, vol.disk.readable vol.drive sector = true)
    (hpos : 0 < g.inodesPerGroup) (hle : g.inodesPerGroup ≤ 2 ^ 31)
    (hne : rs ≠ []) (habsorb : absorb vol g rs c = .ok c') :
    (∀ r ∈ rs, Fillable g r) ∧
      c'.fresh.length + rs.length = c.fresh.length + 1 ∧
      c'.listing.map FsProperties.entry =
        c.done.map FsProperties.entry ++ rs.map (DirRecord.shown vol g) := by
  induction rs generalizing c with
  | nil => exact absurd rfl hne
  | cons r rs ih =>
      cases rs with
      | nil =>
          obtain ⟨hfillable, hdone, hfresh, hentry⟩ :=
            fillFrom_ok hread hpos hle habsorb
          simp [ListCursor.listing, hfillable, hdone, hfresh, hentry]
      | cons r' rs =>
          obtain ⟨c₂, hstep, habsorb⟩ := bind_eq_ok_iff.mp habsorb
          obtain ⟨c₁, hfill, hnext⟩ := bind_eq_ok_iff.mp hstep
          obtain ⟨hfillable, hdone, hfresh, hentry⟩ :=
            fillFrom_ok hread hpos hle hfill
          obtain ⟨hdone', hfresh'⟩ := nextRecordNode_ok hnext
          obtain ⟨hall, hcount, hlist⟩ := ih (by simp) habsorb
          refine ⟨?_, ?_, ?_⟩
          · intro x hx
            rcases List.mem_cons.mp hx with rfl | hx
            · exact hfillable
            · exact hall x hx
          · rw [hfresh] at hfresh'
            simp only [List.length_cons] at hcount ⊢
            omega
          · rw [hlist, hdone', hdone]
            simp [hentry]

theorem absorb_of_fillable
    (hread : ∀ sector, vol.disk.readable vol.drive sector = true)
    (hpos : 0 < g.inodesPerGroup) (hle : g.inodesPerGroup ≤ 2 ^ 31)
    (hall : ∀ r ∈ rs, Fillable g r) (c : DirCursor)
    (hroom : rs.length ≤ c.fresh.length + 1) :
    ∃ c', absorb vol g rs c = .ok c' := by
  induction rs generalizing c with
  | nil => exact ⟨c, rfl⟩
  | cons r rs ih =>
      obtain ⟨c₁, hfill⟩ :=
        fillFrom_of_fillable hread hpos hle (hall r (by simp)) c
      cases rs with
      | nil => exact ⟨c₁, hfill⟩
      | cons r' rs =>
          have hfresh := (fillFrom_ok hread hpos hle hfill).2.2.1
          simp only [List.length_cons] at hroom
          rw [← hfresh] at hroom
          obtain ⟨c₂, hnext⟩ := nextRecordNode_of_room (c := c₁) (by omega)
          have hcount := (nextRecordNode_ok hnext).2
          obtain ⟨c', habsorb⟩ := ih (fun x hx => hall x (by simp [hx])) c₂
            (by simp only [List.length_cons]; omega)
          exact ⟨c', bind_eq_ok_iff.mpr
            ⟨c₂, bind_eq_ok_iff.mpr ⟨c₁, hfill, hnext⟩, habsorb⟩⟩

/-! ## The blocks of a directory -/

theorem foldlM_skip_zero (blocks : List ℕ) (s : Buffer × DirCursor) :
    blocks.foldlM (fun s b => readDirBlock vol g b s) s =
      (blocks.filter (· ≠ 0)).foldlM (fun s b => readDirBlock vol g b s) s := by
  induction blocks generalizing s with
  | nil => rfl
  | cons b blocks ih =>
      by_cases hb : b = 0
      · have hskip : readDirBlock vol g b s = .ok s := if_pos hb
        rw [List.filter_cons_of_neg (by simp [hb]), List.foldlM_cons, hskip]
        exact ih s
      · rw [List.filter_cons_of_pos (by simp [hb]), List.foldlM_cons,
          List.foldlM_cons]
        exact congrArg _ (funext ih)

theorem ext2RdDir_eq (iblock : ℕ → ℕ) (dirbuf : Buffer) (c : DirCursor) :
    ext2RdDir vol g iblock dirbuf c = Prod.snd <$>
      (dataBlocks iblock).foldlM (fun s b => readDirBlock vol g b s)
        (dirbuf, c) := by
  rw [dataBlocks, ← foldlM_skip_zero, List.foldlM_map]
  rfl

theorem readDirBlock_eq
    (hread : ∀ sector, vol.disk.readable vol.drive sector = true)
    (hbs : g.bs = 1024 ∨ g.bs = 2048 ∨ g.bs = 4096) {b : ℕ} (hb : b ≠ 0)
    (htiled : Tiled (blockBytes vol vol.drive g b) g.bs 0 rs)
    (s : Buffer × DirCursor) :
    ∃ dirbuf, readDirBlock vol g b s =
      (Prod.mk dirbuf) <$> absorb vol g rs s.2 := by
  obtain ⟨dirbuf, hok, hbytes⟩ := readBlock_of_readable s.1 b hread hbs
  refine ⟨dirbuf, ?_⟩
  unfold readDirBlock
  rw [if_neg hb, hok, ← readRecords_eq (by omega) (htiled.congr hbytes)]
  rfl

theorem Tiled.ne_nil (htiled : Tiled block g.bs o rs) : rs ≠ [] := by
  cases htiled with
  | last => simp
  | next => simp

/-- Every block but the first one fills one node less than it has records. -/
theorem foldlM_readDirBlock_ok
    (hread : ∀ sector, vol.disk.readable vol.drive sector = true)
    (hbs : g.bs = 1024 ∨ g.bs = 2048 ∨ g.bs = 4096)
    (hpos : 0 < g.inodesPerGroup) (hle : g.inodesPerGroup ≤ 2 ^ 31)
    {blocks : List ℕ} (hne : ∀ b ∈ blocks, b ≠ 0)
    (htiled : List.Forall₂
      (fun b rs => Tiled (blockBytes vol vol.drive g b) g.bs 0 rs) blocks records)
    {s s' : Buffer × DirCursor}
    (hfold : blocks.foldlM (fun s b => readDirBlock vol g b s) s = .ok s') :
    (∀ r ∈ records.flatten, Fillable g r) ∧
      s'.2.listing.length + records.length =
        s.2.listing.length + records.flatten.length := by
  induction htiled generalizing s with
  | nil =>
      cases hfold
      simp
  | @cons b rs blocks records hhead _ ih =>
      rw [List.foldlM_cons] at hfold
      obtain ⟨s₁, hblock, hfold⟩ := bind_eq_ok_iff.mp hfold
      obtain ⟨dirbuf, heq⟩ :=
        readDirBlock_eq hread hbs (hne b (by simp)) hhead s
      rw [heq] at hblock
      cases habsorb : absorb vol g rs s.2 with
      | error e =>
          rw [habsorb] at hblock
          cases hblock
      | ok c₁ =>
          rw [habsorb] at hblock
          cases hblock
          obtain ⟨hfirst, _, hlist⟩ :=
            absorb_ok hread hpos hle hhead.ne_nil habsorb
          obtain ⟨hrest, hcount⟩ := ih (fun b hb => hne b (by simp [hb])) hfold
          have hlen := congrArg List.length hlist
          simp only [List.length_map, List.length_append] at hlen
          constructor
          · intro r hr
            rw [List.flatten_cons, List.mem_append] at hr
            rcases hr with hr | hr
            · exact hfirst r hr
            · exact hrest r hr
          · simp only [ListCursor.listing, List.length_append,
              List.flatten_cons, List.length_cons, List.length_nil] at *
            omega

theorem Directory.inodes_le_int (hdir : Directory vol g iblock records) :
    g.inodesPerGroup ≤ 2 ^ 31 := by
  have hle := hdir.inodes_le
  have hbs := hdir.blockSize
  omega

theorem Directory.ne_zero (iblock : ℕ → ℕ) : ∀ b ∈ dataBlocks iblock, b ≠ 0 := by
  intro b hb
  simpa using (List.mem_filter.mp hb).2

/-- In a directory with one block the records are absorbed in their order. -/
theorem Directory.rdDir_oneBlock (hdir : Directory vol g iblock [rs])
    (dirbuf : Buffer) (c : DirCursor) :
    ext2RdDir vol g iblock dirbuf c = absorb vol g rs c ∧ rs ≠ [] := by
  have htiled := hdir.tiled
  have hne := Directory.ne_zero iblock
  rw [ext2RdDir_eq]
  obtain ⟨b, bs, hb, hnil, hblocks⟩ := List.forall₂_cons_right_iff.mp htiled
  rw [List.forall₂_nil_right_iff] at hnil
  rw [hblocks, hnil] at hne ⊢
  obtain ⟨dirbuf', heq⟩ := readDirBlock_eq hdir.readable hdir.blockSize
    (hne b (by simp)) hb (dirbuf, c)
  refine ⟨?_, hb.ne_nil⟩
  rw [List.foldlM_cons, heq]
  cases absorb vol g rs c with
  | error e => rfl
  | ok c' => rfl

theorem zero_free_escapeName (name : List UInt8) :
    (∀ c ∈ escapeName name, c ≠ 0) ↔ ∀ c ∈ name, c ≠ 0 := by
  have hbyte : ∀ c : UInt8,
      (∀ d ∈ (if c = 32 then [92, 32] else [c] : List UInt8), d ≠ 0) ↔
        c ≠ 0 := by
    intro c
    split
    · next hc => simp [hc]
    · simp
  simp only [escapeName, List.mem_flatMap, forall_exists_index, and_imp]
  constructor
  · intro h c hc
    exact (hbyte c).mp fun d hd => h d c hc hd
  · intro h d c hc hd
    exact (hbyte c).mpr (h c hc) d hd

theorem DirRecord.shown_eq_entry_iff :
    r.shown vol g = r.entry vol g ↔ (∀ c ∈ r.name, c ≠ 0) ∧
      sizeFound vol g r.inode = sizeOfInode vol g r.inode := by
  simp [DirRecord.shown, DirRecord.entry, cString_eq_self_iff,
    zero_free_escapeName]

theorem filter_inode_of_fillable (hall : ∀ r ∈ rs, Fillable g r) :
    rs.filter (·.inode ≠ 0) = rs := by
  rw [List.filter_eq_self]
  intro r hr
  have hdvd := (hall r hr).2
  have hne : r.inode ≠ 0 := by
    intro hzero
    exact hdvd (hzero ▸ dvd_zero _)
  simpa using hne

/-- `ext2_rd_dir` makes exactly one node for each record in use, in the order
of the records. -/
def ListsRecords (vol : Volume) (g : Globals) (iblock : ℕ → ℕ)
    (records : List (List DirRecord)) (dirbuf indbuf : Buffer)
    (first : FsProperties) (fresh : List FreshBlock) : Prop :=
  ∃ c, ext2RdDir vol g iblock dirbuf ⟨⟨[], first, fresh⟩, indbuf⟩ = .ok c ∧
    c.listing.map FsProperties.entry =
      (records.flatten.filter (·.inode ≠ 0)).map (DirRecord.entry vol g)

variable {dirbuf indbuf : Buffer} {first : FsProperties}
  {fresh : List FreshBlock}

theorem Directory.oneBlock_of_lists (hdir : Directory vol g iblock records)
    (hlists : ListsRecords vol g iblock records dirbuf indbuf first fresh) :
    records.length = 1 := by
  obtain ⟨c, hrd, hlist⟩ := hlists
  rw [ext2RdDir_eq] at hrd
  cases hfold : (dataBlocks iblock).foldlM
      (fun s b => readDirBlock vol g b s)
      (dirbuf, (⟨⟨[], first, fresh⟩, indbuf⟩ : DirCursor)) with
  | error e =>
      rw [hfold] at hrd
      cases hrd
  | ok s =>
      rw [hfold] at hrd
      cases hrd
      obtain ⟨hall, hcount⟩ := foldlM_readDirBlock_ok hdir.readable
        hdir.blockSize hdir.inodes_pos hdir.inodes_le_int
        (Directory.ne_zero iblock) hdir.tiled hfold
      rw [filter_inode_of_fillable hall] at hlist
      have hlen := congrArg List.length hlist
      simp only [List.length_map, ListCursor.listing, List.nil_append,
        List.length_singleton] at hcount hlen
      omega

theorem Directory.listable_of_lists (hdir : Directory vol g iblock records)
    (hlists : ListsRecords vol g iblock records dirbuf indbuf first fresh) :
    Listable vol g fresh.length records := by
  obtain ⟨rs, rfl⟩ :=
    List.length_eq_one_iff.mp (hdir.oneBlock_of_lists hlists)
  obtain ⟨c, hrd, hlist⟩ := hlists
  obtain ⟨heq, hne⟩ := hdir.rdDir_oneBlock dirbuf ⟨⟨[], first, fresh⟩, indbuf⟩
  rw [heq] at hrd
  obtain ⟨hall, hroom, hshown⟩ :=
    absorb_ok hdir.readable hdir.inodes_pos hdir.inodes_le_int hne hrd
  simp only [List.flatten_cons, List.flatten_nil, List.append_nil,
    List.map_nil, List.nil_append, filter_inode_of_fillable hall]
    at hlist hshown hroom
  have hsame : ∀ r ∈ rs, r.shown vol g = r.entry vol g :=
    List.map_inj_left.mp (hshown.symm.trans hlist)
  refine ⟨rfl, ?_, ?_, ?_, ?_⟩
  all_goals simp only [List.flatten_cons, List.flatten_nil, List.append_nil]
  · exact fun r hr => (hall r hr).2
  · exact fun r hr => (DirRecord.shown_eq_entry_iff.mp (hsame r hr)).2
  · exact fun r hr => ⟨(hall r hr).1,
      (DirRecord.shown_eq_entry_iff.mp (hsame r hr)).1⟩
  · omega

theorem Directory.lists_of_listable (hdir : Directory vol g iblock records)
    (hlistable : Listable vol g fresh.length records) :
    ListsRecords vol g iblock records dirbuf indbuf first fresh := by
  obtain ⟨rs, rfl⟩ := List.length_eq_one_iff.mp hlistable.oneBlock
  obtain ⟨_, hplaced, hsizes, hnames, hnodes⟩ := hlistable
  simp only [List.flatten_cons, List.flatten_nil, List.append_nil] at *
  have hall : ∀ r ∈ rs, Fillable g r := fun r hr =>
    ⟨(hnames r hr).1, hplaced r hr⟩
  obtain ⟨heq, hne⟩ := hdir.rdDir_oneBlock dirbuf ⟨⟨[], first, fresh⟩, indbuf⟩
  obtain ⟨c, habsorb⟩ := absorb_of_fillable hdir.readable hdir.inodes_pos
    hdir.inodes_le_int hall ⟨⟨[], first, fresh⟩, indbuf⟩ hnodes
  refine ⟨c, heq.trans habsorb, ?_⟩
  rw [(absorb_ok hdir.readable hdir.inodes_pos hdir.inodes_le_int hne
    habsorb).2.2]
  simp only [List.flatten_cons, List.flatten_nil, List.append_nil,
    filter_inode_of_fillable hall, List.map_nil, List.nil_append]
  apply List.map_congr_left
  intro r hr
  exact DirRecord.shown_eq_entry_iff.mpr ⟨(hnames r hr).2, hsizes r hr⟩

/-- The listing is right exactly when the directory has one block, all its
records are in use and name inodes that the driver finds, and the names and
the nodes have room. -/
theorem Directory.lists_records_iff (hdir : Directory vol g iblock records) :
    ListsRecords vol g iblock records dirbuf indbuf first fresh ↔
      Listable vol g fresh.length records :=
  ⟨hdir.listable_of_lists, hdir.lists_of_listable⟩

end Listing

/-! ## Small directories -/

theorem Tiled.last_of_eq {block : Buffer} {bs o : ℕ} {r : DirRecord}
    (hrecord : recordAt block o = r) (hform : r.WellFormed) (hfills : o + r.recLen = bs) :
    Tiled block bs o [r] := by
  subst hrecord
  exact .last hform hfills

theorem Tiled.next_of_eq {block : Buffer} {bs o : ℕ} {r : DirRecord}
    {rs : List DirRecord} (hrecord : recordAt block o = r) (hform : r.WellFormed)
    (hrest : Tiled block bs (o + r.recLen) rs) : Tiled block bs o (r :: rs) := by
  subst hrecord
  exact .next hform hrest

instance (r : DirRecord) : Decidable r.WellFormed :=
  inferInstanceAs (Decidable (4 ∣ r.recLen ∧ 8 + r.name.length ≤ r.recLen))

/-- The record of a directory, with a short name, as it begins on the disk. -/
def recordBytes (inode recLen : ℕ) (name : List UInt8) : List UInt8 :=
  [UInt8.ofNat inode, 0, 0, 0, UInt8.ofNat recLen, UInt8.ofNat (recLen / 256),
    UInt8.ofNat name.length, 2] ++ name ++ List.replicate (4 - name.length) 0

/-- Blocks 10 and 11 of 1024 bytes hold one record each: inode 2, a
directory, named `.` in the first block and `b` in the second.  Block 12 holds
`.`, `..` and the directory `a` with inode 3. -/
def smallVolume : Volume where
  disk :=
    { readable := fun _ _ => true
      byte := fun _ n o =>
        if n = 20 then (recordBytes 2 1024 [46]).getD o 0
        else if n = 22 then (recordBytes 2 1024 [98]).getD o 0
        else if n = 24 then
          (recordBytes 2 12 [46] ++ recordBytes 2 12 [46, 46] ++
            recordBytes 3 1000 [97]).getD o 0
        else 0 }
  drive := 0
  lba := 0

def smallRecord (name : UInt8) : DirRecord := ⟨2, 1024, 2, [name]⟩

def threeRecords : List DirRecord :=
  [⟨2, 12, 2, [46]⟩, ⟨2, 12, 2, [46, 46]⟩, ⟨3, 1000, 2, [97]⟩]

theorem smallVolume_tiled (b : ℕ) (name : UInt8)
    (hb : b = 10 ∧ name = 46 ∨ b = 11 ∧ name = 98) :
    Tiled (blockBytes smallVolume 0 twoGroups b) 1024 0 [smallRecord name] := by
  rcases hb with ⟨rfl, rfl⟩ | ⟨rfl, rfl⟩
  · exact .last_of_eq rfl (by decide) rfl
  · exact .last_of_eq rfl (by decide) rfl

theorem threeRecords_tiled :
    Tiled (blockBytes smallVolume 0 twoGroups 12) 1024 0 threeRecords :=
  .next_of_eq rfl (by decide) (.next_of_eq rfl (by decide)
    (.last_of_eq rfl (by decide) rfl))

theorem smallDirectory {iblock : ℕ → ℕ} {records : List (List DirRecord)}
    {blocks : List ℕ} (hblocks : dataBlocks iblock = blocks)
    (htiled : List.Forall₂ (fun b rs =>
      Tiled (blockBytes smallVolume 0 twoGroups b) 1024 0 rs) blocks records) :
    Directory smallVolume twoGroups iblock records where
  readable := fun _ => rfl
  blockSize := Or.inl rfl
  inodes_pos := by decide
  inodes_le := by decide
  tiled := by rw [hblocks]; exact htiled

theorem threeRecordDirectory :
    Directory smallVolume twoGroups (fun k => if k = 0 then 12 else 0)
      [threeRecords] :=
  smallDirectory rfl (.cons threeRecords_tiled .nil)

theorem twoBlockDirectory :
    Directory smallVolume twoGroups (fun k => if k < 2 then 10 + k else 0)
      [[smallRecord 46], [smallRecord 98]] :=
  smallDirectory rfl
    (.cons (smallVolume_tiled 10 46 (by simp))
      (.cons (smallVolume_tiled 11 98 (by simp)) .nil))

theorem lists_records_iff_three :
    ListsRecords smallVolume twoGroups (fun k => if k = 0 then 12 else 0)
        [threeRecords] (fun _ => 0) (fun _ => 0) blank.node
        (List.replicate 2 blank) ↔
      Listable smallVolume twoGroups 2 [threeRecords] :=
  threeRecordDirectory.lists_records_iff

/-- Of two blocks with one record each only the second record is listed. -/
theorem last_record_overwritten :
    ¬ ListsRecords smallVolume twoGroups
      (fun k => if k < 2 then 10 + k else 0)
      [[smallRecord 46], [smallRecord 98]] (fun _ => 0) (fun _ => 0)
      blank.node (List.replicate 4 blank) := by
  intro hlists
  have hone := twoBlockDirectory.oneBlock_of_lists hlists
  simp at hone

end Ext2
end Janus86
