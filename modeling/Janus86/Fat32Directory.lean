import Janus86.Fat32Names

/-!
# The listing of a FAT32 directory

A directory is read here entry by entry: entries in front of a short entry
may be the slots of its long name.  `fat32_rd_cluster` remembers only the
attribute of the last entry and looks for the slots when it comes to the
short entry, so they have to lie in the sector of the short entry or the one
before, and in the same cluster.
-/

namespace Janus86
namespace Fat32

open StepMachine

/-! ## Directories -/

/-- What stands in a directory: volume labels, and files with the position of
their short entry and the slots in front of it. -/
inductive Item where
  | label (entry : Buffer)
  | file (pos : ℕ) (run : List Buffer) (entry : Buffer)

/-- `Reads pos run entries items`: behind the slots `run`, the entries from
position `pos` on are those of the items. -/
inductive Reads : ℕ → List Buffer → List Buffer → List Item → Prop
  | done {pos : ℕ} {rest : List Buffer} (free : ∀ e ∈ rest, e 0 = 0) :
      Reads pos [] rest []
  | deleted {pos : ℕ} {e : Buffer} {rest : List Buffer} {items : List Item}
      (free : e 0 = 0xE5) (next : Reads (pos + 1) [] rest items) :
      Reads pos [] (e :: rest) items
  | label {pos : ℕ} {e : Buffer} {rest : List Buffer} {items : List Item}
      (live : isLive (e 0) = true) (not_long : attribOf e 0 ≠ 0x0F)
      (attrib : attribOf e 0 &&& 0x18 = 0x08)
      (next : Reads (pos + 1) [] rest items) :
      Reads pos [] (e :: rest) (.label e :: items)
  | slot {pos : ℕ} {run : List Buffer} {e : Buffer} {rest : List Buffer}
      {items : List Item} (live : isLive (e 0) = true)
      (attrib : attribOf e 0 = 0x0F)
      (next : Reads (pos + 1) (run ++ [e]) rest items) :
      Reads pos run (e :: rest) items
  | file {pos : ℕ} {run : List Buffer} {e : Buffer} {rest : List Buffer}
      {items : List Item} (live : isLive (e 0) = true)
      (attrib : attribOf e 0 &&& 0x08 = 0) (short : ∀ o < 11, e o ≠ 0)
      (long : LongRun run) (next : Reads (pos + 1) [] rest items) :
      Reads pos run (e :: rest) (.file pos run e :: items)

def fileName (run : List Buffer) (e : Buffer) : List UInt8 :=
  if run = [] then eightThree e else escapeName (longName run)

/-- What a listing says about a file: its name, its first cluster and its
size.  In an entry for a directory the cluster 0 stands for the root, which
is cluster 2. -/
structure Described where
  name : List UInt8
  start : ℕ
  size : ℕ

def Item.described : Item → Option Described
  | .label _ => none
  | .file _ run e => some ⟨fileName run e, startCluster e 0, le32 e 28⟩

def described (node : FsProperties) : Described :=
  ⟨node.name, node.start, node.size⟩

/-- The entries of a cluster. -/
def clusterSize (g : Globals) : ℕ := direntPerSector * g.sectorsPerCluster

/-- A directory with a well-formed chain, on a drive that can be read. -/
structure FatDirectory (vol : Volume) (g : Globals) where
  chain : List ℕ
  items : List Item
  chain_ne : chain ≠ []
  nodup : chain.Nodup
  clusters : ∀ cluster ∈ chain, 2 ≤ cluster ∧ cluster < 0x0FFFFFF7
  linked : chain.IsChain fun a b => fatLink vol g a = b
  ended : ∀ last ∈ chain.getLast?, 0x0FFFFFF8 ≤ fatLink vol g last
  readable : ∀ sector, vol.disk.readable vol.drive sector = true
  sectors_lt : g.sectorsPerCluster < 256
  reads : Reads 0 []
    (chain.flatMap fun cluster => slotsAt vol g cluster 0 (clusterSize g)) items

variable {vol : Volume} {g : Globals}

/-- The nodes of the list describe the files, and a node with an empty name
follows. -/
def FatDirectory.Lists (dir : FatDirectory vol g) (direntry : Buffer)
    (first : FsProperties) (fresh : List FreshBlock) : Prop :=
  ∃ code c, fat32RdCluster vol g direntry chainFuel (dir.chain.headD 0)
      ⟨[], first, fresh⟩ = .ok (code, c) ∧
    c.done.map described = dir.items.filterMap Item.described ∧
    c.temp.name = []

/-- The items that the driver lists as they are: a label has no other
attribute; the slots and the short entry lie in one cluster, and in one
sector or two; the characters of the slots have room; an 8.3 name without
slots has no blank in it and does not begin with the byte 5. -/
def Item.Supported (perCluster : ℕ) : Item → Prop
  | .label e => attribOf e 0 = 0x08
  | .file pos run e =>
      (pos - run.length) / perCluster = pos / perCluster ∧
      pos / direntPerSector ≤ (pos - run.length) / direntPerSector + 1 ∧
      (pushedName run).length < 255 ∧
      (run = [] → e 0 ≠ 5 ∧ 32 ∉ baseName e ∧ 32 ∉ extension e)

instance (perCluster : ℕ) : (item : Item) → Decidable (item.Supported perCluster)
  | .label e => inferInstanceAs (Decidable (attribOf e 0 = 0x08))
  | .file pos run e => inferInstanceAs (Decidable
      ((pos - run.length) / perCluster = pos / perCluster ∧
        pos / direntPerSector ≤ (pos - run.length) / direntPerSector + 1 ∧
        (pushedName run).length < 255 ∧
        (run = [] → e 0 ≠ 5 ∧ 32 ∉ baseName e ∧ 32 ∉ extension e)))

/-- The directories that the driver lists: every item is supported, the
reserved bits of the FAT entries are clear, the chain ends with the marker
that the driver knows, and `kmalloc` has a node for each file. -/
structure FatDirectory.Supported (dir : FatDirectory vol g) (room : ℕ) :
    Prop where
  items : ∀ item ∈ dir.items, item.Supported (clusterSize g)
  reserved : ∀ cluster ∈ dir.chain, fatEntry vol g cluster < 2 ^ 28
  marker : ∀ last ∈ dir.chain.getLast?, fatEntry vol g last = fatEofMarker
  nodes : (dir.items.filterMap Item.described).length ≤ room

/-! ## One entry -/

/-- A name of 254 characters or less goes into the node. -/
theorem putName_ok {name : List UInt8} {c : ListCursor}
    (hname : name.length < 255) (hroom : 0 < c.fresh.length) :
    ∃ c', putName name c = .ok c' ∧ c'.fresh.length + 1 = c.fresh.length ∧
      c'.done.map described = c.done.map described ++
        [⟨cString name, c.temp.start, c.temp.size⟩] := by
  obtain ⟨c', hnext⟩ := nextNode_of_room (c := { c with temp := { c.temp with
    filename := name ++ 0 :: c.temp.filename.drop (name.length + 1) } }) hroom
  obtain ⟨hdone, hfresh⟩ := nextNode_ok hnext
  refine ⟨c', ?_, hfresh, ?_⟩
  · exact bind_eq_ok_iff.mpr ⟨_, setName_eq_ok_iff.mpr ⟨hname, rfl⟩, hnext⟩
  · rw [hdone, List.map_append]
    simp [described, FsProperties.name, cString_append_zero]

variable {cluster k i : ℕ} {s : ClusterState}

theorem entryStep_skip (vol : Volume) (g : Globals) (cluster k : ℕ)
    (hattrib : attribOf s.direntry (32 * i) = 0x0F ∨
      attribOf s.direntry (32 * i) = 0x08)
    (hlive : isLive (s.direntry (32 * i)) = true) :
    entryStep vol g cluster k s i =
      .ok { s with prev := attribOf s.direntry (32 * i) } := by
  have hbranch : ¬ (attribOf s.direntry (32 * i) ≠ 0x0F ∧
      attribOf s.direntry (32 * i) ≠ 0x08) := by
    rintro ⟨hlong, hlabel⟩
    rcases hattrib with h | h
    · exact hlong h
    · exact hlabel h
  unfold entryStep
  rw [if_neg hbranch]
  simp only [pure_bind, rememberAttrib, hlive, if_true]
  rfl

theorem entryStep_free (vol : Volume) (g : Globals) (cluster k : ℕ)
    (hprev : s.prev ≠ 0x0F)
    (hfree : isLive (s.direntry (32 * i)) = false) :
    ∃ temp, entryStep vol g cluster k s i =
      .ok { s with list := { s.list with temp := temp } } := by
  unfold entryStep
  dsimp only
  by_cases hattrib : attribOf s.direntry (32 * i) ≠ 0x0F ∧
      attribOf s.direntry (32 * i) ≠ 0x08
  · refine ⟨(fillNode s.direntry (32 * i) s.list).temp, ?_⟩
    rw [if_pos hattrib, if_neg hprev, shortEntry, if_neg (by simp [hfree])]
    simp only [pure_bind, rememberAttrib, hfree]
    rfl
  · refine ⟨s.list.temp, ?_⟩
    rw [if_neg hattrib]
    simp only [pure_bind, rememberAttrib, hfree]
    rfl

theorem not_skipped {attrib : ℕ} (hattrib : attrib &&& 0x08 = 0) :
    attrib ≠ 0x0F ∧ attrib ≠ 0x08 := by
  constructor
  · rintro rfl
    exact absurd hattrib (by decide)
  · rintro rfl
    exact absurd hattrib (by decide)

theorem entryStep_short {c : ListCursor} (hprev : s.prev ≠ 0x0F)
    (hattrib : attribOf s.direntry (32 * i) &&& 0x08 = 0)
    (hlive : isLive (s.direntry (32 * i)) = true)
    (hput : putName (shortName s.direntry (32 * i))
      (fillNode s.direntry (32 * i) s.list) = .ok c) :
    entryStep vol g cluster k s i =
      .ok ⟨s.direntry, attribOf s.direntry (32 * i), c⟩ := by
  unfold entryStep
  dsimp only
  rw [if_pos (not_skipped hattrib), if_neg hprev, shortEntry, if_pos hlive]
  simp only [hput, liftFault, ok_bind, pure_bind, rememberAttrib, hlive, if_true]
  rfl

theorem readOrReturn_holds
    (hread : ∀ sector, vol.disk.readable vol.drive sector = true)
    (g : Globals) (cluster k : ℕ) (s : ClusterState) :
    ∃ buf, Holds vol g cluster k buf ∧
      readOrReturn vol g cluster k s = .ok { s with direntry := buf } := by
  obtain ⟨buf, hbuf, hholds⟩ :=
    readClusterSector_holds hread g cluster k s.direntry
  exact ⟨buf, hholds, by rw [readOrReturn, hbuf]⟩

/-- The slots are found when the run begins in the sector of the short entry
or in the one before; afterwards the buffer holds the sector again. -/
theorem longEntry_run {p n : ℕ} {c : ListCursor}
    (hread : ∀ sector, vol.disk.readable vol.drive sector = true)
    (hholds : Holds vol g cluster k s.direntry) (hi : i < direntPerSector)
    (hk : k < 2 ^ 32) (hrun : MarkedRun vol g cluster p n)
    (hpos : p + (n + 1) = direntPerSector * k + i)
    (hnear : k ≤ p / direntPerSector + 1)
    (hput : putName (pushedName (slotsAt vol g cluster p (n + 1))) s.list =
      .ok c) :
    ∃ buf, Holds vol g cluster k buf ∧
      longEntry vol g cluster k i s = .ok ⟨buf, 0, c⟩ := by
  simp only [direntPerSector] at hi hpos hnear
  unfold longEntry
  by_cases hfirst : i = 0
  · -- the slots are those before the end of the sector before
    rw [if_pos hfirst]
    obtain ⟨m, rfl⟩ : ∃ m, k = m + 1 := ⟨k - 1, by omega⟩
    obtain ⟨j, rfl⟩ : ∃ j, p = direntPerSector * m + j :=
      ⟨p - 16 * m, by simp only [direntPerSector]; omega⟩
    have hfull : direntPerSector = j + (n + 1) := by
      simp only [direntPerSector] at hpos ⊢
      omega
    have hsub : sub32 (m + 1) 1 = m := by
      rw [sub32_of_le (by omega) hk]
      omega
    obtain ⟨buf₁, hholds₁, hread₁⟩ := readOrReturn_holds hread g cluster m s
    have hlong := generateLongName_within hrun hholds₁ hfull.ge (m + 1) s.list
    rw [← hfull, hput, ok_bind] at hlong
    obtain ⟨buf, hholds', hread'⟩ := readOrReturn_holds hread g cluster (m + 1)
      { direntry := buf₁, prev := s.prev, list := c }
    refine ⟨buf, hholds', ?_⟩
    rw [hsub, hread₁, ok_bind, hlong]
    simp only [liftFault, ok_bind, hread']
    rfl
  · rw [if_neg hfirst]
    by_cases hsame : 16 * k ≤ p
    · obtain ⟨j, rfl⟩ : ∃ j, p = direntPerSector * k + j :=
        ⟨p - 16 * k, by simp only [direntPerSector]; omega⟩
      have hslots : i = j + (n + 1) := by
        simp only [direntPerSector] at hpos
        omega
      have hlong := generateLongName_within hrun hholds
        (by simp only [direntPerSector]; omega) k s.list
      rw [← hslots, hput, ok_bind] at hlong
      refine ⟨s.direntry, hholds, ?_⟩
      rw [hlong]
      rfl
    · obtain ⟨m, rfl⟩ : ∃ m, k = m + 1 := ⟨k - 1, by omega⟩
      obtain ⟨j, rfl⟩ : ∃ j, p = direntPerSector * m + j :=
        ⟨p - 16 * m, by simp only [direntPerSector]; omega⟩
      obtain ⟨l, hl⟩ : ∃ l, j + (l + 1) = direntPerSector :=
        ⟨15 - j, by simp only [direntPerSector] at hsame ⊢; omega⟩
      obtain rfl : n = l + i := by
        simp only [direntPerSector] at hpos hl
        omega
      obtain ⟨buf, hholds', hlong⟩ := generateLongName_across hread hrun hholds
        hl (by simp only [direntPerSector]; omega) hk s.list
      rw [hput, ok_bind] at hlong
      refine ⟨buf, hholds', ?_⟩
      rw [hlong]
      rfl

theorem entryStep_long {buf : Buffer} {c : ListCursor} (hprev : s.prev = 0x0F)
    (hattrib : attribOf s.direntry (32 * i) &&& 0x08 = 0)
    (hlong : longEntry vol g cluster k i
      { s with list := fillNode s.direntry (32 * i) s.list } = .ok ⟨buf, 0, c⟩)
    (hlive : isLive (buf (32 * i)) = true) :
    entryStep vol g cluster k s i = .ok ⟨buf, attribOf buf (32 * i), c⟩ := by
  unfold entryStep
  dsimp only
  rw [if_pos (not_skipped hattrib), if_pos hprev, hlong]
  simp only [ok_bind, rememberAttrib, hlive, if_true]
  rfl

/-! ## The entries of a cluster -/

theorem slotsAt_length (cluster p n : ℕ) :
    (slotsAt vol g cluster p n).length = n := by
  simp [slotsAt]

theorem slotsAt_cons (cluster p n : ℕ) :
    slotsAt vol g cluster p (n + 1) =
      entryAt vol g cluster p :: slotsAt vol g cluster (p + 1) n := by
  simp [slotsAt, List.range'_succ]

theorem slotsAt_getElem? {p n j : ℕ} (hj : j < n) :
    (slotsAt vol g cluster p n)[j]? = some (entryAt vol g cluster (p + j)) := by
  simp [slotsAt, hj]

theorem LongRun.markedRun {p n : ℕ}
    (hrun : LongRun (slotsAt vol g cluster p (n + 1)))
    (hroom : (pushedName (slotsAt vol g cluster p (n + 1))).length < 255) :
    MarkedRun vol g cluster p n where
  mark := fun h => (hrun.mark (slotsAt_getElem? (Nat.succ_pos n))).mp h rfl
  clear := by
    intro x hx
    rw [Nat.add_assoc]
    exact (hrun.mark (slotsAt_getElem? (by omega))).mpr (by omega)
  room := hroom

/-- What holds before entry `s` of a cluster with entries `base` to
`base + clusterSize g`: the entries from there on are those of some items,
and with the nodes made so far they give the whole listing. -/
def AtEntry (vol : Volume) (g : Globals) (cluster base : ℕ)
    (tail : List Buffer) (total : List Described) (s : ℕ)
    (st : ClusterState) : Prop :=
  ∃ p n items, p + n = s ∧
    Reads (base + s) (slotsAt vol g cluster p n)
      (slotsAt vol g cluster s (clusterSize g - s) ++ tail) items ∧
    (∀ item ∈ items, item.Supported (clusterSize g)) ∧
    (st.prev = 0x0F ↔ 0 < n) ∧
    st.list.done.map described ++ items.filterMap Item.described = total ∧
    (items.filterMap Item.described).length ≤ st.list.fresh.length

theorem entryStep_file {p n pos : ℕ}
    (hread : ∀ sector, vol.disk.readable vol.drive sector = true)
    (hholds : Holds vol g cluster k s.direntry) (hi : i < direntPerSector)
    (hk : k < 2 ^ 32) (hpos : p + n = direntPerSector * k + i)
    (hprev : s.prev = 0x0F ↔ 0 < n)
    (hlive : isLive (entryAt vol g cluster (direntPerSector * k + i) 0) = true)
    (hattrib : attribOf (entryAt vol g cluster (direntPerSector * k + i)) 0
      &&& 0x08 = 0)
    (hshort : ∀ o < 11, entryAt vol g cluster (direntPerSector * k + i) o ≠ 0)
    (hlong : LongRun (slotsAt vol g cluster p n))
    (hnear : k ≤ p / direntPerSector + 1)
    (hsupported : (Item.file pos (slotsAt vol g cluster p n)
      (entryAt vol g cluster (direntPerSector * k + i))).Supported
        (clusterSize g))
    (hroom : 0 < s.list.fresh.length) :
    ∃ s', entryStep vol g cluster k s i = .ok s' ∧
      Holds vol g cluster k s'.direntry ∧ s'.prev ≠ 0x0F ∧
      s'.list.fresh.length + 1 = s.list.fresh.length ∧
      s'.list.done.map described = s.list.done.map described ++
        [⟨fileName (slotsAt vol g cluster p n)
            (entryAt vol g cluster (direntPerSector * k + i)),
          startCluster (entryAt vol g cluster (direntPerSector * k + i)) 0,
          le32 (entryAt vol g cluster (direntPerSector * k + i)) 28⟩] := by
  obtain ⟨_, _, hchars, hplain⟩ := hsupported
  have hbits := not_skipped hattrib
  rw [← hholds.attribOf hi] at hattrib hbits
  have hstart : (fillNode s.direntry (32 * i) s.list).temp.start =
      startCluster (entryAt vol g cluster (direntPerSector * k + i)) 0 := by
    rw [fillNode_temp]
    exact hholds.startCluster hi
  have hsize : (fillNode s.direntry (32 * i) s.list).temp.size =
      le32 (entryAt vol g cluster (direntPerSector * k + i)) 28 := by
    rw [fillNode_temp]
    exact hholds.le32 hi (by decide)
  rw [← fillNode_fresh s.direntry (32 * i) s.list] at hroom
  rcases Nat.eq_zero_or_pos n with rfl | hn
  · obtain ⟨hfive, hbase, hext⟩ := hplain rfl
    obtain ⟨c, hput, hfresh, hdone⟩ := putName_ok
      (c := fillNode s.direntry (32 * i) s.list) (shortName_length
        (entryAt vol g cluster (direntPerSector * k + i))) hroom
    rw [hstart, hsize, fillNode_done, (cString_eq_self_iff _).mpr (shortName_ne_zero _),
      shortName_eq hshort hfive hbase hext] at hdone
    rw [fillNode_fresh] at hfresh
    rw [← hholds.shortName hi] at hput
    refine ⟨_, entryStep_short (fun h => absurd (hprev.mp h) (by omega)) hattrib
      (by rw [hholds.first hi]; exact hlive) hput, hholds, hbits.1, hfresh, ?_⟩
    rw [hdone]
    rfl
  · obtain ⟨n, rfl⟩ : ∃ m, n = m + 1 := ⟨n - 1, by omega⟩
    have hne : slotsAt vol g cluster p (n + 1) ≠ [] := by
      rw [slotsAt_cons]
      exact List.cons_ne_nil _ _
    obtain ⟨c, hput, hfresh, hdone⟩ := putName_ok
      (c := fillNode s.direntry (32 * i) s.list) hchars hroom
    obtain ⟨buf, hholds', hentry⟩ := longEntry_run
      (s := { s with list := fillNode s.direntry (32 * i) s.list }) hread hholds
      hi hk (hlong.markedRun hchars) hpos hnear hput
    rw [hstart, hsize, fillNode_done, hlong.cString_pushedName] at hdone
    rw [fillNode_fresh] at hfresh
    refine ⟨_, entryStep_long (hprev.mpr hn) hattrib hentry
      (by rw [hholds'.first hi]; exact hlive), hholds', ?_, hfresh, ?_⟩
    · rw [hholds'.attribOf hi, ← hholds.attribOf hi]
      exact hbits.1
    · rw [hdone, fileName, if_neg hne]

section Entries

variable {tail : List Buffer} {total : List Described} {m : ℕ}

/-- Whatever comes next, the turn for it keeps what holds. -/
theorem entryStep_atEntry
    (hread : ∀ sector, vol.disk.readable vol.drive sector = true)
    (hsectors : g.sectorsPerCluster < 256)
    (hholds : Holds vol g cluster k s.direntry) (hi : i < direntPerSector)
    (hk : k < g.sectorsPerCluster)
    (hat : AtEntry vol g cluster (clusterSize g * m) tail total
      (direntPerSector * k + i) s) :
    ∃ s', entryStep vol g cluster k s i = .ok s' ∧
      Holds vol g cluster k s'.direntry ∧
      AtEntry vol g cluster (clusterSize g * m) tail total
        (direntPerSector * k + i + 1) s' := by
  obtain ⟨p, n, items, hpos, hreads, hsupported, hprev, htotal, hroom⟩ := hat
  have hlt : direntPerSector * k + i < clusterSize g := by
    have hle : direntPerSector * (k + 1) ≤ clusterSize g :=
      Nat.mul_le_mul_left _ hk
    simp only [direntPerSector] at *
    omega
  have hcount : clusterSize g - (direntPerSector * k + i) =
      clusterSize g - (direntPerSector * k + i + 1) + 1 := by omega
  have hfirst := hholds.first hi
  have hattrib := hholds.attribOf hi
  rw [hcount, slotsAt_cons, List.cons_append] at hreads
  generalize hrun : slotsAt vol g cluster p n = run at hreads
  have hlen : n = run.length := by rw [← hrun, slotsAt_length]
  cases hreads with
  | done free =>
      obtain rfl : n = 0 := hlen
      have hzero := free _ (List.mem_cons_self ..)
      obtain ⟨temp, hstep⟩ := entryStep_free vol g cluster k
        (fun h => absurd (hprev.mp h) (by omega))
        (by rw [hfirst, hzero]; rfl)
      refine ⟨_, hstep, hholds, _, 0, [], Nat.add_zero _, .done ?_, by simp,
        hprev, htotal, hroom⟩
      exact fun e he => free e (List.mem_cons_of_mem _ he)
  | deleted free next =>
      obtain rfl : n = 0 := hlen
      obtain ⟨temp, hstep⟩ := entryStep_free vol g cluster k
        (fun h => absurd (hprev.mp h) (by omega))
        (by rw [hfirst, free]; rfl)
      exact ⟨_, hstep, hholds, _, 0, items, Nat.add_zero _, next, hsupported,
        hprev, htotal, hroom⟩
  | label live not_long attrib next =>
      obtain rfl : n = 0 := hlen
      have height := hsupported _ (List.mem_cons_self ..)
      simp only [Item.Supported] at height
      have hstep := entryStep_skip vol g cluster k (i := i) (s := s)
        (Or.inr (hattrib.trans height)) (by rw [hfirst]; exact live)
      refine ⟨_, hstep, hholds, _, 0, _, Nat.add_zero _, next,
        fun item hitem => hsupported item (List.mem_cons_of_mem _ hitem), ?_,
        htotal, hroom⟩
      rw [hattrib, height]
      simp
  | slot live attrib next =>
      have hstep := entryStep_skip vol g cluster k (i := i) (s := s)
        (Or.inl (hattrib.trans attrib)) (by rw [hfirst]; exact live)
      refine ⟨_, hstep, hholds, p, n + 1, items, by omega, ?_, hsupported, ?_,
        htotal, hroom⟩
      · rw [slotsAt_succ, hpos, hrun]
        exact next
      · rw [hattrib, attrib]
        simp
  | file live attrib short long next =>
      have hfile := hsupported _ (List.mem_cons_self ..)
      have hnear : k ≤ p / direntPerSector + 1 := by
        have hnear := hfile.2.1
        have hbase : clusterSize g * m = 16 * (g.sectorsPerCluster * m) := by
          rw [clusterSize, Nat.mul_assoc]
          rfl
        rw [← hlen, hbase] at hnear
        simp only [direntPerSector] at *
        omega
      rw [← hrun] at long hfile
      rw [List.filterMap_cons_some (f := Item.described) rfl,
        List.length_cons] at hroom
      obtain ⟨s', hstep, hholds', hprev', hfresh, hdone⟩ := entryStep_file hread
        hholds hi (by omega) hpos hprev live attrib short long hnear hfile
        (by omega)
      refine ⟨s', hstep, hholds', _, 0, _, Nat.add_zero _, next,
        fun item hitem => hsupported item (List.mem_cons_of_mem _ hitem),
        by simp [hprev'], ?_, by omega⟩
      rw [hdone, hrun, List.append_assoc, ← htotal]
      rfl

theorem sectorStep_atEntry
    (hread : ∀ sector, vol.disk.readable vol.drive sector = true)
    (hsectors : g.sectorsPerCluster < 256) (hk : k < g.sectorsPerCluster)
    (hat : AtEntry vol g cluster (clusterSize g * m) tail total
      (direntPerSector * k) s) :
    ∃ s', sectorStep vol g cluster s k = .ok s' ∧
      AtEntry vol g cluster (clusterSize g * m) tail total
        (direntPerSector * (k + 1)) s' := by
  obtain ⟨buf, hholds, hbuf⟩ := readOrReturn_holds hread g cluster k s
  obtain ⟨s', hrun, _, hat'⟩ : ∃ s', (List.range direntPerSector).foldlM
      (entryStep vol g cluster k) { s with direntry := buf } = .ok s' ∧ _ :=
    exists_foldlM_range (fun i s => Holds vol g cluster k s.direntry ∧
      AtEntry vol g cluster (clusterSize g * m) tail total
        (direntPerSector * k + i) s) direntPerSector ⟨hholds, hat⟩
      (fun i s hi ⟨hholds, hat⟩ =>
        entryStep_atEntry hread hsectors hholds hi hk hat)
  refine ⟨s', ?_, hat'⟩
  rw [sectorStep, hbuf]
  exact hrun

theorem sectors_atEntry
    (hread : ∀ sector, vol.disk.readable vol.drive sector = true)
    (hsectors : g.sectorsPerCluster < 256)
    (hat : AtEntry vol g cluster (clusterSize g * m) tail total 0 s) :
    ∃ s', (List.range g.sectorsPerCluster).foldlM (sectorStep vol g cluster) s =
        .ok s' ∧
      AtEntry vol g cluster (clusterSize g * m) tail total (clusterSize g) s' :=
  exists_foldlM_range (fun k s => AtEntry vol g cluster (clusterSize g * m)
    tail total (direntPerSector * k) s) g.sectorsPerCluster hat
    (fun _ _ hk hat => sectorStep_atEntry hread hsectors hk hat)

end Entries

/-! ## The chain -/

theorem Reads.exists_file {pos : ℕ} {run rest : List Buffer}
    {items : List Item} (hreads : Reads pos run rest items) (hrun : run ≠ []) :
    ∃ pos' run' e, Item.file pos' run' e ∈ items ∧ pos ≤ pos' ∧
      run'.length = run.length + (pos' - pos) := by
  induction hreads with
  | done => exact absurd rfl hrun
  | deleted => exact absurd rfl hrun
  | label => exact absurd rfl hrun
  | @slot pos run e rest items live attrib next ih =>
      obtain ⟨pos', run', e', hmem, hle, hlen⟩ := ih (by simp)
      rw [List.length_append, List.length_singleton] at hlen
      exact ⟨pos', run', e', hmem, by omega, by omega⟩
  | @file pos run e rest items live attrib short long next ih =>
      exact ⟨pos, run, e, List.mem_cons_self .., le_rfl, by omega⟩

/-- Supported runs do not go over the end of a cluster. -/
theorem Reads.run_eq_nil {size m : ℕ} {run rest : List Buffer}
    {items : List Item} (hreads : Reads (size * (m + 1)) run rest items)
    (hsupported : ∀ item ∈ items, item.Supported size)
    (hlen : run.length ≤ size) : run = [] := by
  by_contra hrun
  have hpos : 0 < run.length := List.length_pos_iff.mpr hrun
  obtain ⟨pos, run', e, hmem, hle, hlen'⟩ := hreads.exists_file hrun
  have hsame := (hsupported _ hmem).1
  have hlow : (pos - run'.length) / size < m + 1 := by
    have hone : size ≤ size * (m + 1) := Nat.le_mul_of_pos_right _ (by omega)
    rw [Nat.div_lt_iff_lt_mul (by omega), Nat.mul_comm]
    omega
  have hhigh : m + 1 ≤ pos / size := by
    rw [Nat.le_div_iff_mul_le (by omega), Nat.mul_comm]
    exact hle
  omega

theorem fat32RdFAT_eq
    (hread : ∀ sector, vol.disk.readable vol.drive sector = true)
    (g : Globals) (cluster : ℕ) :
    fat32RdFAT vol g cluster =
      if fatEntry vol g cluster = fatEofMarker then 0
      else fatEntry vol g cluster :=
  fat32RdFAT_of_readable (hread _)

/-- One cluster: the files that end in it get their nodes, and the entries
behind it are read on. -/
theorem cluster_lists {m : ℕ} {tail : List Buffer} {items : List Item}
    {c : ListCursor} (direntry : Buffer)
    (hread : ∀ sector, vol.disk.readable vol.drive sector = true)
    (hsectors : g.sectorsPerCluster < 256)
    (hreads : Reads (clusterSize g * m) []
      (slotsAt vol g cluster 0 (clusterSize g) ++ tail) items)
    (hsupported : ∀ item ∈ items, item.Supported (clusterSize g))
    (hroom : (items.filterMap Item.described).length ≤ c.fresh.length) :
    ∃ s' items', (List.range g.sectorsPerCluster).foldlM
        (sectorStep vol g cluster) ⟨direntry, 0, c⟩ = .ok s' ∧
      Reads (clusterSize g * (m + 1)) [] tail items' ∧
      (∀ item ∈ items', item.Supported (clusterSize g)) ∧
      s'.list.done.map described ++ items'.filterMap Item.described =
        c.done.map described ++ items.filterMap Item.described ∧
      (items'.filterMap Item.described).length ≤ s'.list.fresh.length := by
  obtain ⟨s', hrun, p, n, items', hpos, hreads', hsupported', _, htotal, hroom'⟩ :=
    sectors_atEntry (s := ⟨direntry, 0, c⟩) hread hsectors
      ⟨0, 0, items, rfl, hreads, hsupported, by simp, rfl, hroom⟩
  rw [Nat.sub_self, ← Nat.mul_succ] at hreads'
  have hnil : slotsAt vol g cluster p n = [] :=
    hreads'.run_eq_nil hsupported' (by rw [slotsAt_length]; omega)
  rw [hnil] at hreads'
  exact ⟨s', items', hrun, hreads', hsupported', htotal, hroom'⟩

/-- Along a chain the nodes for its files are added to the list. -/
theorem fat32RdCluster_lists {chain : List ℕ} {items : List Item}
    {m fuel : ℕ} {c : ListCursor} (direntry : Buffer)
    (hread : ∀ sector, vol.disk.readable vol.drive sector = true)
    (hsectors : g.sectorsPerCluster < 256)
    (hclusters : ∀ next ∈ cluster :: chain, 2 ≤ next ∧ next < 0x0FFFFFF7)
    (hlinked : (cluster :: chain).IsChain fun a b => fatLink vol g a = b)
    (hreserved : ∀ next ∈ cluster :: chain, fatEntry vol g next < 2 ^ 28)
    (hmarker : ∀ last ∈ (cluster :: chain).getLast?,
      fatEntry vol g last = fatEofMarker)
    (hreads : Reads (clusterSize g * m) [] ((cluster :: chain).flatMap
      fun next => slotsAt vol g next 0 (clusterSize g)) items)
    (hsupported : ∀ item ∈ items, item.Supported (clusterSize g))
    (hroom : (items.filterMap Item.described).length ≤ c.fresh.length)
    (hfuel : chain.length < fuel) :
    ∃ code c', fat32RdCluster vol g direntry fuel cluster c = .ok (code, c') ∧
      c'.done.map described =
        c.done.map described ++ items.filterMap Item.described ∧
      c'.temp.name = [] := by
  induction chain generalizing cluster m fuel c items with
  | nil =>
      obtain ⟨fuel, rfl⟩ : ∃ n, fuel = n + 1 := ⟨fuel - 1, by omega⟩
      obtain ⟨s', items', hrun, hreads', _, htotal, _⟩ :=
        cluster_lists direntry hread hsectors hreads hsupported hroom
      have hlast : fat32RdFAT vol g cluster = 0 := by
        rw [fat32RdFAT_eq hread, if_pos (hmarker cluster rfl)]
      cases hreads'
      rw [List.filterMap_nil, List.append_nil] at htotal
      refine ⟨success, clearName s'.list, ?_, htotal, rfl⟩
      rw [fat32RdCluster, hrun]
      simp only [hlast]
      rfl
  | cons next chain ih =>
      obtain ⟨fuel, rfl⟩ : ∃ n, fuel = n + 1 := ⟨fuel - 1, by omega⟩
      rw [List.flatMap_cons] at hreads
      obtain ⟨s', items', hrun, hreads', hsupported', htotal, hroom'⟩ :=
        cluster_lists direntry hread hsectors hreads hsupported hroom
      rw [List.isChain_cons_cons] at hlinked
      obtain ⟨hlink, hlinked⟩ := hlinked
      have hnext : fat32RdFAT vol g cluster = next := by
        have hentry : fatEntry vol g cluster = next := by
          rw [← hlink, fatLink, Nat.mod_eq_of_lt (hreserved cluster (by simp))]
        have hlt := (hclusters next (by simp)).2
        rw [fat32RdFAT_eq hread, hentry, if_neg]
        simp only [fatEofMarker]
        omega
      obtain ⟨hge, hlt⟩ := hclusters next (by simp)
      have hgo : isError next = false := isError_of_lt (hlt.trans (by decide))
      obtain ⟨code, c', hrest, hdone, hname⟩ := ih
        (fun a ha => hclusters a (List.mem_cons_of_mem _ ha)) hlinked
        (fun a ha => hreserved a (List.mem_cons_of_mem _ ha))
        (fun last hlast => hmarker last (by simpa using hlast)) hreads'
        hsupported' hroom' (by simpa using hfuel)
      refine ⟨success, clearName c', ?_, by rw [← htotal]; exact hdone, rfl⟩
      rw [fat32RdCluster, hrun]
      simp only [hnext, hgo, Bool.false_eq_true, if_false,
        if_neg (show next ≠ 0 by omega), hrest]
      rfl

section Directory

variable {direntry : Buffer} {first : FsProperties} {fresh : List FreshBlock}

theorem FatDirectory.chain_length_lt (dir : FatDirectory vol g) :
    dir.chain.length < chainFuel := by
  have hsub : dir.chain.toFinset ⊆ Finset.range 0x0FFFFFF7 := by
    intro a ha
    rw [List.mem_toFinset] at ha
    exact Finset.mem_range.mpr (dir.clusters a ha).2
  have hcard := Finset.card_le_card hsub
  rw [List.toFinset_card_of_nodup dir.nodup, Finset.card_range] at hcard
  simp only [chainFuel]
  omega

/-- The driver lists every supported directory. -/
theorem FatDirectory.lists_of_supported (dir : FatDirectory vol g)
    (hsupported : dir.Supported fresh.length) :
    dir.Lists direntry first fresh := by
  obtain ⟨hitems, hreserved, hmarker, hnodes⟩ := hsupported
  have hclusters := dir.clusters
  have hlinked := dir.linked
  have hreads := dir.reads
  have hfuel := dir.chain_length_lt
  unfold FatDirectory.Lists
  cases hchain : dir.chain with
  | nil => exact absurd hchain dir.chain_ne
  | cons cluster chain =>
      rw [hchain] at hclusters hlinked hreserved hmarker hreads hfuel
      rw [List.length_cons] at hfuel
      obtain ⟨code, c, hrun, hdone, hname⟩ := fat32RdCluster_lists
        (m := 0) (c := ⟨[], first, fresh⟩) direntry dir.readable dir.sectors_lt
        hclusters hlinked hreserved hmarker hreads hitems hnodes
        (Nat.lt_of_succ_lt hfuel)
      exact ⟨code, c, hrun, hdone, hname⟩

end Directory

/-! ## A long name in one cluster, and one in two -/

/-- The only slot of the long name `ab`. -/
def abSlot : List UInt8 :=
  [0x41, 97, 0, 98, 0, 0, 0, 255, 255, 255, 255, 0x0F, 0, 0] ++
    List.replicate 12 255 ++ [0, 0] ++ List.replicate 4 255

def aEntry : List UInt8 := dirEntry (65 :: List.replicate 10 32) 0x20 5 1

/-- Cluster 4 holds a volume label and the file `ab`.  In the clusters 2 and
3 the slot of the name is the last entry of the first one. -/
def namedVolume : Volume :=
  smallVolume [0, 0, 3, 0x0FFFFFFF, 0x0FFFFFFF] fun n =>
    if n = 2 then List.replicate 15 [0xE5] ++ [abSlot]
    else if n = 3 then [aEntry]
    else if n = 4 then [dirEntry (List.replicate 11 86) 0x08 0 0, abSlot, aEntry]
    else []

def namedEntry (cluster s : ℕ) : Buffer := entryAt namedVolume smallGlobals cluster s

theorem abSlot_longRun {cluster s : ℕ}
    (hslot : cluster = 2 ∧ s = 15 ∨ cluster = 4 ∧ s = 1) :
    LongRun [namedEntry cluster s] := by
  rcases hslot with ⟨rfl, rfl⟩ | ⟨rfl, rfl⟩
  all_goals
    refine ⟨?_, by decide, by decide⟩
    intro j slot hj
    cases j with
    | zero =>
        cases hj
        decide
    | succ j => cases hj

def oneClusterDirectory : FatDirectory namedVolume smallGlobals where
  chain := [4]
  items := [.label (namedEntry 4 0), .file 2 [namedEntry 4 1] (namedEntry 4 2)]
  chain_ne := by decide
  nodup := by decide
  clusters := by decide
  linked := by decide
  ended := by decide
  readable := fun _ => rfl
  sectors_lt := by decide
  reads := by
    refine .label (by decide) (by decide) (by decide) (.slot (by decide)
      (by decide) (.file (by decide) (by decide) (by decide)
        (abSlot_longRun (Or.inr ⟨rfl, rfl⟩)) (.done ?_)))
    decide

def twoClusterDirectory : FatDirectory namedVolume smallGlobals where
  chain := [2, 3]
  items := [.file 16 [namedEntry 2 15] (namedEntry 3 0)]
  chain_ne := by decide
  nodup := by decide
  clusters := by decide
  linked := by decide
  ended := by decide
  readable := fun _ => rfl
  sectors_lt := by decide
  reads := by
    iterate 15 refine .deleted (by decide) ?_
    refine .slot (by decide) (by decide) (.file (by decide) (by decide)
      (by decide) (abSlot_longRun (Or.inl ⟨rfl, rfl⟩)) (.done ?_))
    decide

theorem lists_of_supported_oneCluster :
    oneClusterDirectory.Lists (fun _ => 0) blank.node [blank] := by
  apply FatDirectory.lists_of_supported
  exact {
    items := by decide
    reserved := by decide
    marker := by decide
    nodes := by decide }

/-- The slot in cluster 2 is forgotten: the file is listed by its 8.3 name. -/
theorem name_across_clusters_missed :
    ¬ twoClusterDirectory.Lists (fun _ => 0) blank.node [blank] := by
  rintro ⟨code, c, hrun, hdone, _⟩
  have hshort : (fat32RdCluster namedVolume smallGlobals (fun _ => 0) chainFuel 2
      ⟨[], blank.node, [blank]⟩).toOption.map
        (fun r => r.2.done.map FsProperties.name) = some [[65]] := by
    decide +kernel
  have hrun' : fat32RdCluster namedVolume smallGlobals (fun _ => 0) chainFuel 2
      ⟨[], blank.node, [blank]⟩ = .ok (code, c) := hrun
  rw [hrun'] at hshort
  have hnames : c.done.map FsProperties.name = [[65]] := Option.some.inj hshort
  have hlong := congrArg (List.map Described.name) hdone
  rw [List.map_map, show Described.name ∘ described = FsProperties.name from rfl,
    hnames] at hlong
  revert hlong
  decide

end Fat32
end Janus86
