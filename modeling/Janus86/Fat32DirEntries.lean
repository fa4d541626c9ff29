import Janus86.Fat32EntryLog
import Janus86.Fat32SlotsBack

/-!
# The entries of a FAT32 directory

Which entries a listing comes to, and with which names, can be read off the disk.
A short entry takes its 8.3 name; behind a slot it takes what the entries in front
of it make.  A call goes on as far as its sectors can be read, its names have to fit
into their field, and there has to be a node for each of them: with this, nothing
but the links of the FAT decides whether a listing comes back.
-/

namespace Janus86
namespace Fat32

open StepMachine

/-! ## What is on the disk -/

/-- The sector whose entries are gone through, and the attribute of the last entry
in use. -/
structure Reading where
  sector : ℕ
  prev : ℕ

/-- The entries from there on, and where that leads; nowhere if a sector cannot be
read. -/
abbrev EntriesRead := List EntryWrite × Option Reading

section Disk

variable (vol : Volume) (g : Globals) (cluster : ℕ)

def Reading.entry (r : Reading) (i : ℕ) : Buffer :=
  entryAt vol g cluster (direntPerSector * r.sector + i)

def Reading.remember (i : ℕ) (r : Reading) : Reading :=
  if isLive (r.entry vol g cluster i 0) then
    { r with prev := attribOf (r.entry vol g cluster i) 0 }
  else r

/-- The name made by the slots in front. -/
def SlotsBack.write (t : SlotsBack) : NameWrite :=
  if t.Whole vol g cluster then .put t.name else .leave t.name

/-- An entry behind a slot.  For the first entry of a sector the sector before is read,
and then its own again. -/
def longRead (k i : ℕ) (r : Reading) : NameWrite × Option Reading :=
  if i = 0 then
    if sectorReadable vol g cluster (sub32 k 1) = true then
      ((slotsInFront vol g cluster (sub32 k 1) k direntPerSector).write vol g cluster,
        if sectorReadable vol g cluster k = true then some ⟨k, 0⟩ else none)
    else (.keep, none)
  else
    ((slotsInFront vol g cluster r.sector k i).write vol g cluster,
      some ⟨(slotsInFront vol g cluster r.sector k i).sector vol g cluster, 0⟩)

/-- Entry `i`, if it is neither a slot nor a label. -/
def entryRead (k : ℕ) (r : Reading) (i : ℕ) : EntriesRead :=
  let e := r.entry vol g cluster i
  if attribOf e 0 ≠ 0x0F ∧ attribOf e 0 ≠ 0x08 then
    let (name, next) :=
      if r.prev = 0x0F then longRead vol g cluster k i r else (shortWrite e 0, some r)
    ([⟨e 11, startCluster e 0, le32 e 28, name⟩],
      next.map (Reading.remember vol g cluster i))
  else ([], some (r.remember vol g cluster i))

/-- On from where that leads. -/
def EntriesRead.andThen (y : EntriesRead) (next : Reading → EntriesRead) : EntriesRead :=
  match y.2 with
  | none => y
  | some r => (y.1 ++ (next r).1, (next r).2)

/-- One step after the other, as long as they lead on. -/
def foldRead (step : Reading → ℕ → EntriesRead) : List ℕ → Reading → EntriesRead
  | [], r => ([], some r)
  | i :: is, r => (step r i).andThen (foldRead step is)

def sectorRead (r : Reading) (k : ℕ) : EntriesRead :=
  if sectorReadable vol g cluster k = true then
    foldRead (entryRead vol g cluster k) (List.range direntPerSector) ⟨k, r.prev⟩
  else ([], none)

/-- The entries of a cluster. -/
def clusterRead : EntriesRead :=
  foldRead (sectorRead vol g cluster) (List.range g.sectorsPerCluster) ⟨0, 0⟩

end Disk

/-- The entries of these clusters, up to the first sector that cannot be read. -/
def entriesOf (vol : Volume) (g : Globals) : List ℕ → List EntryWrite
  | [] => []
  | cluster :: clusters =>
      match (clusterRead vol g cluster).2 with
      | none => (clusterRead vol g cluster).1
      | some _ => (clusterRead vol g cluster).1 ++ entriesOf vol g clusters

/-- The field `filename` has 255 bytes. -/
def NameWrite.InField : NameWrite → Prop
  | .keep => True
  | .leave name | .put name => name.length ≤ 255

/-- There is room for the name, with its NUL if it gets one. -/
def NameWrite.Fits : NameWrite → Prop
  | .keep => True
  | .leave name => name.length ≤ 255
  | .put name => name.length < 255

/-- A node is taken behind a name with its NUL. -/
def NameWrite.takesNode : NameWrite → Bool
  | .put _ => true
  | _ => false

/-- The names of these entries fit, and there is a node for each that takes one. -/
structure EntriesFit (entries : List EntryWrite) (nodes : ℕ) : Prop where
  names : ∀ w ∈ entries, w.name.Fits
  nodes : entries.countP (fun w => w.name.takesNode) ≤ nodes

/-! ## Walks and what they read -/

variable {vol : Volume} {g : Globals} {cluster : ℕ}

/-- The ends of a walk and of what is on the disk. -/
def Meet (R : WalkState → Reading → Prop) : Except Leave WalkState → Option Reading → Prop
  | .ok w, some r => R w r
  | .error (.ret _), none => True
  | _, _ => False

/-- A walk whose log is what is on the disk, unless a name leaves its field: that ends
the walk with a fault. -/
structure Logs (R : WalkState → Reading → Prop) (x : Walked WalkState) (y : EntriesRead) :
    Prop where
  inside : (∀ w ∈ y.1, w.name.InField) → x.log = y.1 ∧ Meet R x.result y.2
  outside : ¬ (∀ w ∈ y.1, w.name.InField) → ∃ e, x.result = .error (.fault e)

theorem Logs.mono {R R' : WalkState → Reading → Prop} {x : Walked WalkState}
    {y : EntriesRead} (hlogs : Logs R x y) (hle : ∀ w r, R w r → R' w r) : Logs R' x y := by
  refine ⟨fun hin => ⟨(hlogs.inside hin).1, ?_⟩, hlogs.outside⟩
  have hmeet := (hlogs.inside hin).2
  revert hmeet
  rcases x.result with (e | code) | w
  · exact id
  · rcases y.2 with - | r
    · exact id
    · exact id
  · rcases y.2 with - | r
    · exact id
    · exact hle w r

theorem meet_cases {R : WalkState → Reading → Prop} {result : Except Leave WalkState}
    {next : Option Reading} (hmeet : Meet R result next) :
    (∃ code, result = .error (.ret code) ∧ next = none) ∨
      ∃ w r, result = .ok w ∧ next = some r ∧ R w r := by
  rcases result with (e | code) | w
  · exact absurd hmeet id
  · rcases next with - | r
    · exact .inl ⟨code, rfl, rfl⟩
    · exact absurd hmeet id
  · rcases next with - | r
    · exact absurd hmeet id
    · exact .inr ⟨w, r, rfl, rfl, hmeet⟩

theorem Logs.bind {R R' : WalkState → Reading → Prop} {x : Walked WalkState}
    {y : EntriesRead} {f : WalkState → Walked WalkState} {next : Reading → EntriesRead}
    (hx : Logs R x y) (hf : ∀ w r, R w r → Logs R' (f w) (next r)) :
    Logs R' (x >>= f) (y.andThen next) := by
  by_cases hin : ∀ w ∈ y.1, w.name.InField
  · obtain ⟨hlog, hmeet⟩ := hx.inside hin
    rcases meet_cases hmeet with ⟨code, hret, hnone⟩ | ⟨w, r, hok, hsome, hR⟩
    · have hlast : y.andThen next = y := by rw [EntriesRead.andThen, hnone]
      rw [hlast, Walked.bind_of_error hret]
      refine ⟨fun _ => ⟨hlog, ?_⟩, fun hout => absurd hin hout⟩
      rw [hnone]
      trivial
    · have hmore : y.andThen next = (y.1 ++ (next r).1, (next r).2) := by
        rw [EntriesRead.andThen, hsome]
      have hrest := hf w r hR
      rw [hmore, Walked.bind_of_ok hok]
      refine ⟨fun hall => ?_, fun hout => hrest.outside fun hmoreIn => hout ?_⟩
      · have hmoreIn := (List.forall_mem_append.mp hall).2
        exact ⟨by rw [hlog, (hrest.inside hmoreIn).1], (hrest.inside hmoreIn).2⟩
      · exact List.forall_mem_append.mpr ⟨hin, hmoreIn⟩
  · obtain ⟨e, hfault⟩ := hx.outside hin
    rw [Walked.bind_of_error hfault]
    refine ⟨fun hall => absurd (fun w hw => hall w ?_) hin, fun _ => ⟨e, rfl⟩⟩
    rw [EntriesRead.andThen]
    split
    · exact hw
    · exact List.mem_append_left _ hw

theorem Logs.foldlM {R : WalkState → Reading → Prop}
    {walk : WalkState → ℕ → Walked WalkState} {step : Reading → ℕ → EntriesRead}
    {is : List ℕ} (hstep : ∀ i ∈ is, ∀ w r, R w r → Logs R (walk w i) (step r i))
    {w : WalkState} {r : Reading} (hstart : R w r) :
    Logs R (is.foldlM walk w) (foldRead step is r) := by
  induction is generalizing w r with
  | nil => exact ⟨fun _ => ⟨rfl, hstart⟩, fun hout => absurd (fun _ h => by cases h) hout⟩
  | cons i is ih =>
      rw [List.foldlM_cons, foldRead]
      exact (hstep i List.mem_cons_self w r hstart).bind fun w' r' h =>
        ih (fun j hj => hstep j (List.mem_cons_of_mem i hj)) h

/-! ## One entry -/

/-- The buffer holds that sector. -/
structure InBuffer (vol : Volume) (g : Globals) (cluster : ℕ) (w : WalkState)
    (r : Reading) : Prop where
  prev : w.prev = r.prev
  holds : Holds vol g cluster r.sector w.direntry

theorem longNameWrite_eq {held i : ℕ} {buf : Buffer} (hholds : Holds vol g cluster held buf)
    (hi : i ≤ direntPerSector) (k : ℕ) :
    (255 < (slotsInFront vol g cluster held k i).name.length →
      longNameWrite vol g cluster buf i k = .error .outOfBounds) ∧
    ((slotsInFront vol g cluster held k i).name.length ≤ 255 →
      ∃ buf', longNameWrite vol g cluster buf i k =
          .ok (buf', (slotsInFront vol g cluster held k i).write vol g cluster) ∧
        Holds vol g cluster ((slotsInFront vol g cluster held k i).sector vol g cluster)
          buf') := by
  obtain ⟨hover, hfits⟩ := takes_inFront hholds hi k
  refine ⟨fun hlong => ?_, fun hshort => ?_⟩
  · rw [longNameWrite, hover hlong]
    rfl
  · obtain ⟨s, hrun, hended⟩ := hfits hshort
    rw [longNameWrite, hrun, Option.getD_some, ok_bind, SlotsBack.write]
    dsimp only
    by_cases hmarked : (slotsInFront vol g cluster held k i).marked = true
    · rw [if_pos hmarked]
      rcases hended.lastRead hmarked with ⟨hnone, hpart⟩ | ⟨hwhole, buf', hsome, hlast⟩
      · rw [hnone, if_neg hpart, hended.name]
        refine ⟨s.buf, rfl, ?_⟩
        rw [SlotsBack.sector, if_neg fun h => hpart h.1]
        exact hended.holds
      · rw [hsome, if_pos hwhole, hended.name]
        exact ⟨buf', rfl, hlast⟩
    · have hpart : ¬ (slotsInFront vol g cluster held k i).Whole vol g cluster :=
        fun hwhole => hmarked hwhole.1
      rw [if_neg hmarked, if_neg hpart, hended.name]
      refine ⟨s.buf, rfl, ?_⟩
      rw [SlotsBack.sector, if_neg fun h => hpart h.1]
      exact hended.holds

/-- What a call for a long name does, and what is on the disk. -/
structure NameLogs (vol : Volume) (g : Globals) (cluster : ℕ)
    (x : NameWrite × Except Leave WalkState) (y : NameWrite × Option Reading) : Prop where
  inside : y.1.InField → x.1 = y.1 ∧ Meet (InBuffer vol g cluster) x.2 y.2
  outside : ¬ y.1.InField → ∃ e, x.2 = .error (.fault e)

theorem inField_write (t : SlotsBack) :
    (t.write vol g cluster).InField ↔ t.name.length ≤ 255 := by
  unfold SlotsBack.write
  split <;> exact Iff.rfl

theorem longWalk_logs {w : WalkState} {r : Reading} {i : ℕ}
    (hat : InBuffer vol g cluster w r) (hi : i < direntPerSector) (k : ℕ) :
    NameLogs vol g cluster (longWalk vol g cluster k i w.direntry)
      (longRead vol g cluster k i r) := by
  unfold longWalk longRead
  by_cases hfirst : i = 0
  · rw [if_pos hfirst, if_pos hfirst]
    by_cases hbefore : sectorReadable vol g cluster (sub32 k 1) = true
    · obtain ⟨before, hbuf, hholds⟩ := readDiskSector_one w.direntry hbefore
      have hsome : readClusterSector vol g cluster (sub32 k 1) w.direntry = some before :=
        hbuf
      obtain ⟨hover, hfits⟩ := longNameWrite_eq hholds le_rfl k
      rw [if_pos hbefore, hsome]
      dsimp only
      constructor
      · intro hin
        obtain ⟨buf', hname, _⟩ := hfits ((inField_write _).mp hin)
        rw [hname]
        dsimp only
        by_cases hagain : sectorReadable vol g cluster k = true
        · obtain ⟨again, hagain', hholds'⟩ := readDiskSector_one buf' hagain
          have hread : readClusterSector vol g cluster k buf' = some again := hagain'
          rw [if_pos hagain, hread]
          exact ⟨rfl, rfl, hholds'⟩
        · rw [if_neg hagain, readClusterSector_of_unreadable hagain]
          exact ⟨rfl, trivial⟩
      · intro hout
        rw [hover (Nat.lt_of_not_le fun hle => hout ((inField_write _).mpr hle))]
        exact ⟨_, rfl⟩
    · rw [if_neg hbefore, readClusterSector_of_unreadable hbefore]
      exact ⟨fun _ => ⟨rfl, trivial⟩, fun hout => absurd trivial hout⟩
  · rw [if_neg hfirst, if_neg hfirst]
    obtain ⟨hover, hfits⟩ := longNameWrite_eq hat.holds hi.le k
    constructor
    · intro hin
      obtain ⟨buf', hname, hholds⟩ := hfits ((inField_write _).mp hin)
      rw [hname]
      exact ⟨rfl, rfl, hholds⟩
    · intro hout
      rw [hover (Nat.lt_of_not_le fun hle => hout ((inField_write _).mpr hle))]
      exact ⟨_, rfl⟩

theorem InBuffer.remember {w : WalkState} {r : Reading} {i : ℕ}
    (hat : InBuffer vol g cluster w r) (hi : i < direntPerSector) :
    InBuffer vol g cluster (w.remember i) (r.remember vol g cluster i) := by
  have hfirst := hat.holds.first hi
  have hattrib := hat.holds.attribOf hi
  unfold WalkState.remember Reading.remember Reading.entry
  rw [hfirst]
  split
  · exact ⟨hattrib, hat.holds⟩
  · exact hat

theorem Meet.remember {result : Except Leave WalkState} {next : Option Reading} {i : ℕ}
    (hmeet : Meet (InBuffer vol g cluster) result next) (hi : i < direntPerSector) :
    Meet (InBuffer vol g cluster) (result.map (WalkState.remember i))
      (next.map (Reading.remember vol g cluster i)) := by
  rcases meet_cases hmeet with ⟨code, rfl, rfl⟩ | ⟨w, r, rfl, rfl, hat⟩
  · trivial
  · exact hat.remember hi

theorem shortWrite_inField (e : Buffer) : (shortWrite e 0).InField := by
  unfold shortWrite
  split
  · exact (shortName_length e).le
  · trivial

/-- The name of the short entry, behind a slot or not. -/
theorem nameWalk_logs {w : WalkState} {r : Reading} {i : ℕ}
    (hat : InBuffer vol g cluster w r) (hi : i < direntPerSector) (k : ℕ) :
    NameLogs vol g cluster
      (if w.prev = 0x0F then longWalk vol g cluster k i w.direntry
        else (shortWrite w.direntry i, .ok w))
      (if r.prev = 0x0F then longRead vol g cluster k i r
        else (shortWrite (r.entry vol g cluster i) 0, some r)) := by
  rw [hat.prev]
  by_cases hprev : r.prev = 0x0F
  · rw [if_pos hprev, if_pos hprev]
    exact longWalk_logs hat hi k
  · have hshort : shortWrite w.direntry i = shortWrite (r.entry vol g cluster i) 0 := by
      unfold shortWrite
      rw [hat.holds.first hi, hat.holds.shortName hi]
      rfl
    rw [if_neg hprev, if_neg hprev, hshort]
    exact ⟨fun _ => ⟨rfl, hat⟩, fun hout => absurd (shortWrite_inField _) hout⟩

/-- The walk over entry `i` of the sector in the buffer. -/
theorem entryWalk_logs {w : WalkState} {r : Reading} {i : ℕ}
    (hat : InBuffer vol g cluster w r) (hi : i < direntPerSector) (k : ℕ) :
    Logs (InBuffer vol g cluster) (entryWalk vol g cluster k w i)
      (entryRead vol g cluster k r i) := by
  have hattrib := hat.holds.attribOf hi
  have hmade : w.direntry (32 * i + 11) = r.entry vol g cluster i 11 :=
    hat.holds.entry hi (by decide)
  have hstart := hat.holds.startCluster hi
  have hsize := hat.holds.le32 (o := 28) hi (by decide)
  unfold entryWalk entryRead
  dsimp only
  rw [hattrib, hmade, hstart, hsize]
  by_cases hfile : attribOf (r.entry vol g cluster i) 0 ≠ 0x0F ∧
      attribOf (r.entry vol g cluster i) 0 ≠ 0x08
  · have hlogs := nameWalk_logs hat hi k
    rw [if_pos hfile]
    unfold Reading.entry at hfile hlogs ⊢
    rw [if_pos hfile]
    constructor
    · intro hin
      obtain ⟨hname, hmeet⟩ := hlogs.inside (hin _ List.mem_cons_self)
      exact ⟨by rw [hname], hmeet.remember hi⟩
    · intro hout
      obtain ⟨e, hfault⟩ := hlogs.outside fun hin => hout fun w hw => by
        rw [List.mem_singleton.mp hw]
        exact hin
      rw [hfault]
      exact ⟨e, rfl⟩
  · rw [if_neg hfile]
    unfold Reading.entry at hfile ⊢
    rw [if_neg hfile]
    exact ⟨fun _ => ⟨rfl, hat.remember hi⟩, fun hout => absurd (fun _ h => by cases h) hout⟩

/-! ## Sectors and clusters -/

theorem sectorWalk_logs {w : WalkState} {r : Reading} (hprev : w.prev = r.prev) (k : ℕ) :
    Logs (fun w r => w.prev = r.prev) (sectorWalk vol g cluster w k)
      (sectorRead vol g cluster r k) := by
  unfold sectorWalk sectorRead readWalk
  by_cases hread : sectorReadable vol g cluster k = true
  · obtain ⟨buf, hbuf, hholds⟩ := readDiskSector_one w.direntry hread
    have hsome : readClusterSector vol g cluster k w.direntry = some buf := hbuf
    rw [if_pos hread, hsome]
    have hentries : Logs (InBuffer vol g cluster)
        ((List.range direntPerSector).foldlM (entryWalk vol g cluster k)
          { w with direntry := buf })
        (foldRead (entryRead vol g cluster k) (List.range direntPerSector) ⟨k, r.prev⟩) :=
      Logs.foldlM (fun i hi _ _ hat => entryWalk_logs hat (List.mem_range.mp hi) k)
        ⟨hprev, hholds⟩
    exact hentries.mono fun _ _ hat => hat.prev
  · rw [if_neg hread, readClusterSector_of_unreadable hread]
    exact ⟨fun _ => ⟨rfl, trivial⟩, fun hout => absurd (fun _ h => by cases h) hout⟩

theorem clusterWalk_logs (direntry : Buffer) :
    Logs (fun w r => w.prev = r.prev) (clusterWalk vol g direntry cluster)
      (clusterRead vol g cluster) :=
  Logs.foldlM (fun k _ _ _ hprev => sectorWalk_logs hprev k) rfl

/-! ## Names and nodes -/

/-- The nodes that are taken behind these entries. -/
def nodesFor (entries : List EntryWrite) : ℕ :=
  entries.countP fun w => w.name.takesNode

theorem NameWrite.Fits.inField {name : NameWrite} (hfits : name.Fits) : name.InField := by
  cases name with
  | keep => trivial
  | leave name => exact hfits
  | put name => exact Nat.le_of_lt hfits

theorem entriesFit_append {a b : List EntryWrite} {n : ℕ} :
    EntriesFit (a ++ b) n ↔ EntriesFit a n ∧ EntriesFit b (n - nodesFor a) := by
  have hcount : nodesFor (a ++ b) = nodesFor a + nodesFor b := List.countP_append
  constructor
  · rintro ⟨hnames, hnodes⟩
    have hle : nodesFor (a ++ b) ≤ n := hnodes
    obtain ⟨ha, hb⟩ := List.forall_mem_append.mp hnames
    exact ⟨⟨ha, show nodesFor a ≤ n by omega⟩, hb, show nodesFor b ≤ _ by omega⟩
  · rintro ⟨⟨ha, hle⟩, hb, hrest⟩
    have ha' : nodesFor a ≤ n := hle
    have hb' : nodesFor b ≤ n - nodesFor a := hrest
    exact ⟨List.forall_mem_append.mpr ⟨ha, hb⟩, show nodesFor (a ++ b) ≤ n by omega⟩

/-- What a list comes to with these entries, which may take so many nodes. -/
def Comes (entries : List EntryWrite) (n : ℕ) (result : Except Fault ListCursor) : Prop :=
  EntriesFit entries n ∧
      (∃ c, result = .ok c ∧ c.fresh.length = n - nodesFor entries) ∨
    ¬ EntriesFit entries n ∧ ∃ e, result = .error e

theorem Comes.of_keep {w : EntryWrite} {n : ℕ} {c : ListCursor} (hfits : w.name.Fits)
    (hnode : w.name.takesNode = false) (hlen : c.fresh.length = n) :
    Comes [w] n (.ok c) := by
  have hzero : nodesFor [w] = 0 := by
    rw [nodesFor, List.countP_singleton, hnode]
    rfl
  refine Or.inl ⟨⟨List.forall_mem_singleton.mpr hfits, ?_⟩, c, rfl, ?_⟩
  · exact le_of_eq_of_le hzero (Nat.zero_le n)
  · rw [hlen, hzero, Nat.sub_zero]

/-- An entry with a finished name needs room for it and a node. -/
theorem entriesFit_put_iff {w : EntryWrite} {name : List UInt8} (hname : w.name = .put name)
    (n : ℕ) : EntriesFit [w] n ↔ name.length < 255 ∧ 0 < n := by
  have hone : nodesFor [w] = 1 := by
    rw [nodesFor, List.countP_singleton, hname]
    rfl
  constructor
  · rintro ⟨hnames, hnodes⟩
    have hput := List.forall_mem_singleton.mp hnames
    rw [hname] at hput
    exact ⟨hput, le_of_eq_of_le hone.symm hnodes⟩
  · rintro ⟨hput, hroom⟩
    refine ⟨List.forall_mem_singleton.mpr ?_, le_of_eq_of_le hone hroom⟩
    rw [hname]
    exact hput

/-- One entry, whose name stays in its field. -/
theorem comes_apply (w : EntryWrite) (c : ListCursor) (hin : w.name.InField) :
    Comes [w] c.fresh.length (w.apply c) := by
  unfold EntryWrite.apply
  cases hname : w.name with
  | keep => exact .of_keep (by rw [hname]; trivial) (by rw [hname]; rfl) rfl
  | leave name =>
      exact .of_keep (by rw [hname] at hin ⊢; exact hin) (by rw [hname]; rfl) rfl
  | put name =>
      have hone : nodesFor [w] = 1 := by
        rw [nodesFor, List.countP_singleton, hname]
        rfl
      unfold Comes
      rw [entriesFit_put_iff hname, hone]
      by_cases hput : name.length < 255
      · by_cases hroom : 0 < c.fresh.length
        · obtain ⟨c', hnext⟩ := nextNode_of_room (c := { w.fill c with
            temp := { (w.fill c).temp with
              filename := name ++ 0 :: (w.fill c).temp.filename.drop (name.length + 1) } })
            hroom
          have hlen : c'.fresh.length + 1 = c.fresh.length := (nextNode_ok hnext).2
          refine Or.inl ⟨⟨hput, hroom⟩, c', ?_, by omega⟩
          exact bind_eq_ok_iff.mpr ⟨_, setName_eq_ok_iff.mpr ⟨hput, rfl⟩, hnext⟩
        · have hnil : c.fresh = [] := List.length_eq_zero_iff.mp (by omega)
          refine Or.inr ⟨fun h => hroom h.2, .nullPointer, ?_⟩
          rw [NameWrite.apply, putName, setName_eq_ok_iff.mpr ⟨hput, rfl⟩, ok_bind, nextNode]
          rw [show (w.fill c).fresh = [] from hnil]
          rfl
      · refine Or.inr ⟨fun h => hput h.1, .outOfBounds, ?_⟩
        rw [NameWrite.apply, putName, FsProperties.setName, if_neg hput]
        rfl

/-- One entry after the other. -/
theorem comes_foldlM (entries : List EntryWrite) (c : ListCursor)
    (hin : ∀ w ∈ entries, w.name.InField) :
    Comes entries c.fresh.length (entries.foldlM EntryWrite.apply c) := by
  induction entries generalizing c with
  | nil =>
      refine Or.inl ⟨⟨fun _ h => absurd h List.not_mem_nil, Nat.zero_le _⟩, c, rfl, ?_⟩
      rw [nodesFor, List.countP_nil, Nat.sub_zero]
  | cons w entries ih =>
      obtain ⟨hfirst, hmore⟩ := List.forall_mem_cons.mp hin
      have hcons : EntriesFit (w :: entries) c.fresh.length ↔
          EntriesFit [w] c.fresh.length ∧
            EntriesFit entries (c.fresh.length - nodesFor [w]) :=
        entriesFit_append (a := [w])
      have hcount : nodesFor (w :: entries) = nodesFor [w] + nodesFor entries := by
        rw [← List.singleton_append]
        exact List.countP_append
      unfold Comes
      rw [hcons, List.foldlM_cons]
      rcases comes_apply w c hfirst with ⟨hfits, c', hok, hlen⟩ | ⟨hnot, e, herror⟩
      · have hrest := ih c' hmore
        rw [hlen] at hrest
        rw [hok, ok_bind, and_iff_right hfits]
        rcases hrest with ⟨hfits', c'', hok', hlen'⟩ | hrest
        · exact Or.inl ⟨hfits', c'', hok', by omega⟩
        · exact Or.inr hrest
      · rw [herror]
        exact Or.inr ⟨fun h => hnot h.1, e, rfl⟩

/-! ## Listings -/

variable {direntry : Buffer}

/-- The loop over a cluster puts its entries into the list, and goes as far as its
sectors can be read. -/
theorem clusterLoop_comes (direntry : Buffer) (cluster : ℕ) (c : ListCursor) :
    EntriesFit (clusterRead vol g cluster).1 c.fresh.length ∧ (∃ c',
        c'.fresh.length = c.fresh.length - nodesFor (clusterRead vol g cluster).1 ∧
        ((∃ code, (clusterRead vol g cluster).2 = none ∧
            clusterLoop vol g direntry cluster c = .error (.ret code c')) ∨
          ∃ r s, (clusterRead vol g cluster).2 = some r ∧ s.list = c' ∧
            clusterLoop vol g direntry cluster c = .ok s)) ∨
      ¬ EntriesFit (clusterRead vol g cluster).1 c.fresh.length ∧
        ∃ e, clusterLoop vol g direntry cluster c = .error (.fault e) := by
  have hlogs := @clusterWalk_logs vol g cluster direntry
  rw [clusterLoop_eq_replay, replay]
  by_cases hin : ∀ w ∈ (clusterRead vol g cluster).1, w.name.InField
  · obtain ⟨hlog, hmeet⟩ := hlogs.inside hin
    rw [hlog]
    rcases comes_foldlM _ c hin with ⟨hfits, c', hok, hlen⟩ | ⟨hnot, e, herror⟩
    · refine Or.inl ⟨hfits, c', hlen, ?_⟩
      rw [hok]
      rcases meet_cases hmeet with ⟨code, hret, hnone⟩ | ⟨w, r, hwalk, hsome, _⟩
      · rw [hret]
        exact Or.inl ⟨code, hnone, rfl⟩
      · rw [hwalk]
        exact Or.inr ⟨r, w.withList c', hsome, rfl, rfl⟩
    · rw [herror]
      exact Or.inr ⟨hnot, e, rfl⟩
  · obtain ⟨e, hfault⟩ := hlogs.outside hin
    refine Or.inr ⟨fun h => hin fun w hw => (h.names w hw).inField, ?_⟩
    rw [hfault]
    cases (clusterWalk vol g direntry cluster).log.foldlM EntryWrite.apply c with
    | error e' => exact ⟨e', rfl⟩
    | ok c' => exact ⟨e, rfl⟩

/-- Clusters are listed without a fault exactly when their names and nodes fit. -/
theorem listsWithoutFault_iff_fit (direntry : Buffer) (clusters : List ℕ) (c : ListCursor) :
    ListsWithoutFault vol g direntry clusters c ↔
      EntriesFit (entriesOf vol g clusters) c.fresh.length := by
  induction clusters generalizing c with
  | nil =>
      refine iff_of_true (fun e h => by cases h) ⟨?_, Nat.zero_le _⟩
      exact fun _ h => absurd h List.not_mem_nil
  | cons cluster clusters ih =>
      rcases @clusterLoop_comes vol g direntry cluster c with
        ⟨hfits, c', hlen, ⟨code, hnone, hloop⟩ | ⟨r, s, hsome, rfl, hloop⟩⟩ |
        ⟨hnot, e, hloop⟩
      · rw [entriesOf, hnone]
        refine iff_of_true (fun e h => ?_) hfits
        rw [listClusters, hloop] at h
        cases h
      · rw [listsWithoutFault_of_ok hloop, ih, hlen, entriesOf, hsome]
        exact (entriesFit_append.trans (and_iff_right hfits)).symm
      · refine iff_of_false (fun h => h e ?_) fun h => hnot ?_
        · rw [listClusters, hloop]
          rfl
        · rw [entriesOf] at h
          split at h
          · exact h
          · exact (entriesFit_append.mp h).1

/-- Listing and loading come back and visit no cluster twice exactly when the
walk along the raw entries stops: for a listing with names and nodes that fit,
for a load before the size leaves the range of an `int`. -/
theorem walks_once_iff (vol : Volume) (g : Globals) (direntry : Buffer)
    (cluster size : ℕ) (c : ListCursor) :
    (ListsOnce vol g direntry cluster c ↔
      ∃ i, ListingEndsAt vol g cluster i ∧ EntriesFit
        (entriesOf vol g (List.iterate (fat32RdFAT vol g) cluster (i + 1)))
        c.fresh.length) ∧
    (LoadsOnce vol g cluster (toInt32 size) ↔
      WalkEnds vol g cluster (toInt32 size)) := by
  refine ⟨?_, loadsOnce_iff cluster size⟩
  rw [listsOnce_iff]
  exact exists_congr fun i => and_congr_right fun _ => listsWithoutFault_iff_fit _ _ c

/-! ## A chain that goes round -/

/-- The entry of cluster 2 is 2. -/
def roundVolume : Volume := smallVolume [0, 0, 2] fun _ => []

theorem roundVolume_iterate (i : ℕ) :
    (fat32RdFAT roundVolume smallGlobals)^[i] 2 = 2 := by
  have hnext : fat32RdFAT roundVolume smallGlobals 2 = 2 := by decide +kernel
  exact Function.iterate_fixed hnext i

theorem roundVolume_passes (i : ℕ) :
    ¬ListingStops roundVolume smallGlobals
      ((fat32RdFAT roundVolume smallGlobals)^[i] 2) := by
  rw [roundVolume_iterate]
  have hnext : fat32RdFAT roundVolume smallGlobals 2 = 2 := by decide +kernel
  rintro (herror | hend | ⟨k, _, hunread⟩)
  · rw [hnext] at herror
    cases herror
  · rw [hnext] at hend
    cases hend
  · cases hunread

/-- Neither the listing of the empty root nor a load from its cluster comes
back. -/
theorem round_chain_never_ends :
    (¬ListsOnce roundVolume smallGlobals (fun _ => 0) 2 ⟨[], blank.node, [blank]⟩) ∧
      ¬LoadsOnce roundVolume smallGlobals 2 (toInt32 1) := by
  constructor
  · rw [listsOnce_iff]
    rintro ⟨i, hends, _⟩
    exact roundVolume_passes i hends.1
  · rw [loadsOnce_iff]
    rintro ⟨i, _, hstops⟩
    rcases hstops with herror | hend | ⟨k, _, hunread⟩
    · exact roundVolume_passes i (Or.inl herror)
    · exact roundVolume_passes i (Or.inr (Or.inl hend))
    · cases hunread

end Fat32
end Janus86
