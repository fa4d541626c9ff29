import Janus86.PartitionPlaces

/-!
# Every extended boot sector once

The scan of all drives comes back, and has recorded no boot sector twice, exactly when
the links on the disk lead nowhere round and no boot sector is led to from two slots of a
drive.  That a single walk records no sector twice needs no condition: a walk that comes
back to a sector does not stop.
-/

namespace Janus86
namespace Partition

/-- The walks of the scan of some drives, from a state on. -/
inductive DriveWalks (disk : Disk) :
    PartState → List ℕ → List (ℕ × List (List ℕ)) → Prop
  | done (s : PartState) : DriveWalks disk s [] []
  | next {s : PartState} {drive : ℕ} {drives : List ℕ}
      {walks : List (List ℕ)} {scans : List (ℕ × List (List ℕ))}
      (hseen : SeenWalks disk drive (beforeExtended disk drive s) [0, 1, 2, 3]
        walks)
      (hrest : DriveWalks disk (walks.flatten.foldl (visitBoot disk drive)
        (beforeExtended disk drive s)) drives scans) :
      DriveWalks disk s (drive :: drives) ((drive, walks) :: scans)

/-- No signed boot sector is on both walks. -/
def Apart (disk : Disk) (drive : ℕ) (w w' : List ℕ) : Prop :=
  ∀ lba ∈ w, ∀ lba' ∈ w', recorded disk drive lba = true →
    recorded disk drive lba' = true → ataLba lba ≠ ataLba lba'

/-- The scan comes back and records every extended boot sector at most
once. -/
def RecordsOnce (disk : Disk) (numIdeDrives : ℕ) (s : PartState) : Prop :=
  ∃ fuel s', readDiskPartitions disk numIdeDrives fuel s = .ok s' ∧
    s'.booted.Nodup

variable {disk : Disk}

/-- The boot sectors that the walks record. -/
def bootedOf (disk : Disk) (scans : List (ℕ × List (List ℕ))) :
    List (ℕ × ℕ) :=
  scans.flatMap fun scan =>
    sectorsOf scan.1 (scan.2.flatten.filter (recorded disk scan.1))

theorem booted_beforeExtended (drive : ℕ) (s : PartState) :
    (beforeExtended disk drive s).booted = s.booted := by
  have hfold : ∀ (bs : BootSector) (is : List ℕ) (s : PartState),
      (is.foldl (fun s i => savePartProps (bs.part i) 0 s) s).booted =
        s.booted := by
    intro bs is s
    induction is generalizing s with
    | nil => rfl
    | cons i is ih => exact ih _
  have hmbr : (readMbr disk drive s).booted = s.booted := by
    unfold readMbr
    split <;> rfl
  unfold beforeExtended traversePrimaryPartitions
  simp only
  split
  · rw [hfold, hmbr]
  · exact hmbr

theorem DriveWalks.scan {s : PartState} {drives : List ℕ}
    {scans : List (ℕ × List (List ℕ))}
    (hwalks : DriveWalks disk s drives scans) :
    ∃ enough s', (∀ fuel ≥ enough,
        drives.foldlM (scanDrive disk fuel) s = .ok s') ∧
      s'.booted = s.booted ++ bootedOf disk scans := by
  induction hwalks with
  | done s => exact ⟨0, s, fun _ _ => rfl, (List.append_nil _).symm⟩
  | @next s drive drives walks scans hseen _ ih =>
      obtain ⟨enough, hdrive⟩ := hseen.scan
      obtain ⟨enough', s', hrest, hbooted⟩ := ih
      refine ⟨max enough enough', s', fun fuel hfuel => ?_, ?_⟩
      · rw [List.foldlM_cons, scanDrive_eq, hdrive fuel (by omega), ok_bind]
        exact hrest fuel (by omega)
      · rw [hbooted, (appends_walk _ walks.flatten).booted,
          booted_beforeExtended, List.append_assoc]
        rfl

theorem driveWalks_of_scan {fuel : ℕ} {s s' : PartState} {drives : List ℕ}
    (hok : drives.foldlM (scanDrive disk fuel) s = .ok s') :
    ∃ scans, DriveWalks disk s drives scans ∧
      s'.booted = s.booted ++ bootedOf disk scans := by
  induction drives generalizing s with
  | nil =>
      cases hok
      exact ⟨[], .done _, (List.append_nil _).symm⟩
  | cons drive drives ih =>
      rw [List.foldlM_cons] at hok
      obtain ⟨mid, hdrive, hrest⟩ := bind_eq_ok_iff.mp hok
      rw [scanDrive_eq] at hdrive
      obtain ⟨walks, hseen, rfl⟩ := seenWalks_of_scan hdrive
      obtain ⟨scans, hscans, hbooted⟩ := ih hrest
      refine ⟨(drive, walks) :: scans, .next hseen hscans, ?_⟩
      rw [hbooted, (appends_walk _ walks.flatten).booted, booted_beforeExtended,
        List.append_assoc]
      rfl

/-! ## When no sector comes twice -/

theorem SeenWalks.nodup {drive : ℕ} {s : PartState} {is : List ℕ}
    {ws : List (List ℕ)} (hseen : SeenWalks disk drive s is ws) :
    ∀ w ∈ ws, (w.map ataLba).Nodup := by
  induction hseen with
  | done s => simp
  | skip _ _ ih => exact ih
  | follow _ hstops _ ih =>
      rw [List.forall_mem_cons]
      exact ⟨hstops.nodup, ih⟩

/-- On one drive only different walks can come by the same sector. -/
theorem nodup_sectorsOf_iff {drive : ℕ} {ws : List (List ℕ)}
    (hws : ∀ w ∈ ws, (w.map ataLba).Nodup) :
    (sectorsOf drive (ws.flatten.filter (recorded disk drive))).Nodup ↔
      ws.Pairwise (Apart disk drive) := by
  have hsectors : sectorsOf drive (ws.flatten.filter (recorded disk drive)) =
      (ws.map fun w =>
        sectorsOf drive (w.filter (recorded disk drive))).flatten := by
    simp only [sectorsOf, List.filter_flatten, List.map_flatten, List.map_map]
    rfl
  have hone : ∀ w ∈ ws,
      (sectorsOf drive (w.filter (recorded disk drive))).Nodup := by
    intro w hw
    have hsub : ((w.filter (recorded disk drive)).map ataLba).Nodup :=
      (hws w hw).sublist (List.filter_sublist.map ataLba)
    have hpair : sectorsOf drive (w.filter (recorded disk drive)) =
        ((w.filter (recorded disk drive)).map ataLba).map (drive, ·) := by
      rw [sectorsOf, List.map_map]
      rfl
    rw [hpair]
    exact hsub.map (Prod.mk_right_injective drive)
  have hapart : ∀ w w', List.Disjoint
      (sectorsOf drive (w.filter (recorded disk drive)))
      (sectorsOf drive (w'.filter (recorded disk drive))) ↔
        Apart disk drive w w' := by
    intro w w'
    simp only [List.disjoint_left, sectorsOf, List.mem_map, List.mem_filter,
      Apart]
    constructor
    · rintro h lba hlba lba' hlba' hrec hrec' hsame
      exact h ⟨lba, ⟨hlba, hrec⟩, rfl⟩ ⟨lba', ⟨hlba', hrec'⟩, by rw [hsame]⟩
    · rintro h _ ⟨lba, ⟨hlba, hrec⟩, rfl⟩ ⟨lba', ⟨hlba', hrec'⟩, hsame⟩
      exact h lba hlba lba' hlba' hrec hrec' (Prod.mk.inj hsame).2.symm
  rw [hsectors, List.nodup_flatten, List.pairwise_map]
  simp only [hapart, List.forall_mem_map]
  exact and_iff_right hone

theorem DriveWalks.drives_eq {s : PartState} {drives : List ℕ}
    {scans : List (ℕ × List (List ℕ))}
    (hwalks : DriveWalks disk s drives scans) : scans.map Prod.fst = drives := by
  induction hwalks with
  | done s => rfl
  | next _ _ ih => rw [List.map_cons, ih]

theorem DriveWalks.nodup {s : PartState} {drives : List ℕ}
    {scans : List (ℕ × List (List ℕ))}
    (hwalks : DriveWalks disk s drives scans) :
    ∀ scan ∈ scans, ∀ w ∈ scan.2, (w.map ataLba).Nodup := by
  induction hwalks with
  | done s => simp
  | next hseen _ ih =>
      rw [List.forall_mem_cons]
      exact ⟨hseen.nodup, ih⟩

theorem DriveWalks.booted_nodup_iff {s : PartState} {drives : List ℕ}
    {scans : List (ℕ × List (List ℕ))}
    (hwalks : DriveWalks disk s drives scans) (hdrives : drives.Nodup) :
    (bootedOf disk scans).Nodup ↔
      ∀ scan ∈ scans, scan.2.Pairwise (Apart disk scan.1) := by
  have hother : scans.Pairwise (Function.onFun List.Disjoint fun scan =>
      sectorsOf scan.1 (scan.2.flatten.filter (recorded disk scan.1))) := by
    rw [← hwalks.drives_eq, List.Nodup, List.pairwise_map] at hdrives
    refine hdrives.imp fun {scan scan'} hne => ?_
    simp only [Function.onFun, List.disjoint_left, sectorsOf, List.mem_map]
    rintro _ ⟨lba, _, rfl⟩ ⟨lba', _, hsame⟩
    exact hne (Prod.mk.inj hsame).1.symm
  rw [bootedOf, List.nodup_flatMap, and_iff_left hother]
  refine forall₂_congr fun scan hscan => ?_
  exact nodup_sectorsOf_iff (hwalks.nodup scan hscan)

theorem recordsOnce_of_driveWalks {n : ℕ} {s : PartState}
    {scans : List (ℕ × List (List ℕ))}
    (hwalks : DriveWalks disk (emptyList s) (List.range n) scans)
    (hapart : ∀ scan ∈ scans, scan.2.Pairwise (Apart disk scan.1)) :
    RecordsOnce disk n s := by
  obtain ⟨fuel, s', hscan, hbooted⟩ := hwalks.scan
  refine ⟨fuel, s', hscan fuel le_rfl, ?_⟩
  rw [hbooted]
  exact (hwalks.booted_nodup_iff List.nodup_range).mpr hapart

theorem driveWalks_of_recordsOnce {n : ℕ} {s : PartState}
    (honce : RecordsOnce disk n s) :
    ∃ scans, DriveWalks disk (emptyList s) (List.range n) scans ∧
      ∀ scan ∈ scans, scan.2.Pairwise (Apart disk scan.1) := by
  obtain ⟨fuel, s', hok, hnodup⟩ := honce
  obtain ⟨scans, hwalks, hbooted⟩ := driveWalks_of_scan hok
  rw [hbooted] at hnodup
  exact ⟨scans, hwalks, (hwalks.booted_nodup_iff List.nodup_range).mp hnodup⟩

/-! ## On the links of the disk -/

/-- The links from the slots that are looked at lead nowhere round, and to no boot sector
from two slots of a drive. -/
structure SoundLinks (disk : Disk) (heap : ℕ → Buffer) (drives : ℕ) : Prop where
  noRound : ∀ {drive i p}, Comes disk heap drives drive i p → i < 4 →
    isExtended (p.slots i).type = true →
    NoRound disk drive (p.slots i).startLba (p.slots i).startLba
  apart : ∀ {drive i j p q}, Comes disk heap drives drive i p →
    Comes disk heap drives drive j q → i < j → j < 4 →
    isExtended (p.slots i).type = true → isExtended (q.slots j).type = true →
    ∀ a b, LeadsTo disk drive (p.slots i).startLba (p.slots i).startLba a →
      LeadsTo disk drive (q.slots j).startLba (q.slots j).startLba b →
      recorded disk drive a = true → recorded disk drive b = true → ataLba a ≠ ataLba b

section Links

variable {heap : ℕ → Buffer} {drives drive : ℕ}

/-- The scan from slot `i` of a drive on: what walks there were before, and what comes. -/
structure ScanFrom (disk : Disk) (heap : ℕ → Buffer) (drives drive i : ℕ) (p : Place)
    (before walks : List (List ℕ)) : Prop where
  seen : ∃ s scans, InPlace heap p s ∧
    SeenWalks disk drive s (List.range' i (4 - i)) walks ∧
    DriveWalks disk (walks.flatten.foldl (visitBoot disk drive) s)
      (List.range' (drive + 1) (drives - (drive + 1))) scans ∧
    ∀ scan ∈ scans, scan.2.Pairwise (Apart disk scan.1)
  apart : (before ++ walks).Pairwise (Apart disk drive)
  before : ∀ {j q w}, j < i → Comes disk heap drives drive j q →
    isExtended (q.slots j).type = true →
    Chain disk drive (q.slots j).startLba (q.slots j).startLba w → w ∈ before

/-- The scan of a drive from its first slot on. -/
theorem scanFrom_mbr {s : PartState} {n : ℕ} {scans : List (ℕ × List (List ℕ))}
    (hfresh : ∀ k, s.fresh k = heap (k + n)) (hdrive : drive < drives)
    (hwalks : DriveWalks disk s (List.range' drive (drives - drive)) scans)
    (hapart : ∀ scan ∈ scans, scan.2.Pairwise (Apart disk scan.1)) :
    ∃ walks, ScanFrom disk heap drives drive 0 (mbrPlace disk heap drive n) [] walks := by
  rw [range'_succ_of_lt hdrive] at hwalks
  cases hwalks with
  | @next _ _ _ walks scans hseen hrest =>
      rw [List.forall_mem_cons] at hapart
      exact ⟨walks, ⟨_, scans, inPlace_mbr hfresh, hseen, hrest, hapart.2⟩, hapart.1,
        fun hj => absurd hj (Nat.not_lt_zero _)⟩

section Slots

variable {i : ℕ} {p : Place} {before walks : List (List ℕ)}

theorem ScanFrom.skip (hscan : ScanFrom disk heap drives drive i p before walks)
    (hcomes : Comes disk heap drives drive i p) (hi : i < 4)
    (hslot : isExtended (p.slots i).type = false) :
    ScanFrom disk heap drives drive (i + 1) p before walks := by
  obtain ⟨⟨t, scans, hplace, hseen, hrest⟩, hpair, hbefore⟩ := hscan
  rw [range'_succ_of_lt hi] at hseen
  cases hseen with
  | follow hslot' _ _ =>
      rw [hplace.slots, hslot] at hslot'
      cases hslot'
  | skip _ hseen =>
      refine ⟨⟨t, scans, hplace, hseen, hrest⟩, hpair, fun {j q w} hj hcomes' hslot' hchain => ?_⟩
      rcases Nat.lt_succ_iff_lt_or_eq.mp hj with hlt | rfl
      · exact hbefore hlt hcomes' hslot' hchain
      · obtain rfl := hcomes.unique hcomes'
        rw [hslot] at hslot'
        cases hslot'

/-- The walk of an extended slot is over. -/
theorem ScanFrom.follow {w : List ℕ}
    (hscan : ScanFrom disk heap drives drive i p before walks)
    (hcomes : Comes disk heap drives drive i p) (hi : i < 4)
    (hslot : isExtended (p.slots i).type = true)
    (hchain : Chain disk drive (p.slots i).startLba (p.slots i).startLba w) :
    ∃ walks', ScanFrom disk heap drives drive (i + 1) (p.behind disk heap drive w)
      (before ++ [w]) walks' := by
  obtain ⟨⟨t, scans, hplace, hseen, hrest⟩, hpair, hbefore⟩ := hscan
  rw [range'_succ_of_lt hi] at hseen
  cases hseen with
  | skip hslot' _ =>
      rw [hplace.slots, hslot] at hslot'
      cases hslot'
  | @follow _ _ links _ walks _ hstops hseen =>
      have hw : walk disk drive (t.temp.part i).startLba (t.temp.part i).startLba
          links = w := by
        have hwalk := chain_iff.mpr ⟨links, hstops, rfl⟩
        rw [hplace.slots] at hwalk ⊢
        exact hwalk.unique hchain
      rw [hw] at hseen hrest hpair
      have hne : w ≠ [] := by cases hchain <;> simp
      rw [List.flatten_cons, List.foldl_append] at hrest
      refine ⟨walks, ⟨_, scans, hplace.behind hne, hseen, hrest⟩, ?_,
        fun {j q w'} hj hcomes' hslot' hchain' => ?_⟩
      · rwa [List.append_assoc, List.singleton_append]
      · rcases Nat.lt_succ_iff_lt_or_eq.mp hj with hlt | rfl
        · exact List.mem_append_left _ (hbefore hlt hcomes' hslot' hchain')
        · obtain rfl := hcomes.unique hcomes'
          exact List.mem_append_right _ (List.mem_singleton.mpr (hchain'.unique hchain))

end Slots

theorem scanFrom_of_comes {s : PartState} {scans : List (ℕ × List (List ℕ))}
    (hwalks : DriveWalks disk (emptyList s) (List.range drives) scans)
    (hapart : ∀ scan ∈ scans, scan.2.Pairwise (Apart disk scan.1)) {i : ℕ} {p : Place}
    (hcomes : Comes disk s.fresh drives drive i p) :
    ∃ before walks, ScanFrom disk s.fresh drives drive i p before walks := by
  induction hcomes with
  | first hdrives =>
      rw [List.range_eq_range'] at hwalks
      obtain ⟨walks, hscan⟩ := scanFrom_mbr
        (show ∀ k, (emptyList s).fresh k = s.fresh (k + 1) from fun _ => rfl)
        hdrives hwalks hapart
      exact ⟨[], walks, hscan⟩
  | skip hcomes hi hslot ih =>
      obtain ⟨before, walks, hscan⟩ := ih
      exact ⟨before, walks, hscan.skip hcomes hi hslot⟩
  | follow hcomes hi hslot hchain ih =>
      obtain ⟨before, walks, hscan⟩ := ih
      exact ⟨_, hscan.follow hcomes hi hslot hchain⟩
  | drive hcomes hdrive ih =>
      obtain ⟨before, walks, ⟨t, scans, hplace, hseen, hrest, hpairs⟩, _, _⟩ := ih
      cases hseen with
      | done _ =>
          obtain ⟨walks, hscan⟩ := scanFrom_mbr hplace.fresh hdrive hrest hpairs
          exact ⟨[], walks, hscan⟩

theorem soundLinks_of_driveWalks {s : PartState} {scans : List (ℕ × List (List ℕ))}
    (hwalks : DriveWalks disk (emptyList s) (List.range drives) scans)
    (hapart : ∀ scan ∈ scans, scan.2.Pairwise (Apart disk scan.1)) :
    SoundLinks disk s.fresh drives := by
  have hfollow : ∀ {drive i p}, Comes disk s.fresh drives drive i p → i < 4 →
      isExtended (p.slots i).type = true → ∃ before w walks,
        Chain disk drive (p.slots i).startLba (p.slots i).startLba w ∧
          (before ++ w :: walks).Pairwise (Apart disk drive) ∧
          ∀ {j q w}, j < i → Comes disk s.fresh drives drive j q →
            isExtended (q.slots j).type = true →
            Chain disk drive (q.slots j).startLba (q.slots j).startLba w →
            w ∈ before := by
    intro drive i p hcomes hi hslot
    obtain ⟨before, walks, ⟨t, _, hplace, hseen, _⟩, hpair, hbefore⟩ :=
      scanFrom_of_comes hwalks hapart hcomes
    rw [range'_succ_of_lt hi] at hseen
    cases hseen with
    | skip hslot' _ =>
        rw [hplace.slots, hslot] at hslot'
        cases hslot'
    | @follow _ _ links _ walks _ hstops _ =>
        have hchain := chain_iff.mpr ⟨links, hstops, rfl⟩
        rw [hplace.slots] at hchain hpair
        exact ⟨before, _, walks, hchain, hpair, hbefore⟩
  constructor
  · intro drive i p hcomes hi hslot
    obtain ⟨_, w, _, hchain, _⟩ := hfollow hcomes hi hslot
    exact hchain.noRound
  · intro drive i j p q hp hq hij hj hslot hslot' a b ha hb
    obtain ⟨_, w, _, hchain, _⟩ := hfollow hp (hij.trans hj) hslot
    obtain ⟨before, w', walks, hchain', hpair, hbefore⟩ := hfollow hq hj hslot'
    have hmem := hbefore hij hp hslot hchain
    have hapart' := (List.pairwise_append.mp hpair).2.2 w hmem w' List.mem_cons_self
    exact hapart' a (hchain.mem_iff.mpr ha) b (hchain'.mem_iff.mpr hb)

/-- The walks of the slots from here on, and the place behind them. -/
theorem SoundLinks.seenWalks (hsound : SoundLinks disk heap drives) {i : ℕ} {p : Place}
    {s : PartState} (hcomes : Comes disk heap drives drive i p) (hplace : InPlace heap p s) :
    ∃ walks q, SeenWalks disk drive s (List.range' i (4 - i)) walks ∧
      Comes disk heap drives drive 4 q ∧
      InPlace heap q (walks.flatten.foldl (visitBoot disk drive) s) ∧
      walks.Pairwise (Apart disk drive) ∧
      ∀ w ∈ walks, ∃ j r, i ≤ j ∧ j < 4 ∧ Comes disk heap drives drive j r ∧
        isExtended (r.slots j).type = true ∧
        Chain disk drive (r.slots j).startLba (r.slots j).startLba w := by
  obtain ⟨n, hn⟩ : ∃ n, 4 = i + n := ⟨4 - i, by have := hcomes.slot_le; omega⟩
  induction n generalizing i p s with
  | zero =>
      obtain rfl : i = 4 := hn.symm
      exact ⟨[], p, .done s, hcomes, hplace, .nil, fun w hw => absurd hw List.not_mem_nil⟩
  | succ n ih =>
      have hi : i < 4 := by omega
      rw [range'_succ_of_lt hi]
      cases hslot : isExtended (p.slots i).type with
      | false =>
          obtain ⟨walks, q, hseen, hlast, hin, hpair, hwalks⟩ :=
            ih (hcomes.skip hi hslot) hplace (by omega)
          refine ⟨walks, q, .skip (hplace.slots ▸ hslot) hseen, hlast, hin, hpair, ?_⟩
          intro w hw
          obtain ⟨j, r, hj, hrest⟩ := hwalks w hw
          exact ⟨j, r, by omega, hrest⟩
      | true =>
          obtain ⟨w, hchain⟩ := exists_chain_of_noRound (hsound.noRound hcomes hi hslot)
          obtain ⟨links, hstops, hw⟩ := chain_iff.mp hchain
          have hne : w ≠ [] := by cases hchain <;> simp
          obtain ⟨walks, q, hseen, hlast, hin, hpair, hwalks⟩ :=
            ih (hcomes.follow hi hslot hchain) (hplace.behind hne) (by omega)
          refine ⟨w :: walks, q, ?_, hlast, ?_, ?_, ?_⟩
          · rw [hw] at hseen ⊢
            rw [← hplace.slots] at hstops hseen ⊢
            exact .follow (hplace.slots ▸ hslot) hstops hseen
          · rwa [List.flatten_cons, List.foldl_append]
          · refine List.pairwise_cons.mpr ⟨fun w' hw' => ?_, hpair⟩
            obtain ⟨j, r, hj, hj4, hr, hslot', hchain'⟩ := hwalks w' hw'
            intro a ha b hb
            exact hsound.apart hcomes hr (by omega) hj4 hslot hslot' a b
              (hchain.mem_iff.mp ha) (hchain'.mem_iff.mp hb)
          · intro w' hw'
            rcases List.mem_cons.mp hw' with rfl | hw'
            · exact ⟨i, p, le_rfl, hi, hcomes, hslot, hchain⟩
            · obtain ⟨j, r, hj, hrest⟩ := hwalks w' hw'
              exact ⟨j, r, by omega, hrest⟩

theorem SoundLinks.driveWalks (hsound : SoundLinks disk heap drives) {s : PartState} {n : ℕ}
    (hdrive : drive < drives)
    (hcomes : Comes disk heap drives drive 0 (mbrPlace disk heap drive n))
    (hfresh : ∀ k, s.fresh k = heap (k + n)) :
    ∃ scans, DriveWalks disk s (List.range' drive (drives - drive)) scans ∧
      ∀ scan ∈ scans, scan.2.Pairwise (Apart disk scan.1) := by
  obtain ⟨m, hm⟩ : ∃ m, drives = drive + 1 + m := ⟨drives - (drive + 1), by omega⟩
  induction m generalizing drive s n with
  | zero =>
      obtain ⟨walks, q, hseen, _, _, hpair, _⟩ :=
        hsound.seenWalks hcomes (inPlace_mbr hfresh)
      refine ⟨[(drive, walks)], ?_, List.forall_mem_singleton.mpr hpair⟩
      rw [range'_succ_of_lt hdrive, show drives - (drive + 1) = 0 by omega]
      exact .next hseen (.done _)
  | succ m ih =>
      obtain ⟨walks, q, hseen, hlast, hin, hpair, _⟩ :=
        hsound.seenWalks hcomes (inPlace_mbr hfresh)
      have hnext : drive + 1 < drives := by omega
      obtain ⟨scans, hscans, hpairs⟩ :=
        ih hnext (hlast.drive hnext) hin.fresh (by omega)
      refine ⟨(drive, walks) :: scans, ?_, List.forall_mem_cons.mpr ⟨hpair, hpairs⟩⟩
      rw [range'_succ_of_lt hdrive]
      exact .next hseen hscans

end Links

/-- The scan comes back and records no extended boot sector twice exactly when the links
on the disk go nowhere round and no boot sector is led to from two slots. -/
theorem recordsOnce_iff (disk : Disk) (numIdeDrives : ℕ) (s : PartState) :
    RecordsOnce disk numIdeDrives s ↔ SoundLinks disk s.fresh numIdeDrives := by
  constructor
  · intro honce
    obtain ⟨scans, hwalks, hapart⟩ := driveWalks_of_recordsOnce honce
    exact soundLinks_of_driveWalks hwalks hapart
  · intro hsound
    rcases Nat.eq_zero_or_pos numIdeDrives with rfl | hpos
    · exact recordsOnce_of_driveWalks (.done _) fun _ h => absurd h List.not_mem_nil
    · obtain ⟨scans, hwalks, hapart⟩ :=
        hsound.driveWalks (s := emptyList s) (n := 1) hpos (.first hpos) fun _ => rfl
      rw [Nat.sub_zero, ← List.range_eq_range'] at hwalks
      exact recordsOnce_of_driveWalks hwalks hapart

/-! ## A boot record that links to itself -/

/-- The extended partition begins in sector 10, whose second slot has the start
0 in it. -/
def selfLinked (n : ℕ) : List (ℕ × ℕ × ℕ) :=
  if n = 0 then [(5, 10, 2048)] else [(0x83, 1, 2047), (5, 0, 2048)]

theorem selfLinked_never_stops (links : ℕ) :
    ¬WalkStops (tableDisk selfLinked) 0 10 10 links := by
  have hread : bootAt (tableDisk selfLinked) 0 10 =
      some (tableSector selfLinked 10) := bootAt_tableDisk selfLinked (by norm_num)
  have hlink : linkOf (tableDisk selfLinked) 0 10 10 = 10 := by
    rw [linkOf, hread]
    decide +kernel
  have hpass : ¬BootStops (tableDisk selfLinked) 0 10 := by
    intro hstop
    have hlast := hstop _ hread (by decide +kernel)
    revert hlast
    decide +kernel
  rintro ⟨hstop, _⟩
  rw [Function.iterate_fixed hlink] at hstop
  exact hpass hstop

theorem selfLinked_not_recordsOnce (s : PartState) :
    ¬RecordsOnce (tableDisk selfLinked) 1 s := by
  intro honce
  obtain ⟨scans, hwalks, _⟩ := driveWalks_of_recordsOnce honce
  have hread : bootAt (tableDisk selfLinked) 0 0 =
      some (tableSector selfLinked 0) := bootAt_tableDisk selfLinked (by norm_num)
  have htemp : ∀ s, (beforeExtended (tableDisk selfLinked) 0 s).temp =
      tableSector selfLinked 0 :=
    fun s => (beforeExtended_of_signed hread (by decide +kernel) s).2
  cases hwalks with
  | next hseen _ =>
      cases hseen with
      | skip hslot _ =>
          rw [htemp] at hslot
          revert hslot
          decide +kernel
      | follow _ hstops _ =>
          rw [htemp] at hstops
          exact selfLinked_never_stops _ hstops

theorem self_link_never_ends : ¬RecordsOnce (tableDisk selfLinked) 1 (heapOf 0) :=
  selfLinked_not_recordsOnce (heapOf 0)

end Partition
end Janus86
