import Janus86.ChainWalk
import Janus86.Fat32FileLoad

/-!
# The walks along the FAT

Both recursions of the driver follow the raw entries of the FAT and carry
nothing that gets smaller on the way.  A listing comes back exactly when the
walk from its cluster stops, a load when that happens before the size leaves
the range of an `int`; neither has then come by a cluster twice.
-/

namespace Janus86
namespace Fat32

open ChainWalk

/-! ## The clusters of a call -/

/-- The loop of `fat32_rd_cluster` over the sectors of its cluster. -/
def clusterLoop (vol : Volume) (g : Globals) (direntry : Buffer) (cluster : ℕ)
    (c : ListCursor) : Except Stop ClusterState :=
  (List.range g.sectorsPerCluster).foldlM (sectorStep vol g cluster)
    ⟨direntry, 0, c⟩

/-- The clusters that a call of `fat32_rd_cluster` and the calls in it are
for. -/
def rdClusterVisits (vol : Volume) (g : Globals) (direntry : Buffer) :
    ℕ → ℕ → ListCursor → List ℕ
  | 0, _, _ => []
  | fuel + 1, cluster, c =>
      match clusterLoop vol g direntry cluster c with
      | .error _ => [cluster]
      | .ok s =>
          let next := fat32RdFAT vol g cluster
          if isError next ∨ next = 0 then [cluster]
          else cluster :: rdClusterVisits vol g direntry fuel next s.list

/-- The clusters that a call of `fat32_mmap` and the calls in it are for. -/
def mmapVisits (vol : Volume) (g : Globals) : ℕ → ℕ → ℤ → List ℕ
  | 0, _, _ => []
  | fuel + 1, cluster, size =>
      let next := fat32RdFAT vol g cluster
      if (mmapCopy vol g cluster (mmapSectors size) 0).2 = false ∨
          isError next ∨ next = 0 then
        [cluster]
      else cluster :: mmapVisits vol g fuel next (size - 512)

/-- The listing comes back and visits no cluster twice. -/
def ListsOnce (vol : Volume) (g : Globals) (direntry : Buffer) (cluster : ℕ)
    (c : ListCursor) : Prop :=
  ∃ fuel result, fat32RdCluster vol g direntry fuel cluster c = .ok result ∧
    (rdClusterVisits vol g direntry fuel cluster c).Nodup

/-- The load comes back and visits no cluster twice. -/
def LoadsOnce (vol : Volume) (g : Globals) (cluster : ℕ) (size : ℤ) : Prop :=
  ∃ fuel chunks, fat32Mmap vol g fuel cluster size = .ok chunks ∧
    (mmapVisits vol g fuel cluster size).Nodup

/-! ## Where the walks stop -/

/-- A cluster behind which a listing does not go on. -/
def ListingStops (vol : Volume) (g : Globals) (cluster : ℕ) : Prop :=
  isError (fat32RdFAT vol g cluster) = true ∨ fat32RdFAT vol g cluster = 0 ∨
    ∃ k < g.sectorsPerCluster, sectorReadable vol g cluster k = false

/-- The entries of the clusters, one cluster after the other. -/
def listClusters (vol : Volume) (g : Globals) (direntry : Buffer) :
    List ℕ → ListCursor → Except Stop ListCursor
  | [], c => .ok c
  | cluster :: clusters, c => do
      let s ← clusterLoop vol g direntry cluster c
      listClusters vol g direntry clusters s.list

/-- No entry of these clusters is too much for the node it is put into, and
there are nodes for all. -/
def ListsWithoutFault (vol : Volume) (g : Globals) (direntry : Buffer)
    (clusters : List ℕ) (c : ListCursor) : Prop :=
  ∀ fault, listClusters vol g direntry clusters c ≠ .error (.fault fault)

/-- The walk of a listing. -/
def ListingEndsAt (vol : Volume) (g : Globals) (cluster i : ℕ) : Prop :=
  EndsAt (fat32RdFAT vol g) (fun _ => ListingStops vol g) cluster i

variable {vol : Volume} {g : Globals}

/-! ## The loop over the sectors of a cluster -/

theorem clusterSector_sub32 (cluster : ℕ) {k : ℕ} (hk : 0 < k) :
    clusterSector vol g cluster (sub32 k 1) = clusterSector vol g cluster (k - 1) := by
  unfold clusterSector sub32
  omega

theorem readOrReturn_eq_ret {cluster k : ℕ} {s : ClusterState} {code : ℕ}
    {list : ListCursor}
    (hret : readOrReturn vol g cluster k s = .error (.ret code list)) :
    sectorReadable vol g cluster k = false := by
  unfold readOrReturn at hret
  rcases readClusterSector_eq vol g cluster k s.direntry with
    ⟨_, hread⟩ | ⟨buf, hsome, _⟩
  · exact hread
  · rw [hsome] at hret
    cases hret

theorem readOrReturn_eq_ok {cluster k : ℕ} {s s' : ClusterState}
    (hok : readOrReturn vol g cluster k s = .ok s') :
    sectorReadable vol g cluster k = true ∧ s'.prev = s.prev := by
  unfold readOrReturn at hok
  rcases readClusterSector_eq vol g cluster k s.direntry with
    ⟨hnone, _⟩ | ⟨buf, hsome, hread, _⟩
  · rw [hnone] at hok
    cases hok
  · rw [hsome] at hok
    cases hok
    exact ⟨hread, rfl⟩

theorem liftFault_ne_ret {α : Type} (x : Except Fault α) (code : ℕ)
    (list : ListCursor) : liftFault x ≠ .error (.ret code list) := by
  cases x <;> simp [liftFault]

theorem liftFault_eq_ok {α : Type} {x : Except Fault α} {a : α}
    (hok : liftFault x = .ok a) : x = .ok a := by
  cases x with
  | error e => cases hok
  | ok b =>
      cases hok
      rfl

theorem longEntry_eq_ret {cluster k i : ℕ} {s : ClusterState} {code : ℕ}
    {list : ListCursor}
    (hret : longEntry vol g cluster k i s = .error (.ret code list)) :
    i = 0 ∧ (sectorReadable vol g cluster (sub32 k 1) = false ∨
      sectorReadable vol g cluster k = false) := by
  unfold longEntry at hret
  split at hret
  · next hi =>
      refine ⟨hi, ?_⟩
      rcases bind_eq_error_iff.mp hret with hbefore | ⟨s₁, _, hret⟩
      · exact Or.inl (readOrReturn_eq_ret hbefore)
      rcases bind_eq_error_iff.mp hret with hname | ⟨named, _, hret⟩
      · exact absurd hname (liftFault_ne_ret _ code list)
      rcases bind_eq_error_iff.mp hret with hagain | ⟨s₂, _, hret⟩
      · exact Or.inr (readOrReturn_eq_ret hagain)
      · cases hret
  · rcases bind_eq_error_iff.mp hret with hname | ⟨named, _, hret⟩
    · exact absurd hname (liftFault_ne_ret _ code list)
    · cases hret

/-- Only a long name that reaches back into the sector before makes an entry
read a sector. -/
theorem entryStep_eq_ret {cluster k i : ℕ} {s : ClusterState} {code : ℕ}
    {list : ListCursor}
    (hret : entryStep vol g cluster k s i = .error (.ret code list)) :
    i = 0 ∧ s.prev = 0x0F ∧ (sectorReadable vol g cluster (sub32 k 1) = false ∨
      sectorReadable vol g cluster k = false) := by
  unfold entryStep at hret
  simp only at hret
  split at hret
  · split at hret
    · next hprev =>
        rcases bind_eq_error_iff.mp hret with hlong | ⟨s', _, hret⟩
        · obtain ⟨hi, hread⟩ := longEntry_eq_ret hlong
          exact ⟨hi, hprev, hread⟩
        · cases hret
    · rcases bind_eq_error_iff.mp hret with hshort | ⟨s', _, hret⟩
      · unfold shortEntry at hshort
        split at hshort
        · rcases bind_eq_error_iff.mp hshort with hname | ⟨list', _, hret⟩
          · exact absurd hname (liftFault_ne_ret _ code list)
          · cases hret
        · cases hshort
      · cases hret
  · cases hret

theorem foldlM_entryStep_ne_ret {cluster k : ℕ} {is : List ℕ}
    (his : ∀ i ∈ is, i ≠ 0) {s : ClusterState} {code : ℕ} {list : ListCursor} :
    is.foldlM (entryStep vol g cluster k) s ≠ .error (.ret code list) := by
  induction is generalizing s with
  | nil => exact fun h => by cases h
  | cons i is ih =>
      intro hret
      rw [List.foldlM_cons] at hret
      rcases bind_eq_error_iff.mp hret with hentry | ⟨s', _, hrest⟩
      · exact his i List.mem_cons_self (entryStep_eq_ret hentry).1
      · exact ih (fun j hj => his j (List.mem_cons_of_mem i hj)) hrest

/-- The entries of a sector end the call only with a sector of the cluster that
cannot be read. -/
theorem sectorStep_eq_ret {cluster k : ℕ} {s : ClusterState} {code : ℕ}
    {list : ListCursor} (hfirst : k = 0 → s.prev = 0)
    (hret : sectorStep vol g cluster s k = .error (.ret code list)) :
    ∃ k' ≤ k, sectorReadable vol g cluster k' = false := by
  unfold sectorStep at hret
  rcases bind_eq_error_iff.mp hret with hread | ⟨s₁, hread, hret⟩
  · exact ⟨k, le_rfl, readOrReturn_eq_ret hread⟩
  · obtain ⟨_, hprev⟩ := readOrReturn_eq_ok hread
    have hrange : List.range direntPerSector = 0 :: [1, 2, 3, 4, 5, 6, 7, 8, 9,
        10, 11, 12, 13, 14, 15] := rfl
    rw [hrange, List.foldlM_cons] at hret
    rcases bind_eq_error_iff.mp hret with hentry | ⟨s₂, _, hrest⟩
    · obtain ⟨_, hlong, hunread⟩ := entryStep_eq_ret hentry
      have hpos : 0 < k := by
        by_contra hzero
        rw [hprev, hfirst (by omega)] at hlong
        exact absurd hlong (by decide)
      rcases hunread with hunread | hunread
      · refine ⟨k - 1, by omega, ?_⟩
        rw [sectorReadable, clusterSector_sub32 cluster hpos] at hunread
        exact hunread
      · exact ⟨k, le_rfl, hunread⟩
    · exact absurd hrest (foldlM_entryStep_ne_ret (by decide))

theorem clusterTurns (direntry : Buffer) (cluster : ℕ) (c : ListCursor) (n : ℕ) :
    (∀ s, (List.range n).foldlM (sectorStep vol g cluster) ⟨direntry, 0, c⟩ =
        .ok s → (∀ k < n, sectorReadable vol g cluster k = true) ∧
          (n = 0 → s.prev = 0)) ∧
      ∀ code list, (List.range n).foldlM (sectorStep vol g cluster)
        ⟨direntry, 0, c⟩ = .error (.ret code list) →
          ∃ k < n, sectorReadable vol g cluster k = false := by
  induction n with
  | zero =>
      refine ⟨fun s hs => ?_, fun code list hret => by cases hret⟩
      cases hs
      exact ⟨fun k hk => absurd hk (Nat.not_lt_zero k), fun _ => rfl⟩
  | succ n ih =>
      obtain ⟨hok, hreturn⟩ := ih
      rw [List.range_succ, List.foldlM_append]
      constructor
      · intro s hs
        obtain ⟨s₁, hs₁, hs⟩ := bind_eq_ok_iff.mp hs
        rw [List.foldlM_cons] at hs
        obtain ⟨s₂, hs₂, _⟩ := bind_eq_ok_iff.mp hs
        obtain ⟨s₃, hread, _⟩ := bind_eq_ok_iff.mp hs₂
        refine ⟨fun k hk => ?_, fun hn => absurd hn (Nat.succ_ne_zero n)⟩
        rcases Nat.lt_succ_iff_lt_or_eq.mp hk with hlt | rfl
        · exact (hok s₁ hs₁).1 k hlt
        · exact (readOrReturn_eq_ok hread).1
      · intro code list hret
        rcases bind_eq_error_iff.mp hret with hbefore | ⟨s₁, hs₁, hret⟩
        · obtain ⟨k, hk, hunread⟩ := hreturn code list hbefore
          exact ⟨k, Nat.lt_succ_of_lt hk, hunread⟩
        · rw [List.foldlM_cons] at hret
          rcases bind_eq_error_iff.mp hret with hlast | ⟨s₂, _, hret⟩
          · obtain ⟨k, hk, hunread⟩ := sectorStep_eq_ret (hok s₁ hs₁).2 hlast
            exact ⟨k, Nat.lt_succ_of_le hk, hunread⟩
          · cases hret

/-! ## Listings -/

variable {direntry : Buffer}

theorem listsWithoutFault_of_ok {cluster : ℕ} {c : ListCursor}
    {s : ClusterState} (hok : clusterLoop vol g direntry cluster c = .ok s)
    (clusters : List ℕ) :
    ListsWithoutFault vol g direntry (cluster :: clusters) c ↔
      ListsWithoutFault vol g direntry clusters s.list := by
  unfold ListsWithoutFault
  rw [listClusters, hok, ok_bind]

theorem readable_of_clusterLoop {cluster : ℕ} {c : ListCursor}
    {s : ClusterState} (hok : clusterLoop vol g direntry cluster c = .ok s) :
    ∀ k < g.sectorsPerCluster, sectorReadable vol g cluster k = true :=
  ((clusterTurns direntry cluster c g.sectorsPerCluster).1 s hok).1

theorem listingStops_of_ret {cluster code : ℕ} {c list : ListCursor}
    (hret : clusterLoop vol g direntry cluster c = .error (.ret code list)) :
    ListingStops vol g cluster :=
  Or.inr (Or.inr
    ((clusterTurns direntry cluster c g.sectorsPerCluster).2 code list hret))

/-- A cluster with entries that were gone through stops the walk by its entry
in the FAT or not at all. -/
theorem listingStops_iff_of_ok {cluster : ℕ} {c : ListCursor}
    {s : ClusterState} (hok : clusterLoop vol g direntry cluster c = .ok s) :
    ListingStops vol g cluster ↔
      isError (fat32RdFAT vol g cluster) = true ∨
        fat32RdFAT vol g cluster = 0 := by
  have hread := readable_of_clusterLoop hok
  unfold ListingStops
  constructor
  · rintro (herror | hend | ⟨k, hk, hunread⟩)
    · exact Or.inl herror
    · exact Or.inr hend
    · rw [hread k hk] at hunread
      cases hunread
  · exact fun h => h.elim Or.inl fun hend => Or.inr (Or.inl hend)

/-- On a drive that can be read the loop does not end the call. -/
theorem clusterLoop_ne_ret (hread : ∀ sector, vol.disk.readable vol.drive sector = true)
    (cluster code : ℕ) (c list : ListCursor) :
    clusterLoop vol g direntry cluster c ≠ .error (.ret code list) := by
  intro hret
  obtain ⟨k, _, hunread⟩ :=
    (clusterTurns direntry cluster c g.sectorsPerCluster).2 code list hret
  rw [sectorReadable, hread] at hunread
  cases hunread

theorem fat32RdCluster_of_loop {cluster : ℕ} {c : ListCursor} {s : ClusterState}
    (hloop : clusterLoop vol g direntry cluster c = .ok s) (fuel : ℕ) :
    fat32RdCluster vol g direntry (fuel + 1) cluster c =
      if isError (fat32RdFAT vol g cluster) then
        .ok (fat32RdFAT vol g cluster, s.list)
      else if fat32RdFAT vol g cluster = 0 then .ok (success, clearName s.list)
      else fat32RdCluster vol g direntry fuel (fat32RdFAT vol g cluster) s.list >>=
        fun r => .ok (success, clearName r.2) := by
  rw [clusterLoop] at hloop
  rw [fat32RdCluster, hloop]
  rfl

theorem fat32RdCluster_of_ok {fuel cluster : ℕ} {c : ListCursor}
    {s : ClusterState} (hloop : clusterLoop vol g direntry cluster c = .ok s)
    (hpass : ¬ListingStops vol g cluster) :
    fat32RdCluster vol g direntry (fuel + 1) cluster c =
      fat32RdCluster vol g direntry fuel (fat32RdFAT vol g cluster) s.list >>=
        fun r => .ok (success, clearName r.2) := by
  rw [listingStops_iff_of_ok hloop, not_or] at hpass
  rw [fat32RdCluster_of_loop hloop, if_neg hpass.1, if_neg hpass.2]

/-- A call that comes back has been through the loop. -/
theorem clusterLoop_of_rdCluster
    (hread : ∀ sector, vol.disk.readable vol.drive sector = true)
    {fuel cluster : ℕ} {c : ListCursor} {result : ℕ × ListCursor}
    (hok : fat32RdCluster vol g direntry (fuel + 1) cluster c = .ok result) :
    ∃ s, clusterLoop vol g direntry cluster c = .ok s := by
  cases hloop : clusterLoop vol g direntry cluster c with
  | ok s => exact ⟨s, rfl⟩
  | error stop =>
      rw [fat32RdCluster, show (List.range _).foldlM _ _ = _ from hloop] at hok
      cases stop with
      | fault e => cases hok
      | ret code list => exact absurd hloop (clusterLoop_ne_ret hread cluster code c list)

theorem rdClusterVisits_of_ok {fuel cluster : ℕ} {c : ListCursor}
    {s : ClusterState} (hloop : clusterLoop vol g direntry cluster c = .ok s)
    (hpass : ¬ListingStops vol g cluster) :
    rdClusterVisits vol g direntry (fuel + 1) cluster c =
      cluster :: rdClusterVisits vol g direntry fuel (fat32RdFAT vol g cluster)
        s.list := by
  rw [listingStops_iff_of_ok hloop] at hpass
  rw [rdClusterVisits, hloop]
  exact if_neg hpass

theorem rdCluster_of_stops {fuel cluster : ℕ} {c : ListCursor}
    (hstop : ListingStops vol g cluster)
    (hlists : ListsWithoutFault vol g direntry [cluster] c) :
    (∃ result, fat32RdCluster vol g direntry (fuel + 1) cluster c =
        .ok result) ∧
      rdClusterVisits vol g direntry (fuel + 1) cluster c = [cluster] := by
  cases hloop : clusterLoop vol g direntry cluster c with
  | error stop =>
      cases stop with
      | fault e =>
          refine absurd ?_ (hlists e)
          rw [listClusters, hloop]
          rfl
      | ret code list =>
          refine ⟨⟨(code, list), ?_⟩, ?_⟩
          · rw [fat32RdCluster, show (List.range _).foldlM _ _ = _ from hloop]
          · rw [rdClusterVisits, hloop]
  | ok s =>
      have hends := (listingStops_iff_of_ok hloop).mp hstop
      constructor
      · rw [fat32RdCluster, show (List.range _).foldlM _ _ = _ from hloop]
        simp only
        split
        · exact ⟨_, rfl⟩
        · next herror =>
            rw [if_pos (hends.resolve_left herror)]
            exact ⟨_, rfl⟩
      · rw [rdClusterVisits, hloop]
        exact if_pos hends

theorem clusterLoop_ne_fault {fuel cluster : ℕ} {c : ListCursor}
    {result : ℕ × ListCursor}
    (hok : fat32RdCluster vol g direntry (fuel + 1) cluster c = .ok result)
    (e : Fault) : clusterLoop vol g direntry cluster c ≠ .error (.fault e) := by
  intro hloop
  rw [clusterLoop] at hloop
  rw [fat32RdCluster, hloop] at hok
  cases hok

theorem listsWithoutFault_iff {cluster : ℕ} {c : ListCursor} :
    ListsWithoutFault vol g direntry [cluster] c ↔
      ∀ e, clusterLoop vol g direntry cluster c ≠ .error (.fault e) := by
  unfold ListsWithoutFault
  simp only [listClusters, ne_eq, bind_eq_error_iff, not_or, not_exists, not_and,
    reduceCtorEq, not_false_eq_true, implies_true, and_true]

theorem clusterLoop_of_pass {cluster : ℕ} {c : ListCursor}
    (hpass : ¬ListingStops vol g cluster)
    (hfault : ∀ e, clusterLoop vol g direntry cluster c ≠ .error (.fault e)) :
    ∃ s, clusterLoop vol g direntry cluster c = .ok s := by
  cases hloop : clusterLoop vol g direntry cluster c with
  | ok s => exact ⟨s, rfl⟩
  | error stop =>
      cases stop with
      | fault e => exact absurd hloop (hfault e)
      | ret code list => exact absurd (listingStops_of_ret hloop) hpass

/-- A call that comes back has followed a walk that stops. -/
theorem endsAt_of_rdCluster {fuel cluster : ℕ} {c : ListCursor}
    {result : ℕ × ListCursor}
    (hok : fat32RdCluster vol g direntry fuel cluster c = .ok result) :
    ∃ i, ListingEndsAt vol g cluster i ∧
      ListsWithoutFault vol g direntry
        (List.iterate (fat32RdFAT vol g) cluster (i + 1)) c ∧
      rdClusterVisits vol g direntry fuel cluster c =
        List.iterate (fat32RdFAT vol g) cluster (i + 1) := by
  induction fuel generalizing cluster c result with
  | zero => cases hok
  | succ fuel ih =>
      by_cases hstop : ListingStops vol g cluster
      · have hlists : ListsWithoutFault vol g direntry [cluster] c :=
          listsWithoutFault_iff.mpr (clusterLoop_ne_fault hok)
        exact ⟨0, endsAt_zero_iff.mpr hstop, hlists,
          (rdCluster_of_stops hstop hlists).2⟩
      · obtain ⟨s, hloop⟩ :=
          clusterLoop_of_pass hstop (clusterLoop_ne_fault hok)
        rw [fat32RdCluster_of_ok hloop hstop] at hok
        obtain ⟨inner, hinner, _⟩ := bind_eq_ok_iff.mp hok
        obtain ⟨i, hends, hlists, hvisits⟩ := ih hinner
        refine ⟨i + 1, endsAt_succ_iff.mpr ⟨hstop, hends⟩, ?_, ?_⟩
        · rw [List.iterate, listsWithoutFault_of_ok hloop]
          exact hlists
        · rw [rdClusterVisits_of_ok hloop hstop, hvisits]
          rfl

/-- A walk that stops brings the call back. -/
theorem rdCluster_of_endsAt {cluster i : ℕ} {c : ListCursor}
    (hends : ListingEndsAt vol g cluster i)
    (hlists : ListsWithoutFault vol g direntry
      (List.iterate (fat32RdFAT vol g) cluster (i + 1)) c) :
    ∃ result, fat32RdCluster vol g direntry (i + 1) cluster c = .ok result := by
  induction i generalizing cluster c with
  | zero => exact (rdCluster_of_stops (endsAt_zero_iff.mp hends) hlists).1
  | succ i ih =>
      obtain ⟨hpass, hrest⟩ := endsAt_succ_iff.mp hends
      have hfault : ∀ e,
          clusterLoop vol g direntry cluster c ≠ .error (.fault e) := by
        intro e hloop
        refine hlists e ?_
        rw [List.iterate, listClusters, hloop]
        rfl
      obtain ⟨s, hloop⟩ := clusterLoop_of_pass hpass hfault
      rw [List.iterate, listsWithoutFault_of_ok hloop] at hlists
      obtain ⟨result, hinner⟩ := ih hrest hlists
      rw [fat32RdCluster_of_ok hloop hpass, hinner, ok_bind]
      exact ⟨_, rfl⟩

/-! ## Loads -/

theorem mmapSectors_mono {size size' : ℤ} (hle : size ≤ size') :
    mmapSectors size ≤ mmapSectors size' := by
  unfold mmapSectors
  have hdiv : (size - 1).tdiv 512 ≤ (size' - 1).tdiv 512 :=
    Int.tdiv_le_tdiv (by norm_num) (by omega)
  omega

/-- The size that is left after `i` calls. -/
def MmapStops (vol : Volume) (g : Globals) (size : ℤ) (i cluster : ℕ) : Prop :=
  StopsAt vol g cluster (size - 512 * i)

/-- With less to load a call stops in fewer ways. -/
theorem MmapStops.earlier {size : ℤ} (i j cluster : ℕ) (hij : i ≤ j)
    (hstops : MmapStops vol g size j cluster) :
    MmapStops vol g size i cluster := by
  rcases hstops with herror | hend | ⟨k, hk, hunread⟩
  · exact Or.inl herror
  · exact Or.inr (Or.inl hend)
  · refine Or.inr (Or.inr ⟨k, lt_of_lt_of_le hk (mmapSectors_mono ?_), hunread⟩)
    omega

theorem mmapStops_succ (size : ℤ) :
    (fun i => MmapStops vol g size (i + 1)) = MmapStops vol g (size - 512) := by
  funext i cluster
  have hsub : size - 512 * ((i + 1 : ℕ) : ℤ) = size - 512 - 512 * i := by
    push_cast
    ring
  rw [MmapStops, MmapStops, hsub]

/-- A load that comes back has followed a walk that stops, and the size has
stayed in the range of an `int` up to there. -/
theorem endsAt_of_mmap {fuel cluster : ℕ} {size : ℤ} {chunks : List Buffer}
    (hok : fat32Mmap vol g fuel cluster size = .ok chunks) :
    ∃ i, EndsAt (fat32RdFAT vol g) (MmapStops vol g size) cluster i ∧
      intMin ≤ size - 512 * (i : ℕ) - 1 ∧
      mmapVisits vol g fuel cluster size =
        List.iterate (fat32RdFAT vol g) cluster (i + 1) := by
  induction fuel generalizing cluster size chunks with
  | zero => cases hok
  | succ fuel ih =>
      have hmin : intMin ≤ size - 1 := by
        by_contra hlt
        rw [fat32Mmap, if_pos (not_le.mp hlt)] at hok
        cases hok
      rw [fat32Mmap_succ fuel cluster size hmin] at hok
      rw [mmapVisits]
      by_cases hstop : StopsAt vol g cluster size
      · have hfirst : MmapStops vol g size 0 cluster := by
          simpa [MmapStops] using hstop
        refine ⟨0, endsAt_zero_iff.mpr hfirst, by omega, ?_⟩
        exact if_pos ((stopsAt_iff cluster size).mp hstop)
      · have hgo := (stopsAt_iff cluster size).not.mp hstop
        have hfirst : ¬MmapStops vol g size 0 cluster := by
          simpa [MmapStops] using hstop
        rw [if_neg hgo] at hok
        split at hok
        · cases hok
        · obtain ⟨more, hmore, _⟩ := bind_eq_ok_iff.mp hok
          obtain ⟨i, hends, hrange, hvisits⟩ := ih hmore
          rw [← mmapStops_succ] at hends
          refine ⟨i + 1, endsAt_succ_iff.mpr ⟨hfirst, hends⟩, ?_, ?_⟩
          · push_cast
            omega
          · rw [if_neg hgo, hvisits]
            rfl

theorem toInt32_lt (size : ℕ) : toInt32 size < 2 ^ 31 := by
  unfold toInt32
  rw [Int.bmod_def]
  split <;> omega

/-! ## Both walks -/

theorem listsOnce_iff (direntry : Buffer) (cluster : ℕ) (c : ListCursor) :
    ListsOnce vol g direntry cluster c ↔
      ∃ i, ListingEndsAt vol g cluster i ∧ ListsWithoutFault vol g direntry
        (List.iterate (fat32RdFAT vol g) cluster (i + 1)) c := by
  constructor
  · rintro ⟨fuel, result, hok, _⟩
    obtain ⟨i, hends, hlists, _⟩ := endsAt_of_rdCluster hok
    exact ⟨i, hends, hlists⟩
  · rintro ⟨i, hends, hlists⟩
    obtain ⟨result, hok⟩ := rdCluster_of_endsAt hends hlists
    obtain ⟨j, hends', _, hvisits⟩ := endsAt_of_rdCluster hok
    refine ⟨i + 1, result, hok, ?_⟩
    rw [hvisits]
    exact hends'.nodup fun _ _ _ _ hstops => hstops

theorem loadsOnce_iff (cluster size : ℕ) :
    LoadsOnce vol g cluster (toInt32 size) ↔
      WalkEnds vol g cluster (toInt32 size) := by
  have hfuel : toInt32 size - intMin < 512 * mmapFuel := by
    have hlt := toInt32_lt size
    simp only [intMin, mmapFuel]
    omega
  constructor
  · rintro ⟨fuel, chunks, hok, _⟩
    obtain ⟨i, hends, hrange, _⟩ := endsAt_of_mmap hok
    exact ⟨i, hrange, hends.1⟩
  · intro hends
    obtain ⟨chunks, hok⟩ := (fat32Mmap_returns_iff hfuel).mpr hends
    obtain ⟨i, hends, _, hvisits⟩ := endsAt_of_mmap hok
    refine ⟨mmapFuel, chunks, hok, ?_⟩
    rw [hvisits]
    exact hends.nodup MmapStops.earlier

end Fat32
end Janus86
