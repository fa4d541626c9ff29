import Janus86.CommandSpecs
import Janus86.Fat32Directory
import Janus86.Fat32Geometry
import Janus86.Fat32Termination
import Janus86.FsRoot

/-!
# The root directory of a FAT32 volume

The boot sector says where the root directory is, and `fat32_rd_bootsec` puts it
into `root_dir_first_cluster`, which nothing reads.  `fs_root` asks for cluster 2,
and an entry with start cluster 0 is shown with start cluster 2, so that `..`
leads there from a directory of the first level.
-/

namespace Janus86
namespace Fs

open Janus86.Partition
open Fat32 (FatLayout FatVolume rootDirectoryStart)

/-- A boot sector with a data cluster for the root directory.  It lies in front of
the FATs, and the drive has a number for each sector of the volume. -/
structure RootedLayout extends FatLayout where
  reserved : 1 ≤ Fat32.numBootSectors boot
  root_low : 2 ≤ rootDirectoryStart boot
  root_high : rootDirectoryStart boot < clusters + 2
  total_small : total ≤ 2 ^ 28 - lba

/-- The nodes of a list, `none` for a code. -/
def Reply.nodes : Reply → Option (List FsProperties)
  | .code _ => none
  | .list listing => some listing.nodes

/-- On every drive with this boot sector, `fs_root` does for the partition what a
listing of the root directory does. -/
def MountsRoot (l : RootedLayout) : Prop :=
  ∀ (v : FatVolume) (k : Kernel) (p : PartState) (n : ℤ) (m : Machine)
    (d : Driver), v.toFatLayout = l.toFatLayout → v.drive = 0 → k.disk = v.disk →
    driverFor m.drvList (partitionNode p n typeByteOffset) = some d →
    d.symbols = k.symbols .vfat → le32 (partitionNode p n) stLbaOffset = l.lba →
    (fsRoot k.rootRoutine p n m).map (fun r => (r.1, Reply.nodes r.2.fsProp)) =
      (Fat32.initFat32 v.vol (m.world.vfat.locals 0) (rootDirectoryStart l.boot)
        m.world.vfat.globals m.world.vfat.fresh).map
          fun listed => (fsDrvFound, some listed.list)

end Fs

namespace Fat32

/-- A directory below the root: its first entries are `.` and `..`, and the second
one has start cluster 0. -/
structure FirstLevel (v : FatVolume) (dir : ℕ) : Prop where
  low : 2 ≤ dir
  high : dir < v.clusters + 2
  readable : ∀ sector, v.disk.readable v.drive sector = true
  plain : fatEntry v.vol v.globals dir < 2 ^ 28
  names : ∀ i < 2, ∀ o < 11, entryAt v.vol v.globals dir i o =
    if o ≤ i then 46 else 32
  attribs : ∀ i < 2, attribOf (entryAt v.vol v.globals dir i) 0 = 0x10
  parent : le16 (entryAt v.vol v.globals dir 1) 20 = 0 ∧
    le16 (entryAt v.vol v.globals dir 1) 26 = 0

/-- From a directory of the first level `..` leads to that cluster. -/
def ParentIs (l : FatLayout) (root : ℕ) : Prop :=
  ∀ (v : FatVolume) (dir : ℕ) (s s' : State) (reply : Reply),
    v.toFatLayout = l → FirstLevel v dir → s.place = ⟨v.drive, v.lba, dir⟩ →
    chdirFat32 v.disk [46, 46] s = .ok (reply, s') →
    (∃ listing, reply = .list listing) ∧ s'.place = ⟨v.drive, v.lba, root⟩

end Fat32

namespace Fs

/-- Both ways to the root directory lead to where the boot sector says. -/
structure LeadsToRoot (l : RootedLayout) : Prop where
  mount : MountsRoot l
  parent : Fat32.ParentIs l.toFatLayout (Fat32.rootDirectoryStart l.boot)

end Fs

namespace Fat32

variable {vol : Volume} {g : Globals}

/-! ## Nodes that are kept -/

/-- What the nodes in front of the last one show; a name is put into the last one
only. -/
theorem putName_done {name : List UInt8} {c c' : ListCursor}
    (hput : putName name c = .ok c') :
    ∃ node, c.temp.setName name = .ok node ∧ c'.done = c.done ++ [node] := by
  obtain ⟨node, hset, hnext⟩ := bind_eq_ok_iff.mp hput
  exact ⟨node, hset, (nextNode_ok hnext).1⟩

theorem generateLongName_done {cluster i k : ℕ} {buf buf' : Buffer}
    {c c' : ListCursor}
    (hok : generateLongName vol g cluster buf i k c = .ok (buf', c')) :
    c.done <+: c'.done := by
  obtain ⟨⟨s, done⟩, _, hrest⟩ := bind_eq_ok_iff.mp hok
  dsimp only at hrest
  split at hrest
  · split at hrest
    · cases hrest
      exact List.prefix_rfl
    · obtain ⟨c₁, hput, hrest⟩ := bind_eq_ok_iff.mp hrest
      cases hrest
      obtain ⟨node, _, hdone⟩ := putName_done hput
      exact ⟨[node], hdone.symm⟩
  · cases hrest
    exact List.prefix_rfl

theorem readOrReturn_list {cluster k : ℕ} {s s' : ClusterState}
    (hok : readOrReturn vol g cluster k s = .ok s') : s'.list = s.list := by
  unfold readOrReturn at hok
  split at hok
  · cases hok
  · cases hok
    rfl

theorem longEntry_done {cluster k i : ℕ} {s s' : ClusterState}
    (hok : longEntry vol g cluster k i s = .ok s') :
    s.list.done <+: s'.list.done := by
  unfold longEntry at hok
  split at hok
  · obtain ⟨s₁, hread, hok⟩ := bind_eq_ok_iff.mp hok
    obtain ⟨⟨buf, list⟩, hlong, hok⟩ := bind_eq_ok_iff.mp hok
    obtain ⟨s₂, hagain, hok⟩ := bind_eq_ok_iff.mp hok
    cases hok
    have hdone := generateLongName_done (liftFault_eq_ok hlong)
    rw [readOrReturn_list hread] at hdone
    rw [readOrReturn_list hagain]
    exact hdone
  · obtain ⟨⟨buf, list⟩, hlong, hok⟩ := bind_eq_ok_iff.mp hok
    cases hok
    exact generateLongName_done (liftFault_eq_ok hlong)

theorem entryStep_done {cluster k i : ℕ} {s s' : ClusterState}
    (hok : entryStep vol g cluster k s i = .ok s') :
    s.list.done <+: s'.list.done := by
  have hremember : ∀ s : ClusterState, (rememberAttrib i s).list = s.list := by
    intro s
    unfold rememberAttrib
    split
    · rfl
    · rfl
  unfold entryStep at hok
  dsimp only at hok
  split at hok
  · split at hok
    · obtain ⟨s₁, hlong, hok⟩ := bind_eq_ok_iff.mp hok
      cases hok
      rw [hremember]
      have hdone := longEntry_done hlong
      rw [fillNode_done] at hdone
      exact hdone
    · obtain ⟨s₁, hshort, hok⟩ := bind_eq_ok_iff.mp hok
      cases hok
      rw [hremember]
      unfold shortEntry at hshort
      split at hshort
      · obtain ⟨list, hput, hshort⟩ := bind_eq_ok_iff.mp hshort
        cases hshort
        obtain ⟨node, _, hdone⟩ := putName_done (liftFault_eq_ok hput)
        rw [fillNode_done] at hdone
        exact ⟨[node], hdone.symm⟩
      · cases hshort
        rw [fillNode_done]
  · cases hok
    rw [hremember]

theorem sectorStep_done {cluster k : ℕ} {s s' : ClusterState}
    (hok : sectorStep vol g cluster s k = .ok s') :
    s.list.done <+: s'.list.done := by
  obtain ⟨s₁, hread, hrun⟩ := bind_eq_ok_iff.mp hok
  refine StepMachine.foldlM_invariant (fun s' => s.list.done <+: s'.list.done)
    (fun s₁ i s₂ hbefore hstep => hbefore.trans (entryStep_done hstep)) ?_ hrun
  rw [readOrReturn_list hread]

theorem foldlM_sectorStep_done {cluster : ℕ} {ks : List ℕ} {s s' : ClusterState}
    (hrun : ks.foldlM (sectorStep vol g cluster) s = .ok s') :
    s.list.done <+: s'.list.done :=
  StepMachine.foldlM_invariant (fun s' => s.list.done <+: s'.list.done)
    (fun _ _ _ hbefore hstep => hbefore.trans (sectorStep_done hstep))
    List.prefix_rfl hrun

/-- With all sectors readable a call goes through its cluster, and then through
the rest of the chain. -/
theorem fat32RdCluster_eq_ok {direntry : Buffer} {fuel cluster code : ℕ}
    {c c' : ListCursor}
    (hread : ∀ sector, vol.disk.readable vol.drive sector = true)
    (hok : fat32RdCluster vol g direntry fuel cluster c = .ok (code, c')) :
    ∃ s, clusterLoop vol g direntry cluster c = .ok s ∧
      s.list.done <+: c'.done ∧
      (isError (fat32RdFAT vol g cluster) = true ∧
          code = fat32RdFAT vol g cluster ∨
        isError (fat32RdFAT vol g cluster) = false ∧ code = success) := by
  induction fuel generalizing cluster code c c' with
  | zero => cases hok
  | succ fuel ih =>
      obtain ⟨s, hloop⟩ := clusterLoop_of_rdCluster hread hok
      rw [fat32RdCluster_of_loop hloop] at hok
      refine ⟨s, hloop, ?_⟩
      split at hok
      · next herror =>
          cases hok
          exact ⟨List.prefix_rfl, Or.inl ⟨herror, rfl⟩⟩
      · next herror =>
          rw [Bool.not_eq_true] at herror
          split at hok
          · cases hok
            exact ⟨List.prefix_rfl, Or.inr ⟨herror, rfl⟩⟩
          · obtain ⟨⟨inner, c₁⟩, hinner, hrest⟩ := bind_eq_ok_iff.mp hok
            cases hrest
            obtain ⟨s₁, hloop₁, hdone, _⟩ := ih hinner
            exact ⟨(foldlM_sectorStep_done hloop₁).trans hdone,
              Or.inr ⟨herror, rfl⟩⟩

/-! ## A directory of the first level -/

variable {v : FatVolume} {dir : ℕ}

theorem FirstLevel.shortName (hlevel : FirstLevel v dir) {i : ℕ} (hi : i < 2) :
    Fat32.shortName (entryAt v.vol v.globals dir i) 0 =
      List.replicate (i + 1) 46 := by
  have hbyte : ∀ o < 11, entryAt v.vol v.globals dir i o =
      if o ≤ i then 46 else 32 := fun o ho => hlevel.names i hi o ho
  have hcases : i = 0 ∨ i = 1 := by omega
  simp only [Fat32.shortName, List.range_succ, List.range_zero, List.nil_append,
    List.flatMap_append, List.flatMap_cons, List.flatMap_nil, Nat.zero_add,
    Nat.add_zero, Nat.reduceAdd, List.append_nil]
  rw [hbyte 0 (by decide), hbyte 1 (by decide), hbyte 2 (by decide),
    hbyte 3 (by decide), hbyte 4 (by decide), hbyte 5 (by decide),
    hbyte 6 (by decide), hbyte 7 (by decide), hbyte 8 (by decide),
    hbyte 9 (by decide), hbyte 10 (by decide)]
  rcases hcases with rfl | rfl
  · decide
  · decide

/-- The turn for one of the two entries puts its name into the last node. -/
theorem FirstLevel.entryStep (hlevel : FirstLevel v dir) {i : ℕ} (hi : i < 2)
    {s s' : ClusterState} (hholds : Holds v.vol v.globals dir 0 s.direntry)
    (hprev : s.prev ≠ 0x0F)
    (hok : Fat32.entryStep v.vol v.globals dir 0 s i = .ok s') :
    ∃ node, s'.list.done = s.list.done ++ [node] ∧ s'.prev = 0x10 ∧
      s'.direntry = s.direntry ∧ node.name = List.replicate (i + 1) 46 ∧
      node.fileType = directory ∧
      node.start = startCluster (entryAt v.vol v.globals dir i) 0 := by
  have hsector : i < direntPerSector := lt_of_lt_of_le hi (by decide)
  have hentry : direntPerSector * 0 + i = i := by omega
  have hattrib := hholds.attribOf hsector
  have hfirst := hholds.first hsector
  have hname := hholds.shortName hsector
  have hstart := hholds.startCluster hsector
  rw [hentry] at hattrib hfirst hname hstart
  rw [hlevel.attribs i hi] at hattrib
  rw [hlevel.names i hi 0 (by decide), if_pos (Nat.zero_le i)] at hfirst
  rw [hlevel.shortName hi] at hname
  have hlive : isLive (s.direntry (32 * i)) = true := by
    rw [hfirst]
    decide
  cases hput : putName (Fat32.shortName s.direntry (32 * i))
      (fillNode s.direntry (32 * i) s.list) with
  | error e =>
      unfold Fat32.entryStep at hok
      dsimp only at hok
      rw [hattrib, if_pos (by decide), if_neg hprev, shortEntry, if_pos hlive,
        hput] at hok
      cases hok
  | ok c =>
      have hstep : Fat32.entryStep v.vol v.globals dir 0 s i =
          .ok ⟨s.direntry, attribOf s.direntry (32 * i), c⟩ :=
        entryStep_short hprev (by rw [hattrib]; decide) hlive hput
      rw [hstep] at hok
      cases hok
      obtain ⟨node, hset, hdone⟩ := putName_done hput
      have hshown := entry_of_setName hset
      have hzero : cString (List.replicate (i + 1) 46) =
          List.replicate (i + 1) 46 := by
        rw [cString_eq_self_iff]
        intro c hc
        rw [List.eq_of_mem_replicate hc]
        decide
      rw [hname, hzero] at hshown
      rw [fillNode_temp, hattrib, hstart] at hshown
      rw [fillNode_done] at hdone
      exact ⟨node, hdone, hattrib, rfl, congrArg Entry.name hshown,
        congrArg Entry.fileType hshown, congrArg Entry.start hshown⟩

/-- The nodes that the list begins with. -/
theorem FirstLevel.clusterLoop (hlevel : FirstLevel v dir) {direntry : Buffer}
    {first : FsProperties} {fresh : List FreshBlock} {s : ClusterState}
    (hok : Fat32.clusterLoop v.vol v.globals direntry dir ⟨[], first, fresh⟩ =
      .ok s) :
    ∃ dot dotdot, [dot, dotdot] <+: s.list.done ∧ dot.name = [46] ∧
      dotdot.name = [46, 46] ∧ dotdot.fileType = directory ∧ dotdot.start = 2 := by
  obtain ⟨n, hn⟩ : ∃ n, v.globals.sectorsPerCluster = n + 1 :=
    ⟨perCluster v.boot - 1, (Nat.sub_add_cancel v.sectors_pos).symm⟩
  unfold Fat32.clusterLoop at hok
  rw [hn, List.range_succ_eq_map, List.foldlM_cons] at hok
  obtain ⟨s₁, hsector, hrest⟩ := bind_eq_ok_iff.mp hok
  obtain ⟨s₀, hread, hentries⟩ := bind_eq_ok_iff.mp hsector
  have hreadable : ∀ sector, v.vol.disk.readable v.vol.drive sector = true :=
    hlevel.readable
  obtain ⟨buf, hholds, hbuf⟩ := readOrReturn_holds hreadable v.globals dir 0
    ⟨direntry, 0, ⟨[], first, fresh⟩⟩
  rw [hbuf] at hread
  cases hread
  have hrange : List.range direntPerSector = 0 :: 1 :: [2, 3, 4, 5, 6, 7, 8, 9,
      10, 11, 12, 13, 14, 15] := rfl
  rw [hrange, List.foldlM_cons] at hentries
  obtain ⟨s₂, hdot, hentries⟩ := bind_eq_ok_iff.mp hentries
  rw [List.foldlM_cons] at hentries
  obtain ⟨s₃, hdotdot, hentries⟩ := bind_eq_ok_iff.mp hentries
  obtain ⟨dot, hdone, hprev, hbuf₂, hname, _⟩ :=
    hlevel.entryStep (i := 0) (by decide) hholds (Nat.zero_ne_add_one 14) hdot
  have hholds₂ : Holds v.vol v.globals dir 0 s₂.direntry := by
    rw [hbuf₂]
    exact hholds
  obtain ⟨dotdot, hdone', _, _, hname', htype, hstart⟩ :=
    hlevel.entryStep (i := 1) (by decide) hholds₂ (by rw [hprev]; decide) hdotdot
  have hzero : startCluster (entryAt v.vol v.globals dir 1) 0 = 2 := by
    simp only [startCluster, Nat.zero_add, hlevel.parent.1, hlevel.parent.2,
      hlevel.attribs 1 (by decide)]
    rfl
  refine ⟨dot, dotdot, ?_, hname, hname', htype, hstart.trans hzero⟩
  rw [hdone, List.nil_append, List.singleton_append] at hdone'
  have hlater : s₃.list.done <+: s₁.list.done :=
    StepMachine.foldlM_invariant (fun s => s₃.list.done <+: s.list.done)
      (fun _ _ _ hbefore hstep => hbefore.trans (entryStep_done hstep))
      List.prefix_rfl hentries
  rw [hdone'] at hlater
  exact hlater.trans (foldlM_sectorStep_done hrest)

/-- The listing has a directory `..` with start cluster 2. -/
theorem FirstLevel.findName (hlevel : FirstLevel v dir) {stack : Stack}
    {g₀ : Globals} {fresh : List FreshBlock} {listed : Listed}
    (hok : initFat32 v.vol stack dir g₀ fresh = .ok listed) :
    ∃ node, Janus86.findName [46, 46] listed.search = some node ∧
      node.fileType = directory ∧ node.start = 2 := by
  obtain ⟨⟨first, fresh'⟩, _, hok⟩ := bind_eq_ok_iff.mp hok
  rw [v.rdBootsec hlevel.low hlevel.high] at hok
  dsimp only at hok
  rw [if_neg (by decide)] at hok
  obtain ⟨⟨code, c⟩, hcluster, hok⟩ := bind_eq_ok_iff.mp hok
  cases hok
  obtain ⟨s, hloop, hdone, hcode⟩ := fat32RdCluster_eq_ok hlevel.readable hcluster
  obtain ⟨dot, dotdot, hprefix, hname, hname', htype, hstart⟩ :=
    hlevel.clusterLoop hloop
  have hplain : isError (fat32RdFAT v.vol v.globals dir) = false := by
    have hplain := hlevel.plain
    have hreadable : ∀ sector, v.vol.disk.readable v.vol.drive sector = true :=
      hlevel.readable
    rw [fat32RdFAT_eq hreadable]
    split
    · rfl
    · exact isError_of_lt (hplain.trans (by decide))
  have hsuccess : code = success := by
    rcases hcode with ⟨herror, _⟩ | ⟨_, hcode⟩
    · rw [hplain] at herror
      cases herror
    · exact hcode
  obtain ⟨rest, hrest⟩ := hprefix.trans hdone
  refine ⟨dotdot, ?_, htype, hstart⟩
  dsimp only
  rw [hsuccess, if_neg (by decide), ListCursor.listing, ← hrest]
  simp only [List.cons_append, Janus86.findName]
  rw [if_neg (by rw [hname]; decide), if_pos hname']

theorem parentIs_two (l : FatLayout) : ParentIs l 2 := by
  intro v dir s s' reply _ hlevel hplace hok
  rcases chdirFat32_spec hok with ⟨hsplit, _⟩ | ⟨hdot, _⟩ |
    ⟨args, c, hsplit, _, hplace', hrest⟩
  · exact absurd hsplit (by decide)
  · exact absurd hdot (by decide)
  · obtain rfl : [[46, 46]] = args :=
      Option.some.inj ((show splitPath directoryNum (cString [46, 46]) = _ from
        by decide).symm.trans hsplit)
    cases hread : (reader v.disk).read s with
    | error e =>
        simp only [walkPath, hread] at hrest
        rcases hrest with ⟨hwalk, _⟩ | ⟨hwalk | hwalk, _⟩ <;> cases hwalk
    | ok x =>
        obtain ⟨listed, hinit, hrest'⟩ := bind_eq_ok_iff.mp hread
        have hvol : s.volume v.disk = v.vol := by
          rw [DriverState.volume, hplace]
          rfl
        rw [hvol, hplace] at hinit
        obtain ⟨node, hfind, htype, hstart⟩ := hlevel.findName hinit
        cases hrest'
        have henter : ∀ cur : Cursor Globals Stack,
            cur.listing.search = listed.search → cur.state.place = s.place →
            ∀ c', enter (reader v.disk) cur [46, 46] = .ok c' →
              c'.state.place = ⟨v.drive, v.lba, 2⟩ := by
          intro cur hsearch hcur c' henter
          rw [enter, if_neg (by decide), hsearch, hfind] at henter
          dsimp only at henter
          rw [if_pos htype, hstart] at henter
          split at henter
          · cases henter
          · next hread' =>
              cases henter
              rw [(listsPlace_read hread').2, hcur, hplace]
        have hnever : ∀ cur : Cursor Globals Stack,
            cur.listing.search = listed.search →
            ∀ c', ¬Stops (enter (reader v.disk) cur [46, 46]) c' := by
          intro cur hsearch c' hstops
          rw [enter, if_neg (by decide), hsearch, hfind] at hstops
          dsimp only at hstops
          rw [if_pos htype] at hstops
          split at hstops
          · rcases hstops with h | h <;> cases h
          · rcases hstops with h | h <;> cases h
        simp only [walkPath, hread, List.foldlM_cons, List.foldlM_nil,
          bind_pure] at hrest
        rcases hrest with ⟨hwalk, listing, hreply, _⟩ | ⟨hwalk, _⟩
        · refine ⟨⟨listing, hreply⟩, hplace'.trans ?_⟩
          exact henter _ rfl rfl _ hwalk
        · exact absurd hwalk (hnever _ rfl _)

/-! ## The mount -/

/-- `root_fat32` reads the directory that it is told, and stays in it. -/
theorem rootFat32_eq (disk : Disk) (lba drive cluster : ℕ) (s : State) :
    rootFat32 disk lba drive cluster s =
      (initCurrent disk (s.moved lba drive cluster)).map
        fun r => (.list r.1, r.2) := by
  have hpath : cString [47] = [47] := by decide
  have hread : (reader disk).read (s.moved lba drive cluster) =
      initCurrent disk (s.moved lba drive cluster) := rfl
  unfold rootFat32 chdirFat32
  rw [hpath, if_neg (by decide), splitPath_slash]
  dsimp only
  rw [if_neg (by decide), walkPath, hread]
  cases initCurrent disk (s.moved lba drive cluster) with
  | error e => rfl
  | ok r => rfl

end Fat32

namespace Fs

open Janus86.Partition
open Fat32 (FatLayout FatVolume)

/-- What `fs_root` does for a partition of the FAT driver. -/
theorem fsRoot_vfat {k : Kernel} {p : PartState} {n : ℤ} {m : Machine}
    {d : Driver}
    (hdriver : driverFor m.drvList (partitionNode p n typeByteOffset) = some d)
    (hkind : d.symbols = k.symbols .vfat) :
    (fsRoot k.rootRoutine p n m).map (fun r => (r.1, Reply.nodes r.2.fsProp)) =
      (Fat32.initFat32 ⟨k.disk, 0, le32 (partitionNode p n) stLbaOffset⟩
        (m.world.vfat.locals 0) 2 m.world.vfat.globals m.world.vfat.fresh).map
          fun listed => (fsDrvFound, some listed.list) := by
  have hne : d.symbols.root ≠ k.ext2.root := by
    rw [hkind]
    exact fun h => k.root_ne h.symm
  have hvfat : d.symbols.root = k.vfat.root := congrArg Symbols.root hkind
  have hinit : Fat32.initCurrent k.disk (m.world.vfat.moved
      (le32 (partitionNode p n) stLbaOffset) 0 2) =
    Fat32.initFat32 ⟨k.disk, 0, le32 (partitionNode p n) stLbaOffset⟩
      (m.world.vfat.locals 0) 2 m.world.vfat.globals m.world.vfat.fresh >>= _ :=
    rfl
  unfold fsRoot
  simp only [hdriver]
  unfold callRoot Kernel.rootRoutine
  rw [if_neg hne, if_pos hvfat, Fat32.rootFat32_eq, hinit]
  cases Fat32.initFat32 ⟨k.disk, 0, le32 (partitionNode p n) stLbaOffset⟩
      (m.world.vfat.locals 0) 2 m.world.vfat.globals m.world.vfat.fresh with
  | error e => rfl
  | ok listed => rfl

theorem mountsRoot_of_two {l : RootedLayout}
    (htwo : Fat32.rootDirectoryStart l.boot = 2) : MountsRoot l := by
  intro v k p n m d hlayout hdrive hdisk hdriver hkind hlba
  have hvol : v.vol = ⟨k.disk, 0, le32 (partitionNode p n) stLbaOffset⟩ := by
    rw [FatVolume.vol, hdrive, hdisk, hlba, hlayout]
  rw [fsRoot_vfat hdriver hkind, htwo, hvol]

/-! ## Another root directory -/

variable (l : RootedLayout)

theorem RootedLayout.fatStart_le : l.fatStart ≤ l.dataStart := by
  rw [Fat32.FatLayout.fatStart, Fat32.FatLayout.dataStart, Fat32.systemSectors]
  omega

theorem RootedLayout.lba_lt : l.lba < l.fatStart ∧ l.fatStart < 2 ^ 28 := by
  have hroot := l.sectors_le l.root_low l.root_high l.sectors_pos
  have hfits := l.data_fits
  have hsmall := l.total_small
  have hreserved := l.reserved
  rw [Fat32.systemSectors] at hfits
  rw [Fat32.FatLayout.fatStart]
  omega

/-- On this drive the first sector of cluster 2 cannot be read, and all but the
boot sector is 0. -/
def RootedLayout.damaged : Disk where
  readable := fun _ n => !decide (n = l.dataStart)
  byte := fun _ n o => if n = l.lba then l.boot o else 0

def RootedLayout.damagedVolume : FatVolume where
  toFatLayout := l.toFatLayout
  disk := l.damaged
  drive := 0
  readable := by
    have hlow := l.lba_lt
    have hdata : l.lba < l.dataStart := lt_of_lt_of_le hlow.1 l.fatStart_le
    rw [ataLba_of_lt (hlow.1.trans hlow.2)]
    simp [damaged, hdata.ne]
  stored := fun o _ => by
    have hlow := l.lba_lt
    rw [ataLba_of_lt (hlow.1.trans hlow.2)]
    exact if_pos rfl

/-- The record of the volume. -/
def RootedLayout.partition : PartState :=
  { heapOf 0 with records := [fillNode 1 ⟨0x0C, l.lba, 4096⟩ 0 fun _ => 0] }

/-- Only the vfat driver is registered, and `kmalloc` has one block, with a
name in it. -/
def oneBlock : Machine where
  drvList := [⟨1, 0x0C, 0x20000, ascii "vfat", ⟨4, 5, 6⟩⟩]
  symbols := Symbols.null
  fsProp := .code 0
  world :=
    { ext2 := idleExt2
      vfat := ⟨⟨0, 0, 2⟩, ⟨0, 0, 0⟩, [⟨⟨0, 0, 0, [1]⟩, fun _ => 0⟩],
        fun _ => Fat32.zeroStack⟩ }
  registered := 2

theorem RootedLayout.partitionNode_eq : partitionNode l.partition 1 =
    fillNode 1 ⟨0x0C, l.lba, 4096⟩ 0 fun _ => 0 := by
  have hnumber : (toInt32 (le32 (fillNode 1 ⟨0x0C, l.lba, 4096⟩ 0 fun _ => 0)
      nameOffset) == 1) = true := by
    rw [number_fillNode]
    decide
  have hfind : l.partition.records.find?
      (fun node => toInt32 (le32 node nameOffset) == 1) =
        some (fillNode 1 ⟨0x0C, l.lba, 4096⟩ 0 fun _ => 0) :=
    List.find?_cons_of_pos hnumber
  rw [partitionNode, hfind, Option.getD_some]

theorem RootedLayout.partition_driver :
    driverFor oneBlock.drvList (partitionNode l.partition 1 typeByteOffset) =
      some ⟨1, 0x0C, 0x20000, ascii "vfat", ⟨4, 5, 6⟩⟩ := by
  rw [l.partitionNode_eq, typeByte_fillNode]
  rfl

theorem RootedLayout.partition_start :
    le32 (partitionNode l.partition 1) stLbaOffset = l.lba := by
  have hlow := l.lba_lt
  rw [l.partitionNode_eq, start_fillNode]
  exact (congrArg (· % 2 ^ 32) (Nat.zero_add l.lba)).trans
    (Nat.mod_eq_of_lt (by omega))

/-- Each sector of the other cluster can be read, and so can its FAT entry. -/
theorem RootedLayout.root_readable (hne : Fat32.rootDirectoryStart l.boot ≠ 2) :
    (∀ k < Fat32.perCluster l.boot, Fat32.sectorReadable l.damagedVolume.vol
      l.globals (Fat32.rootDirectoryStart l.boot) k = true) ∧
      Fat32.fat32RdFAT l.damagedVolume.vol l.globals
        (Fat32.rootDirectoryStart l.boot) = 0 := by
  have hlow := l.root_low
  have hfits := l.data_fits
  have hsmall := l.total_small
  have hdata : l.dataStart = l.lba + Fat32.systemSectors l.boot := rfl
  constructor
  · intro k hk
    have hsector : Fat32.clusterSector l.damagedVolume.vol l.globals
        (Fat32.rootDirectoryStart l.boot) k = l.dataStart +
          ((Fat32.rootDirectoryStart l.boot - 2) * Fat32.perCluster l.boot + k) :=
      l.damagedVolume.clusterSector_eq hlow l.root_high hk
    have hinside := l.sectors_le hlow l.root_high hk
    have hbehind : Fat32.perCluster l.boot ≤
        (Fat32.rootDirectoryStart l.boot - 2) * Fat32.perCluster l.boot :=
      Nat.le_mul_of_pos_left _ (by omega)
    have hpos := l.sectors_pos
    rw [Fat32.sectorReadable, hsector]
    change (!decide (ataLba (l.dataStart + _) = l.dataStart)) = true
    rw [ataLba_of_lt (by omega)]
    simp
    omega
  · have hinside : Fat32.rootDirectoryStart l.boot / Fat32.cluPerFat <
        Fat32.bigSectorsPerFat l.boot :=
      (l.damagedVolume.fatSector_eq hlow l.root_high).2
    have hfat := l.fat_le
    have hsystem : l.dataStart = l.fatStart +
        Fat32.numFats l.boot * Fat32.bigSectorsPerFat l.boot :=
      (Nat.add_assoc _ _ _).symm
    have hlba := l.lba_lt.1
    have hbegin : l.globals.fatBeginLba = l.fatStart := rfl
    have hnumber : ataLba (l.fatStart +
        Fat32.rootDirectoryStart l.boot / Fat32.cluPerFat) =
          l.fatStart + Fat32.rootDirectoryStart l.boot / Fat32.cluPerFat :=
      ataLba_of_lt (by omega)
    have hbehind : l.fatStart + Fat32.rootDirectoryStart l.boot /
        Fat32.cluPerFat ≠ l.lba := (hlba.trans_le (Nat.le_add_right _ _)).ne'
    have hbyte : ∀ o, l.damaged.byte 0 (l.fatStart +
        Fat32.rootDirectoryStart l.boot / Fat32.cluPerFat) o = 0 :=
      fun o => if_neg hbehind
    have hentry : Fat32.fatEntry l.damagedVolume.vol l.globals
        (Fat32.rootDirectoryStart l.boot) = 0 := by
      change le32 (fun o => l.damaged.byte 0 (ataLba _) o) _ = 0
      rw [hbegin, hnumber]
      simp [le32, le16, hbyte]
    rw [Fat32.fat32RdFAT_of_readable, hentry]
    · rfl
    · change (!decide (ataLba ((l.fatStart +
        Fat32.rootDirectoryStart l.boot / Fat32.cluPerFat) % 2 ^ 32) =
          l.dataStart)) = true
      rw [Nat.mod_eq_of_lt (by omega), hnumber]
      simp
      omega

theorem RootedLayout.initFat32_eq {cluster : ℕ} (hlow : 2 ≤ cluster)
    (hhigh : cluster < l.clusters + 2) :
    Fat32.initFat32 l.damagedVolume.vol (oneBlock.world.vfat.locals 0) cluster
        oneBlock.world.vfat.globals oneBlock.world.vfat.fresh =
      (Fat32.fat32RdCluster l.damagedVolume.vol l.globals (fun _ => 0)
        Fat32.chainFuel cluster ⟨[], ⟨0, 0, 0, [1]⟩, []⟩).map fun r =>
          ⟨l.globals, r.2.listing, if isError r.1 then [r.2.temp] else r.2.listing,
            r.2.fresh⟩ := by
  have hboot := l.damagedVolume.rdBootsec hlow hhigh
    (oneBlock.world.vfat.locals 0).bootsec oneBlock.world.vfat.globals
  have htake : takeFresh oneBlock.world.vfat.fresh =
    .ok (⟨⟨0, 0, 0, [1]⟩, fun _ => 0⟩, []) := rfl
  rw [Fat32.initFat32, htake, ok_bind]
  dsimp only
  rw [hboot]
  dsimp only
  rw [if_neg (by decide)]
  change Fat32.fat32RdCluster _ l.globals (fun _ => 0) _ _ _ >>= _ = _
  cases Fat32.fat32RdCluster l.damagedVolume.vol l.globals (fun _ => 0)
      Fat32.chainFuel cluster ⟨[], ⟨0, 0, 0, [1]⟩, []⟩ with
  | error e => rfl
  | ok r => rfl

/-- The listing of cluster 2 fails, and its only node keeps the name. -/
theorem RootedLayout.two_listed (hclusters : 2 < l.clusters + 2) :
    ∃ listed, Fat32.initFat32 l.damagedVolume.vol (oneBlock.world.vfat.locals 0)
        2 oneBlock.world.vfat.globals oneBlock.world.vfat.fresh = .ok listed ∧
      listed.list.getLast?.map FsProperties.name = some [1] := by
  obtain ⟨n, hn⟩ : ∃ n, l.globals.sectorsPerCluster = n + 1 :=
    ⟨Fat32.perCluster l.boot - 1, (Nat.sub_add_cancel l.sectors_pos).symm⟩
  have hsector : Fat32.clusterSector l.damagedVolume.vol l.globals 2 0 =
      l.dataStart := by
    have hsector := l.damagedVolume.clusterSector_eq le_rfl hclusters l.sectors_pos
    rw [Nat.sub_self, Nat.zero_mul] at hsector
    exact hsector
  have hunread : ∀ buf, Fat32.readClusterSector l.damagedVolume.vol l.globals 2 0
      buf = none := by
    intro buf
    have hsmall : l.dataStart < 2 ^ 28 := by
      have hroot := l.sectors_le l.root_low l.root_high l.sectors_pos
      have hfits := l.data_fits
      have hsmall := l.total_small
      rw [Fat32.FatLayout.dataStart]
      omega
    refine readDiskSector_one_eq_none buf ?_
    rw [hsector, ataLba_of_lt hsmall]
    simp [damagedVolume, Fat32.FatVolume.vol, damaged]
  rw [l.initFat32_eq le_rfl hclusters, Fat32.chainFuel, Fat32.fat32RdCluster, hn,
    List.range_succ_eq_map, List.foldlM_cons]
  simp only [Fat32.sectorStep, Fat32.readOrReturn, hunread, error_bind]
  exact ⟨_, rfl, rfl⟩

/-- A listing of the other cluster ends with an empty name. -/
theorem RootedLayout.root_listed (hne : Fat32.rootDirectoryStart l.boot ≠ 2)
    {listed : Fat32.Listed}
    (hok : Fat32.initFat32 l.damagedVolume.vol (oneBlock.world.vfat.locals 0)
      (Fat32.rootDirectoryStart l.boot) oneBlock.world.vfat.globals
      oneBlock.world.vfat.fresh = .ok listed) :
    listed.list.getLast?.map FsProperties.name = some [] := by
  obtain ⟨hreadable, hentry⟩ := l.root_readable hne
  rw [l.initFat32_eq l.root_low l.root_high, Fat32.chainFuel,
    Fat32.fat32RdCluster, hentry] at hok
  cases hloop : Fat32.clusterLoop l.damagedVolume.vol l.globals (fun _ => 0)
      (Fat32.rootDirectoryStart l.boot) ⟨[], ⟨0, 0, 0, [1]⟩, []⟩ with
  | error stop =>
      rw [show (List.range _).foldlM _ _ = _ from hloop] at hok
      cases stop with
      | fault e => cases hok
      | ret code list =>
          obtain ⟨k, hk, hunread⟩ := (Fat32.clusterTurns _ _ _ _).2 code list hloop
          rw [hreadable k hk] at hunread
          cases hunread
  | ok s =>
      rw [show (List.range _).foldlM _ _ = _ from hloop] at hok
      cases hok
      simp [Fat32.clearName, ListCursor.listing, FsProperties.name, cString]

theorem MountsRoot.root_eq {l : RootedLayout} (hmounts : MountsRoot l) :
    Fat32.rootDirectoryStart l.boot = 2 := by
  by_contra hne
  have hrun := hmounts l.damagedVolume (kernelOn l.damaged) l.partition 1 oneBlock
    _ rfl rfl rfl l.partition_driver rfl l.partition_start
  have hclusters : 2 < l.clusters + 2 := by
    have hlow := l.root_low
    have hhigh := l.root_high
    omega
  obtain ⟨listed, hlisted, htwo⟩ := l.two_listed hclusters
  have hvol : l.damagedVolume.vol =
      ⟨(kernelOn l.damaged).disk, 0, le32 (partitionNode l.partition 1) stLbaOffset⟩ := by
    rw [l.partition_start]
    rfl
  rw [fsRoot_vfat l.partition_driver rfl, ← hvol, hlisted] at hrun
  cases hroot : Fat32.initFat32 l.damagedVolume.vol
      (oneBlock.world.vfat.locals 0) (Fat32.rootDirectoryStart l.boot)
      oneBlock.world.vfat.globals oneBlock.world.vfat.fresh with
  | error e =>
      rw [hroot] at hrun
      cases hrun
  | ok other =>
      rw [hroot] at hrun
      have hsame : listed.list = other.list := by
        simpa [Except.map] using hrun
      rw [hsame, l.root_listed hne hroot] at htwo
      cases htwo

/-- The boot sector has its way where it says what the code assumes. -/
theorem leadsToRoot_iff (l : RootedLayout) :
    LeadsToRoot l ↔ Fat32.rootDirectoryStart l.boot = 2 := by
  constructor
  · rintro ⟨hmounts, _⟩
    exact hmounts.root_eq
  · intro htwo
    refine ⟨mountsRoot_of_two htwo, ?_⟩
    rw [htwo]
    exact Fat32.parentIs_two _

/-- The root directory of this volume is in cluster 3. -/
def thirdClusterRoot : RootedLayout where
  boot := fun o =>
    if o ∈ [13, 14, 16, 36] then 1 else if o = 12 then 2 else if o = 44 then 3
    else if o = 510 then 0x55 else if o = 511 then 0xAA else 0
  lba := 63
  total := 4
  clusters := 2
  magic := by decide
  bytes_eq := by decide
  fats_pos := by decide
  sectors_pos := by decide
  fat_covers := by decide
  data_fits := by decide
  total_le := by decide
  reserved := by decide
  root_low := by decide
  root_high := by decide
  total_small := by decide

theorem third_cluster_missed : ¬ LeadsToRoot thirdClusterRoot := by
  rintro ⟨hmounts, _⟩
  exact absurd hmounts.root_eq (by decide)

end Fs
end Janus86
