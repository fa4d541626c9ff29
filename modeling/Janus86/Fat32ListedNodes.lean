import Janus86.Ext2ListedNodes
import Janus86.Fat32DirEntries

/-!
# What a FAT32 directory puts into its nodes

A node stays in the list when an entry put its name there; then it has the type of
that entry, and three attribute bytes give a type behind the table.  The node at the
end gets the empty name when the chain has been gone through.  When the first cluster
stops the call it keeps what the log left there: nothing, or a long name without its
NUL.
-/

namespace Janus86
namespace Fat32

open StepMachine

/-- `fat32_rd_cluster` as far as the list goes. -/
def listChain (vol : Volume) (g : Globals) (direntry : Buffer) (fuel cluster : ℕ)
    (c : ListCursor) : Except Fault ListCursor := do
  let (_, c) ← fat32RdCluster vol g direntry fuel cluster c
  pure c

/-- The attribute bytes that go into `file_type` as they are and are no type. -/
def untypedAttribs : List UInt8 := [0x40, 0x80, 0xC0]

/-- The entry puts no name that shows, or it has a type in the table. -/
def EntryWrite.Named (w : EntryWrite) : Prop :=
  ∀ name, w.name = .put name → cString name ≠ [] → w.attrib ∉ untypedAttribs

def leftStep (left : UInt8 × List UInt8) (w : EntryWrite) : UInt8 × List UInt8 :=
  match w.name with
  | .keep => (w.attrib, left.2)
  | .leave name => (w.attrib, name ++ left.2.drop name.length)
  | .put _ => (0, [])

/-- The attribute of the last entry put into the node at the end, and the bytes of
long names that were left in it. -/
def leftBy (log : List EntryWrite) : UInt8 × List UInt8 :=
  log.foldl leftStep (0, [])

/-- What was left is a name with its NUL, and it does not show or has a type. -/
def LeftNamed (log : List EntryWrite) : Prop :=
  0 ∈ (leftBy log).2 ∧
    (cString (leftBy log).2 ≠ [] → (leftBy log).1 ∉ untypedAttribs)

/-- The sectors of the cluster can be read, and its entry in the FAT is no code of an
error. -/
def Passed (vol : Volume) (g : Globals) (cluster : ℕ) : Prop :=
  (∀ k < g.sectorsPerCluster, sectorReadable vol g cluster k = true) ∧
    isError (fat32RdFAT vol g cluster) = false

/-- The entries of the directory that begins with the cluster: along the links of the
FAT, up to the first sector that cannot be read. -/
def chainEntries (vol : Volume) (g : Globals) : ℕ → ℕ → List EntryWrite
  | 0, _ => []
  | fuel + 1, cluster =>
      match (clusterRead vol g cluster).2 with
      | none => (clusterRead vol g cluster).1
      | some _ =>
          let next := fat32RdFAT vol g cluster
          (clusterRead vol g cluster).1 ++
            if isError next ∨ next = 0 then [] else chainEntries vol g fuel next

/-- What the entries of the directory have to be. -/
structure ChainNamed (vol : Volume) (g : Globals) (fuel cluster : ℕ) : Prop where
  entries : ∀ w ∈ chainEntries vol g fuel cluster, w.Named
  last : Passed vol g cluster ∨ LeftNamed (chainEntries vol g fuel cluster)

variable {vol : Volume} {g : Globals} {Old : List UInt8 → Prop}
  {log : List EntryWrite} {w : EntryWrite}

theorem fileTypeOf_lt_iff (attrib : UInt8) :
    fileTypeOf attrib.toNat < fileTypeNames.length ↔ attrib ∉ untypedAttribs := by
  have hall : ∀ n < 256, fileTypeOf n < fileTypeNames.length ↔
      UInt8.ofNat n ∉ untypedAttribs := by decide +kernel
  rw [hall attrib.toNat attrib.toNat_lt, UInt8.ofNat_toNat]

/-! ## The writes on any nodes -/

theorem fill_over {m c : ListCursor} (hover : OverList Old c m) :
    OverList Old (w.fill c) (w.fill m) :=
  ⟨hover.done, ⟨hover.temp.written, fun _ => rfl, hover.temp.untouched⟩, hover.fresh,
    hover.old, hover.empty⟩

theorem leaveName_over {m c : ListCursor} (hover : OverList Old c m)
    (htype : c.temp.fileType = m.temp.fileType) (name : List UInt8) :
    OverList Old (leaveName name c) (leaveName name m) where
  done := hover.done
  temp := by
    refine ⟨?_, fun _ => htype, fun hnil => ?_⟩
    · exact (List.prefix_append_right_inj name).mpr (hover.temp.written.drop name.length)
    · obtain ⟨rfl, hrest⟩ := List.append_eq_nil_iff.mp hnil
      exact hover.temp.untouched hrest
  fresh := hover.fresh
  old := hover.old
  empty := hover.empty

theorem apply_simulates {m c : ListCursor} (hover : OverList Old c m) :
    Simulates (fun m c => OverList Old c m) (w.apply m) (w.apply c) := by
  have hfill := @fill_over Old w m c hover
  unfold EntryWrite.apply
  cases w.name with
  | keep => exact Simulates.ok hfill
  | leave name => exact Simulates.ok (leaveName_over hfill rfl name)
  | put name => exact fun m' hput => hfill.putName rfl hput

theorem clearName_over {m c : ListCursor} (hover : OverList Old c m) :
    OverList Old (clearName c) (clearName m) where
  done := hover.done
  temp := ⟨List.cons_prefix_cons.mpr ⟨rfl, hover.temp.written.drop 1⟩,
    fun h => absurd rfl h, fun h => absurd h (List.cons_ne_nil _ _)⟩
  fresh := hover.fresh
  old := hover.old
  empty := hover.empty

/-! ## The writes on empty nodes -/

/-- What a log leaves of a list on empty nodes. -/
structure LogMarked (log : List EntryWrite) (m : ListCursor) : Prop where
  empty : ∀ block ∈ m.fresh, block = blank
  ended : ∀ node ∈ m.done, 0 ∈ node.filename
  named : (∀ node ∈ m.done, Named node) ↔ ∀ w ∈ log, w.Named
  filename : m.temp.filename = (leftBy log).2
  fileType : (leftBy log).2 ≠ [] → m.temp.fileType = fileTypeOf (leftBy log).1.toNat

theorem leftBy_concat (log : List EntryWrite) (w : EntryWrite) :
    leftBy (log ++ [w]) = leftStep (leftBy log) w := by
  rw [leftBy, List.foldl_append]
  rfl

theorem named_concat_iff :
    (∀ w' ∈ log ++ [w], w'.Named) ↔ (∀ w' ∈ log, w'.Named) ∧ w.Named := by
  rw [List.forall_mem_append, List.forall_mem_singleton]

theorem logMarked_nil (n : ℕ) : LogMarked [] (emptyCursor n) where
  empty := fun _ h => List.eq_of_mem_replicate h
  ended := fun _ h => absurd h List.not_mem_nil
  named := iff_of_true (fun _ h => absurd h List.not_mem_nil)
    fun _ h => absurd h List.not_mem_nil
  filename := rfl
  fileType := fun h => absurd rfl h

/-- An entry that does not put a name changes the last node only. -/
theorem LogMarked.stay {m m' : ListCursor} (hmarked : LogMarked log m)
    (hput : ∀ name, w.name ≠ .put name) (hdone : m'.done = m.done)
    (hfresh : m'.fresh = m.fresh)
    (hfilename : m'.temp.filename = (leftStep (leftBy log) w).2)
    (hattrib : (leftStep (leftBy log) w).1 = w.attrib)
    (htype : m'.temp.fileType = fileTypeOf w.attrib.toNat) :
    LogMarked (log ++ [w]) m' where
  empty := hfresh ▸ hmarked.empty
  ended := hdone ▸ hmarked.ended
  named := by
    rw [hdone, hmarked.named, named_concat_iff]
    exact (and_iff_left fun name h => absurd h (hput name)).symm
  filename := by rw [leftBy_concat, hfilename]
  fileType := fun _ => by rw [leftBy_concat, hattrib, htype]

theorem named_node_iff {node : FsProperties} {name rest : List UInt8}
    (hname : w.name = .put name) (hfilename : node.filename = name ++ 0 :: rest)
    (htype : node.fileType = fileTypeOf w.attrib.toNat) : Named node ↔ w.Named := by
  unfold Named EntryWrite.Named FsProperties.name
  rw [hfilename, cString_append_zero, htype, hname, fileTypeOf_lt_iff]
  constructor
  · intro h name' hput
    cases hput
    exact h
  · exact fun h => h name rfl

theorem LogMarked.concat {m m' : ListCursor} (hmarked : LogMarked log m)
    (happly : w.apply m = .ok m') : LogMarked (log ++ [w]) m' := by
  unfold EntryWrite.apply at happly
  cases hname : w.name with
  | keep =>
      rw [hname] at happly
      cases happly
      refine @LogMarked.stay log w m _ hmarked ?_ rfl rfl ?_ ?_ rfl
      · rw [hname]
        exact fun _ h => by cases h
      · rw [leftStep, hname]
        exact hmarked.filename
      · rw [leftStep, hname]
  | leave name =>
      rw [hname] at happly
      cases happly
      refine @LogMarked.stay log w m _ hmarked ?_ rfl rfl ?_ ?_ rfl
      · rw [hname]
        exact fun _ h => by cases h
      · rw [leftStep, hname]
        exact congrArg (fun bytes => name ++ bytes.drop name.length) hmarked.filename
      · rw [leftStep, hname]
  | put name =>
      rw [hname] at happly
      have hempty : ∀ block ∈ (w.fill m).fresh, block = blank := hmarked.empty
      obtain ⟨rest, hfresh, rfl⟩ := putName_blank hempty happly
      rw [hfresh] at hempty
      have hleft : leftBy (log ++ [w]) = (0, []) := by
        rw [leftBy_concat, leftStep, hname]
      constructor
      · exact (List.forall_mem_cons.mp hempty).2
      · rw [List.forall_mem_append, List.forall_mem_singleton]
        exact ⟨hmarked.ended, by simp⟩
      · rw [List.forall_mem_append, List.forall_mem_singleton, named_concat_iff]
        exact and_congr hmarked.named (named_node_iff hname rfl rfl)
      · rw [hleft]
        rfl
      · exact fun h => absurd (by rw [hleft]) h

theorem logMarked_of_run {n : ℕ} {m : ListCursor}
    (hrun : log.foldlM EntryWrite.apply (emptyCursor n) = .ok m) : LogMarked log m :=
  foldlM_history LogMarked (fun _ _ _ _ hmarked happly => hmarked.concat happly)
    (logMarked_nil n) hrun

theorem LogMarked.left_iff {m : ListCursor} (hmarked : LogMarked log m) :
    0 ∈ m.temp.filename ∧ Named m.temp ↔ LeftNamed log := by
  unfold LeftNamed Named FsProperties.name
  rw [hmarked.filename]
  apply and_congr_right
  intro hzero
  rw [hmarked.fileType (List.ne_nil_of_mem hzero), fileTypeOf_lt_iff]

/-! ## The chain -/

section Chain

variable {direntry : Buffer} {fuel cluster : ℕ} {m m' : ListCursor}

/-- The end of a cluster shows in its walk. -/
theorem clusterLoop_of_walk
    (hlog : (clusterWalk vol g direntry cluster).log.foldlM EntryWrite.apply m = .ok m') :
    clusterLoop vol g direntry cluster m =
      leaveWith m' (clusterWalk vol g direntry cluster).result >>= fun r =>
        .ok (r.1.withList r.2) := by
  rw [clusterLoop_eq_replay, replay, hlog]
  rfl

theorem readable_of_walk
    (hlog : (clusterWalk vol g direntry cluster).log.foldlM EntryWrite.apply m = .ok m')
    {s : WalkState} (hresult : (clusterWalk vol g direntry cluster).result = .ok s) :
    ∀ k < g.sectorsPerCluster, sectorReadable vol g cluster k = true := by
  have hloop := clusterLoop_of_walk hlog
  rw [hresult] at hloop
  exact readable_of_clusterLoop hloop

theorem not_passed_of_ret
    (hlog : (clusterWalk vol g direntry cluster).log.foldlM EntryWrite.apply m = .ok m')
    {code : ℕ}
    (hresult : (clusterWalk vol g direntry cluster).result = .error (.ret code)) :
    ¬Passed vol g cluster := by
  have hloop := clusterLoop_of_walk hlog
  rw [hresult] at hloop
  obtain ⟨k, hk, hunread⟩ :=
    (clusterTurns direntry cluster m g.sectorsPerCluster).2 code m' hloop
  intro hpassed
  rw [hpassed.1 k hk] at hunread
  cases hunread

theorem ignoreCode_result {x : Walked Unit}
    (hfault : ∀ e, x.ignoreCode.result ≠ .error (.fault e)) :
    x.ignoreCode.result = .ok () := by
  obtain ⟨log, result⟩ := x
  rcases result with (e | code) | u
  · exact absurd rfl (hfault e)
  · rfl
  · rfl

theorem result_of_ignoreCode {x : Walked Unit}
    (hfault : ∀ e, x.ignoreCode.result ≠ .error (.fault e)) :
    ∀ e, x.result ≠ .error (.fault e) := by
  obtain ⟨log, result⟩ := x
  rcases result with (e | code) | u
  · exact absurd rfl (hfault e)
  · exact fun e h => by cases h
  · exact fun e h => by cases h

/-- What `chainWalk` does behind a cluster that has been gone through. -/
def behindCluster (vol : Volume) (g : Globals) (direntry : Buffer) (fuel cluster : ℕ) :
    Walked Unit :=
  if isError (fat32RdFAT vol g cluster) then
    ⟨[], .error (.ret (fat32RdFAT vol g cluster))⟩
  else if fat32RdFAT vol g cluster = 0 then pure ()
  else (chainWalk vol g direntry fuel (fat32RdFAT vol g cluster)).ignoreCode

theorem chainWalk_of_error {e : Leave}
    (hresult : (clusterWalk vol g direntry cluster).result = .error e) :
    chainWalk vol g direntry (fuel + 1) cluster =
      ⟨(clusterWalk vol g direntry cluster).log, .error e⟩ := by
  rw [chainWalk]
  exact Walked.bind_of_error hresult _

theorem chainWalk_of_ok {s : WalkState}
    (hresult : (clusterWalk vol g direntry cluster).result = .ok s) :
    chainWalk vol g direntry (fuel + 1) cluster =
      ⟨(clusterWalk vol g direntry cluster).log ++
        (behindCluster vol g direntry fuel cluster).log,
        (behindCluster vol g direntry fuel cluster).result⟩ := by
  rw [chainWalk]
  exact Walked.bind_of_ok hresult _

theorem behindCluster_result
    (hfault : ∀ e, (behindCluster vol g direntry fuel cluster).result ≠
      .error (.fault e)) :
    (behindCluster vol g direntry fuel cluster).result = .ok () ↔
      isError (fat32RdFAT vol g cluster) = false := by
  unfold behindCluster at hfault ⊢
  by_cases herror : isError (fat32RdFAT vol g cluster) = true
  · rw [if_pos herror, herror]
    exact iff_of_false (fun h => by cases h) (fun h => by cases h)
  · rw [if_neg herror] at hfault ⊢
    refine iff_of_true ?_ (Bool.eq_false_iff.mpr herror)
    by_cases hend : fat32RdFAT vol g cluster = 0
    · rw [if_pos hend]
      rfl
    · rw [if_neg hend] at hfault ⊢
      exact ignoreCode_result hfault

theorem ignoreCode_log (x : Walked Unit) : x.ignoreCode.log = x.log := by
  obtain ⟨log, result⟩ := x
  rcases result with (e | code) | u <;> rfl

/-- The log of a walk without a fault is the entries of the directory. -/
theorem chainWalk_log
    (hfault : ∀ e, (chainWalk vol g direntry fuel cluster).result ≠ .error (.fault e)) :
    (chainWalk vol g direntry fuel cluster).log = chainEntries vol g fuel cluster := by
  induction fuel generalizing cluster with
  | zero => rfl
  | succ fuel ih =>
      have hlogs := @clusterWalk_logs vol g cluster direntry
      by_cases hin : ∀ w ∈ (clusterRead vol g cluster).1, w.name.InField
      · obtain ⟨hlog, hmeet⟩ := hlogs.inside hin
        rw [chainEntries]
        rcases meet_cases hmeet with ⟨code, hret, hnone⟩ | ⟨w, r, hok, hsome, _⟩
        · rw [chainWalk_of_error hret, hnone]
          exact hlog
        · rw [chainWalk_of_ok hok] at hfault ⊢
          rw [hsome, ← hlog]
          refine congrArg ((clusterWalk vol g direntry cluster).log ++ ·) ?_
          unfold behindCluster at hfault ⊢
          by_cases herror : isError (fat32RdFAT vol g cluster) = true
          · rw [if_pos herror, if_pos (Or.inl herror)]
          · by_cases hend : fat32RdFAT vol g cluster = 0
            · rw [if_neg herror, if_pos hend, if_pos (Or.inr hend)]
              rfl
            · rw [if_neg herror, if_neg hend] at hfault ⊢
              rw [if_neg (not_or.mpr ⟨herror, hend⟩), ignoreCode_log]
              exact ih (result_of_ignoreCode hfault)
      · obtain ⟨e, hresult⟩ := hlogs.outside hin
        rw [chainWalk_of_error hresult] at hfault
        exact absurd rfl (hfault e)

/-- A walk without a fault comes to its end when the first cluster has been passed;
the other clusters do not matter. -/
theorem chainWalk_result
    (hlog : (chainWalk vol g direntry fuel cluster).log.foldlM EntryWrite.apply m = .ok m')
    (hfault : ∀ e, (chainWalk vol g direntry fuel cluster).result ≠ .error (.fault e)) :
    (chainWalk vol g direntry fuel cluster).result = .ok () ↔ Passed vol g cluster := by
  cases fuel with
  | zero => exact absurd rfl (hfault .outOfFuel)
  | succ fuel =>
      cases hresult : (clusterWalk vol g direntry cluster).result with
      | error e =>
          rw [chainWalk_of_error hresult] at hlog hfault ⊢
          cases e with
          | fault e => exact absurd rfl (hfault e)
          | ret code =>
              exact iff_of_false (fun h => by cases h) (not_passed_of_ret hlog hresult)
      | ok s =>
          rw [chainWalk_of_ok hresult] at hlog hfault ⊢
          rw [List.foldlM_append] at hlog
          obtain ⟨m₁, hfirst, _⟩ := bind_eq_ok_iff.mp hlog
          rw [behindCluster_result hfault, Passed,
            and_iff_right (readable_of_walk hfirst hresult)]

/-- A listing that comes back: its entries, and the name of the last node cleared when
the first cluster has been passed. -/
theorem listChain_ok (hrun : listChain vol g direntry fuel cluster m = .ok m') :
    ∃ l, (chainEntries vol g fuel cluster).foldlM EntryWrite.apply m = .ok l ∧
      (Passed vol g cluster ∧ m' = clearName l ∨ ¬Passed vol g cluster ∧ m' = l) := by
  obtain ⟨⟨code, c⟩, hcall, hrest⟩ := bind_eq_ok_iff.mp hrun
  cases hrest
  rw [fat32RdCluster_eq_replay] at hcall
  unfold replay at hcall
  cases hlog : (chainWalk vol g direntry fuel cluster).log.foldlM EntryWrite.apply m with
  | error e =>
      rw [hlog] at hcall
      cases hcall
  | ok l =>
      rw [hlog] at hcall
      have hfault : ∀ e,
          (chainWalk vol g direntry fuel cluster).result ≠ .error (.fault e) := by
        intro e hresult
        rw [hresult] at hcall
        cases hcall
      have hend := chainWalk_result hlog hfault
      refine ⟨l, by rw [← chainWalk_log hfault, hlog], ?_⟩
      rcases hresult : (chainWalk vol g direntry fuel cluster).result with
        (e | code') | u
      · exact absurd hresult (hfault e)
      · rw [hresult] at hcall hend
        cases hcall
        refine Or.inr ⟨fun hpassed => ?_, rfl⟩
        cases hend.mpr hpassed
      · rw [hresult] at hcall hend
        cases hcall
        exact Or.inl ⟨hend.mp rfl, rfl⟩

theorem finish_simulates (x : Walked Unit) {c : ListCursor} (hover : OverList Old c m) :
    Simulates (fun r r' => OverList Old r'.2 r.2) (finish (replay x m))
      (finish (replay x c)) := by
  have hlog : Simulates (fun m c => OverList Old c m) (x.log.foldlM EntryWrite.apply m)
      (x.log.foldlM EntryWrite.apply c) :=
    Simulates.foldlM (fun w _ m c h => @apply_simulates Old w m c h) hover
  unfold replay
  cases hm : x.log.foldlM EntryWrite.apply m with
  | error e => exact Simulates.error
  | ok l =>
      obtain ⟨l', hl', hover'⟩ := hlog l hm
      rw [hl']
      rcases x.result with (e | code) | u
      · exact Simulates.error
      · exact Simulates.ok hover'
      · exact Simulates.ok (clearName_over hover')

theorem listChain_simulates {c : ListCursor} (hover : OverList Old c m) :
    Simulates (fun m c => OverList Old c m) (listChain vol g direntry fuel cluster m)
      (listChain vol g direntry fuel cluster c) := by
  unfold listChain
  rw [fat32RdCluster_eq_replay, fat32RdCluster_eq_replay]
  exact (finish_simulates _ hover).bind fun _ _ h => Simulates.ok h

theorem chainNamed_iff : ChainNamed vol g fuel cluster ↔
    (∀ w ∈ chainEntries vol g fuel cluster, w.Named) ∧
      (Passed vol g cluster ∨ LeftNamed (chainEntries vol g fuel cluster)) :=
  ⟨fun h => ⟨h.entries, h.last⟩, fun h => ⟨h.1, h.2⟩⟩

/-- A FAT32 directory can be printed if no entry gets into its listing under a name that
shows with one of the three attribute bytes, and the first cluster is passed or leaves a
name with its NUL. -/
theorem listChain_printable_iff {n : ℕ} {mark : ListCursor}
    (hmark : listChain vol g direntry fuel cluster (emptyCursor n) = .ok mark) :
    ListsPrintable n (listChain vol g direntry fuel cluster) ↔
      ChainNamed vol g fuel cluster := by
  obtain ⟨l, hlog, hend⟩ := listChain_ok hmark
  have hmarked := logMarked_of_run hlog
  have hdone : mark.done = l.done := by
    rcases hend with ⟨_, rfl⟩ | ⟨_, rfl⟩
    · rfl
    · rfl
  have hmarks : Marks n (listChain vol g direntry fuel cluster) mark :=
    ⟨hmark, fun Old c hover => listChain_simulates hover mark hmark,
      hdone ▸ hmarked.ended⟩
  rw [listsPrintable_iff hmarks, chainNamed_iff, hdone, hmarked.named]
  apply and_congr_right
  intro _
  rcases hend with ⟨hpassed, rfl⟩ | ⟨hstopped, rfl⟩
  · refine iff_of_true ⟨List.mem_cons_self, fun h => absurd rfl h⟩ (Or.inl hpassed)
  · rw [or_iff_right hstopped]
    exact hmarked.left_iff

end Chain

/-! ## An entry for a device -/

/-- The root in cluster 2 lists `A`, with the attribute byte of a device. -/
def deviceVolume : Volume :=
  smallVolume [0, 0, 0x0FFFFFFF] fun n =>
    if n = 2 then [dirEntry (65 :: List.replicate 10 32) 0x40 0 0] else []

/-- Its type 64 is looked up behind the table. -/
theorem device_not_printable :
    ¬ ListsPrintable 1 (listChain deviceVolume smallGlobals (fun _ => 0) 1 2) := by
  intro hprints
  obtain ⟨c, mark, hrun, _, hall⟩ := hprints blank.node [blank] rfl
  obtain ⟨lines, hlines⟩ := lsLong_of_printable hall
  have hbehind : (listChain deviceVolume smallGlobals (fun _ => 0) 1 2
      ⟨[], blank.node, [blank]⟩ >>= fun c => lsLong c.listing).isOk = false := by
    decide +kernel
  rw [hrun, ok_bind, hlines] at hbehind
  cases hbehind

end Fat32

/-- The listings of both drivers that `ls -l` can print. -/
theorem listings_printable_iff {n n' : ℕ} {vol vol' : Volume} {g : Ext2.Globals}
    {iblock : ℕ → ℕ} {dirbuf indbuf direntry : Buffer} {g' : Fat32.Globals}
    {fuel cluster : ℕ} {mark mark' : ListCursor}
    (hext2 : Ext2.listDir vol g iblock dirbuf indbuf (emptyCursor n) = .ok mark)
    (hfat : Fat32.listChain vol' g' direntry fuel cluster (emptyCursor n') = .ok mark') :
    (ListsPrintable n (Ext2.listDir vol g iblock dirbuf indbuf) ↔
      Ext2.DirectoryNamed g iblock
        (fun k => Ext2.dirbufAfter vol g iblock dirbuf (k + 1)) 12) ∧
    (ListsPrintable n' (Fat32.listChain vol' g' direntry fuel cluster) ↔
      Fat32.ChainNamed vol' g' fuel cluster) :=
  ⟨Ext2.listDir_printable_iff hext2, Fat32.listChain_printable_iff hfat⟩

/-- A block with three records, and a root with the only file `A`. -/
theorem listings_printable_iff_small :
    (ListsPrintable 2 (Ext2.listDir Ext2.smallVolume Ext2.twoGroups
        (fun k => if k = 0 then 12 else 0) (fun _ => 0) fun _ => 0) ↔
      Ext2.DirectoryNamed Ext2.twoGroups (fun k => if k = 0 then 12 else 0)
        (fun k => Ext2.dirbufAfter Ext2.smallVolume Ext2.twoGroups
          (fun k => if k = 0 then 12 else 0) (fun _ => 0) (k + 1)) 12) ∧
    (ListsPrintable 1 (Fat32.listChain Fat32.scatteredVolume Fat32.smallGlobals
        (fun _ => 0) 1 2) ↔
      Fat32.ChainNamed Fat32.scatteredVolume Fat32.smallGlobals 1 2) := by
  obtain ⟨mark, hext2, _⟩ := exists_ok_of_any (p := fun _ => true)
    (show (Ext2.listDir Ext2.smallVolume Ext2.twoGroups (fun k => if k = 0 then 12 else 0)
      (fun _ => 0) (fun _ => 0) (emptyCursor 2)).toOption.any _ = true by decide +kernel)
  obtain ⟨mark', hfat, _⟩ := exists_ok_of_any (p := fun _ => true)
    (show (Fat32.listChain Fat32.scatteredVolume Fat32.smallGlobals (fun _ => 0) 1 2
      (emptyCursor 1)).toOption.any _ = true by decide +kernel)
  exact listings_printable_iff hext2 hfat

end Janus86
