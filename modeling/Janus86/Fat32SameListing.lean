import Janus86.DriverSpecs
import Janus86.Fat32Termination

/-!
# A FAT32 directory read twice

A call of `init_fat32` finds other bytes in its local arrays, other nodes from
`kmalloc` and other globals than the call before it.  On a drive that can be read
it shows the same files all the same: every byte that it looks at has been read
from the drive in this call, and a node that stays in the list has been filled
from such bytes.
-/

namespace Janus86

/-- The finished nodes say the same, and `kmalloc` has `more` blocks more in the
second list. -/
structure SameList (more : ℕ) (c c' : ListCursor) : Prop where
  done : c'.done.map FsProperties.entry = c.done.map FsProperties.entry
  fresh : c'.fresh.length = c.fresh.length + more

/-- The properties without the name. -/
structure SameNode (node node' : FsProperties) : Prop where
  start : node'.start = node.start
  size : node'.size = node.size
  fileType : node'.fileType = node.fileType

open StepMachine

theorem setName_simulates {node node' : FsProperties} (hnode : SameNode node node')
    (name : List UInt8) :
    Simulates (fun n n' => n'.entry = n.entry) (node.setName name)
      (node'.setName name) := by
  intro n hset
  have hentry := entry_of_setName hset
  obtain ⟨hlen, _⟩ := setName_eq_ok_iff.mp hset
  have hset' : node'.setName name = .ok { node' with
      filename := name ++ 0 :: node'.filename.drop (name.length + 1) } :=
    setName_eq_ok_iff.mpr ⟨hlen, rfl⟩
  refine ⟨_, hset', ?_⟩
  dsimp only
  rw [entry_of_setName hset', hentry]
  simp only [FsProperties.entry, hnode.start, hnode.size, hnode.fileType]

theorem takeFresh_simulates {more : ℕ} {fresh fresh' : List FreshBlock}
    (hfresh : fresh'.length = fresh.length + more) :
    Simulates (fun r r' => r'.2.length = r.2.length + more) (takeFresh fresh)
      (takeFresh fresh') := by
  cases fresh with
  | nil => exact Simulates.error
  | cons block rest =>
      cases fresh' with
      | nil =>
          simp only [List.length_nil, List.length_cons] at hfresh
          omega
      | cons block' rest' =>
          simp only [List.length_cons] at hfresh
          exact Simulates.ok (by dsimp only; omega)

theorem nextNode_simulates {more : ℕ} {c c' : ListCursor}
    (hlist : SameList more c c') (htemp : c'.temp.entry = c.temp.entry) :
    Simulates (SameList more) (nextNode c) (nextNode c') := by
  intro c₁ hnext
  obtain ⟨hdone, hcount⟩ := nextNode_ok hnext
  have hfresh := hlist.fresh
  obtain ⟨c₁', hnext'⟩ := nextNode_of_room (c := c') (by omega)
  obtain ⟨hdone', hcount'⟩ := nextNode_ok hnext'
  refine ⟨c₁', hnext', ?_, by omega⟩
  rw [hdone, hdone', List.map_append, List.map_append, hlist.done, List.map_singleton,
    List.map_singleton, htemp]

theorem putName_simulates {more : ℕ} {c c' : ListCursor} (name : List UInt8)
    (hlist : SameList more c c') (hnode : SameNode c.temp c'.temp) :
    Simulates (SameList more) (putName name c) (putName name c') :=
  (setName_simulates hnode name).bind fun _ _ hentry =>
    nextNode_simulates ⟨hlist.done, hlist.fresh⟩ hentry

namespace Fat32

variable {vol : Volume} {g : Globals} {cluster more : ℕ}

/-! ## What is read of a sector -/

/-- The buffers hold the same sector. -/
def Alike (buf buf' : Buffer) : Prop := ∀ o < 512, buf' o = buf o

section Sector

variable {buf buf' : Buffer} {i : ℕ}

theorem Alike.byte (halike : Alike buf buf') (hi : i < direntPerSector) {o : ℕ}
    (ho : o < 32) : buf' (32 * i + o) = buf (32 * i + o) := by
  simp only [direntPerSector] at hi
  exact halike _ (by omega)

theorem Alike.slotName (halike : Alike buf buf') (hi : i < direntPerSector) :
    slotName buf' (32 * i) = slotName buf (32 * i) := by
  have hle : ∀ j ∈ longOffsets, j < 32 := by decide
  simp only [Fat32.slotName, List.flatMap_def]
  congr 1
  apply List.map_congr_left
  intro j hj
  rw [halike.byte hi (hle j hj)]

theorem Alike.shortName (halike : Alike buf buf') (hi : i < direntPerSector) :
    shortName buf' (32 * i) = shortName buf (32 * i) := by
  have hchars : ∀ n o, o + n ≤ 32 →
      (List.range n).flatMap (fun j => checkShort (buf' (32 * i + o + j))) =
        (List.range n).flatMap fun j => checkShort (buf (32 * i + o + j)) := by
    intro n o hle
    simp only [List.flatMap_def]
    congr 1
    apply List.map_congr_left
    intro j hj
    rw [List.mem_range] at hj
    rw [Nat.add_assoc, halike.byte hi (by omega)]
  have hbase := hchars 8 0 (by decide)
  simp only [Nat.add_zero] at hbase
  simp only [Fat32.shortName]
  rw [hbase, hchars 3 8 (by decide), halike.byte hi (by decide)]

theorem Alike.attribOf (halike : Alike buf buf') (hi : i < direntPerSector) :
    attribOf buf' (32 * i) = attribOf buf (32 * i) := by
  unfold Fat32.attribOf
  rw [halike.byte hi (by decide)]

theorem Alike.first (halike : Alike buf buf') (hi : i < direntPerSector) :
    buf' (32 * i) = buf (32 * i) :=
  halike.byte hi (o := 0) (by decide)

theorem Alike.startCluster (halike : Alike buf buf') (hi : i < direntPerSector) :
    startCluster buf' (32 * i) = startCluster buf (32 * i) := by
  simp only [direntPerSector] at hi
  unfold Fat32.startCluster
  rw [halike.attribOf hi, le16_congr fun j _ _ => halike j (by omega),
    le16_congr fun j _ _ => halike j (by omega)]

theorem Alike.size (halike : Alike buf buf') (hi : i < direntPerSector) :
    le32 buf' (32 * i + 28) = le32 buf (32 * i + 28) := by
  simp only [direntPerSector] at hi
  exact le32_congr fun j _ _ => halike j (by omega)

/-- The node is filled with the same properties. -/
theorem Alike.fillNode (halike : Alike buf buf') (hi : i < direntPerSector)
    (c c' : ListCursor) :
    SameNode (fillNode buf (32 * i) c).temp (fillNode buf' (32 * i) c').temp :=
  ⟨halike.startCluster hi, halike.size hi,
    congrArg fileTypeOf (halike.attribOf hi)⟩

end Sector

/-! ## The loops -/

section Loops

variable (hread : ∀ sector, vol.disk.readable vol.drive sector = true)
include hread

theorem readClusterSector_alike (g : Globals) (cluster k : ℕ) (buf buf' : Buffer) :
    ∃ b b', readClusterSector vol g cluster k buf = some b ∧
      readClusterSector vol g cluster k buf' = some b' ∧ Alike b b' := by
  obtain ⟨b, hb, hbytes⟩ := readDiskSector_one buf (hread _)
  obtain ⟨b', hb', hbytes'⟩ := readDiskSector_one buf' (hread _)
  exact ⟨b, b', hb, hb', fun o ho => (hbytes' o ho).trans (hbytes o ho).symm⟩

/-- The locals of `Generate_Long_Name`, with buffers that hold the same sector. -/
structure SameCursor (s s' : LongCursor) : Prop where
  buf : Alike s.buf s'.buf
  i_eq : s'.i = s.i
  k_eq : s'.k = s.k
  flag : s'.flag = s.flag
  name : s'.name = s.name
  i_le : s.i ≤ direntPerSector

theorem previousSector_simulates {s s' : LongCursor} (hsame : SameCursor s s') :
    ∃ t t', previousSector vol g cluster s = some t ∧
      previousSector vol g cluster s' = some t' ∧ SameCursor t t' ∧ 0 < t.i := by
  obtain ⟨hbuf, hi, hk, hflag, hname, hle⟩ := hsame
  unfold previousSector
  rw [hi, hk]
  by_cases hzero : s.i = 0
  · obtain ⟨b, b', hb, hb', halike⟩ :=
      readClusterSector_alike hread g cluster (sub32 s.k 1) s.buf s'.buf
    rw [if_pos hzero, if_pos hzero, hb, hb']
    exact ⟨_, _, rfl, rfl, ⟨halike, rfl, rfl, rfl, hname, le_rfl⟩,
      (by decide : 0 < direntPerSector)⟩
  · rw [if_neg hzero, if_neg hzero]
    exact ⟨s, s', rfl, rfl, ⟨hbuf, hi, hk, hflag, hname, hle⟩,
      Nat.pos_of_ne_zero hzero⟩

theorem longTurn_simulates {s s' : LongCursor} (hsame : SameCursor s s') :
    TurnSimulates SameCursor (fun r r' => SameCursor r.1 r'.1 ∧ r'.2 = r.2)
      (longTurn vol g cluster s) (longTurn vol g cluster s') := by
  obtain ⟨t, t', ht, ht', ⟨hbuf, hi, hk, hflag, hname, hle⟩, hpos⟩ :=
    previousSector_simulates hread hsame
  have hlt : t.i - 1 < direntPerSector := by omega
  have hnext : SameCursor
      { t with i := t.i - 1, name := t.name ++ slotName t.buf (32 * (t.i - 1)) }
      { t' with
        i := t'.i - 1, name := t'.name ++ slotName t'.buf (32 * (t'.i - 1)) } := by
    refine ⟨hbuf, congrArg (· - 1) hi, hk, hflag, ?_, hlt.le⟩
    dsimp only
    rw [hi, hname, hbuf.slotName hlt]
  have hlen := congrArg List.length hnext.name
  unfold longTurn
  rw [ht, ht']
  dsimp only at hlen hnext ⊢
  rw [hlen]
  by_cases hlong : 255 < (t.name ++ slotName t.buf (32 * (t.i - 1))).length
  · rw [if_pos hlong]
    exact .fail
  · rw [if_neg hlong, if_neg hlong, hi, hbuf.first hlt]
    rw [hi] at hnext
    by_cases hmark : (t.buf (32 * (t.i - 1))).toNat &&& 0x40 = 0
    · rw [if_pos hmark, if_pos hmark]
      exact .next hnext
    · rw [if_neg hmark, if_neg hmark]
      exact .stop ⟨hnext, rfl⟩

/-- The buffer and the list behind a call. -/
def SameCall (more : ℕ) (r r' : Buffer × ListCursor) : Prop :=
  Alike r.1 r'.1 ∧ SameList more r.2 r'.2

theorem generateLongName_simulates {buf buf' : Buffer} {i k : ℕ} {c c' : ListCursor}
    (hbuf : Alike buf buf') (hi : i ≤ direntPerSector) (hlist : SameList more c c')
    (hnode : SameNode c.temp c'.temp) :
    Simulates (SameCall more) (generateLongName vol g cluster buf i k c)
      (generateLongName vol g cluster buf' i k c') := by
  have hstart : SameCursor ⟨buf, i, k, false, []⟩ ⟨buf', i, k, false, []⟩ :=
    ⟨hbuf, rfl, rfl, rfl, rfl, hi⟩
  refine (Simulates.runFuel (fun _ _ => longTurn_simulates hread) hstart 20
    .outOfFuel).bind ?_
  rintro ⟨s, done⟩ ⟨s', done'⟩ ⟨⟨hbuf, _, hk, hflag, hname, _⟩, rfl⟩
  dsimp only at hbuf hk hflag hname
  have hleft : SameCall more (s.buf, leaveName s.name c)
      (s'.buf, leaveName s'.name c') := ⟨hbuf, hlist.done, hlist.fresh⟩
  have hput : ∀ b b', Alike b b' → Simulates (SameCall more)
      (putName s.name c >>= fun c => pure (b, c))
      (putName s'.name c' >>= fun c => pure (b', c)) := by
    intro b b' halike
    rw [hname]
    exact (putName_simulates s.name hlist hnode).bind fun _ _ hlist' =>
      Simulates.ok ⟨halike, hlist'⟩
  dsimp only
  cases done' with
  | false => exact Simulates.ok hleft
  | true =>
      simp only [if_true, hflag, hk]
      cases s.flag with
      | false => exact hput _ _ hbuf
      | true =>
          obtain ⟨b, b', hb, hb', halike⟩ :=
            readClusterSector_alike hread g cluster (s.k + 1) s.buf s'.buf
          simp only [if_true, hb, hb']
          exact hput _ _ halike

/-- The locals of `fat32_rd_cluster` in front of an entry. -/
structure SameState (more : ℕ) (s s' : ClusterState) : Prop where
  direntry : Alike s.direntry s'.direntry
  prev : s'.prev = s.prev
  list : SameList more s.list s'.list

theorem readOrReturn_alike (g : Globals) (cluster k : ℕ) (s s' : ClusterState) :
    ∃ b b', readOrReturn vol g cluster k s = .ok { s with direntry := b } ∧
      readOrReturn vol g cluster k s' = .ok { s' with direntry := b' } ∧
      Alike b b' := by
  obtain ⟨b, b', hb, hb', halike⟩ :=
    readClusterSector_alike hread g cluster k s.direntry s'.direntry
  refine ⟨b, b', ?_, ?_, halike⟩
  · rw [readOrReturn, hb]
  · rw [readOrReturn, hb']

omit hread in
theorem liftFault_simulates {α β : Type} {R : α → β → Prop} {x : Except Fault α}
    {y : Except Fault β} (hsim : Simulates R x y) :
    Simulates R (liftFault x) (liftFault y) := by
  intro a ha
  obtain ⟨b, hb, hab⟩ := hsim a (liftFault_eq_ok ha)
  exact ⟨b, by rw [hb]; rfl, hab⟩

theorem longEntry_simulates {k i : ℕ} {s s' : ClusterState}
    (hsame : SameState more s s') (hnode : SameNode s.list.temp s'.list.temp)
    (hi : i < direntPerSector) :
    Simulates (SameState more) (longEntry vol g cluster k i s)
      (longEntry vol g cluster k i s') := by
  obtain ⟨hbuf, hprev, hlist⟩ := hsame
  unfold longEntry
  by_cases hzero : i = 0
  · rw [if_pos hzero, if_pos hzero]
    obtain ⟨b, b', hb, hb', halike⟩ :=
      readOrReturn_alike hread g cluster (sub32 k 1) s s'
    rw [hb, hb']
    simp only [bind, Except.bind]
    refine (liftFault_simulates (generateLongName_simulates hread halike le_rfl hlist
      hnode)).bind ?_
    rintro ⟨buf, list⟩ ⟨buf', list'⟩ ⟨_, hlist'⟩
    obtain ⟨b, b', hb, hb', halike⟩ := readOrReturn_alike hread g cluster k
      ⟨buf, s.prev, list⟩ ⟨buf', s'.prev, list'⟩
    dsimp only
    rw [hb, hb']
    exact Simulates.ok ⟨halike, rfl, hlist'⟩
  · rw [if_neg hzero, if_neg hzero]
    refine (liftFault_simulates (generateLongName_simulates hread hbuf hi.le hlist
      hnode)).bind ?_
    rintro ⟨buf, list⟩ ⟨buf', list'⟩ ⟨halike, hlist'⟩
    exact Simulates.ok ⟨halike, rfl, hlist'⟩

omit hread in
theorem shortEntry_simulates {i : ℕ} {s s' : ClusterState}
    (hsame : SameState more s s') (hnode : SameNode s.list.temp s'.list.temp)
    (hi : i < direntPerSector) :
    Simulates (SameState more) (shortEntry i s) (shortEntry i s') := by
  obtain ⟨hbuf, hprev, hlist⟩ := hsame
  unfold shortEntry
  rw [hbuf.first hi, hbuf.shortName hi]
  split
  · exact (liftFault_simulates (putName_simulates _ hlist hnode)).bind fun _ _ hlist' =>
      Simulates.ok ⟨hbuf, hprev, hlist'⟩
  · exact Simulates.ok ⟨hbuf, hprev, hlist⟩

omit hread in
theorem SameState.rememberAttrib {i : ℕ} {s s' : ClusterState}
    (hsame : SameState more s s') (hi : i < direntPerSector) :
    SameState more (rememberAttrib i s) (rememberAttrib i s') := by
  obtain ⟨hbuf, hprev, hlist⟩ := hsame
  unfold Fat32.rememberAttrib
  rw [hbuf.first hi, hbuf.attribOf hi]
  split
  · exact ⟨hbuf, rfl, hlist⟩
  · exact ⟨hbuf, hprev, hlist⟩

theorem entryStep_simulates {k i : ℕ} {s s' : ClusterState}
    (hsame : SameState more s s') (hi : i < direntPerSector) :
    Simulates (SameState more) (entryStep vol g cluster k s i)
      (entryStep vol g cluster k s' i) := by
  have hfilled : SameState more
      ⟨s.direntry, s.prev, fillNode s.direntry (32 * i) s.list⟩
      ⟨s'.direntry, s.prev, fillNode s'.direntry (32 * i) s'.list⟩ := by
    refine ⟨hsame.direntry, rfl, ?_, ?_⟩
    · rw [fillNode_done, fillNode_done, hsame.list.done]
    · rw [fillNode_fresh, fillNode_fresh, hsame.list.fresh]
  have hnode := hsame.direntry.fillNode hi s.list s'.list
  have hend : ∀ t t', SameState more t t' → Simulates (SameState more)
      (pure (rememberAttrib i t) : Except Stop ClusterState)
      (pure (rememberAttrib i t')) :=
    fun t t' ht => Simulates.ok (ht.rememberAttrib hi)
  unfold entryStep
  dsimp only
  rw [hsame.direntry.attribOf hi, hsame.prev]
  split
  · split
    · exact (longEntry_simulates hread hfilled hnode hi).bind hend
    · exact (shortEntry_simulates hfilled hnode hi).bind hend
  · exact hend s s' hsame

theorem sectorStep_simulates {k : ℕ} {s s' : ClusterState}
    (hprev : s'.prev = s.prev) (hlist : SameList more s.list s'.list) :
    Simulates (SameState more) (sectorStep vol g cluster s k)
      (sectorStep vol g cluster s' k) := by
  obtain ⟨b, b', hb, hb', halike⟩ := readOrReturn_alike hread g cluster k s s'
  have hstart : SameState more { s with direntry := b } { s' with direntry := b' } :=
    ⟨halike, hprev, hlist⟩
  unfold sectorStep
  rw [hb, hb']
  refine Simulates.foldlM (fun i hi _ _ hsame => ?_) hstart
  exact entryStep_simulates hread hsame (List.mem_range.mp hi)

/-- What is left of the locals behind a sector. -/
def SameLocals (more : ℕ) (s s' : ClusterState) : Prop :=
  s'.prev = s.prev ∧ SameList more s.list s'.list

/-- The entries of one cluster. -/
theorem clusterLoop_simulates {direntry direntry' : Buffer} {c c' : ListCursor}
    (hlist : SameList more c c') :
    Simulates (SameLocals more) (clusterLoop vol g direntry cluster c)
      (clusterLoop vol g direntry' cluster c') := by
  have hstart : SameLocals more ⟨direntry, 0, c⟩ ⟨direntry', 0, c'⟩ := ⟨rfl, hlist⟩
  unfold clusterLoop
  refine Simulates.foldlM (fun k _ s s' hsame => ?_) hstart
  exact (sectorStep_simulates hread hsame.1 hsame.2).mono fun _ _ h => ⟨h.prev, h.list⟩

/-! ## The clusters -/

/-- The codes and the lists; behind a chain that is not an error the last node has
no name. -/
structure SameResult (more : ℕ) (r r' : ℕ × ListCursor) : Prop where
  code : r'.1 = r.1
  list : SameList more r.2 r'.2
  unnamed : r.1 = success → r.2.temp.name = [] ∧ r'.2.temp.name = []

omit hread in
theorem sameResult_clearName {c c' : ListCursor} (hlist : SameList more c c') :
    SameResult more (success, clearName c) (success, clearName c') :=
  ⟨rfl, ⟨hlist.done, hlist.fresh⟩, fun _ => ⟨rfl, rfl⟩⟩

theorem fat32RdCluster_simulates {direntry direntry' : Buffer} (fuel : ℕ)
    {c c' : ListCursor} (hlist : SameList more c c') :
    Simulates (SameResult more) (fat32RdCluster vol g direntry fuel cluster c)
      (fat32RdCluster vol g direntry' fuel cluster c') := by
  induction fuel generalizing cluster c c' with
  | zero => exact Simulates.error
  | succ fuel ih =>
      have hloops : Simulates (SameLocals more) (clusterLoop vol g direntry cluster c)
          (clusterLoop vol g direntry' cluster c') := clusterLoop_simulates hread hlist
      intro result hrun
      obtain ⟨s, hloop⟩ := clusterLoop_of_rdCluster hread hrun
      obtain ⟨s', hloop', _, hlist'⟩ := hloops s hloop
      rw [fat32RdCluster_of_loop hloop] at hrun
      rw [fat32RdCluster_of_loop hloop']
      by_cases herror : isError (fat32RdFAT vol g cluster) = true
      · rw [if_pos herror] at hrun ⊢
        cases hrun
        refine ⟨_, rfl, rfl, hlist', fun hcode => ?_⟩
        rw [show fat32RdFAT vol g cluster = success from hcode] at herror
        cases herror
      · rw [if_neg herror] at hrun ⊢
        by_cases hend : fat32RdFAT vol g cluster = 0
        · rw [if_pos hend] at hrun ⊢
          cases hrun
          exact ⟨_, rfl, sameResult_clearName hlist'⟩
        · rw [if_neg hend] at hrun ⊢
          exact (ih hlist').bind (fun _ _ hsame => Simulates.ok (sameResult_clearName hsame.list))
            result hrun

/-! ## The call -/

theorem fat32RdCluster_success {direntry : Buffer} {fuel : ℕ} {c : ListCursor}
    {result : ℕ × ListCursor}
    (hlinked : isError (fat32RdFAT vol g cluster) = false)
    (hok : fat32RdCluster vol g direntry fuel cluster c = .ok result) :
    result.1 = success := by
  cases fuel with
  | zero => cases hok
  | succ fuel =>
      obtain ⟨s, hloop⟩ := clusterLoop_of_rdCluster hread hok
      rw [fat32RdCluster_of_loop hloop, hlinked, if_neg Bool.false_ne_true] at hok
      split at hok
      · cases hok
        rfl
      · obtain ⟨_, _, hrest⟩ := bind_eq_ok_iff.mp hok
        cases hrest
        rfl

/-- The globals that the boot sector sets. -/
def bootedGlobals (vol : Volume) : Globals :=
  let boot := vol.sector vol.lba
  { fatBeginLba := (vol.lba + le16 boot 14) % 2 ^ 32
    clusterBeginLba := (le16 boot 14 + (boot 16).toNat * le32 boot 36) % 2 ^ 32
    sectorsPerCluster := (boot 13).toNat }

theorem fat32RdBootsec_booted (hmagic : le16 (vol.sector vol.lba) 510 = 0xAA55)
    (bootsec : Buffer) (g : Globals) :
    fat32RdBootsec vol bootsec g = (success, bootedGlobals vol) := by
  obtain ⟨boot, hboot, hbytes⟩ := readDiskSector_one bootsec (hread (ataLba vol.lba))
  have hword : ∀ o, o + 2 ≤ 512 → le16 boot o = le16 (vol.sector vol.lba) o :=
    fun o ho => le16_congr fun i _ _ => hbytes i (by omega)
  have hlong : le32 boot 36 = le32 (vol.sector vol.lba) 36 :=
    le32_congr fun i _ _ => hbytes i (by omega)
  have h16 : boot 16 = vol.sector vol.lba 16 := hbytes 16 (by decide)
  have h13 : boot 13 = vol.sector vol.lba 13 := hbytes 13 (by decide)
  rw [fat32RdBootsec, hboot]
  simp only [hword 510 (by decide), hmagic, if_true, hword 14 (by decide), hlong, h16,
    h13]
  rfl

end Loops

theorem shownFiles_listing {c : ListCursor} (hname : c.temp.name = []) :
    shownFiles c.listing =
      (c.done.map FsProperties.entry).filter (·.name ≠ []) := by
  have hentry : c.temp.entry.name = [] := hname
  simp [shownFiles, ListCursor.listing, hentry]

/-- The sectors can be read, and the first one is a boot sector. -/
structure Booted (vol : Volume) : Prop where
  readable : ∀ sector, vol.disk.readable vol.drive sector = true
  magic : le16 (vol.sector vol.lba) 510 = 0xAA55

/-- A list with its blocks behind it. -/
structure SameListed (more : ℕ) (l l' : Listed) : Prop where
  nodes : shownFiles l'.list = shownFiles l.list
  search : l'.search = l'.list
  fresh : l'.fresh.length = l.fresh.length + more

/-- A directory whose entry in the FAT is no error is listed alike in all calls. -/
theorem initFat32_simulates (hbooted : Booted vol) {stack stack' : Stack}
    {g g' : Globals} {fresh fresh' : List FreshBlock}
    (hlinked : isError (fat32RdFAT vol (bootedGlobals vol) cluster) = false)
    (hfresh : fresh'.length = fresh.length + more) :
    Simulates (SameListed more) (initFat32 vol stack cluster g fresh)
      (initFat32 vol stack' cluster g' fresh') := by
  obtain ⟨hread, hmagic⟩ := hbooted
  unfold initFat32
  refine (takeFresh_simulates hfresh).bind ?_
  rintro ⟨first, rest⟩ ⟨first', rest'⟩ hrest
  have hsuccess : ¬ isError success = true := by decide
  dsimp only at hrest ⊢
  rw [fat32RdBootsec_booted hread hmagic, fat32RdBootsec_booted hread hmagic]
  dsimp only
  rw [if_neg hsuccess, if_neg hsuccess]
  have hlist : SameList more ⟨[], first.node, rest⟩ ⟨[], first'.node, rest'⟩ :=
    ⟨rfl, hrest⟩
  intro l hrun
  obtain ⟨⟨code, c⟩, hlists, hrun⟩ := bind_eq_ok_iff.mp hrun
  obtain ⟨⟨code', c'⟩, hlists', hcode, hsame, hnames⟩ :=
    fat32RdCluster_simulates hread chainFuel hlist _ hlists
  obtain rfl : code = success := fat32RdCluster_success hread hlinked hlists
  obtain ⟨hname, hname'⟩ := hnames rfl
  cases hrun
  rw [hlists', show code' = success from hcode]
  refine ⟨_, rfl, ?_, rfl, hsame.fresh⟩
  dsimp only
  rw [shownFiles_listing hname, shownFiles_listing hname', hsame.done]

/-- A call of `init_fat32` in another state of the driver. -/
theorem initCurrent_simulates {disk : Disk} {s s' : State}
    (hbooted : Booted (s.volume disk)) (hplace : s'.place = s.place)
    (hlinked : isError (fat32RdFAT (s.volume disk)
      (bootedGlobals (s.volume disk)) s.place.dir) = false)
    (hfresh : s'.fresh.length = s.fresh.length + more) :
    Simulates (SameRead more) (initCurrent disk s) (initCurrent disk s') := by
  have hvolume : s'.volume disk = s.volume disk := by
    rw [DriverState.volume, DriverState.volume, hplace]
  unfold initCurrent
  rw [hvolume, hplace]
  exact (initFat32_simulates hbooted hlinked hfresh).bind fun l l' hsame =>
    Simulates.ok ⟨hsame.nodes, congrArg shownFiles hsame.search, hsame.fresh⟩

end Fat32
end Janus86
