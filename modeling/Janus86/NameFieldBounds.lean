import Janus86.Ext2Model
import Janus86.Fat32NameWalk
import Janus86.Fat32SlotsBack

/-!
# Names and the field they are put into

The drivers put the characters of a name one by one into `filename[255]`, with a
backslash in front of each blank, and do not look at how far they have come.  An
8.3 name always has room.  A name of an ext2 record has room when its characters,
its blanks and the NUL together do.  For a run of slots the characters are those of
all entries from the short one back to the first one with the bit 0x40, as they lie
on the disk.  In one cluster these are the slots of the run, with their padding; a
run of more than 16 slots in front of the first entry of a sector is taken in part
twice and never has room.  For a run that begins in the cluster before they go on in
front of the cluster, wherever the one before is.
-/

namespace Janus86

/-- The characters, the backslashes in front of the blanks, and the NUL. -/
def HasRoom (chars : List UInt8) : Prop := chars.length + chars.count 32 < 255

instance (chars : List UInt8) : Decidable (HasRoom chars) :=
  inferInstanceAs (Decidable (_ < _))

theorem length_escapeName (name : List UInt8) :
    (escapeName name).length = name.length + name.count 32 := by
  induction name with
  | nil => rfl
  | cons c name ih =>
      have hcons : escapeName (c :: name) =
          (if c = 32 then [92, 32] else [c]) ++ escapeName name := rfl
      rw [hcons, List.length_append, ih, List.length_cons, List.count_cons]
      by_cases hspace : c = 32
      · simp only [hspace, if_true, beq_self_eq_true, List.length_cons,
          List.length_nil]
        omega
      · simp only [hspace, if_false, beq_iff_eq, List.length_cons, List.length_nil]
        omega

theorem setName_eq_error_iff {node : FsProperties} {name : List UInt8} {e : Fault} :
    node.setName name = .error e ↔ 255 ≤ name.length ∧ e = .outOfBounds := by
  unfold FsProperties.setName
  split
  · next hlen => simp [hlen]
  · next hlen => simp [Nat.not_lt.mp hlen, eq_comm]

theorem nextNode_ne_outOfBounds (c : ListCursor) :
    nextNode c ≠ .error .outOfBounds := by
  unfold nextNode
  cases c.fresh with
  | nil => simp [takeFresh]
  | cons block fresh => simp [takeFresh, ok_bind, pure, Except.pure]

theorem putName_eq_outOfBounds_iff {name : List UInt8} {c : ListCursor} :
    putName name c = .error .outOfBounds ↔ 255 ≤ name.length := by
  unfold putName
  rw [bind_eq_error_iff, setName_eq_error_iff]
  constructor
  · rintro (⟨hlen, _⟩ | ⟨node, _, hnext⟩)
    · exact hlen
    · exact absurd hnext (nextNode_ne_outOfBounds _)
  · intro hlen
    exact Or.inl ⟨hlen, rfl⟩

namespace Ext2

/-- A record that lies in the block, with any inode that can be read. -/
theorem fillNode_eq_outOfBounds_iff {vol : Volume} {g : Globals} {dirbuf : Buffer}
    {o : ℕ} {c : DirCursor} (hinside : o + 8 + (dirbuf (o + 6)).toNat ≤ 4096)
    (hinode : readInode vol vol.drive g (le32 dirbuf o) c.indbuf ≠
      .error .outOfBounds) :
    fillNode vol g dirbuf o c = .error .outOfBounds ↔
      ¬ HasRoom (recordName dirbuf o) := by
  have hlen : (recordName dirbuf o).length = (dirbuf (o + 6)).toNat := by
    simp [recordName]
  unfold fillNode HasRoom
  dsimp only
  rw [hlen, if_neg (by omega), bind_eq_error_iff, setName_eq_error_iff,
    length_escapeName, hlen]
  constructor
  · rintro (⟨hlong, _⟩ | ⟨node, _, hrest⟩)
    · omega
    · rcases bind_eq_error_iff.mp hrest with herror | ⟨_, _, hrest⟩
      · exact absurd herror hinode
      · cases hrest
  · intro hlong
    exact Or.inl ⟨by omega, rfl⟩

end Ext2

namespace Fat32

open StepMachine

/-- A run of slots and the short entry that it is for, which is entry `i` of sector
`k` of a cluster.  Only the first slot is marked; slots that have no place in front
of the short entry are at the end of the cluster before in the chain. -/
structure SlotRun where
  vol : Volume
  g : BootGlobals
  cluster : ℕ
  k : ℕ
  i : ℕ
  slots : ℕ
  direntry : Buffer
  i_lt : i < direntPerSector
  k_lt : k < g.sectorsPerCluster
  slots_pos : 0 < slots
  clear : ∀ x < direntPerSector * k + i, direntPerSector * k + i < x + slots →
    ¬ Marked vol g.toGlobals cluster x
  marked : slots ≤ direntPerSector * k + i →
    Marked vol g.toGlobals cluster (direntPerSector * k + i - slots)
  file : attribOf direntry (32 * i) ≠ 0x0F ∧ attribOf direntry (32 * i) ≠ 0x08
  readable : ∀ k' ≤ k, sectorReadable vol g.toGlobals cluster k' = true
  holds : Holds vol g.toGlobals cluster k direntry

/-- The run lies in one cluster with its short entry. -/
def SlotRun.Inside (r : SlotRun) : Prop := r.slots ≤ direntPerSector * r.k + r.i

/-- The attribute in `prev`: that of the slot in front, and 0 at the start of a cluster. -/
def SlotRun.prev (r : SlotRun) : ℕ := if r.k = 0 ∧ r.i = 0 then 0 else 0x0F

/-- The entries in front of the short one as `Generate_Long_Name` comes to them.  For the
first entry of a sector the counter is one too high, so that the sector before, once it is
used up, is its own next one. -/
def SlotRun.inFront (r : SlotRun) : SlotsBack :=
  if r.i = 0 then
    slotsInFront r.vol r.g.toGlobals r.cluster (sub32 r.k 1) r.k direntPerSector
  else slotsInFront r.vol r.g.toGlobals r.cluster r.k r.k r.i

/-- The slots in the order of the disk. -/
def SlotRun.run (r : SlotRun) : List Buffer :=
  slotsAt r.vol r.g.toGlobals r.cluster (direntPerSector * r.k + r.i - r.slots)
    r.slots

/-- The low bytes of the units, the padding included. -/
def SlotRun.chars (r : SlotRun) : List UInt8 :=
  (runUnits r.run).map UInt8.ofNat

end Fat32

/-- What the drivers list. -/
inductive DirEntry where
  | ext2 (dirbuf : Buffer) (o : ℕ)
      (inside : o + 8 + (dirbuf (o + 6)).toNat ≤ 4096)
  | short (direntry : Buffer) (i : ℕ)
  | long (run : Fat32.SlotRun)

/-- The name that is stored for the entry stays in the field. -/
def DirEntry.StoresInside : DirEntry → Prop
  | .ext2 dirbuf o _ => ∀ (vol : Volume) (g : Ext2.Globals) (c : Ext2.DirCursor),
      Ext2.readInode vol vol.drive g (le32 dirbuf o) c.indbuf ≠
        .error .outOfBounds →
      Ext2.fillNode vol g dirbuf o c ≠ .error .outOfBounds
  | .short direntry i => ∀ prev list,
      Fat32.shortEntry i ⟨direntry, prev, list⟩ ≠ .error (.fault .outOfBounds)
  | .long r => ∀ list,
      Fat32.entryStep r.vol r.g.toGlobals r.cluster r.k ⟨r.direntry, r.prev, list⟩ r.i ≠
        .error (.fault .outOfBounds)

/-- The characters that were taken have room, with a NUL if it is stored. -/
def Fat32.SlotsBack.Fits (vol : Volume) (g : Fat32.Globals) (cluster : ℕ)
    (t : Fat32.SlotsBack) : Prop :=
  if t.Whole vol g cluster then t.name.length < 255 else t.name.length ≤ 255

/-- The name has room.  At the start of a cluster the 8.3 name is taken. -/
def DirEntry.Fits : DirEntry → Prop
  | .ext2 dirbuf o _ => HasRoom (Ext2.recordName dirbuf o)
  | .short _ _ => True
  | .long r => r.k = 0 ∧ r.i = 0 ∨ r.inFront.Fits r.vol r.g.toGlobals r.cluster

namespace Fat32

open StepMachine

variable {vol : Volume} {g : Globals} {cluster : ℕ}

/-! ## The characters of a run -/

theorem length_pushedName (run : List Buffer) :
    (pushedName run).length = 13 * run.length +
      ((runUnits run).map UInt8.ofNat).count 32 := by
  have hunits : (runUnits run).length = 13 * run.length := by
    rw [← run.length_reverse]
    unfold runUnits
    induction run.reverse with
    | nil => rfl
    | cons slot slots ih =>
        have hslot : (longOffsets.map (le16 slot)).length = 13 := by
          rw [List.length_map]
          rfl
        rw [List.flatMap_cons, List.length_append, ih, hslot, List.length_cons]
        omega
  rw [pushedName_eq, length_escapeName, List.length_map, hunits]

theorem pushedName_slotsAt_succ (p n : ℕ) :
    pushedName (slotsAt vol g cluster p (n + 1)) =
      slotName (entryAt vol g cluster (p + n)) 0 ++
        pushedName (slotsAt vol g cluster p n) := by
  rw [slotsAt_succ, pushedName_append]
  simp [pushedName]

theorem SlotRun.hasRoom_iff (r : SlotRun) :
    HasRoom r.chars ↔ (pushedName r.run).length < 255 := by
  have hchars : r.chars.length = (runUnits r.run).length := List.length_map _
  have hlen := congrArg List.length (pushedName_eq r.run)
  rw [length_escapeName] at hlen
  rw [hlen]
  rfl

/-! ## The loop -/

/-- The loop leaves with that name, or with an error when it is too long. -/
def Ends (vol : Volume) (g : Globals) (cluster : ℕ) (s : LongCursor)
    (total : List UInt8) : Prop :=
  if 255 < total.length then
    Halts (longTurn vol g cluster) s (.error .outOfBounds)
  else
    ∃ s', Halts (longTurn vol g cluster) s (.ok (s', true)) ∧ s'.name = total ∧
      (s'.flag = true → sectorReadable vol g cluster (s'.k + 1) = true)

/-- A turn that takes a slot. -/
def takeSlot (marked : Prop) [Decidable marked] (s' : LongCursor) :
    Turn LongCursor (Except Fault (LongCursor × Bool)) :=
  if 255 < s'.name.length then .stop (.error .outOfBounds)
  else if marked then .stop (.ok (s', true)) else .next s'

theorem Ends.of_next {marked : Prop} [Decidable marked] {s s' : LongCursor}
    {rest : List UInt8} (hturn : longTurn vol g cluster s = takeSlot marked s')
    (hclear : ¬ marked) (hends : Ends vol g cluster s' (s'.name ++ rest)) :
    Ends vol g cluster s (s'.name ++ rest) := by
  unfold takeSlot at hturn
  rw [if_neg hclear] at hturn
  by_cases hlong : 255 < s'.name.length
  · rw [if_pos hlong] at hturn
    unfold Ends
    rw [if_pos (by rw [List.length_append]; omega)]
    exact Halts.of_stop hturn
  · rw [if_neg hlong] at hturn
    unfold Ends at hends ⊢
    split
    · next htotal =>
        rw [if_pos htotal] at hends
        exact Halts.of_next hturn hends
    · next htotal =>
        rw [if_neg htotal] at hends
        obtain ⟨last, hhalts, hrest⟩ := hends
        exact ⟨last, Halts.of_next hturn hhalts, hrest⟩

theorem Ends.of_stop {marked : Prop} [Decidable marked] {s s' : LongCursor}
    (hturn : longTurn vol g cluster s = takeSlot marked s') (hmark : marked)
    (hread : s'.flag = true → sectorReadable vol g cluster (s'.k + 1) = true) :
    Ends vol g cluster s s'.name := by
  unfold takeSlot at hturn
  rw [if_pos hmark] at hturn
  unfold Ends
  split
  · next hlong =>
      rw [if_pos hlong] at hturn
      exact Halts.of_stop hturn
  · next hlong =>
      rw [if_neg hlong] at hturn
      exact ⟨s', Halts.of_stop hturn, rfl, hread⟩

theorem longTurn_of_walkTurn {p : ℕ} {s : LongCursor} {reads : List ℕ} {w' : Walk}
    (hturn : walkTurn vol g cluster ⟨s, reads⟩ =
      if Marked vol g cluster p then .stop (w', true) else .next w') :
    longTurn vol g cluster s = takeSlot (Marked vol g cluster p)
      { w'.cursor with
        name := s.name ++ slotName w'.cursor.buf (32 * w'.cursor.i) } := by
  unfold walkTurn at hturn
  unfold longTurn
  dsimp only at hturn
  cases hprevious : previousSector vol g cluster s with
  | none =>
      rw [hprevious] at hturn
      by_cases hmarked : Marked vol g cluster p
      · rw [if_pos hmarked] at hturn
        cases hturn
      · rw [if_neg hmarked] at hturn
        cases hturn
  | some s₁ =>
      have hname : s₁.name = s.name := by
        unfold previousSector at hprevious
        split at hprevious
        · split at hprevious
          · cases hprevious
          · cases hprevious
            rfl
        · cases hprevious
          rfl
      rw [hprevious] at hturn
      dsimp only at hturn ⊢
      rw [← hname]
      unfold takeSlot
      by_cases hclear : (s₁.buf (32 * (s₁.i - 1))).toNat &&& 0x40 = 0
      · rw [if_pos hclear] at hturn ⊢
        by_cases hmarked : Marked vol g cluster p
        · rw [if_pos hmarked] at hturn
          cases hturn
        · rw [if_neg hmarked] at hturn ⊢
          cases hturn
          rfl
      · rw [if_neg hclear] at hturn ⊢
        by_cases hmarked : Marked vol g cluster p
        · rw [if_pos hmarked] at hturn ⊢
          cases hturn
          rfl
        · rw [if_neg hmarked] at hturn
          cases hturn

/-- From an entry that the walk has behind it, the loop takes the slots back to
the last one that is marked. -/
theorem AtPosition.ends {last p e : ℕ} {s : LongCursor} {reads : List ℕ}
    (hlast : last < 2 ^ 32)
    (hread : ∀ k ≤ last, sectorReadable vol g cluster k = true)
    (hmarked : LastMarked vol g cluster p e)
    (hat : AtPosition vol g cluster last e ⟨s, reads⟩) :
    Ends vol g cluster s
      (s.name ++ pushedName (slotsAt vol g cluster p (e - p))) := by
  induction e generalizing s reads with
  | zero => exact absurd hmarked.1 (Nat.not_lt_zero p)
  | succ e ih =>
      obtain ⟨w', hat', hi, hheld, hturn⟩ := hat.turn hlast hread
      have hlong := longTurn_of_walkTurn hturn
      have hslot : slotName w'.cursor.buf (32 * w'.cursor.i) =
          slotName (entryAt vol g cluster e) 0 := by
        rw [hheld.slotName hi, hat'.position]
      rw [hslot] at hlong
      have hcount : e + 1 - p = (e - p) + 1 := by
        have hlt := hmarked.1
        omega
      have hplace : p + (e - p) = e := by
        have hlt := hmarked.1
        omega
      rw [hcount, pushedName_slotsAt_succ, hplace, ← List.append_assoc]
      by_cases hmark : Marked vol g cluster e
      · obtain rfl : e = p := by
          by_contra hne
          have hlt := hmarked.1
          exact hmarked.2.2 e (by omega) (Nat.lt_succ_self e) hmark
        rw [Nat.sub_self]
        have hends := Ends.of_stop hlong hmark fun hflag =>
          hread _ (hat'.flag.mp hflag)
        simpa [slotsAt, pushedName] using hends
      · have hrenamed : AtPosition vol g cluster last e
            ⟨{ w'.cursor with name := s.name ++ slotName (entryAt vol g cluster e) 0 },
              w'.reads⟩ :=
          ⟨hat'.position, hat'.i_le, hat'.k_le, hat'.holds, hat'.flag, hat'.reads⟩
        exact Ends.of_next hlong hmark (ih (hmarked.before hmark) hrenamed)

/-- The first pass through the sector before, with the counter one too high. -/
theorem firstPass_ends {m k i : ℕ} {buf : Buffer} (name : List UInt8)
    (hholds : Holds vol g cluster m buf) (hi : i ≤ direntPerSector) :
    (∃ p, LastMarked vol g cluster p (direntPerSector * m + i) ∧
        direntPerSector * m ≤ p ∧
        Ends vol g cluster ⟨buf, i, k, false, name⟩ (name ++ pushedName
          (slotsAt vol g cluster p (direntPerSector * m + i - p)))) ∨
      (∀ x, direntPerSector * m ≤ x → x < direntPerSector * m + i →
        ¬ Marked vol g cluster x) ∧
      ∀ rest,
        Ends vol g cluster ⟨buf, 0, k, false, name ++ pushedName
            (slotsAt vol g cluster (direntPerSector * m) i)⟩
          (name ++ pushedName (slotsAt vol g cluster (direntPerSector * m) i) ++
            rest) →
        Ends vol g cluster ⟨buf, i, k, false, name⟩
          (name ++ pushedName (slotsAt vol g cluster (direntPerSector * m) i) ++
            rest) := by
  induction i generalizing name with
  | zero =>
      refine Or.inr ⟨fun x hlow hhigh => by omega, fun rest hends => ?_⟩
      simpa [slotsAt, pushedName] using hends
  | succ i ih =>
      have hfirst := hholds.first (i := i) (by omega)
      have hwalk : walkTurn vol g cluster ⟨⟨buf, i + 1, k, false, name⟩, []⟩ =
          if Marked vol g cluster (direntPerSector * m + i) then
            .stop (⟨⟨buf, i, k, false, name⟩, []⟩, true)
          else .next ⟨⟨buf, i, k, false, name⟩, []⟩ := by
        have hturn : walkTurn vol g cluster ⟨⟨buf, i + 1, k, false, name⟩, []⟩ =
            if (buf (32 * i)).toNat &&& 0x40 = 0 then
              .next ⟨⟨buf, i, k, false, name⟩, []⟩
            else .stop (⟨⟨buf, i, k, false, name⟩, []⟩, true) := rfl
        rw [hturn, hfirst]
        exact (ite_not _ _ _).symm
      have hlong := longTurn_of_walkTurn hwalk
      dsimp only at hlong
      rw [hholds.slotName (by omega)] at hlong
      by_cases hmark : Marked vol g cluster (direntPerSector * m + i)
      · refine Or.inl ⟨direntPerSector * m + i, ⟨Nat.lt_succ_self _, hmark,
          fun x hlow hhigh => by omega⟩, Nat.le_add_right _ _, ?_⟩
        have hends := Ends.of_stop hlong hmark fun hflag => Bool.noConfusion hflag
        have hone : direntPerSector * m + (i + 1) - (direntPerSector * m + i) = 1 := by
          omega
        rw [hone]
        simpa [slotsAt, pushedName] using hends
      rcases ih _ (by omega) with ⟨p, hp, hlow, hends⟩ | ⟨hnone, hpass⟩
      · refine Or.inl ⟨p, ⟨hp.1.trans (Nat.lt_succ_self _), hp.2.1, ?_⟩, hlow, ?_⟩
        · intro x hpx hx
          rcases Nat.lt_succ_iff_lt_or_eq.mp hx with hx | rfl
          · exact hp.2.2 x hpx hx
          · exact hmark
        · have hlt := hp.1
          have hcount : direntPerSector * m + (i + 1) - p =
              (direntPerSector * m + i - p) + 1 := by
            omega
          have hplace : p + (direntPerSector * m + i - p) =
              direntPerSector * m + i := by
            omega
          rw [hcount, pushedName_slotsAt_succ, hplace, ← List.append_assoc]
          exact Ends.of_next hlong hmark hends
      · refine Or.inr ⟨?_, fun rest hends => ?_⟩
        · intro x hlow hx
          rcases Nat.lt_succ_iff_lt_or_eq.mp hx with hx | rfl
          · exact hnone x hlow hx
          · exact hmark
        · rw [pushedName_slotsAt_succ, ← List.append_assoc] at hends ⊢
          have hrest := hpass rest hends
          rw [List.append_assoc] at hrest ⊢
          exact Ends.of_next hlong hmark hrest

/-! ## The calls -/

theorem Ends.generateLongName_iff {buf : Buffer} {i k : ℕ} {total : List UInt8}
    (hends : Ends vol g cluster ⟨buf, i, k, false, []⟩ total) (c : ListCursor) :
    generateLongName vol g cluster buf i k c = .error .outOfBounds ↔
      255 ≤ total.length := by
  unfold Ends at hends
  unfold generateLongName
  split at hends
  · next hlong =>
      rw [runFuel_longTurn hends]
      simp only [Option.getD_some, error_bind, true_iff]
      omega
  · obtain ⟨s', hhalts, rfl, hread⟩ := hends
    have hlast : ∃ buf', (if s'.flag = true then
        readClusterSector vol g cluster (s'.k + 1) s'.buf else some s'.buf) =
          some buf' := by
      by_cases hflag : s'.flag = true
      · obtain ⟨buf', hbuf, _⟩ := readClusterSector_of_readable (hread hflag) s'.buf
        exact ⟨buf', by rw [if_pos hflag, hbuf]⟩
      · exact ⟨s'.buf, if_neg hflag⟩
    obtain ⟨buf', hbuf⟩ := hlast
    rw [runFuel_longTurn hhalts]
    simp only [Option.getD_some, ok_bind, if_true, hbuf]
    rw [bind_eq_error_iff, putName_eq_outOfBounds_iff]
    constructor
    · rintro (hlen | ⟨c', _, hrest⟩)
      · exact hlen
      · cases hrest
    · exact Or.inl

theorem liftFault_eq_fault_iff {α : Type} {x : Except Fault α} {e : Fault} :
    liftFault x = .error (.fault e) ↔ x = .error e := by
  cases x with
  | error e' => simp [liftFault]
  | ok a => simp [liftFault]

theorem longEntry_of_pos {k i : ℕ} {s : ClusterState} (hi : i ≠ 0) :
    longEntry vol g cluster k i s = .error (.fault .outOfBounds) ↔
      generateLongName vol g cluster s.direntry i k s.list =
        .error .outOfBounds := by
  unfold longEntry
  rw [if_neg hi, bind_eq_error_iff, liftFault_eq_fault_iff]
  constructor
  · rintro (hname | ⟨_, _, hrest⟩)
    · exact hname
    · cases hrest
  · exact Or.inl

theorem longEntry_of_zero {k : ℕ} {s : ClusterState} {before : Buffer}
    (hbefore : readClusterSector vol g cluster (sub32 k 1) s.direntry = some before)
    (hread : sectorReadable vol g cluster k = true) :
    longEntry vol g cluster k 0 s = .error (.fault .outOfBounds) ↔
      generateLongName vol g cluster before direntPerSector k s.list =
        .error .outOfBounds := by
  have hagain : ∀ s' : ClusterState, ∃ s'', readOrReturn vol g cluster k s' =
      .ok s'' := by
    intro s'
    obtain ⟨buf, hbuf, _⟩ := readClusterSector_of_readable hread s'.direntry
    exact ⟨{ s' with direntry := buf }, by rw [readOrReturn, hbuf]⟩
  unfold longEntry
  rw [if_pos rfl, readOrReturn, hbefore]
  simp only [ok_bind]
  rw [bind_eq_error_iff, liftFault_eq_fault_iff]
  constructor
  · rintro (hname | ⟨⟨buf, list⟩, _, hrest⟩)
    · exact hname
    · dsimp only at hrest
      obtain ⟨s'', hs''⟩ := hagain ⟨buf, s.prev, list⟩
      rw [hs''] at hrest
      cases hrest
  · exact Or.inl

theorem LastMarked.unique {p p' e : ℕ} (hp : LastMarked vol g cluster p e)
    (hp' : LastMarked vol g cluster p' e) : p = p' := by
  rcases Nat.lt_trichotomy p p' with hlt | heq | hlt
  · exact absurd hp'.2.1 (hp.2.2 p' hlt hp'.1)
  · exact heq
  · exact absurd hp.2.1 (hp'.2.2 p hlt hp.1)

theorem SlotRun.lastMarked (r : SlotRun) (hinside : r.Inside) :
    LastMarked r.vol r.g.toGlobals r.cluster (direntPerSector * r.k + r.i - r.slots)
      (direntPerSector * r.k + r.i) := by
  have hpos := r.slots_pos
  unfold SlotRun.Inside at hinside
  exact ⟨by omega, r.marked hinside, fun x hlow hhigh => r.clear x hhigh (by omega)⟩

/-- Storing the name for the short entry fails exactly when this one is too long. -/
def SlotRun.Stores (r : SlotRun) (total : List UInt8) : Prop :=
  ∀ prev list, longEntry r.vol r.g.toGlobals r.cluster r.k r.i ⟨r.direntry, prev, list⟩ =
    .error (.fault .outOfBounds) ↔ 255 ≤ total.length

section Stores

variable (r : SlotRun)

theorem SlotRun.k_lt_word : r.k < 2 ^ 32 := by
  have hk := r.k_lt
  have hsectors := r.g.sectors_lt
  omega

theorem SlotRun.length_run : r.run.length = r.slots := by simp [SlotRun.run, slotsAt]

theorem SlotRun.slots_eq (hinside : r.Inside) : direntPerSector * r.k + r.i -
    (direntPerSector * r.k + r.i - r.slots) = r.slots := by
  unfold SlotRun.Inside at hinside
  omega

/-- Behind the first entry of a sector the name is that of the run. -/
theorem SlotRun.stores_of_pos (hinside : r.Inside) (hpos : r.i ≠ 0) :
    r.Stores (pushedName r.run) := by
  intro prev list
  have hends := AtPosition.ends r.k_lt_word r.readable (r.lastMarked hinside)
    (atPosition_start r.i_lt.le fun _ => r.holds)
  rw [r.slots_eq hinside] at hends
  rw [longEntry_of_pos hpos]
  exact hends.generateLongName_iff list

/-- For the first entry of a sector the loop starts at the end of the sector before. -/
theorem SlotRun.stores_of_zero (hzero : r.i = 0) {m : ℕ} (hm : r.k = m + 1) {before : Buffer}
    (hbefore : readClusterSector r.vol r.g.toGlobals r.cluster m r.direntry = some before)
    {total : List UInt8} (hends : Ends r.vol r.g.toGlobals r.cluster
      ⟨before, direntPerSector, r.k, false, []⟩ total) : r.Stores total := by
  intro prev list
  have hk := r.k_lt_word
  have hsub : sub32 r.k 1 = m := by
    rw [sub32_of_le (by omega) hk]
    omega
  rw [hzero, longEntry_of_zero (s := ⟨r.direntry, prev, list⟩)
    (by rw [hsub]; exact hbefore) (r.readable r.k le_rfl)]
  exact hends.generateLongName_iff list

/-- When no entry of the sector before is marked, that sector is taken, and then taken
again. -/
theorem SlotRun.stores_twice (hinside : r.Inside) (hzero : r.i = 0) {m : ℕ}
    (hm : r.k = m + 1) {before : Buffer}
    (hbefore : readClusterSector r.vol r.g.toGlobals r.cluster m r.direntry = some before)
    {first : List UInt8} (hpass : ∀ rest,
      Ends r.vol r.g.toGlobals r.cluster ⟨before, 0, r.k, false, first⟩ (first ++ rest) →
      Ends r.vol r.g.toGlobals r.cluster ⟨before, direntPerSector, r.k, false, []⟩
        (first ++ rest)) : r.Stores (first ++ pushedName r.run) := by
  have hat : AtPosition r.vol r.g.toGlobals r.cluster r.k
      (direntPerSector * r.k + r.i) ⟨⟨before, 0, r.k, false, first⟩, []⟩ :=
    ⟨congrArg _ hzero.symm, Nat.zero_le _, le_rfl,
      fun h => absurd h (Nat.lt_irrefl 0), by simp, by simp⟩
  have htwice := hat.ends r.k_lt_word r.readable (r.lastMarked hinside)
  dsimp only at htwice
  rw [r.slots_eq hinside] at htwice
  exact r.stores_of_zero hzero hm hbefore (hpass _ htwice)

/-- What the name that is stored for a run comes to, and when it is the name of
the run. -/
theorem SlotRun.exists_total (hinside : r.Inside) :
    ∃ total, r.Stores total ∧
      ((r.i = 0 → r.slots ≤ direntPerSector) → total = pushedName r.run) ∧
      (¬ (r.i = 0 → r.slots ≤ direntPerSector) → 255 ≤ total.length) := by
  by_cases hzero : r.i = 0
  · have hmarked := r.lastMarked hinside
    obtain ⟨m, hm⟩ : ∃ m, r.k = m + 1 := by
      have hlt := hmarked.1
      rw [hzero] at hlt
      simp only [direntPerSector] at hlt
      exact ⟨r.k - 1, by omega⟩
    have hend : direntPerSector * m + direntPerSector =
        direntPerSector * r.k + r.i := by
      rw [hm, hzero, Nat.mul_succ, Nat.add_zero]
    obtain ⟨before, hbefore, hheld⟩ := readClusterSector_of_readable
      (r.readable m (by omega)) r.direntry
    rcases firstPass_ends (k := r.k) [] hheld le_rfl with
      ⟨p, hp, hlow, hends⟩ | ⟨hnone, hpass⟩
    · rw [hend] at hp hends
      obtain rfl := hp.unique hmarked
      have hslots := r.slots_eq hinside
      rw [hslots, List.nil_append] at hends
      have honce : r.slots ≤ direntPerSector := by omega
      exact ⟨pushedName r.run, r.stores_of_zero hzero hm hbefore hends, fun _ => rfl,
        fun hnot => absurd (fun _ => honce) hnot⟩
    · have hmore : direntPerSector < r.slots := by
        by_contra hle
        exact hnone (direntPerSector * r.k + r.i - r.slots) (by omega)
          (by rw [hend]; exact hmarked.1) hmarked.2.1
      obtain ⟨first, hfirst⟩ : ∃ first, first = pushedName (slotsAt r.vol
          r.g.toGlobals r.cluster (direntPerSector * m) direntPerSector) := ⟨_, rfl⟩
      simp only [List.nil_append, ← hfirst] at hpass
      refine ⟨_, r.stores_twice hinside hzero hm hbefore hpass, fun honce => ?_, fun _ => ?_⟩
      · exact absurd (honce hzero) (Nat.not_le.mpr hmore)
      · have hcount : (slotsAt r.vol r.g.toGlobals r.cluster (direntPerSector * m)
            direntPerSector).length = direntPerSector := by simp [slotsAt]
        rw [List.length_append, hfirst, length_pushedName, length_pushedName, hcount,
          r.length_run]
        simp only [direntPerSector] at hmore ⊢
        omega
  · refine ⟨pushedName r.run, r.stores_of_pos hinside hzero, fun _ => rfl, fun hnot => ?_⟩
    exact absurd (fun h => absurd h hzero) hnot

end Stores

theorem length_shortName (buf : Buffer) (o : ℕ) : (shortName buf o).length < 255 := by
  have hshift : shortName buf o = shortName (fun j => buf (o + j)) 0 := by
    simp only [shortName, Nat.zero_add, Nat.add_assoc]
  rw [hshift]
  exact shortName_length _

theorem generateLongName_eq_outOfBounds_iff {held i : ℕ} {buf : Buffer}
    (hholds : Holds vol g cluster held buf) (hi : i ≤ direntPerSector) (k : ℕ)
    (c : ListCursor) :
    generateLongName vol g cluster buf i k c = .error .outOfBounds ↔
      ¬ (slotsInFront vol g cluster held k i).Fits vol g cluster := by
  obtain ⟨hover, hfits⟩ := takes_inFront hholds hi k
  unfold SlotsBack.Fits generateLongName
  by_cases hlong : 255 < (slotsInFront vol g cluster held k i).name.length
  · rw [hover hlong]
    refine iff_of_true rfl ?_
    split
    · omega
    · omega
  · obtain ⟨s, hrun, hended⟩ := hfits (Nat.not_lt.mp hlong)
    rw [hrun, Option.getD_some, ok_bind]
    dsimp only
    by_cases hmarked : (slotsInFront vol g cluster held k i).marked = true
    · rw [if_pos hmarked]
      rcases hended.lastRead hmarked with ⟨hnone, hpart⟩ | ⟨hwhole, buf', hsome, _⟩
      · rw [hnone, if_neg hpart]
        exact iff_of_false (fun h => by cases h) (not_not.mpr (Nat.not_lt.mp hlong))
      · rw [hsome, if_pos hwhole]
        dsimp only
        rw [bind_eq_error_iff, putName_eq_outOfBounds_iff, hended.name, Nat.not_lt]
        constructor
        · rintro (hlen | ⟨_, _, hrest⟩)
          · exact hlen
          · cases hrest
        · exact Or.inl
    · have hpart : ¬ (slotsInFront vol g cluster held k i).Whole vol g cluster :=
        fun hwhole => hmarked hwhole.1
      rw [if_neg hmarked, if_neg hpart]
      exact iff_of_false (fun h => by cases h) (not_not.mpr (Nat.not_lt.mp hlong))

/-- Behind a slot of its cluster the short entry has `Generate_Long_Name` called. -/
theorem SlotRun.entryStep_iff (r : SlotRun) (hbehind : ¬ (r.k = 0 ∧ r.i = 0))
    (list : ListCursor) :
    entryStep r.vol r.g.toGlobals r.cluster r.k ⟨r.direntry, r.prev, list⟩ r.i =
        .error (.fault .outOfBounds) ↔
      longEntry r.vol r.g.toGlobals r.cluster r.k r.i
        ⟨r.direntry, r.prev, fillNode r.direntry (32 * r.i) list⟩ =
          .error (.fault .outOfBounds) := by
  have hprev : r.prev = 0x0F := if_neg hbehind
  unfold entryStep
  dsimp only
  rw [if_pos r.file, if_pos hprev, bind_eq_error_iff]
  constructor
  · rintro (hlong | ⟨_, _, hrest⟩)
    · exact hlong
    · cases hrest
  · exact Or.inl

theorem SlotRun.longEntry_iff (r : SlotRun) (hbehind : ¬ (r.k = 0 ∧ r.i = 0))
    (prev : ℕ) (list : ListCursor) :
    longEntry r.vol r.g.toGlobals r.cluster r.k r.i ⟨r.direntry, prev, list⟩ =
        .error (.fault .outOfBounds) ↔
      ¬ r.inFront.Fits r.vol r.g.toGlobals r.cluster := by
  unfold SlotRun.inFront
  by_cases hzero : r.i = 0
  · have hk : sub32 r.k 1 = r.k - 1 := by
      have hlt := r.k_lt
      have hsectors := r.g.sectors_lt
      exact sub32_of_le (by omega) (by omega)
    obtain ⟨before, hbefore, hheld⟩ := readClusterSector_of_readable
      (r.readable (sub32 r.k 1) (by omega)) r.direntry
    rw [if_pos hzero, hzero, longEntry_of_zero hbefore (r.readable r.k le_rfl)]
    exact generateLongName_eq_outOfBounds_iff hheld le_rfl r.k list
  · rw [if_neg hzero, longEntry_of_pos hzero]
    exact generateLongName_eq_outOfBounds_iff r.holds r.i_lt.le r.k list

theorem shortEntry_ne_outOfBounds (i : ℕ) (s : ClusterState) :
    shortEntry i s ≠ .error (.fault .outOfBounds) := by
  intro herror
  unfold shortEntry at herror
  split at herror
  · rcases bind_eq_error_iff.mp herror with hput | ⟨_, _, hrest⟩
    · have hlen := putName_eq_outOfBounds_iff.mp (liftFault_eq_fault_iff.mp hput)
      exact Nat.not_le.mpr (length_shortName _ _) hlen
    · cases hrest
  · cases herror

theorem SlotRun.long_iff (r : SlotRun) :
    (DirEntry.long r).StoresInside ↔ (DirEntry.long r).Fits := by
  by_cases hstart : r.k = 0 ∧ r.i = 0
  · refine iff_of_true (fun list herror => ?_) (Or.inl hstart)
    have hprev : r.prev = 0 := if_pos hstart
    unfold entryStep at herror
    dsimp only at herror
    rw [if_pos r.file, if_neg (by rw [hprev]; decide)] at herror
    rcases bind_eq_error_iff.mp herror with hshort | ⟨_, _, hrest⟩
    · exact shortEntry_ne_outOfBounds _ _ hshort
    · cases hrest
  · have hstores : ∀ list, entryStep r.vol r.g.toGlobals r.cluster r.k
        ⟨r.direntry, r.prev, list⟩ r.i ≠ .error (.fault .outOfBounds) ↔
          r.inFront.Fits r.vol r.g.toGlobals r.cluster := by
      intro list
      rw [ne_eq, r.entryStep_iff hstart, r.longEntry_iff hstart, not_not]
    have hfits : (DirEntry.long r).Fits ↔
        r.inFront.Fits r.vol r.g.toGlobals r.cluster := or_iff_right hstart
    rw [hfits]
    exact ⟨fun h => (hstores ⟨[], blank.node, []⟩).mp (h _),
      fun h list => (hstores list).mpr h⟩

/-- In one cluster it is the slots of the run that have to have room, and none of them is
to be taken twice. -/
theorem SlotRun.fits_iff_of_inside (r : SlotRun) (hinside : r.Inside) :
    (DirEntry.long r).Fits ↔
      HasRoom r.chars ∧ (r.i = 0 → r.slots ≤ direntPerSector) := by
  have hbehind : ¬ (r.k = 0 ∧ r.i = 0) := by
    rintro ⟨hk, hi⟩
    have hpos := r.slots_pos
    rw [SlotRun.Inside, hk, hi] at hinside
    omega
  obtain ⟨total, hstored, hname, hlong⟩ := r.exists_total hinside
  have hfits : (DirEntry.long r).Fits ↔
      r.inFront.Fits r.vol r.g.toGlobals r.cluster := or_iff_right hbehind
  rw [hfits, ← not_not (a := r.inFront.Fits r.vol r.g.toGlobals r.cluster),
    ← r.longEntry_iff hbehind 0 ⟨[], blank.node, []⟩, hstored]
  by_cases honce : r.i = 0 → r.slots ≤ direntPerSector
  · rw [hname honce, Nat.not_le, ← r.hasRoom_iff]
    exact (and_iff_left honce).symm
  · exact iff_of_false (not_not.mpr (hlong honce)) fun hfits => honce hfits.2

end Fat32

/-- Without inodes in a group the name is stored before the call fails. -/
theorem Ext2.exists_overflow {dirbuf : Buffer} {o : ℕ}
    (hinside : o + 8 + (dirbuf (o + 6)).toNat ≤ 4096)
    (hfull : ¬ HasRoom (recordName dirbuf o)) :
    ∃ (vol : Volume) (g : Globals) (c : DirCursor),
      readInode vol vol.drive g (le32 dirbuf o) c.indbuf ≠ .error .outOfBounds ∧
      fillNode vol g dirbuf o c = .error .outOfBounds := by
  obtain ⟨g, hnone⟩ : ∃ g : Globals, g.inodesPerGroup = 0 :=
    ⟨⟨fun _ => 0, 1024, 2, fun _ => 0⟩, rfl⟩
  let vol : Volume := ⟨⟨fun _ _ => true, fun _ _ _ => 0⟩, 0, 0⟩
  let c : DirCursor := ⟨⟨[], blank.node, []⟩, fun _ => 0⟩
  have hinode : readInode vol vol.drive g (le32 dirbuf o) c.indbuf ≠
      .error .outOfBounds := by
    rw [readInode, inodeToLba, if_pos hnone, error_bind]
    simp
  exact ⟨vol, g, c, hinode, (fillNode_eq_outOfBounds_iff hinside hinode).mpr hfull⟩

theorem DirEntry.storesInside_iff (entry : DirEntry) :
    entry.StoresInside ↔ entry.Fits := by
  cases entry with
  | long r => exact r.long_iff
  | short direntry i =>
      exact iff_of_true (fun prev list => Fat32.shortEntry_ne_outOfBounds i _) trivial
  | ext2 dirbuf o inside =>
      constructor
      · intro hstores
        by_contra hfull
        obtain ⟨vol, g, c, hinode, herror⟩ := Ext2.exists_overflow inside hfull
        exact hstores vol g c hinode herror
      · intro hroom vol g c hinode herror
        exact (Ext2.fillNode_eq_outOfBounds_iff inside hinode).mp herror hroom

/-- The record of a file whose name has 255 letters. -/
def longestRecord : Buffer := fun j =>
  if 8 ≤ j then 97
  else if j = 0 then 12 else if j = 4 then 8 else if j = 5 then 1
  else if j = 6 then 255 else if j = 7 then 1 else 0

theorem longest_name_overflows :
    ¬ (DirEntry.ext2 longestRecord 0 (by decide)).StoresInside := by
  intro hstores
  have hlen : (Ext2.recordName longestRecord 0).length = 255 := by
    rw [Ext2.recordName, List.length_map, List.length_range]
    rfl
  have hfull : ¬ HasRoom (Ext2.recordName longestRecord 0) := by
    unfold HasRoom
    omega
  obtain ⟨vol, g, c, hinode, herror⟩ := Ext2.exists_overflow (by decide) hfull
  exact hstores vol g c hinode herror

end Janus86
