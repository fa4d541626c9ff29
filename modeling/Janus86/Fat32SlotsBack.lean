import Janus86.Fat32Names

/-!
# The entries in front of a short one

`Generate_Long_Name` goes back from a short entry and takes every entry it comes
to, up to the first one with the bit 0x40.  Which entries these are depends on
the disk alone: when those of a sector are used up it is the turn of the sector
before, also in front of the cluster, where sector numbers are counted down
modulo `2 ^ 32`.
-/

namespace Janus86
namespace Fat32

open StepMachine

/-- In front of entry `i` of the sector `held`; the counter is at `k`. -/
structure Back where
  held : ℕ
  k : ℕ
  i : ℕ
  crossed : Bool

/-- On to the sector before when the entries of this one are used up. -/
def Back.previous (vol : Volume) (g : Globals) (cluster : ℕ) (b : Back) : Option Back :=
  if b.i = 0 then
    if sectorReadable vol g cluster (sub32 b.k 1) = true then
      some ⟨sub32 b.k 1, sub32 b.k 1, direntPerSector, true⟩
    else none
  else some b

/-- The entry in front. -/
def Back.slot (vol : Volume) (g : Globals) (cluster : ℕ) (b : Back) : Buffer :=
  entryAt vol g cluster (direntPerSector * b.held + (b.i - 1))

/-- The entries that were come to, the nearest one first, and where that ended: at
an entry with the bit 0x40, or in front of a sector that cannot be read. -/
structure SlotsBack where
  slots : List Buffer
  stop : Back
  marked : Bool

def slotsBack (vol : Volume) (g : Globals) (cluster : ℕ) : ℕ → Back → SlotsBack
  | 0, b => ⟨[], b, false⟩
  | n + 1, b =>
      match b.previous vol g cluster with
      | none => ⟨[], b, false⟩
      | some b =>
          let slot := b.slot vol g cluster
          let b := { b with i := b.i - 1 }
          if (slot 0).toNat &&& 0x40 = 0 then
            let more := slotsBack vol g cluster n b
            { more with slots := slot :: more.slots }
          else ⟨[slot], b, true⟩

/-- Twenty slots are more than a name has room for. -/
def slotsInFront (vol : Volume) (g : Globals) (cluster held k i : ℕ) : SlotsBack :=
  slotsBack vol g cluster 20 ⟨held, k, i, false⟩

def SlotsBack.name (t : SlotsBack) : List UInt8 :=
  t.slots.flatMap fun slot => slotName slot 0

/-- The name is put into the list; the sector behind the last one is read first. -/
def SlotsBack.Whole (vol : Volume) (g : Globals) (cluster : ℕ) (t : SlotsBack) : Prop :=
  t.marked = true ∧
    (t.stop.crossed = true → sectorReadable vol g cluster (t.stop.k + 1) = true)

instance (vol : Volume) (g : Globals) (cluster : ℕ) (t : SlotsBack) :
    Decidable (t.Whole vol g cluster) :=
  inferInstanceAs (Decidable (_ ∧ (_ → _)))

/-- The sector that is left in the buffer. -/
def SlotsBack.sector (vol : Volume) (g : Globals) (cluster : ℕ) (t : SlotsBack) : ℕ :=
  if t.Whole vol g cluster ∧ t.stop.crossed = true then t.stop.k + 1 else t.stop.held

variable {vol : Volume} {g : Globals} {cluster : ℕ}

/-! ## The loop -/

/-- The loop is there, with that sector in the buffer. -/
structure Stands (vol : Volume) (g : Globals) (cluster : ℕ) (b : Back) (s : LongCursor) :
    Prop where
  k : s.k = b.k
  i : s.i = b.i
  flag : s.flag = b.crossed
  i_le : b.i ≤ direntPerSector
  holds : Holds vol g cluster b.held s.buf

theorem readClusterSector_of_unreadable {k : ℕ}
    (hread : ¬ sectorReadable vol g cluster k = true) (buf : Buffer) :
    readClusterSector vol g cluster k buf = none :=
  readDiskSector_one_eq_none buf (Bool.eq_false_of_not_eq_true hread)

theorem Stands.previous {b : Back} {s : LongCursor} (hat : Stands vol g cluster b s) :
    match b.previous vol g cluster with
    | none => previousSector vol g cluster s = none
    | some b' => ∃ s', previousSector vol g cluster s = some s' ∧
        Stands vol g cluster b' s' ∧ s'.name = s.name ∧ 0 < b'.i := by
  unfold Back.previous Fat32.previousSector
  rw [hat.i, hat.k]
  by_cases hzero : b.i = 0
  · rw [if_pos hzero, if_pos hzero]
    by_cases hread : sectorReadable vol g cluster (sub32 b.k 1) = true
    · obtain ⟨buf, hbuf, hholds⟩ := readDiskSector_one s.buf hread
      rw [if_pos hread]
      have hsome : readClusterSector vol g cluster (sub32 b.k 1) s.buf = some buf := hbuf
      simp only [hsome]
      exact ⟨_, rfl, ⟨rfl, rfl, rfl, le_rfl, hholds⟩, rfl, by decide⟩
    · rw [if_neg hread]
      simp only [readClusterSector_of_unreadable hread]
  · rw [if_neg hzero, if_neg hzero]
    exact ⟨s, rfl, hat, rfl, by omega⟩

/-- The cursor behind the entry in front. -/
def LongCursor.take (s : LongCursor) (slot : Buffer) : LongCursor :=
  { s with i := s.i - 1, name := s.name ++ slotName slot 0 }

/-- A turn takes the entry in front, and tells whether it has the bit. -/
theorem Stands.turn {b : Back} {s s₁ : LongCursor} (hat : Stands vol g cluster b s₁)
    (hsome : previousSector vol g cluster s = some s₁) (hpos : 0 < b.i) :
    Stands vol g cluster { b with i := b.i - 1 } (s₁.take (b.slot vol g cluster)) ∧
      longTurn vol g cluster s =
        if 255 < (s₁.take (b.slot vol g cluster)).name.length then
          .stop (.error .outOfBounds)
        else if (b.slot vol g cluster 0).toNat &&& 0x40 = 0 then
          .next (s₁.take (b.slot vol g cluster))
        else .stop (.ok (s₁.take (b.slot vol g cluster), true)) := by
  have hle := hat.i_le
  have hlt : b.i - 1 < direntPerSector := by omega
  refine ⟨⟨hat.k, congrArg (· - 1) hat.i, hat.flag, hlt.le, hat.holds⟩, ?_⟩
  have hslot := hat.holds.slotName hlt
  have hfirst := hat.holds.first hlt
  rw [← hat.i] at hslot hfirst
  rw [longTurn, hsome]
  unfold LongCursor.take Back.slot
  rw [← hat.i]
  simp only [hslot, hfirst]

section Steps

variable {b b' : Back} {n : ℕ}

theorem slotsBack_of_none (hback : b.previous vol g cluster = none) :
    slotsBack vol g cluster (n + 1) b = ⟨[], b, false⟩ := by
  rw [slotsBack, hback]

theorem slotsBack_of_clear (hback : b.previous vol g cluster = some b')
    (hclear : (b'.slot vol g cluster 0).toNat &&& 0x40 = 0) :
    slotsBack vol g cluster (n + 1) b =
      { slotsBack vol g cluster n { b' with i := b'.i - 1 } with
        slots := b'.slot vol g cluster ::
          (slotsBack vol g cluster n { b' with i := b'.i - 1 }).slots } := by
  rw [slotsBack, hback]
  exact if_pos hclear

theorem slotsBack_of_marked (hback : b.previous vol g cluster = some b')
    (hmarked : ¬ (b'.slot vol g cluster 0).toNat &&& 0x40 = 0) :
    slotsBack vol g cluster (n + 1) b =
      ⟨[b'.slot vol g cluster], { b' with i := b'.i - 1 }, true⟩ := by
  rw [slotsBack, hback]
  exact if_neg hmarked

end Steps

/-- What the loop comes to. -/
structure Ended (vol : Volume) (g : Globals) (cluster : ℕ) (t : SlotsBack)
    (name : List UInt8) (s : LongCursor) : Prop where
  k : s.k = t.stop.k
  flag : s.flag = t.stop.crossed
  name : s.name = name
  holds : Holds vol g cluster t.stop.held s.buf

/-- The loop takes these entries, unless they are more than `filename` holds. -/
structure Takes (vol : Volume) (g : Globals) (cluster : ℕ) (t : SlotsBack)
    (name : List UInt8) (run : Option (Except Fault (LongCursor × Bool))) : Prop where
  long : 255 < name.length → run = some (.error .outOfBounds)
  short : name.length ≤ 255 →
    ∃ s, run = some (.ok (s, t.marked)) ∧ Ended vol g cluster t name s

section Turns

variable {n : ℕ} {b : Back} {slot : Buffer} {s s₁ : LongCursor} {t : SlotsBack}

/-- In front of a sector that cannot be read. -/
theorem Stands.takes_none (hat : Stands vol g cluster b s) (hshort : s.name.length ≤ 255)
    (hprevious : previousSector vol g cluster s = none) :
    Takes vol g cluster ⟨[], b, false⟩ s.name (runFuel (longTurn vol g cluster) (n + 1) s) := by
  have hturn : longTurn vol g cluster s = .stop (.ok (s, false)) := by
    rw [longTurn, hprevious]
  rw [runFuel_succ_of_stop hturn]
  exact ⟨fun hlong => absurd hlong (Nat.not_lt.mpr hshort),
    fun _ => ⟨s, rfl, hat.k, hat.flag, rfl, hat.holds⟩⟩

/-- At an entry with the bit. -/
theorem Stands.takes_marked (hat : Stands vol g cluster b s₁)
    (hturn : longTurn vol g cluster s =
      if 255 < s₁.name.length then .stop (.error .outOfBounds) else .stop (.ok (s₁, true))) :
    Takes vol g cluster ⟨[slot], b, true⟩ s₁.name
      (runFuel (longTurn vol g cluster) (n + 1) s) := by
  refine ⟨fun hlong => ?_, fun hfit => ?_⟩
  · rw [if_pos hlong] at hturn
    exact runFuel_succ_of_stop hturn n
  · rw [if_neg (Nat.not_lt.mpr hfit)] at hturn
    exact ⟨s₁, runFuel_succ_of_stop hturn n, hat.k, hat.flag, rfl, hat.holds⟩

/-- Behind an entry without the bit the loop goes on. -/
theorem Takes.next (hturn : longTurn vol g cluster s =
      if 255 < s₁.name.length then .stop (.error .outOfBounds) else .next s₁)
    (hrest : s₁.name.length ≤ 255 → Takes vol g cluster t (s₁.name ++ t.name)
      (runFuel (longTurn vol g cluster) n s₁)) :
    Takes vol g cluster { t with slots := slot :: t.slots } (s₁.name ++ t.name)
      (runFuel (longTurn vol g cluster) (n + 1) s) := by
  by_cases hlong : 255 < s₁.name.length
  · rw [if_pos hlong] at hturn
    rw [runFuel_succ_of_stop hturn]
    refine ⟨fun _ => rfl, fun hfit => ?_⟩
    rw [List.length_append] at hfit
    omega
  · rw [if_neg hlong] at hturn
    obtain ⟨hover, hfits⟩ := hrest (Nat.not_lt.mp hlong)
    rw [runFuel_succ_of_next hturn]
    refine ⟨hover, fun hfit => ?_⟩
    obtain ⟨s', hrun, hended⟩ := hfits hfit
    exact ⟨s', hrun, hended.k, hended.flag, hended.name, hended.holds⟩

end Turns

theorem Stands.takes {n : ℕ} {b : Back} {s : LongCursor}
    (hat : Stands vol g cluster b s) (hshort : s.name.length ≤ 255)
    (hmany : 255 < s.name.length + 13 * n) :
    Takes vol g cluster (slotsBack vol g cluster n b)
      (s.name ++ (slotsBack vol g cluster n b).name)
      (runFuel (longTurn vol g cluster) n s) := by
  induction n generalizing b s with
  | zero => omega
  | succ n ih =>
      have hprevious := hat.previous
      cases hback : b.previous vol g cluster with
      | none =>
          rw [hback] at hprevious
          rw [slotsBack_of_none hback,
            show (⟨[], b, false⟩ : SlotsBack).name = [] from rfl, List.append_nil]
          exact hat.takes_none hshort hprevious
      | some b' =>
          rw [hback] at hprevious
          obtain ⟨s₁, hsome, hat₁, hname, hpos⟩ := hprevious
          obtain ⟨hat₂, hturn⟩ := hat₁.turn hsome hpos
          have htake : (s₁.take (b'.slot vol g cluster)).name =
              s.name ++ slotName (b'.slot vol g cluster) 0 := by
            rw [LongCursor.take, hname]
          by_cases hclear : (b'.slot vol g cluster 0).toNat &&& 0x40 = 0
          · have hall : s.name ++ (slotsBack vol g cluster (n + 1) b).name =
                (s₁.take (b'.slot vol g cluster)).name ++
                  (slotsBack vol g cluster n { b' with i := b'.i - 1 }).name := by
              rw [slotsBack_of_clear hback hclear, htake, List.append_assoc]
              rfl
            have hlen := le_length_slotName (b'.slot vol g cluster) 0
            rw [if_pos hclear] at hturn
            rw [hall, slotsBack_of_clear hback hclear]
            refine Takes.next hturn fun hfit => ih hat₂ hfit ?_
            rw [htake, List.length_append]
            omega
          · have hone : (⟨[b'.slot vol g cluster], { b' with i := b'.i - 1 }, true⟩ :
                SlotsBack).name = slotName (b'.slot vol g cluster) 0 :=
              List.append_nil _
            rw [if_neg hclear] at hturn
            rw [slotsBack_of_marked hback hclear, hone, ← htake]
            exact hat₂.takes_marked hturn

/-- The loop of a call, with the sector `held` in its buffer. -/
theorem takes_inFront {held i : ℕ} {buf : Buffer} (hholds : Holds vol g cluster held buf)
    (hi : i ≤ direntPerSector) (k : ℕ) :
    Takes vol g cluster (slotsInFront vol g cluster held k i)
      (slotsInFront vol g cluster held k i).name
      (runFuel (longTurn vol g cluster) 20 ⟨buf, i, k, false, []⟩) :=
  Stands.takes (b := ⟨held, k, i, false⟩) (s := ⟨buf, i, k, false, []⟩)
    ⟨rfl, rfl, rfl, hi, hholds⟩ (Nat.zero_le _) (by simp)

/-- What is read behind the loop, for a name that is to be put into the list. -/
theorem Ended.lastRead {t : SlotsBack} {name : List UInt8} {s : LongCursor}
    (hended : Ended vol g cluster t name s) (hmarked : t.marked = true) :
    (if s.flag then readClusterSector vol g cluster (s.k + 1) s.buf else some s.buf) =
        none ∧ ¬ t.Whole vol g cluster ∨
      t.Whole vol g cluster ∧ ∃ buf, (if s.flag then
          readClusterSector vol g cluster (s.k + 1) s.buf else some s.buf) = some buf ∧
        Holds vol g cluster (t.sector vol g cluster) buf := by
  rw [hended.flag, hended.k]
  by_cases hcrossed : t.stop.crossed = true
  · rw [if_pos hcrossed]
    by_cases hread : sectorReadable vol g cluster (t.stop.k + 1) = true
    · obtain ⟨buf, hbuf, hholds⟩ := readDiskSector_one s.buf hread
      have hwhole : t.Whole vol g cluster := ⟨hmarked, fun _ => hread⟩
      refine Or.inr ⟨hwhole, buf, hbuf, ?_⟩
      rw [SlotsBack.sector, if_pos ⟨hwhole, hcrossed⟩]
      exact hholds
    · exact Or.inl ⟨readClusterSector_of_unreadable hread s.buf,
        fun hwhole => hread (hwhole.2 hcrossed)⟩
  · refine Or.inr ⟨⟨hmarked, fun h => absurd h hcrossed⟩, s.buf, if_neg hcrossed, ?_⟩
    rw [SlotsBack.sector, if_neg fun h => hcrossed h.2]
    exact hended.holds

end Fat32
end Janus86
