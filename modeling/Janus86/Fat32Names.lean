import Janus86.Fat32FileLoad
import Mathlib.Data.List.DropRight

/-!
# The names of FAT32 files

An 8.3 name is padded with blanks.  A long name is spread over a run of slots in front of
the short entry, the first characters last, 13 UTF-16 units in each slot.
`Generate_Long_Name` goes backwards from the short entry and takes the low byte of every
unit, the padding included, until it comes to the slot with the bit 0x40.
-/

namespace Janus86
namespace Fat32

open StepMachine

/-- Entry `s` of a cluster. -/
def entryAt (vol : Volume) (g : Globals) (cluster s : ℕ) : Buffer :=
  fun o => sectorBytes vol g cluster (s / direntPerSector)
    (32 * (s % direntPerSector) + o)

/-- The UTF-16 units of the slots in front of a short entry. -/
def runUnits (run : List Buffer) : List ℕ :=
  run.reverse.flatMap fun slot => longOffsets.map (le16 slot)

/-- The name ends at the first unit 0, or fills the last slot. -/
def longName (run : List Buffer) : List UInt8 :=
  ((runUnits run).takeWhile (· ≠ 0)).map UInt8.ofNat

/-- The slots of an ASCII name: they are numbered down to 1, and the first
one is marked. -/
structure LongRun (run : List Buffer) : Prop where
  ordinal : ∀ j slot, run[j]? = some slot →
    (slot 0).toNat = run.length - j + if j = 0 then 0x40 else 0
  length_le : run.length ≤ 20
  ascii : ∀ u ∈ (runUnits run).takeWhile (· ≠ 0), u < 128

/-- The name before the point; its first byte 5 stands for 0xE5. -/
def baseName (e : Buffer) : List UInt8 :=
  ((List.range 8).map fun j => if j = 0 ∧ e 0 = 5 then 0xE5 else e j).rdropWhile
    (· = 32)

def extension (e : Buffer) : List UInt8 :=
  ((List.range 3).map fun j => e (8 + j)).rdropWhile (· = 32)

def eightThree (e : Buffer) : List UInt8 :=
  baseName e ++ if extension e = [] then [] else 46 :: extension e

/-- What the driver takes from the slots. -/
def pushedName (run : List Buffer) : List UInt8 :=
  run.reverse.flatMap fun slot => slotName slot 0

/-! ## The characters -/

theorem escapeName_append (a b : List UInt8) :
    escapeName (a ++ b) = escapeName a ++ escapeName b :=
  List.flatMap_append

theorem cString_escapeName (bytes : List UInt8) :
    cString (escapeName bytes) = escapeName (cString bytes) := by
  induction bytes with
  | nil => rfl
  | cons c bytes ih =>
      simp only [cString, escapeName] at ih ⊢
      by_cases hspace : c = 32
      · simp [hspace, ih]
      · by_cases hzero : c = 0
        · simp [hzero]
        · simp [hspace, hzero, ih]

theorem ofNat_le16 (buf : Buffer) (o : ℕ) : UInt8.ofNat (le16 buf o) = buf o := by
  apply UInt8.toNat.inj
  have hlt := (buf o).toNat_lt
  rw [UInt8.toNat_ofNat', le16]
  omega

theorem slotName_eq (slot : Buffer) :
    slotName slot 0 = escapeName ((longOffsets.map (le16 slot)).map UInt8.ofNat) := by
  rw [slotName, escapeName, List.flatMap_map, List.flatMap_map]
  simp only [ofNat_le16, Nat.zero_add]
  rfl

theorem pushedName_eq (run : List Buffer) :
    pushedName run = escapeName ((runUnits run).map UInt8.ofNat) := by
  unfold pushedName runUnits
  induction run.reverse with
  | nil => rfl
  | cons slot slots ih =>
      rw [List.flatMap_cons, List.flatMap_cons, List.map_append,
        escapeName_append, ih, slotName_eq]

theorem cString_ascii (units : List ℕ)
    (hascii : ∀ u ∈ units.takeWhile (· ≠ 0), u < 128) :
    cString (units.map UInt8.ofNat) =
      (units.takeWhile (· ≠ 0)).map UInt8.ofNat := by
  induction units with
  | nil => rfl
  | cons u units ih =>
      by_cases hzero : u = 0
      · simp [cString, hzero]
      · have hlt : u < 128 := hascii u (by simp [hzero])
        have hne : UInt8.ofNat u ≠ 0 := by
          intro heq
          have htoNat := congrArg UInt8.toNat heq
          rw [UInt8.toNat_ofNat', UInt8.toNat_zero] at htoNat
          omega
        have hrest := ih fun v hv => hascii v (by simp [hzero] at hv ⊢; simp [hv])
        simp only [cString] at hrest ⊢
        simp [hzero, hne, hrest]

/-- The name that the driver takes shows as the long name. -/
theorem LongRun.cString_pushedName {run : List Buffer} (hrun : LongRun run) :
    cString (pushedName run) = escapeName (longName run) := by
  rw [pushedName_eq, cString_escapeName, cString_ascii _ hrun.ascii, longName]

theorem LongRun.mark {run : List Buffer} (hrun : LongRun run) {j : ℕ}
    {slot : Buffer} (hslot : run[j]? = some slot) :
    (slot 0).toNat &&& 0x40 = 0 ↔ j ≠ 0 := by
  have hlen := hrun.length_le
  have hlt := (List.getElem?_eq_some_iff.mp hslot).1
  have hclear : ∀ n < 21, n &&& 0x40 = 0 := by decide
  have hset : ∀ n < 21, (n + 0x40) &&& 0x40 ≠ 0 := by decide
  rw [hrun.ordinal j slot hslot]
  by_cases hzero : j = 0
  · simpa [hzero] using hset run.length (by omega)
  · simpa [hzero] using hclear (run.length - j) (by omega)

/-- Where the only blanks are the padding, leaving out the blanks takes the
padding away. -/
theorem flatMap_checkShort {chars : List UInt8} (hne : ∀ c ∈ chars, c ≠ 0)
    (hblank : 32 ∉ chars.rdropWhile (· = 32)) :
    chars.flatMap checkShort = chars.rdropWhile (· = 32) := by
  have hkept : ∀ part : List UInt8, (∀ c ∈ part, c ≠ 0) → 32 ∉ part →
      part.flatMap checkShort = part := by
    intro part hpart hpart'
    induction part with
    | nil => rfl
    | cons c part ih =>
        have hc : c ≠ 32 := fun h => hpart' (by simp [h])
        rw [List.flatMap_cons, ih (fun d hd => hpart d (by simp [hd]))
          (fun h => hpart' (by simp [h])), checkShort,
          if_pos ⟨hc, hpart c (by simp)⟩]
        rfl
  induction chars using List.reverseRecOn with
  | nil => rfl
  | append_singleton chars c ih =>
      rw [List.rdropWhile_concat] at hblank ⊢
      by_cases hc : c = 32
      · simp only [hc, decide_true, if_true] at hblank ⊢
        rw [List.flatMap_append, ih (fun d hd => hne d (by simp [hd])) hblank]
        exact List.append_nil _
      · simp only [hc, decide_false, Bool.false_eq_true, if_false] at hblank ⊢
        exact hkept _ hne hblank

theorem extension_eq_nil_iff {e : Buffer} (hblank : 32 ∉ extension e) :
    extension e = [] ↔ e 8 = 32 := by
  unfold extension at hblank ⊢
  constructor
  · intro hnil
    rw [List.rdropWhile_eq_nil_iff] at hnil
    simpa using hnil (e 8) (by simp [List.range_succ])
  · intro hfirst
    obtain ⟨rest, hprefix⟩ := List.rdropWhile_prefix
      (· = 32) (l := (List.range 3).map fun j => e (8 + j))
    cases hext : ((List.range 3).map fun j => e (8 + j)).rdropWhile (· = 32) with
    | nil => rfl
    | cons c ext =>
        rw [hext] at hprefix hblank
        have hc : c = e 8 := by
          have h := congrArg List.head? hprefix
          simpa [List.range_succ] using h
        exact absurd (by simp [hc, hfirst]) hblank

theorem shortName_eq {e : Buffer} (hne : ∀ o < 11, e o ≠ 0) (hfive : e 0 ≠ 5)
    (hbase : 32 ∉ baseName e) (hext : 32 ∉ extension e) :
    shortName e 0 = eightThree e := by
  have hstart : baseName e = ((List.range 8).map e).rdropWhile (· = 32) := by
    simp [baseName, hfive]
  rw [hstart] at hbase
  have hbase' := flatMap_checkShort (by
    intro c hc
    obtain ⟨j, hj, rfl⟩ := List.mem_map.mp hc
    rw [List.mem_range] at hj
    exact hne j (by omega)) hbase
  have hext' := flatMap_checkShort (by
    intro c hc
    obtain ⟨j, hj, rfl⟩ := List.mem_map.mp hc
    rw [List.mem_range] at hj
    exact hne (8 + j) (by omega)) hext
  rw [List.flatMap_map] at hbase' hext'
  rw [eightThree, hstart, ← hbase']
  unfold shortName
  simp only [Nat.zero_add]
  rw [hext', List.append_assoc]
  congr 1
  by_cases hnil : extension e = []
  · have h := (extension_eq_nil_iff hext).mp hnil
    simp only [extension] at hnil ⊢
    simp [hnil, h]
  · have h := mt (extension_eq_nil_iff hext).mpr hnil
    simp only [extension] at hnil ⊢
    simp [hnil, h]

theorem shortName_length (e : Buffer) : (shortName e 0).length < 255 := by
  have hone : ∀ c, (checkShort c).length ≤ 1 := by
    intro c
    unfold checkShort
    split
    · simp
    · simp
  have hsum : ∀ (n : ℕ) (f : ℕ → UInt8),
      ((List.range n).flatMap fun j => checkShort (f j)).length ≤ n := by
    intro n f
    rw [List.length_flatMap]
    calc ((List.range n).map fun j => (checkShort (f j)).length).sum
        ≤ ((List.range n).map fun _ => 1).sum :=
          List.sum_le_sum fun j _ => hone (f j)
      _ = n := by simp
  have hname := hsum 8 fun j => e (0 + j)
  have hext := hsum 3 fun j => e (0 + 8 + j)
  unfold shortName
  rw [List.length_append, List.length_append]
  split
  · simp only [List.length_singleton]
    omega
  · simp only [List.length_nil]
    omega

theorem shortName_ne_zero (e : Buffer) : ∀ c ∈ shortName e 0, c ≠ 0 := by
  have hkept : ∀ c d, d ∈ checkShort c → d ≠ 0 := by
    intro c d hd
    unfold checkShort at hd
    split at hd
    · next hc =>
        rw [List.mem_singleton.mp hd]
        exact hc.2
    · cases hd
  intro c hc
  simp only [shortName, List.mem_append, List.mem_flatMap] at hc
  rcases hc with (⟨j, _, hj⟩ | hpoint) | ⟨j, _, hj⟩
  · exact hkept _ _ hj
  · split at hpoint
    · rw [List.mem_singleton.mp hpoint]
      decide
    · cases hpoint
  · exact hkept _ _ hj

/-! ## The loop -/

variable {vol : Volume} {g : Globals} {cluster : ℕ}

/-- A buffer holds the bytes of a sector of the cluster. -/
def Holds (vol : Volume) (g : Globals) (cluster k : ℕ) (buf : Buffer) : Prop :=
  ∀ o < 512, buf o = sectorBytes vol g cluster k o

theorem readClusterSector_holds
    (hread : ∀ sector, vol.disk.readable vol.drive sector = true)
    (g : Globals) (cluster k : ℕ) (buf : Buffer) :
    ∃ buf', readClusterSector vol g cluster k buf = some buf' ∧
      Holds vol g cluster k buf' :=
  readDiskSector_one buf (hread _)

theorem Holds.entry {k i : ℕ} {buf : Buffer}
    (hholds : Holds vol g cluster k buf) (hi : i < direntPerSector) {o : ℕ}
    (ho : o < 32) :
    buf (32 * i + o) = entryAt vol g cluster (direntPerSector * k + i) o := by
  simp only [direntPerSector] at *
  have hdiv : (16 * k + i) / 16 = k := by omega
  have hmod : (16 * k + i) % 16 = i := by omega
  rw [hholds _ (by omega)]
  simp only [entryAt, direntPerSector, hdiv, hmod]

theorem Holds.slotName {k i : ℕ} {buf : Buffer}
    (hholds : Holds vol g cluster k buf) (hi : i < direntPerSector) :
    slotName buf (32 * i) =
      Fat32.slotName (entryAt vol g cluster (direntPerSector * k + i)) 0 := by
  have hle : ∀ j ∈ longOffsets, j < 32 := by decide
  simp only [Fat32.slotName, List.flatMap_def, Nat.zero_add]
  congr 1
  apply List.map_congr_left
  intro j hj
  rw [hholds.entry hi (hle j hj)]

theorem Holds.le16 {k i o : ℕ} {buf : Buffer}
    (hholds : Holds vol g cluster k buf) (hi : i < direntPerSector)
    (ho : o + 1 < 32) :
    Janus86.le16 buf (32 * i + o) =
      Janus86.le16 (entryAt vol g cluster (direntPerSector * k + i)) o := by
  simp only [Janus86.le16]
  rw [Nat.add_assoc, hholds.entry hi (by omega), hholds.entry hi ho]

theorem Holds.le32 {k i o : ℕ} {buf : Buffer}
    (hholds : Holds vol g cluster k buf) (hi : i < direntPerSector)
    (ho : o + 3 < 32) :
    Janus86.le32 buf (32 * i + o) =
      Janus86.le32 (entryAt vol g cluster (direntPerSector * k + i)) o := by
  simp only [Janus86.le32]
  rw [Nat.add_assoc, hholds.le16 hi (by omega), hholds.le16 hi ho]

theorem Holds.first {k i : ℕ} {buf : Buffer}
    (hholds : Holds vol g cluster k buf) (hi : i < direntPerSector) :
    buf (32 * i) = entryAt vol g cluster (direntPerSector * k + i) 0 :=
  hholds.entry hi (o := 0) (by decide)

theorem Holds.attribOf {k i : ℕ} {buf : Buffer}
    (hholds : Holds vol g cluster k buf) (hi : i < direntPerSector) :
    Fat32.attribOf buf (32 * i) =
      Fat32.attribOf (entryAt vol g cluster (direntPerSector * k + i)) 0 := by
  simp only [Fat32.attribOf, Nat.zero_add]
  rw [hholds.entry hi (by decide)]

theorem Holds.startCluster {k i : ℕ} {buf : Buffer}
    (hholds : Holds vol g cluster k buf) (hi : i < direntPerSector) :
    Fat32.startCluster buf (32 * i) =
      Fat32.startCluster (entryAt vol g cluster (direntPerSector * k + i)) 0 := by
  simp only [Fat32.startCluster, Nat.zero_add]
  rw [hholds.le16 hi (by decide), hholds.le16 hi (by decide), hholds.attribOf hi]

theorem Holds.shortName {k i : ℕ} {buf : Buffer}
    (hholds : Holds vol g cluster k buf) (hi : i < direntPerSector) :
    Fat32.shortName buf (32 * i) =
      Fat32.shortName (entryAt vol g cluster (direntPerSector * k + i)) 0 := by
  have hchars : ∀ (n o : ℕ), o + n ≤ 32 →
      (List.range n).flatMap (fun j => checkShort (buf (32 * i + o + j))) =
        (List.range n).flatMap fun j => checkShort
          (entryAt vol g cluster (direntPerSector * k + i) (o + j)) := by
    intro n o hle
    simp only [List.flatMap_def]
    congr 1
    apply List.map_congr_left
    intro j hj
    rw [List.mem_range] at hj
    rw [Nat.add_assoc, hholds.entry hi (by omega)]
  have hbase := hchars 8 0 (by decide)
  simp only [Nat.add_zero] at hbase
  simp only [Fat32.shortName]
  rw [hbase, hchars 3 8 (by decide), hholds.entry hi (by decide)]

/-- The slots from entry `p` on, before entry `p + n`. -/
def slotsAt (vol : Volume) (g : Globals) (cluster p n : ℕ) : List Buffer :=
  (List.range' p n).map (entryAt vol g cluster)

theorem pushedName_append (a b : List Buffer) :
    pushedName (a ++ b) = pushedName b ++ pushedName a := by
  simp [pushedName]

theorem slotsAt_succ (p n : ℕ) :
    slotsAt vol g cluster p (n + 1) =
      slotsAt vol g cluster p n ++ [entryAt vol g cluster (p + n)] := by
  simp [slotsAt, List.range'_concat]

theorem slotsAt_add (p m n : ℕ) :
    slotsAt vol g cluster p (m + n) =
      slotsAt vol g cluster p m ++ slotsAt vol g cluster (p + m) n := by
  simp [slotsAt, ← List.range'_append_1]

theorem longTurn_slot {k i m : ℕ} {buf : Buffer} {flag : Bool}
    {name : List UInt8} (hholds : Holds vol g cluster m buf)
    (hi : i < direntPerSector)
    (hlen : (name ++ pushedName (slotsAt vol g cluster
      (direntPerSector * m + i) 1)).length ≤ 255) :
    longTurn vol g cluster ⟨buf, i + 1, k, flag, name⟩ =
      let s : LongCursor := ⟨buf, i, k, flag, name ++ pushedName
        (slotsAt vol g cluster (direntPerSector * m + i) 1)⟩
      if (entryAt vol g cluster (direntPerSector * m + i) 0).toNat &&& 0x40 = 0
      then .next s else .stop (.ok (s, true)) := by
  have hpushed : pushedName (slotsAt vol g cluster (direntPerSector * m + i) 1) =
      slotName buf (32 * i) := by
    rw [hholds.slotName hi]
    simp [pushedName, slotsAt]
  have hmark := hholds.entry hi (o := 0) (by decide)
  rw [hpushed] at hlen ⊢
  rw [Nat.add_zero] at hmark
  rw [← hmark, longTurn, previousSector, if_neg (by simp)]
  simp only [Nat.add_sub_cancel]
  rw [if_neg (by omega)]

/-- The turn that finds the entries used up is the turn for the last entry of
the sector before. -/
theorem longTurn_enter {k : ℕ} {buf buf' : Buffer} {flag : Bool}
    {name : List UInt8}
    (hread : readClusterSector vol g cluster (sub32 k 1) buf = some buf') :
    longTurn vol g cluster ⟨buf, 0, k, flag, name⟩ =
      longTurn vol g cluster
        ⟨buf', direntPerSector, sub32 k 1, true, name⟩ := by
  have henter : previousSector vol g cluster ⟨buf, 0, k, flag, name⟩ =
      some ⟨buf', direntPerSector, sub32 k 1, true, name⟩ := by
    rw [previousSector, if_pos rfl]
    simp only [hread]
  have hstay : previousSector vol g cluster
      ⟨buf', direntPerSector, sub32 k 1, true, name⟩ =
      some ⟨buf', direntPerSector, sub32 k 1, true, name⟩ :=
    if_neg (by simp [direntPerSector])
  simp only [longTurn, henter, hstay]

theorem reaches_unmarked {k m j n : ℕ} {buf : Buffer} {flag : Bool}
    {name : List UInt8} (hholds : Holds vol g cluster m buf)
    (hn : j + n ≤ direntPerSector)
    (hclear : ∀ x < n, (entryAt vol g cluster (direntPerSector * m + j + x)
      0).toNat &&& 0x40 = 0)
    (hlen : (name ++ pushedName (slotsAt vol g cluster
      (direntPerSector * m + j) n)).length ≤ 255) :
    Reaches (longTurn vol g cluster) ⟨buf, j + n, k, flag, name⟩
      ⟨buf, j, k, flag, name ++ pushedName
        (slotsAt vol g cluster (direntPerSector * m + j) n)⟩ := by
  induction n generalizing name with
  | zero =>
      have hnone : pushedName (slotsAt vol g cluster
          (direntPerSector * m + j) 0) = [] := rfl
      rw [hnone, List.append_nil]
      exact Reaches.refl _
  | succ n ih =>
      have hlast : pushedName (slotsAt vol g cluster
          (direntPerSector * m + j) (n + 1)) =
          pushedName (slotsAt vol g cluster
            (direntPerSector * m + (j + n)) 1) ++
          pushedName (slotsAt vol g cluster (direntPerSector * m + j) n) := by
        rw [slotsAt_add, pushedName_append, Nat.add_assoc]
      rw [hlast, ← List.append_assoc] at hlen ⊢
      refine Reaches.head ?_ (ih (by omega) (fun x hx => hclear x (by omega)) hlen)
      have hmark := hclear n (by omega)
      rw [Nat.add_assoc] at hmark
      rw [← Nat.add_assoc, longTurn_slot hholds (by omega)
        (by rw [List.length_append] at hlen; omega)]
      exact if_pos hmark

theorem halts_marked {k m j n : ℕ} {buf : Buffer} {flag : Bool}
    {name : List UInt8} (hholds : Holds vol g cluster m buf)
    (hn : j + (n + 1) ≤ direntPerSector)
    (hmark : (entryAt vol g cluster (direntPerSector * m + j)
      0).toNat &&& 0x40 ≠ 0)
    (hclear : ∀ x < n, (entryAt vol g cluster (direntPerSector * m + j + 1 + x)
      0).toNat &&& 0x40 = 0)
    (hlen : (name ++ pushedName (slotsAt vol g cluster
      (direntPerSector * m + j) (n + 1))).length ≤ 255) :
    Halts (longTurn vol g cluster) ⟨buf, j + (n + 1), k, flag, name⟩
      (.ok (⟨buf, j, k, flag, name ++ pushedName
        (slotsAt vol g cluster (direntPerSector * m + j) (n + 1))⟩, true)) := by
  have hfirst : pushedName (slotsAt vol g cluster
      (direntPerSector * m + j) (n + 1)) =
      pushedName (slotsAt vol g cluster (direntPerSector * m + (j + 1)) n) ++
        pushedName (slotsAt vol g cluster (direntPerSector * m + j) 1) := by
    rw [Nat.add_comm n 1, slotsAt_add, pushedName_append, Nat.add_assoc]
  have hcount : j + (n + 1) = j + 1 + n := by omega
  rw [hfirst, ← List.append_assoc] at hlen ⊢
  have hshort : (name ++ pushedName (slotsAt vol g cluster
      (direntPerSector * m + (j + 1)) n)).length ≤ 255 := by
    rw [List.length_append] at hlen
    omega
  rw [hcount]
  refine (Reaches.halts_iff (reaches_unmarked hholds (by omega) (fun x hx => by
    rw [← Nat.add_assoc]
    exact hclear x hx) hshort)).mpr (Halts.of_stop ?_)
  rw [longTurn_slot hholds (by omega) hlen]
  exact if_neg hmark

/-- The slots from entry `p` on, before entry `p + n + 1`: the first one is
marked, and the characters have room. -/
structure MarkedRun (vol : Volume) (g : Globals) (cluster p n : ℕ) : Prop where
  mark : (entryAt vol g cluster p 0).toNat &&& 0x40 ≠ 0
  clear : ∀ x < n, (entryAt vol g cluster (p + 1 + x) 0).toNat &&& 0x40 = 0
  room : (pushedName (slotsAt vol g cluster p (n + 1))).length < 255

theorem MarkedRun.halts_within {k m j n : ℕ} {buf : Buffer} {flag : Bool}
    (hrun : MarkedRun vol g cluster (direntPerSector * m + j) n)
    (hholds : Holds vol g cluster m buf) (hn : j + (n + 1) ≤ direntPerSector) :
    Halts (longTurn vol g cluster) ⟨buf, j + (n + 1), k, flag, []⟩
      (.ok (⟨buf, j, k, flag, pushedName
        (slotsAt vol g cluster (direntPerSector * m + j) (n + 1))⟩, true)) := by
  have hlen := hrun.room
  exact halts_marked hholds hn hrun.mark hrun.clear
    (by rw [List.nil_append]; omega)

/-- A run whose first slots lie in the sector before the buffer's. -/
theorem MarkedRun.halts_across {k j m n : ℕ} {buf : Buffer}
    (hread : ∀ sector, vol.disk.readable vol.drive sector = true)
    (hrun : MarkedRun vol g cluster (direntPerSector * k + j) (m + n))
    (hholds : Holds vol g cluster (k + 1) buf) (hm : j + (m + 1) = direntPerSector)
    (hn : n ≤ direntPerSector) (hk : k + 1 < 2 ^ 32) :
    ∃ buf', Halts (longTurn vol g cluster) ⟨buf, n, k + 1, false, []⟩
      (.ok (⟨buf', j, k, true, pushedName
        (slotsAt vol g cluster (direntPerSector * k + j) (m + n + 1))⟩,
          true)) := by
  have hsplit : m + n + 1 = (m + 1) + n := by omega
  have hseam : direntPerSector * k + j + (m + 1) = direntPerSector * (k + 1) := by
    rw [Nat.mul_succ, ← hm]
    omega
  have hlen := hrun.room
  rw [hsplit, slotsAt_add, pushedName_append, hseam] at hlen ⊢
  have hclear : ∀ x < n, (entryAt vol g cluster
      (direntPerSector * (k + 1) + 0 + x) 0).toNat &&& 0x40 = 0 := by
    intro x hx
    rw [Nat.add_zero, ← hseam]
    have h := hrun.clear (m + x) (by omega)
    rwa [show direntPerSector * k + j + 1 + (m + x) =
      direntPerSector * k + j + (m + 1) + x by omega] at h
  have hshort : ([] ++ pushedName (slotsAt vol g cluster
      (direntPerSector * (k + 1) + 0) n)).length ≤ 255 := by
    rw [List.length_append] at hlen
    rw [List.nil_append, Nat.add_zero]
    omega
  have hreach : Reaches (longTurn vol g cluster)
      ⟨buf, 0 + n, k + 1, false, []⟩ _ :=
    reaches_unmarked hholds (by omega) hclear hshort
  simp only [Nat.zero_add, Nat.add_zero, List.nil_append] at hreach
  obtain ⟨buf', hbuf, hholds'⟩ := readClusterSector_holds hread g cluster k buf
  have hsub : sub32 (k + 1) 1 = k := by
    rw [sub32_of_le (by omega) hk]
    omega
  have hrest : Halts (longTurn vol g cluster) ⟨buf', j + (m + 1), k, true,
      pushedName (slotsAt vol g cluster (direntPerSector * (k + 1)) n)⟩ _ :=
    halts_marked hholds' (by omega) hrun.mark
      (fun x hx => hrun.clear x (by omega)) hlen.le
  have henter : longTurn vol g cluster ⟨buf, 0, k + 1, false,
      pushedName (slotsAt vol g cluster (direntPerSector * (k + 1)) n)⟩ = _ :=
    longTurn_enter (by rw [hsub]; exact hbuf)
  rw [hm] at hrest
  rw [hsub] at henter
  exact ⟨buf', hreach.halts_iff.mpr (Halts.of_turn_eq henter hrest)⟩

/-- A slot has 13 characters. -/
theorem le_length_slotName (buf : Buffer) (o : ℕ) : 13 ≤ (slotName buf o).length := by
  have hone : ∀ c, 1 ≤ (checkLong c).length := by
    intro c
    unfold checkLong
    split
    · simp
    · simp
  simp only [slotName, List.length_flatMap]
  calc 13 = (longOffsets.map fun _ => 1).sum := rfl
    _ ≤ _ := List.sum_le_sum fun j _ => hone _

/-- Each turn takes 13 characters or more. -/
theorem longTurn_next {s s' : LongCursor}
    (hturn : longTurn vol g cluster s = .next s') :
    (255 - s'.name.length) / 13 < (255 - s.name.length) / 13 := by
  unfold longTurn at hturn
  split at hturn
  · cases hturn
  · next t hprev =>
      have hname : t.name = s.name := by
        unfold previousSector at hprev
        split at hprev
        · split at hprev
          · cases hprev
          · cases hprev
            rfl
        · cases hprev
          rfl
      have hadd := le_length_slotName t.buf (32 * (t.i - 1))
      dsimp only at hturn
      split at hturn
      · cases hturn
      · next hlen =>
          split at hturn
          · cases hturn
            simp only [List.length_append] at hlen ⊢
            rw [hname] at hlen ⊢
            omega
          · cases hturn

theorem runFuel_longTurn {buf : Buffer} {i k : ℕ}
    {r : Except Fault (LongCursor × Bool)}
    (hhalts : Halts (longTurn vol g cluster) ⟨buf, i, k, false, []⟩ r) :
    runFuel (longTurn vol g cluster) 20 ⟨buf, i, k, false, []⟩ = some r :=
  hhalts.runFuel_of_measure (fun s => (255 - s.name.length) / 13)
    (fun _ _ => longTurn_next) 20 (by simp)

/-- `Generate_Long_Name` for a run in the sector in the buffer; it does not
matter which sector `k` is. -/
theorem generateLongName_within {m j n : ℕ} {buf : Buffer}
    (hrun : MarkedRun vol g cluster (direntPerSector * m + j) n)
    (hholds : Holds vol g cluster m buf) (hn : j + (n + 1) ≤ direntPerSector)
    (k : ℕ) (c : ListCursor) :
    generateLongName vol g cluster buf (j + (n + 1)) k c =
      putName (pushedName (slotsAt vol g cluster (direntPerSector * m + j)
        (n + 1))) c >>= fun c => .ok (buf, c) := by
  rw [generateLongName, runFuel_longTurn (hrun.halts_within hholds hn)]
  simp only [Option.getD_some, ok_bind, if_true, Bool.false_eq_true, if_false]
  rfl

theorem generateLongName_across {k j m n : ℕ} {buf : Buffer}
    (hread : ∀ sector, vol.disk.readable vol.drive sector = true)
    (hrun : MarkedRun vol g cluster (direntPerSector * k + j) (m + n))
    (hholds : Holds vol g cluster (k + 1) buf) (hm : j + (m + 1) = direntPerSector)
    (hn : n ≤ direntPerSector) (hk : k + 1 < 2 ^ 32) (c : ListCursor) :
    ∃ buf', Holds vol g cluster (k + 1) buf' ∧
      generateLongName vol g cluster buf n (k + 1) c =
        putName (pushedName (slotsAt vol g cluster (direntPerSector * k + j)
          (m + n + 1))) c >>= fun c => .ok (buf', c) := by
  obtain ⟨buf₁, hhalts⟩ := hrun.halts_across hread hholds hm hn hk
  obtain ⟨buf', hbuf, hholds'⟩ :=
    readClusterSector_holds hread g cluster (k + 1) buf₁
  refine ⟨buf', hholds', ?_⟩
  rw [generateLongName, runFuel_longTurn hhalts]
  simp only [Option.getD_some, ok_bind, if_true, hbuf]
  rfl

end Fat32
end Janus86
