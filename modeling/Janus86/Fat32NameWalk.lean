import Janus86.Fat32Names
import Janus86.Fat32Termination

/-!
# The way back to the first slot

`Generate_Long_Name` goes back from a short entry, from sector to sector, until
it has passed an entry with the bit 0x40; nothing else ends its loop.  It comes
back in order when there is such an entry in the cluster in front of the short
one, near enough that the sector read at the end is the one that was left.  What
it stores on the way is not looked at here.
-/

namespace Janus86
namespace Fat32

open StepMachine

/-! ## The walk -/

/-- The locals of the loop, and the numbers of the sectors that were read, as
the bits of an `int`. -/
structure Walk where
  cursor : LongCursor
  reads : List ℕ

/-- One turn of the do loop without the characters. -/
def walkTurn (vol : Volume) (g : Globals) (cluster : ℕ) (w : Walk) :
    Turn Walk (Walk × Bool) :=
  let reads :=
    if w.cursor.i = 0 then w.reads ++ [sub32 w.cursor.k 1] else w.reads
  match previousSector vol g cluster w.cursor with
  | none => .stop (⟨w.cursor, reads⟩, false)
  | some s =>
      let s := { s with i := s.i - 1 }
      if (s.buf (32 * s.i)).toNat &&& 0x40 = 0 then .next ⟨s, reads⟩
      else .stop (⟨s, reads⟩, true)

def startWalk (buf : Buffer) (i k : ℕ) : Walk := ⟨⟨buf, i, k, false, []⟩, []⟩

/-- What follows the loop: the buffer, and the sectors that were read. -/
def endWalk (vol : Volume) (g : Globals) (cluster : ℕ) (w : Walk) (done : Bool) :
    Buffer × List ℕ :=
  if done && w.cursor.flag then
    ((readClusterSector vol g cluster (w.cursor.k + 1) w.cursor.buf).getD
        w.cursor.buf,
      w.reads ++ [(w.cursor.k + 1) % 2 ^ 32])
  else (w.cursor.buf, w.reads)

/-! ## The scan of a cluster -/

/-- In front of entry `i` of sector `k`. -/
structure Scan where
  k : ℕ
  i : ℕ
  direntry : Buffer
  prev : ℕ

/-- `Generate_Long_Name` is called for the entry. -/
def Scan.Calls (s : Scan) : Prop :=
  attribOf s.direntry (32 * s.i) ≠ 0x0F ∧
    attribOf s.direntry (32 * s.i) ≠ 0x08 ∧ s.prev = 0x0F

instance (s : Scan) : Decidable s.Calls :=
  inferInstanceAs (Decidable (_ ∧ _ ∧ _))

/-- What a call leaves in `direntry`, and the sectors that are read for it.  In
front of the first entry of a sector the caller reads the one before, and after
the call its own again. -/
def Scan.Returns (vol : Volume) (g : Globals) (cluster : ℕ) (s : Scan)
    (buf : Buffer) (reads : List ℕ) : Prop :=
  if s.i = 0 then
    ∃ before w done,
      readClusterSector vol g cluster (sub32 s.k 1) s.direntry = some before ∧
      Halts (walkTurn vol g cluster) (startWalk before direntPerSector s.k)
        (w, done) ∧
      readClusterSector vol g cluster s.k (endWalk vol g cluster w done).1 =
        some buf ∧
      reads = sub32 s.k 1 :: (endWalk vol g cluster w done).2 ++ [s.k]
  else
    ∃ w done, Halts (walkTurn vol g cluster) (startWalk s.direntry s.i s.k)
        (w, done) ∧ endWalk vol g cluster w done = (buf, reads)

/-- `prev` and `direntry` behind the entry. -/
def Scan.After (vol : Volume) (g : Globals) (cluster : ℕ) (s : Scan)
    (buf : Buffer) (prev : ℕ) : Prop :=
  (if s.Calls then ∃ reads, s.Returns vol g cluster buf reads
    else buf = s.direntry) ∧
  prev = if isLive (buf (32 * s.i)) then attribOf buf (32 * s.i)
    else if s.Calls then 0 else s.prev

/-- The loops of `fat32_rd_cluster`. -/
inductive Scan.Next (vol : Volume) (g : Globals) (cluster : ℕ) : Scan → Scan → Prop
  | entry {s : Scan} {buf : Buffer} {prev : ℕ} (after : s.After vol g cluster buf prev)
      (more : s.i + 1 < direntPerSector) :
      Next vol g cluster s ⟨s.k, s.i + 1, buf, prev⟩
  | sector {s : Scan} {buf buf' : Buffer} {prev : ℕ}
      (after : s.After vol g cluster buf prev)
      (last : s.i + 1 = direntPerSector)
      (more : s.k + 1 < g.sectorsPerCluster)
      (read : readClusterSector vol g cluster (s.k + 1) buf = some buf') :
      Next vol g cluster s ⟨s.k + 1, 0, buf', prev⟩

/-- A scan of the cluster comes by. -/
def Scan.Passed (vol : Volume) (g : Globals) (cluster : ℕ) (s : Scan) : Prop :=
  ∃ direntry buf, 0 < g.sectorsPerCluster ∧
    readClusterSector vol g cluster 0 direntry = some buf ∧
    Relation.ReflTransGen (Scan.Next vol g cluster) ⟨0, 0, buf, 0⟩ s

/-- A call that is made there returns, reads no sector outside, and leaves the
sector in `direntry` that is being scanned. -/
def Scan.InOrder (vol : Volume) (g : Globals) (cluster : ℕ) (s : Scan) : Prop :=
  s.Calls → ∃ buf reads, s.Returns vol g cluster buf reads ∧
    (∀ k ∈ reads, k ≤ s.k) ∧ Holds vol g cluster s.k buf

/-- Entry `p` of the cluster has the bit 0x40. -/
def Marked (vol : Volume) (g : Globals) (cluster p : ℕ) : Prop :=
  (entryAt vol g cluster p 0).toNat &&& 0x40 ≠ 0

instance (vol : Volume) (g : Globals) (cluster p : ℕ) :
    Decidable (Marked vol g cluster p) :=
  inferInstanceAs (Decidable (_ ≠ _))

/-- Entry `p` is the last one with the bit in front of entry `e`. -/
def LastMarked (vol : Volume) (g : Globals) (cluster p e : ℕ) : Prop :=
  p < e ∧ Marked vol g cluster p ∧ ∀ x, p < x → x < e → ¬ Marked vol g cluster x

def SameSector (vol : Volume) (g : Globals) (cluster k k' : ℕ) : Prop :=
  ∀ o < 512, sectorBytes vol g cluster k o = sectorBytes vol g cluster k' o

/-- There is an entry with the bit in front of the one that the call is for, and
the sector behind the one in which it is looks like the one that is scanned. -/
def Scan.Meets (vol : Volume) (g : Globals) (cluster : ℕ) (s : Scan) : Prop :=
  s.Calls → ∃ p, LastMarked vol g cluster p (direntPerSector * s.k + s.i) ∧
    (s.i = 0 ∨ p / direntPerSector = s.k ∨
      SameSector vol g cluster (p / direntPerSector + 1) s.k)

/-! ## The walk by positions -/

variable {vol : Volume} {g : Globals} {cluster : ℕ}

theorem readClusterSector_of_readable {k : ℕ}
    (hread : sectorReadable vol g cluster k = true) (buf : Buffer) :
    ∃ buf', readClusterSector vol g cluster k buf = some buf' ∧
      Holds vol g cluster k buf' :=
  readDiskSector_one buf hread

theorem readClusterSector_some {k : ℕ} {buf buf' : Buffer}
    (hread : readClusterSector vol g cluster k buf = some buf') :
    sectorReadable vol g cluster k = true ∧ Holds vol g cluster k buf' := by
  rcases readClusterSector_eq vol g cluster k buf with
    ⟨hnone, _⟩ | ⟨_, hsome, hreadable, hholds⟩
  · rw [hnone] at hread
    cases hread
  · cases hsome.symm.trans hread
    exact ⟨hreadable, hholds⟩

/-- The walk, begun with the counter at sector `last`, has entry `p` behind it.
A buffer that has not been read again is the one that the walk began with. -/
structure AtPosition (vol : Volume) (g : Globals) (cluster last p : ℕ) (w : Walk) :
    Prop where
  position : direntPerSector * w.cursor.k + w.cursor.i = p
  i_le : w.cursor.i ≤ direntPerSector
  k_le : w.cursor.k ≤ last
  holds : 0 < w.cursor.i → Holds vol g cluster w.cursor.k w.cursor.buf
  flag : w.cursor.flag = true ↔ w.cursor.k < last
  reads : ∀ k ∈ w.reads, k ≤ last

/-- One turn takes the walk one entry back, and tells whether it has the bit. -/
theorem AtPosition.turn {last p : ℕ} {w : Walk}
    (hlast : last < 2 ^ 32)
    (hread : ∀ k ≤ last, sectorReadable vol g cluster k = true)
    (hat : AtPosition vol g cluster last (p + 1) w) :
    ∃ w', AtPosition vol g cluster last p w' ∧ w'.cursor.i < direntPerSector ∧
      Holds vol g cluster w'.cursor.k w'.cursor.buf ∧
      walkTurn vol g cluster w =
        if Marked vol g cluster p then .stop (w', true) else .next w' := by
  obtain ⟨hposition, hle, hk, hholds, hflag, hreads⟩ := hat
  simp only [direntPerSector] at hposition hle
  have hmark : ∀ (buf : Buffer) (k i : ℕ), Holds vol g cluster k buf → i < 16 →
      16 * k + i = p → ((buf (32 * i)).toNat &&& 0x40 = 0 ↔
        ¬ Marked vol g cluster p) := by
    intro buf k i hbuf hi hp
    have hfirst := hbuf.first (i := i) hi
    simp only [direntPerSector, hp] at hfirst
    rw [hfirst, Marked, not_not]
  by_cases hzero : w.cursor.i = 0
  · -- the sector before is read
    obtain ⟨k, hsucc⟩ : ∃ k, w.cursor.k = k + 1 := ⟨w.cursor.k - 1, by omega⟩
    have hsub : sub32 w.cursor.k 1 = k := by
      rw [sub32_of_le (by omega) (by omega)]
      omega
    obtain ⟨buf, hbuf, hheld⟩ :=
      readClusterSector_of_readable (hread k (by omega)) w.cursor.buf
    refine ⟨⟨⟨buf, 15, k, true, w.cursor.name⟩, w.reads ++ [k]⟩,
      ⟨by simp only [direntPerSector]; omega, by simp [direntPerSector], by
        simp only
        omega, fun _ => hheld, by simp only [true_iff]; omega, ?_⟩,
      by simp [direntPerSector], hheld, ?_⟩
    · intro k' hk'
      rcases List.mem_append.mp hk' with hk' | hk'
      · exact hreads k' hk'
      · rw [List.mem_singleton.mp hk']
        omega
    · have henter : previousSector vol g cluster w.cursor =
          some ⟨buf, 16, k, true, w.cursor.name⟩ := by
        rw [previousSector, if_pos hzero, hsub]
        simp only [hbuf]
        rfl
      simp only [walkTurn, henter, if_pos hzero, hsub]
      by_cases hmarked : Marked vol g cluster p
      · rw [if_pos hmarked, if_neg (mt (hmark buf k 15 hheld (by omega)
          (by omega)).mp (not_not.mpr hmarked))]
      · rw [if_neg hmarked, if_pos ((hmark buf k 15 hheld (by omega)
          (by omega)).mpr hmarked)]
  · have hheld := hholds (by omega)
    refine ⟨⟨{ w.cursor with i := w.cursor.i - 1 }, w.reads⟩,
      ⟨by simp only [direntPerSector]; omega, by simp only [direntPerSector]; omega, hk,
        fun _ => hheld, hflag, hreads⟩, by simp only [direntPerSector]; omega, hheld,
      ?_⟩
    have hstay : previousSector vol g cluster w.cursor = some w.cursor :=
      if_neg hzero
    simp only [walkTurn, hstay, if_neg hzero]
    by_cases hmarked : Marked vol g cluster p
    · rw [if_pos hmarked, if_neg (mt (hmark _ _ _ hheld (by omega)
        (by omega)).mp (not_not.mpr hmarked))]
    · rw [if_neg hmarked, if_pos ((hmark _ _ _ hheld (by omega)
        (by omega)).mpr hmarked)]

theorem LastMarked.before {p e : ℕ}
    (hmarked : LastMarked vol g cluster p (e + 1))
    (hclear : ¬ Marked vol g cluster e) : LastMarked vol g cluster p e := by
  obtain ⟨hlt, hmark, hnone⟩ := hmarked
  have hne : p ≠ e := by
    rintro rfl
    exact hclear hmark
  exact ⟨by omega, hmark, fun x hpx hxe => hnone x hpx (by omega)⟩

/-- With an entry that has the bit the walk goes back to the last one. -/
theorem AtPosition.halts {last p e : ℕ} {w : Walk} (hlast : last < 2 ^ 32)
    (hread : ∀ k ≤ last, sectorReadable vol g cluster k = true)
    (hmarked : LastMarked vol g cluster p e)
    (hat : AtPosition vol g cluster last e w) :
    ∃ w', Halts (walkTurn vol g cluster) w (w', true) ∧
      AtPosition vol g cluster last p w' ∧ w'.cursor.i < direntPerSector ∧
      Holds vol g cluster w'.cursor.k w'.cursor.buf := by
  induction e generalizing w with
  | zero => exact absurd hmarked.1 (Nat.not_lt_zero p)
  | succ e ih =>
      obtain ⟨w', hat', hi, hheld, hturn⟩ := hat.turn hlast hread
      by_cases hmark : Marked vol g cluster e
      · rw [if_pos hmark] at hturn
        obtain rfl : e = p := by
          by_contra hne
          have hlt := hmarked.1
          exact hmarked.2.2 e (by omega) (Nat.lt_succ_self e) hmark
        exact ⟨w', Halts.of_stop hturn, hat', hi, hheld⟩
      · rw [if_neg hmark] at hturn
        obtain ⟨w'', hhalts, hrest⟩ := ih (hmarked.before hmark) hat'
        exact ⟨w'', Halts.of_next hturn hhalts, hrest⟩

/-- Without one it comes to the start of the cluster. -/
theorem AtPosition.reaches_zero {last e : ℕ} {w : Walk} (hlast : last < 2 ^ 32)
    (hread : ∀ k ≤ last, sectorReadable vol g cluster k = true)
    (hnone : ∀ x < e, ¬ Marked vol g cluster x)
    (hat : AtPosition vol g cluster last e w) :
    ∃ w', Reaches (walkTurn vol g cluster) w w' ∧
      AtPosition vol g cluster last 0 w' := by
  induction e generalizing w with
  | zero => exact ⟨w, Reaches.refl w, hat⟩
  | succ e ih =>
      obtain ⟨w', hat', _, _, hturn⟩ := hat.turn hlast hread
      rw [if_neg (hnone e (Nat.lt_succ_self e))] at hturn
      obtain ⟨w'', hreaches, hzero⟩ :=
        ih (fun x hx => hnone x (Nat.lt_succ_of_lt hx)) hat'
      exact ⟨w'', Reaches.head hturn hreaches, hzero⟩

/-! ## What was read -/

theorem walkTurn_reads {w w' : Walk}
    (hturn : walkTurn vol g cluster w = .next w' ∨
      ∃ done, walkTurn vol g cluster w = .stop (w', done)) :
    w'.reads =
      if w.cursor.i = 0 then w.reads ++ [sub32 w.cursor.k 1] else w.reads := by
  unfold walkTurn at hturn
  dsimp only at hturn
  split at hturn
  · rcases hturn with h | ⟨_, h⟩
    · cases h
    · cases h
      rfl
  · split at hturn
    · rcases hturn with h | ⟨_, h⟩
      · cases h
        rfl
      · cases h
    · rcases hturn with h | ⟨_, h⟩
      · cases h
      · cases h
        rfl

theorem mem_reads_of_halts {w w' : Walk} {done : Bool} {k : ℕ}
    (hhalts : Halts (walkTurn vol g cluster) w (w', done))
    (hmem : k ∈ w.reads ∨ w.cursor.i = 0 ∧ k = sub32 w.cursor.k 1) :
    k ∈ w'.reads := by
  have hfirst : ∀ (w w₁ : Walk), (k ∈ w.reads ∨ w.cursor.i = 0 ∧
      k = sub32 w.cursor.k 1) → w₁.reads =
        (if w.cursor.i = 0 then w.reads ++ [sub32 w.cursor.k 1] else w.reads) →
      k ∈ w₁.reads := by
    intro w w₁ hmem hreads
    rw [hreads]
    rcases hmem with hmem | ⟨hzero, hk⟩
    · split
      · exact List.mem_append_left _ hmem
      · exact hmem
    · rw [if_pos hzero, ← hk]
      exact List.mem_append_right _ (List.mem_singleton_self _)
  obtain ⟨fuel, hrun⟩ := hhalts
  induction fuel generalizing w with
  | zero => cases hrun
  | succ fuel ih =>
      cases hturn : walkTurn vol g cluster w with
      | stop r =>
          rw [runFuel_succ_of_stop hturn, Option.some.injEq] at hrun
          rw [hrun] at hturn
          exact hfirst w w' hmem (walkTurn_reads (Or.inr ⟨done, hturn⟩))
      | next w₁ =>
          rw [runFuel_succ_of_next hturn] at hrun
          exact ih (Or.inl (hfirst w w₁ hmem (walkTurn_reads (Or.inl hturn)))) hrun

/-- A walk that comes to no entry with the bit reads the sector in front of the
cluster. -/
theorem AtPosition.leaves {last e : ℕ} {w w' : Walk} {done : Bool}
    (hlast : last < 2 ^ 32)
    (hread : ∀ k ≤ last, sectorReadable vol g cluster k = true)
    (hnone : ∀ x < e, ¬ Marked vol g cluster x)
    (hat : AtPosition vol g cluster last e w)
    (hhalts : Halts (walkTurn vol g cluster) w (w', done)) :
    2 ^ 32 - 1 ∈ w'.reads := by
  obtain ⟨w₀, hreaches, hzero⟩ := hat.reaches_zero hlast hread hnone
  have hposition := hzero.position
  simp only [direntPerSector] at hposition
  have hk : w₀.cursor.k = 0 := by omega
  refine mem_reads_of_halts (hreaches.halts_iff.mp hhalts) (Or.inr ⟨by omega, ?_⟩)
  rw [hk]
  rfl

/-! ## One call -/

/-- What holds in front of an entry as long as every call was in order. -/
structure Scan.Inside (vol : Volume) (g : Globals) (cluster : ℕ) (s : Scan) :
    Prop where
  i_lt : s.i < direntPerSector
  k_lt : s.k < g.sectorsPerCluster
  holds : Holds vol g cluster s.k s.direntry
  readable : ∀ k ≤ s.k, sectorReadable vol g cluster k = true
  first : s.k = 0 → s.i = 0 → s.prev ≠ 0x0F

theorem atPosition_start {k i : ℕ} {buf : Buffer} (hi : i ≤ direntPerSector)
    (hholds : 0 < i → Holds vol g cluster k buf) :
    AtPosition vol g cluster k (direntPerSector * k + i) (startWalk buf i k) where
  position := rfl
  i_le := hi
  k_le := le_rfl
  holds := hholds
  flag := by simp [startWalk]
  reads := by simp [startWalk]

/-- A walk that has found its entry leaves the sector behind it, or its own when
it was never left. -/
theorem AtPosition.endWalk_holds {last p : ℕ} {w : Walk} (hlast : last < 2 ^ 32)
    (hread : ∀ k ≤ last, sectorReadable vol g cluster k = true)
    (hat : AtPosition vol g cluster last p w) (hi : w.cursor.i < direntPerSector)
    (hheld : Holds vol g cluster w.cursor.k w.cursor.buf) :
    ∃ buf reads, endWalk vol g cluster w true = (buf, reads) ∧
      (∀ k ∈ reads, k ≤ last) ∧
      Holds vol g cluster (min (p / direntPerSector + 1) last) buf := by
  have hposition := hat.position
  simp only [direntPerSector] at hposition hi ⊢
  have hk : w.cursor.k = p / 16 := by omega
  have hle := hat.k_le
  by_cases hflag : w.cursor.flag = true
  · have hlt := hat.flag.mp hflag
    obtain ⟨buf, hbuf, hholds⟩ := readClusterSector_of_readable
      (hread (w.cursor.k + 1) hlt) w.cursor.buf
    refine ⟨buf, w.reads ++ [w.cursor.k + 1], ?_, ?_, ?_⟩
    · rw [endWalk, hflag, Bool.and_self, if_pos rfl, hbuf,
        Nat.mod_eq_of_lt (by omega)]
      rfl
    · intro k hmem
      rcases List.mem_append.mp hmem with hmem | hmem
      · exact hat.reads k hmem
      · rw [List.mem_singleton.mp hmem]
        exact hlt
    · rw [min_eq_left (by omega), ← hk]
      exact hholds
  · have heq : w.cursor.k = last := by
      have hnot := mt hat.flag.mpr hflag
      omega
    refine ⟨w.cursor.buf, w.reads, ?_, hat.reads, ?_⟩
    · rw [endWalk, Bool.true_and, if_neg hflag]
    · rw [min_eq_right (by omega), ← heq]
      exact hheld

theorem lastMarked_or_none (vol : Volume) (g : Globals) (cluster e : ℕ) :
    (∃ p, LastMarked vol g cluster p e) ∨ ∀ x < e, ¬ Marked vol g cluster x := by
  induction e with
  | zero => exact Or.inr fun x hx => absurd hx (Nat.not_lt_zero x)
  | succ e ih =>
      by_cases hmark : Marked vol g cluster e
      · exact Or.inl ⟨e, Nat.lt_succ_self e, hmark, fun x hlow hhigh => by omega⟩
      · rcases ih with ⟨p, hlt, hp, hnone⟩ | hnone
        · refine Or.inl ⟨p, Nat.lt_succ_of_lt hlt, hp, fun x hlow hhigh => ?_⟩
          rcases Nat.lt_succ_iff_lt_or_eq.mp hhigh with hx | rfl
          · exact hnone x hlow hx
          · exact hmark
        · refine Or.inr fun x hx => ?_
          rcases Nat.lt_succ_iff_lt_or_eq.mp hx with hx | rfl
          · exact hnone x hx
          · exact hmark

theorem mem_endWalk {w : Walk} {k : ℕ} (done : Bool) (hmem : k ∈ w.reads) :
    k ∈ (endWalk vol g cluster w done).2 := by
  unfold endWalk
  split
  · exact List.mem_append_left _ hmem
  · exact hmem

/-- The walk through the sector before, with the counter one too high: it finds
the last entry with the bit, or has used the sector up. -/
theorem firstPass {m k i : ℕ} {buf : Buffer} (hholds : Holds vol g cluster m buf)
    (hi : i ≤ direntPerSector) :
    (∃ p w, LastMarked vol g cluster p (direntPerSector * m + i) ∧
        Halts (walkTurn vol g cluster) (startWalk buf i k) (w, true) ∧
        endWalk vol g cluster w true = (buf, [])) ∨
      (∀ x, direntPerSector * m ≤ x → x < direntPerSector * m + i →
        ¬ Marked vol g cluster x) ∧
      Reaches (walkTurn vol g cluster) (startWalk buf i k) (startWalk buf 0 k) := by
  induction i with
  | zero =>
      exact Or.inr ⟨fun x hlow hhigh => by omega, Reaches.refl _⟩
  | succ i ih =>
      have hmark : (buf (32 * i)).toNat &&& 0x40 = 0 ↔
          ¬ Marked vol g cluster (direntPerSector * m + i) := by
        rw [hholds.first (by omega), Marked, not_not]
      have hturn : walkTurn vol g cluster (startWalk buf (i + 1) k) =
          if (buf (32 * i)).toNat &&& 0x40 = 0 then .next (startWalk buf i k)
          else .stop (startWalk buf i k, true) := rfl
      by_cases hclear : (buf (32 * i)).toNat &&& 0x40 = 0
      · rw [if_pos hclear] at hturn
        rcases ih (by omega) with ⟨p, w, hp, hhalts, hend⟩ | ⟨hnone, hreaches⟩
        · refine Or.inl ⟨p, w, ⟨?_, hp.2.1, ?_⟩, Halts.of_next hturn hhalts, hend⟩
          · exact hp.1.trans (Nat.lt_succ_self _)
          · intro x hlow hhigh
            rcases Nat.lt_succ_iff_lt_or_eq.mp hhigh with hx | rfl
            · exact hp.2.2 x hlow hx
            · exact hmark.mp hclear
        · refine Or.inr ⟨?_, Reaches.head hturn hreaches⟩
          intro x hlow hhigh
          rcases Nat.lt_succ_iff_lt_or_eq.mp hhigh with hx | rfl
          · exact hnone x hlow hx
          · exact hmark.mp hclear
      · rw [if_neg hclear] at hturn
        refine Or.inl ⟨direntPerSector * m + i, startWalk buf i k,
          ⟨Nat.lt_succ_self _, not_not.mp (mt hmark.mpr hclear), ?_⟩,
          Halts.of_stop hturn, rfl⟩
        intro x hlow hhigh
        omega

/-- In front of an entry that is not the first one of its sector. -/
theorem Scan.inOrder_iff_of_pos {s : Scan} (hsectors : g.sectorsPerCluster < 2 ^ 32)
    (hinside : s.Inside vol g cluster) (hpos : s.i ≠ 0) :
    s.InOrder vol g cluster ↔ s.Meets vol g cluster := by
  have hk := hinside.k_lt
  have hlast : s.k < 2 ^ 32 := hk.trans hsectors
  have hat := atPosition_start hinside.i_lt.le fun _ => hinside.holds
  refine imp_congr_right fun _ => ?_
  unfold Scan.Returns
  simp only [if_neg hpos]
  constructor
  · rintro ⟨buf, reads, ⟨w, done, hhalts, hend⟩, hreads, hheld⟩
    rcases lastMarked_or_none vol g cluster (direntPerSector * s.k + s.i) with
      ⟨p, hp⟩ | hnone
    · obtain ⟨w', hhalts', hat', hi, hheld'⟩ := hat.halts hlast hinside.readable hp
      obtain ⟨buf', reads', hend', _, hholds⟩ :=
        hat'.endWalk_holds hlast hinside.readable hi hheld'
      cases hhalts.unique hhalts'
      cases hend.symm.trans hend'
      refine ⟨p, hp, Or.inr ?_⟩
      by_cases hp' : p / direntPerSector = s.k
      · exact Or.inl hp'
      · have hlt := hp.1
        have hi := hinside.i_lt
        simp only [direntPerSector] at hlt hp' hi hholds ⊢
        rw [min_eq_left (by omega)] at hholds
        exact Or.inr fun o ho => (hholds o ho).symm.trans (hheld o ho)
    · have hmem : 2 ^ 32 - 1 ∈ (endWalk vol g cluster w done).2 :=
        mem_endWalk done (hat.leaves hlast hinside.readable hnone hhalts)
      rw [hend] at hmem
      have hle := hreads _ hmem
      omega
  · rintro ⟨p, hp, hnear⟩
    obtain ⟨w, hhalts, hat', hi, hheld⟩ := hat.halts hlast hinside.readable hp
    obtain ⟨buf, reads, hend, hreads, hholds⟩ :=
      hat'.endWalk_holds hlast hinside.readable hi hheld
    refine ⟨buf, reads, ⟨w, true, hhalts, hend⟩, hreads, ?_⟩
    rcases hnear with hzero | hsame | hsame
    · exact absurd hzero hpos
    · rwa [hsame, min_eq_right (Nat.le_succ _)] at hholds
    · by_cases hle : p / direntPerSector + 1 ≤ s.k
      · rw [min_eq_left hle] at hholds
        exact fun o ho => (hholds o ho).trans (hsame o ho)
      · rwa [min_eq_right (by omega)] at hholds

/-- In front of the first entry of a sector. -/
theorem Scan.inOrder_iff_of_zero {s : Scan} (hsectors : g.sectorsPerCluster < 2 ^ 32)
    (hinside : s.Inside vol g cluster) (hzero : s.i = 0) :
    s.InOrder vol g cluster ↔ s.Meets vol g cluster := by
  refine imp_congr_right fun hcalls => ?_
  have hk := hinside.k_lt
  have hlast : s.k < 2 ^ 32 := hk.trans hsectors
  obtain ⟨m, hm⟩ : ∃ m, s.k = m + 1 := by
    refine ⟨s.k - 1, ?_⟩
    by_contra hne
    exact hinside.first (by omega) hzero hcalls.2.2
  have hsub : sub32 s.k 1 = m := by
    rw [sub32_of_le (by omega) hlast]
    omega
  obtain ⟨before, hbefore, hholds⟩ := readClusterSector_of_readable
    (hinside.readable m (by omega)) s.direntry
  have hpass := firstPass (k := s.k) hholds le_rfl
  have hend : direntPerSector * m + direntPerSector =
      direntPerSector * s.k + s.i := by
    rw [hm, hzero, Nat.mul_succ, Nat.add_zero]
  rw [hend] at hpass
  have hat : AtPosition vol g cluster s.k (direntPerSector * s.k + s.i)
      (startWalk before 0 s.k) := by
    rw [hzero]
    exact atPosition_start (Nat.zero_le _) fun h => absurd h (Nat.lt_irrefl 0)
  unfold Scan.Returns
  simp only [if_pos hzero, hsub]
  constructor
  · rintro ⟨buf, reads, ⟨before', w, done, hbefore', hhalts, _, rfl⟩, hreads, _⟩
    cases hbefore.symm.trans hbefore'
    rcases lastMarked_or_none vol g cluster (direntPerSector * s.k + s.i) with
      ⟨p, hp⟩ | hnone
    · exact ⟨p, hp, Or.inl hzero⟩
    · rcases hpass with ⟨p, _, hp, _⟩ | ⟨_, hreaches⟩
      · exact absurd hp.2.1 (hnone p hp.1)
      · have hmem : 2 ^ 32 - 1 ∈ (endWalk vol g cluster w done).2 :=
          mem_endWalk done (hat.leaves hlast hinside.readable hnone
            (hreaches.halts_iff.mp hhalts))
        have hle := hreads _ (List.mem_cons_of_mem _ (List.mem_append_left _ hmem))
        omega
  · rintro ⟨p, hp, _⟩
    have hfound : ∃ w, Halts (walkTurn vol g cluster)
        (startWalk before direntPerSector s.k) (w, true) ∧
        ∀ k ∈ (endWalk vol g cluster w true).2, k ≤ s.k := by
      rcases hpass with ⟨_, w, _, hhalts, hwalk⟩ | ⟨_, hreaches⟩
      · refine ⟨w, hhalts, ?_⟩
        rw [hwalk]
        simp
      · obtain ⟨w, hhalts, hat', hi, hheld⟩ := hat.halts hlast hinside.readable hp
        obtain ⟨buf, reads, hwalk, hreads, _⟩ :=
          hat'.endWalk_holds hlast hinside.readable hi hheld
        refine ⟨w, hreaches.halts_iff.mpr hhalts, ?_⟩
        rw [hwalk]
        exact hreads
    obtain ⟨w, hhalts, hreads⟩ := hfound
    obtain ⟨buf, hbuf, hheld⟩ := readClusterSector_of_readable
      (hinside.readable s.k le_rfl) (endWalk vol g cluster w true).1
    refine ⟨buf, _, ⟨before, w, true, hbefore, hhalts, hbuf, rfl⟩, ?_, hheld⟩
    intro k hk
    rcases List.mem_cons.mp hk with rfl | hk
    · omega
    · rcases List.mem_append.mp hk with hk | hk
      · exact hreads k hk
      · rw [List.mem_singleton.mp hk]

theorem Scan.inOrder_iff {s : Scan} (hsectors : g.sectorsPerCluster < 2 ^ 32)
    (hinside : s.Inside vol g cluster) :
    s.InOrder vol g cluster ↔ s.Meets vol g cluster := by
  by_cases hzero : s.i = 0
  · exact Scan.inOrder_iff_of_zero hsectors hinside hzero
  · exact Scan.inOrder_iff_of_pos hsectors hinside hzero

theorem Scan.Returns.unique {s : Scan} {buf buf' : Buffer} {reads reads' : List ℕ}
    (hreturns : s.Returns vol g cluster buf reads)
    (hreturns' : s.Returns vol g cluster buf' reads') : buf = buf' := by
  unfold Scan.Returns at hreturns hreturns'
  split at hreturns
  · next hzero =>
      rw [if_pos hzero] at hreturns'
      obtain ⟨before, w, done, hread, hhalts, hagain, _⟩ := hreturns
      obtain ⟨before', w', done', hread', hhalts', hagain', _⟩ := hreturns'
      cases hread.symm.trans hread'
      cases hhalts.unique hhalts'
      exact Option.some.inj (hagain.symm.trans hagain')
  · next hpos =>
      rw [if_neg hpos] at hreturns'
      obtain ⟨w, done, hhalts, hend⟩ := hreturns
      obtain ⟨w', done', hhalts', hend'⟩ := hreturns'
      cases hhalts.unique hhalts'
      exact (Prod.mk.inj (hend.symm.trans hend')).1

/-! ## The whole scan -/

/-- The sector is still in `direntry` behind the entry. -/
theorem Scan.After.holds {s : Scan} {buf : Buffer} {prev : ℕ}
    (hafter : s.After vol g cluster buf prev) (hinside : s.Inside vol g cluster)
    (horder : s.InOrder vol g cluster) : Holds vol g cluster s.k buf := by
  obtain ⟨hbuf, _⟩ := hafter
  by_cases hcalls : s.Calls
  · rw [if_pos hcalls] at hbuf
    obtain ⟨reads, hreturns⟩ := hbuf
    obtain ⟨buf', reads', hreturns', _, hheld⟩ := horder hcalls
    rw [hreturns.unique hreturns']
    exact hheld
  · rw [if_neg hcalls] at hbuf
    rw [hbuf]
    exact hinside.holds

theorem Scan.Inside.next {s s' : Scan} (hinside : s.Inside vol g cluster)
    (horder : s.InOrder vol g cluster) (hnext : s.Next vol g cluster s') :
    s'.Inside vol g cluster := by
  cases hnext with
  | entry hafter hmore =>
      exact ⟨hmore, hinside.k_lt, hafter.holds hinside horder, hinside.readable,
        fun _ h => absurd h (Nat.succ_ne_zero s.i)⟩
  | sector hafter hlast hmore hread =>
      obtain ⟨hreadable, hheld⟩ := readClusterSector_some hread
      refine ⟨by simp [direntPerSector], hmore, hheld, ?_,
        fun h => absurd h (Nat.succ_ne_zero s.k)⟩
      intro k hk
      rcases Nat.le_succ_iff.mp hk with hk | rfl
      · exact hinside.readable k hk
      · exact hreadable

theorem Scan.Passed.inside {s : Scan}
    (horder : ∀ s : Scan, s.Passed vol g cluster → s.Inside vol g cluster →
      s.InOrder vol g cluster)
    (hpassed : s.Passed vol g cluster) : s.Inside vol g cluster := by
  obtain ⟨direntry, buf, hpos, hread, hruns⟩ := hpassed
  induction hruns with
  | refl =>
      obtain ⟨hreadable, hheld⟩ := readClusterSector_some hread
      refine ⟨by simp [direntPerSector], hpos, hheld, ?_, by simp⟩
      intro k hk
      rw [Nat.le_zero.mp hk]
      exact hreadable
  | tail hbefore hnext ih =>
      exact ih.next (horder _ ⟨direntry, buf, hpos, hread, hbefore⟩ ih) hnext

/-! ## The loops of the driver -/

/-- The walk has the locals of `Generate_Long_Name`, apart from the name. -/
def Shadows (w : Walk) (s : LongCursor) : Prop := w.cursor = { s with name := [] }

theorem Shadows.previousSector {w : Walk} {s : LongCursor} (hshadows : Shadows w s) :
    previousSector vol g cluster w.cursor =
      (previousSector vol g cluster s).map fun s => { s with name := [] } := by
  rw [hshadows]
  unfold Fat32.previousSector
  dsimp only
  split
  · cases readClusterSector vol g cluster (sub32 s.k 1) s.buf <;> rfl
  · rfl

/-- A turn of the loop is a turn of the walk, as long as the name has room. -/
theorem Shadows.turn {w : Walk} {s : LongCursor} (hshadows : Shadows w s) :
    (∃ fault, longTurn vol g cluster s = .stop (.error fault)) ∨
    (∃ s' w', longTurn vol g cluster s = .next s' ∧
      walkTurn vol g cluster w = .next w' ∧ Shadows w' s') ∨
    ∃ s' w' done, longTurn vol g cluster s = .stop (.ok (s', done)) ∧
      walkTurn vol g cluster w = .stop (w', done) ∧ Shadows w' s' := by
  unfold longTurn walkTurn
  rw [hshadows.previousSector]
  cases Fat32.previousSector vol g cluster s with
  | none => exact Or.inr (Or.inr ⟨s, _, false, rfl, rfl, hshadows⟩)
  | some s₁ =>
      simp only [Option.map_some]
      split
      · exact Or.inl ⟨_, rfl⟩
      · split
        · exact Or.inr (Or.inl ⟨_, _, rfl, rfl, rfl⟩)
        · exact Or.inr (Or.inr ⟨_, _, _, rfl, rfl, rfl⟩)

theorem Shadows.halts {w : Walk} {s s' : LongCursor} {done : Bool}
    (hshadows : Shadows w s)
    (hhalts : Halts (longTurn vol g cluster) s (.ok (s', done))) :
    ∃ w', Halts (walkTurn vol g cluster) w (w', done) ∧ Shadows w' s' := by
  obtain ⟨fuel, hrun⟩ := hhalts
  induction fuel generalizing s w with
  | zero => cases hrun
  | succ fuel ih =>
      rcases hshadows.turn with ⟨fault, hturn⟩ | ⟨s₁, w₁, hturn, hwalk, hnext⟩ |
        ⟨s₁, w₁, done₁, hturn, hwalk, hnext⟩
      · rw [runFuel_succ_of_stop hturn] at hrun
        cases hrun
      · rw [runFuel_succ_of_next hturn] at hrun
        obtain ⟨w', hhalts, hlast⟩ := ih hnext hrun
        exact ⟨w', Halts.of_next hwalk hhalts, hlast⟩
      · rw [runFuel_succ_of_stop hturn] at hrun
        cases hrun
        exact ⟨w₁, Halts.of_stop hwalk, hnext⟩

/-- A call that comes back has made the walk. -/
theorem walk_of_generateLongName {i k : ℕ} {buf buf' : Buffer} {c c' : ListCursor}
    (hok : generateLongName vol g cluster buf i k c = .ok (buf', c')) :
    ∃ w done, Halts (walkTurn vol g cluster) (startWalk buf i k) (w, done) ∧
      (endWalk vol g cluster w done).1 = buf' := by
  obtain ⟨⟨s, done⟩, hrun, hrest⟩ := bind_eq_ok_iff.mp hok
  have hhalts : Halts (longTurn vol g cluster) ⟨buf, i, k, false, []⟩
      (.ok (s, done)) := by
    refine ⟨20, ?_⟩
    cases hfuel : runFuel (longTurn vol g cluster) 20 ⟨buf, i, k, false, []⟩ with
    | none =>
        rw [hfuel] at hrun
        cases hrun
    | some r =>
        rw [hfuel] at hrun
        exact congrArg some hrun
  have hstart : Shadows (startWalk buf i k) ⟨buf, i, k, false, []⟩ := rfl
  obtain ⟨w, hwalk, hlast⟩ := hstart.halts hhalts
  refine ⟨w, done, hwalk, ?_⟩
  unfold endWalk
  rw [hlast]
  dsimp only at hrest ⊢
  cases done with
  | false =>
      cases hrest
      rfl
  | true =>
      rw [if_pos rfl] at hrest
      rw [Bool.true_and]
      split at hrest
      · next hread =>
          cases hrest
          split
          · next hflag =>
              rw [if_pos hflag] at hread
              rw [hread]
              rfl
          · rfl
      · next buf₁ hread =>
          obtain ⟨c₁, _, hrest⟩ := bind_eq_ok_iff.mp hrest
          cases hrest
          split
          · next hflag =>
              rw [if_pos hflag] at hread
              rw [hread]
              rfl
          · next hflag =>
              rw [if_neg hflag] at hread
              exact Option.some.inj hread

theorem readOrReturn_direntry {k : ℕ} {s s' : ClusterState}
    (hok : readOrReturn vol g cluster k s = .ok s') :
    readClusterSector vol g cluster k s.direntry = some s'.direntry ∧
      s'.prev = s.prev := by
  unfold readOrReturn at hok
  split at hok
  · cases hok
  · next buf hread =>
      cases hok
      exact ⟨hread, rfl⟩

theorem returns_of_longEntry {k i : ℕ} {s s' : ClusterState}
    (hok : longEntry vol g cluster k i s = .ok s') :
    s'.prev = 0 ∧ ∃ reads,
      (⟨k, i, s.direntry, s.prev⟩ : Scan).Returns vol g cluster s'.direntry reads := by
  unfold longEntry at hok
  unfold Scan.Returns
  dsimp only
  split at hok
  · next hzero =>
      obtain ⟨s₁, hbefore, hok⟩ := bind_eq_ok_iff.mp hok
      obtain ⟨⟨buf, list⟩, hlong, hok⟩ := bind_eq_ok_iff.mp hok
      obtain ⟨s₂, hagain, hok⟩ := bind_eq_ok_iff.mp hok
      cases hok
      obtain ⟨w, done, hhalts, hend⟩ :=
        walk_of_generateLongName (liftFault_eq_ok hlong)
      refine ⟨rfl, sub32 k 1 :: (endWalk vol g cluster w done).2 ++ [k], ?_⟩
      rw [if_pos hzero]
      refine ⟨_, w, done, (readOrReturn_direntry hbefore).1, hhalts, ?_, rfl⟩
      rw [hend]
      exact (readOrReturn_direntry hagain).1
  · next hpos =>
      obtain ⟨⟨buf, list⟩, hlong, hok⟩ := bind_eq_ok_iff.mp hok
      cases hok
      obtain ⟨w, done, hhalts, hend⟩ :=
        walk_of_generateLongName (liftFault_eq_ok hlong)
      refine ⟨rfl, (endWalk vol g cluster w done).2, ?_⟩
      rw [if_neg hpos]
      exact ⟨w, done, hhalts, Prod.ext hend rfl⟩

theorem rememberAttrib_direntry (i : ℕ) (s : ClusterState) :
    (rememberAttrib i s).direntry = s.direntry ∧
      (rememberAttrib i s).prev = if isLive (s.direntry (32 * i)) then
        attribOf s.direntry (32 * i) else s.prev := by
  unfold rememberAttrib
  split
  · exact ⟨rfl, rfl⟩
  · exact ⟨rfl, rfl⟩

theorem shortEntry_direntry {i : ℕ} {s s' : ClusterState}
    (hok : shortEntry i s = .ok s') : s'.direntry = s.direntry ∧ s'.prev = s.prev := by
  unfold shortEntry at hok
  split at hok
  · obtain ⟨list, _, hok⟩ := bind_eq_ok_iff.mp hok
    cases hok
    exact ⟨rfl, rfl⟩
  · cases hok
    exact ⟨rfl, rfl⟩

/-- One turn of the loop over the entries. -/
theorem after_of_entryStep {k i : ℕ} {s s' : ClusterState}
    (hok : entryStep vol g cluster k s i = .ok s') :
    (⟨k, i, s.direntry, s.prev⟩ : Scan).After vol g cluster s'.direntry s'.prev := by
  unfold entryStep at hok
  dsimp only at hok
  unfold Scan.After
  split at hok
  · next hshort =>
      split at hok
      · next hprev =>
          have hcalls : (⟨k, i, s.direntry, s.prev⟩ : Scan).Calls :=
            ⟨hshort.1, hshort.2, hprev⟩
          obtain ⟨s₁, hlong, hok⟩ := bind_eq_ok_iff.mp hok
          cases hok
          obtain ⟨hdirentry, hremember⟩ := rememberAttrib_direntry i s₁
          obtain ⟨hzero, hreturns⟩ := returns_of_longEntry hlong
          rw [if_pos hcalls, if_pos hcalls, hremember, hdirentry, hzero]
          exact ⟨hreturns, rfl⟩
      · next hprev =>
          have hnot : ¬ (⟨k, i, s.direntry, s.prev⟩ : Scan).Calls :=
            fun hcalls => hprev hcalls.2.2
          obtain ⟨s₁, hentry, hok⟩ := bind_eq_ok_iff.mp hok
          cases hok
          obtain ⟨hdirentry, hremember⟩ := rememberAttrib_direntry i s₁
          obtain ⟨hkept, hprev'⟩ := shortEntry_direntry hentry
          rw [if_neg hnot, if_neg hnot, hremember, hdirentry, hkept, hprev']
          exact ⟨rfl, rfl⟩
  · next hother =>
      have hnot : ¬ (⟨k, i, s.direntry, s.prev⟩ : Scan).Calls :=
        fun hcalls => hother ⟨hcalls.1, hcalls.2.1⟩
      cases hok
      obtain ⟨hdirentry, hremember⟩ := rememberAttrib_direntry i s
      rw [if_neg hnot, if_neg hnot, hremember, hdirentry]
      exact ⟨rfl, rfl⟩

/-- The loop over the entries comes by what the scan comes by. -/
theorem Scan.Passed.entries {k i : ℕ} {s s' : ClusterState}
    (hpassed : (⟨k, 0, s.direntry, s.prev⟩ : Scan).Passed vol g cluster)
    (hi : i < direntPerSector)
    (hrun : (List.range i).foldlM (entryStep vol g cluster k) s = .ok s') :
    (⟨k, i, s'.direntry, s'.prev⟩ : Scan).Passed vol g cluster := by
  induction i generalizing s' with
  | zero =>
      cases hrun
      exact hpassed
  | succ i ih =>
      obtain ⟨middle, hbefore, hturn⟩ := foldlM_range_succ hrun
      obtain ⟨direntry, buf, hpos, hread, hruns⟩ := ih (by omega) hbefore
      exact ⟨direntry, buf, hpos, hread,
        hruns.tail (.entry (after_of_entryStep hturn) hi)⟩

/-- So does the loop over the sectors. -/
theorem Scan.passed_of_sectors {k : ℕ} {direntry : Buffer} {c : ListCursor}
    {s s' : ClusterState} (hk : k < g.sectorsPerCluster)
    (hrun : (List.range k).foldlM (sectorStep vol g cluster) ⟨direntry, 0, c⟩ =
      .ok s)
    (hread : readOrReturn vol g cluster k s = .ok s') :
    (⟨k, 0, s'.direntry, s'.prev⟩ : Scan).Passed vol g cluster := by
  induction k generalizing s s' with
  | zero =>
      cases hrun
      obtain ⟨hbuf, hprev⟩ := readOrReturn_direntry hread
      refine ⟨direntry, s'.direntry, hk, hbuf, ?_⟩
      rw [hprev]
  | succ k ih =>
      obtain ⟨middle, hbefore, hturn⟩ := foldlM_range_succ hrun
      obtain ⟨s₁, hfirst, hentries⟩ := bind_eq_ok_iff.mp hturn
      obtain ⟨s₂, hmost, hlast⟩ := foldlM_range_succ hentries
      have hpassed := (ih (by omega) hbefore hfirst).entries (by decide) hmost
      obtain ⟨direntry₀, buf, hpos, hzero, hruns⟩ := hpassed
      obtain ⟨hbuf, hprev⟩ := readOrReturn_direntry hread
      refine ⟨direntry₀, buf, hpos, hzero, hruns.tail ?_⟩
      rw [hprev]
      exact .sector (after_of_entryStep hlast) rfl hk hbuf

/-- The globals as a boot sector sets them. -/
structure BootGlobals extends Globals where
  sectors_lt : sectorsPerCluster < 256

theorem fat32RdBootsec_bootGlobals {bootsec : Buffer} {code : ℕ} {g' : Globals}
    (hread : fat32RdBootsec vol bootsec g = (code, g')) (hcode : code = success) :
    ∃ b : BootGlobals, b.toGlobals = g' := by
  unfold fat32RdBootsec at hread
  split at hread
  · cases hread
    cases hcode
  · next boot _ =>
      split at hread
      · cases hread
        exact ⟨⟨_, (boot 13).toNat_lt⟩, rfl⟩
      · cases hread
        cases hcode

/-- A scan is in order at every entry it comes by exactly when each entry that
`Generate_Long_Name` is called for has an entry with the bit in front of it, near
enough. -/
theorem scan_inOrder_iff (vol : Volume) (g : BootGlobals) (cluster : ℕ) :
    (∀ s : Scan, s.Passed vol g.toGlobals cluster →
        s.InOrder vol g.toGlobals cluster) ↔
      ∀ s : Scan, s.Passed vol g.toGlobals cluster →
        s.Meets vol g.toGlobals cluster := by
  have hsectors : g.sectorsPerCluster < 2 ^ 32 :=
    g.sectors_lt.trans (by decide)
  constructor
  · intro horder s hpassed
    have hinside := hpassed.inside fun s hs _ => horder s hs
    exact (Scan.inOrder_iff hsectors hinside).mp (horder s hpassed)
  · intro hmeets s hpassed
    have hinside := hpassed.inside fun s hs hinside =>
      (Scan.inOrder_iff hsectors hinside).mpr (hmeets s hs)
    exact (Scan.inOrder_iff hsectors hinside).mpr (hmeets s hpassed)

/-- A slot without the bit, and the short entry that it belongs to, in the first
sector of every cluster. -/
def unmarkedVolume : Volume where
  disk := { readable := fun _ _ => true,
            byte := fun _ _ o => if o = 0 then 1 else if o = 11 then 0x0F
              else if o = 32 then 65 else if o = 43 then 0x20 else 0 }
  drive := 0
  lba := 0

def unmarkedGlobals : BootGlobals := ⟨⟨0, 0, 1⟩, by decide⟩

theorem unmarked_not_marked : ∀ p < 1,
    ¬ Marked unmarkedVolume unmarkedGlobals.toGlobals 2 p := by
  decide

/-- The walk from the second entry goes on in front of the cluster. -/
theorem scan_leaves_unmarked :
    ∃ s : Scan, s.Passed unmarkedVolume unmarkedGlobals.toGlobals 2 ∧
      ¬ s.InOrder unmarkedVolume unmarkedGlobals.toGlobals 2 := by
  obtain ⟨buf, hread, hheld⟩ : ∃ buf,
      readClusterSector unmarkedVolume unmarkedGlobals.toGlobals 2 0
        (fun _ => 0) = some buf ∧
      Holds unmarkedVolume unmarkedGlobals.toGlobals 2 0 buf :=
    readClusterSector_of_readable rfl _
  have hlive : isLive (buf 0) = true := congrArg isLive (hheld 0 (by decide))
  have hslot : attribOf buf 0 = 0x0F := congrArg UInt8.toNat (hheld 11 (by decide))
  have hshort : attribOf buf 32 = 0x20 :=
    congrArg UInt8.toNat (hheld 43 (by decide))
  have hafter : (⟨0, 0, buf, 0⟩ : Scan).After unmarkedVolume
      unmarkedGlobals.toGlobals 2 buf 0x0F := by
    have hnot : ¬ (⟨0, 0, buf, 0⟩ : Scan).Calls := fun hcalls => hcalls.1 hslot
    unfold Scan.After
    rw [if_neg hnot]
    exact ⟨rfl, (if_pos hlive).symm ▸ hslot.symm⟩
  have hinside : (⟨0, 1, buf, 0x0F⟩ : Scan).Inside unmarkedVolume
      unmarkedGlobals.toGlobals 2 :=
    ⟨Nat.one_lt_two.trans (by decide), Nat.one_pos, hheld, fun _ _ => rfl,
      fun _ h => absurd h Nat.one_ne_zero⟩
  have hmore : 0 + 1 < direntPerSector := by decide
  have hcalls : (⟨0, 1, buf, 0x0F⟩ : Scan).Calls :=
    ⟨ne_of_eq_of_ne hshort (by decide), ne_of_eq_of_ne hshort (by decide), rfl⟩
  refine ⟨⟨0, 1, buf, 0x0F⟩, ⟨_, buf, by decide, hread,
    Relation.ReflTransGen.single (.entry hafter hmore)⟩, fun horder => ?_⟩
  obtain ⟨p, hp, _⟩ := (Scan.inOrder_iff (by decide) hinside).mp horder hcalls
  exact unmarked_not_marked p hp.1 hp.2.1

end Fat32
end Janus86
