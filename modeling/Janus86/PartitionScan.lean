import Janus86.PartitionWalks

/-!
# What the partition scan records

For each drive the four slots of a signed MBR are recorded, and then the first
slot of each signed boot sector on the walks.  `check_if_extended` is called
for the slots of `temp`, which a walk leaves on its last boot sector, so that
the slots behind the first extended one are not those of the MBR.
-/

namespace Janus86
namespace Partition

/-! ## Fields of a record -/

theorem putBytes_of_lt {buf : Buffer} {o i : ℕ} {bytes : List UInt8}
    (hlo : o ≤ i) (hhi : i < o + bytes.length) :
    putBytes buf o bytes i = bytes.getD (i - o) 0 :=
  if_pos ⟨hlo, hhi⟩

theorem putBytes_of_not {buf : Buffer} {o i : ℕ} {bytes : List UInt8}
    (hout : i < o ∨ o + bytes.length ≤ i) : putBytes buf o bytes i = buf i :=
  if_neg (by omega)

theorem le32_putBytes_of_disjoint {buf : Buffer} {o o' : ℕ}
    {bytes : List UInt8} (hapart : o' + 4 ≤ o ∨ o + bytes.length ≤ o') :
    le32 (putBytes buf o bytes) o' = le32 buf o' :=
  le32_congr fun i _ _ => putBytes_of_not (by omega)

theorem le32_put32 (buf : Buffer) (o v : ℕ) : le32 (put32 buf o v) o = v % 2 ^ 32 := by
  have hbyte : ∀ j < 4, put32 buf o v (o + j) = UInt8.ofNat (v / 256 ^ j) := by
    intro j hj
    rw [put32, putBytes_of_lt (by omega) (by simpa using by omega)]
    simp [List.getD_eq_getElem?_getD, hj]
  have h0 := hbyte 0 (by omega)
  have h1 := hbyte 1 (by omega)
  have h2 := hbyte 2 (by omega)
  have h3 := hbyte 3 (by omega)
  rw [Nat.add_zero] at h0
  simp only [le32, le16, show o + 2 + 1 = o + 3 by omega, h0, h1, h2, h3]
  simp only [UInt8.toNat_ofNat']
  omega

theorem le32_put32_of_disjoint {buf : Buffer} {o o' v : ℕ}
    (hapart : o' + 4 ≤ o ∨ o + 4 ≤ o') : le32 (put32 buf o v) o' = le32 buf o' :=
  le32_putBytes_of_disjoint (by simpa using hapart)

/-- A type name begins behind the number and the type byte. -/
theorem putTypeName_of_lt (node : Buffer) (type : UInt8) {i : ℕ}
    (hi : i < typeOffset) : putTypeName node type i = node i := by
  unfold putTypeName
  cases typeNames.lookup type with
  | none => rfl
  | some text => exact putBytes_of_not (Or.inl hi)

theorem typeByte_le32 (node : Buffer) (type : UInt8) {o : ℕ}
    (hapart : o + 4 ≤ typeByteOffset ∨ typeByteOffset + 1 ≤ o) :
    le32 (putBytes node typeByteOffset [type]) o = le32 node o :=
  le32_putBytes_of_disjoint hapart

/-- The number is written first, and over it nothing. -/
theorem number_fillNode (partIn : ℕ) (pe : Slot) (lba : ℕ) (node : Buffer) :
    le32 (fillNode partIn pe lba node) nameOffset = partIn % 2 ^ 32 := by
  have hname : le32 (putTypeName (put32 node nameOffset partIn) pe.type)
      nameOffset = partIn % 2 ^ 32 := by
    rw [← le32_put32 node nameOffset partIn]
    refine le32_congr fun i _ hi => putTypeName_of_lt _ _ ?_
    simp only [nameOffset, typeOffset] at hi ⊢
    omega
  have hkept : ∀ b v, le32 (put32 b stLbaOffset v) nameOffset =
      le32 b nameOffset := fun _ _ => le32_put32_of_disjoint (Or.inl (by decide))
  rw [fillNode, le32_put32_of_disjoint (Or.inl (by decide))]
  split
  · rw [typeByte_le32 _ _ (Or.inl (by decide)), hkept, hname]
  · rw [hkept, hname]

/-- The long type names run into the start, which is written afterwards. -/
theorem start_fillNode (partIn : ℕ) (pe : Slot) (lba : ℕ) (node : Buffer) :
    le32 (fillNode partIn pe lba node) stLbaOffset =
      (lba + pe.startLba) % 2 ^ 32 := by
  rw [fillNode, le32_put32_of_disjoint (Or.inl (by decide))]
  split
  · rw [typeByte_le32 _ _ (Or.inr (by decide)), le32_put32]
  · rw [le32_put32]

/-- What a record says: the number, the start and the size. -/
def describe (node : Buffer) : ℕ × ℕ × ℕ :=
  (le32 node nameOffset, le32 node stLbaOffset, le32 node partSizeOffset)

theorem describe_fillNode (partIn : ℕ) {pe : Slot} (lba : ℕ) (node : Buffer)
    (hsize : pe.numSec < 2 ^ 32) :
    describe (fillNode partIn pe lba node) =
      (partIn % 2 ^ 32, (lba + pe.startLba) % 2 ^ 32, pe.numSec / 2048) := by
  have hpart : le32 (fillNode partIn pe lba node) partSizeOffset =
      pe.numSec / 2048 := by
    rw [fillNode, le32_put32, Nat.mod_eq_of_lt (by omega)]
  rw [describe, number_fillNode, start_fillNode, hpart]

/-- `type_byte` is written for the types with a driver only. -/
theorem typeByte_fillNode (partIn : ℕ) (pe : Slot) (lba : ℕ) (node : Buffer) :
    fillNode partIn pe lba node typeByteOffset =
      if isLinux pe.type || isFat32 pe.type then pe.type
      else node typeByteOffset := by
  have hsize : ∀ b v, put32 b partSizeOffset v typeByteOffset =
      b typeByteOffset := fun b v => putBytes_of_not (Or.inl (by decide))
  have hlba : ∀ b v, put32 b stLbaOffset v typeByteOffset = b typeByteOffset :=
    fun b v => putBytes_of_not (Or.inl (by decide))
  have hnumber : ∀ b v, put32 b nameOffset v typeByteOffset =
      b typeByteOffset := fun b v => putBytes_of_not (Or.inr (by simp; decide))
  simp only [fillNode, hsize]
  split
  · rw [putBytes_of_lt le_rfl (by simp), Nat.sub_self]
    rfl
  · rw [hlba, putTypeName_of_lt _ _ (by decide), hnumber]

/-! ## Appended records -/

/-- The values of the records for entries with the bases of their addresses,
numbered from `n` on. -/
def recordsFrom : ℕ → List (Slot × ℕ) → List (ℕ × ℕ × ℕ)
  | _, [] => []
  | n, (pe, lba) :: entries =>
      (n % 2 ^ 32, (lba + pe.startLba) % 2 ^ 32, pe.numSec / 2048) ::
        recordsFrom (n + 1) entries

theorem recordsFrom_append (n : ℕ) (es es' : List (Slot × ℕ)) :
    recordsFrom n (es ++ es') =
      recordsFrom n es ++ recordsFrom (n + es.length) es' := by
  induction es generalizing n with
  | nil => rfl
  | cons e es ih =>
      simp only [List.cons_append, recordsFrom, ih, List.length_cons]
      rw [show n + 1 + es.length = n + (es.length + 1) by omega]

/-- The records of these entries were appended, and the boot sectors noted. -/
structure Appends (s s' : PartState) (entries : List (Slot × ℕ))
    (booted : List (ℕ × ℕ)) : Prop where
  records : ∃ news, s'.records = s.records ++ news ∧
    news.map describe = recordsFrom s.partIn entries
  partIn : s'.partIn = s.partIn + entries.length
  saved : ∃ news, s'.saved = s.saved ++ news ∧
    news.map (fun e => (e.pe, e.lba)) = entries
  booted : s'.booted = s.booted ++ booted

theorem Appends.refl {s s' : PartState} (hrecords : s'.records = s.records)
    (hpartIn : s'.partIn = s.partIn) (hsaved : s'.saved = s.saved)
    (hbooted : s'.booted = s.booted) : Appends s s' [] [] :=
  ⟨⟨[], by simpa using hrecords, rfl⟩, hpartIn, ⟨[], by simpa using hsaved, rfl⟩,
    by simpa using hbooted⟩

theorem Appends.trans {s s' s'' : PartState} {es es' : List (Slot × ℕ)}
    {bs bs' : List (ℕ × ℕ)} (h : Appends s s' es bs)
    (h' : Appends s' s'' es' bs') : Appends s s'' (es ++ es') (bs ++ bs') := by
  obtain ⟨news, hnews, hvalues⟩ := h.records
  obtain ⟨news', hnews', hvalues'⟩ := h'.records
  obtain ⟨saved, hsaved, hentries⟩ := h.saved
  obtain ⟨saved', hsaved', hentries'⟩ := h'.saved
  refine ⟨⟨news ++ news', ?_, ?_⟩, ?_, ⟨saved ++ saved', ?_, ?_⟩, ?_⟩
  · rw [hnews', hnews, List.append_assoc]
  · rw [List.map_append, hvalues, hvalues', h.partIn, recordsFrom_append]
  · rw [h'.partIn, h.partIn, List.length_append, Nat.add_assoc]
  · rw [hsaved', hsaved, List.append_assoc]
  · rw [List.map_append, hentries, hentries']
  · rw [h'.booted, h.booted, List.append_assoc]

theorem appends_savePartProps {pe : Slot} (lba : ℕ) (s : PartState)
    (hsize : pe.numSec < 2 ^ 32) :
    Appends s (savePartProps pe lba s) [(pe, lba)] [] := by
  refine ⟨⟨_, rfl, ?_⟩, rfl, ⟨_, rfl, rfl⟩, (List.append_nil _).symm⟩
  rw [List.map_singleton, describe_fillNode s.partIn lba s.partTemp hsize]
  rfl

/-! ## What the walks append -/

variable {disk : Disk} {drive : ℕ}

theorem numSec_lt {lba : ℕ} {bs : BootSector}
    (hread : bootAt disk drive lba = some bs) (i : ℕ) :
    (bs.part i).numSec < 2 ^ 32 := by
  obtain ⟨buf, _, rfl⟩ := Option.map_eq_some_iff.mp hread
  exact le32_lt buf _

/-- The first slot of a boot sector. -/
def firstSlot (disk : Disk) (drive lba : ℕ) : Slot :=
  match bootAt disk drive lba with
  | none => ⟨0, 0, 0⟩
  | some bs => bs.part 0

/-- The entries that the boot sectors give. -/
def entriesOf (disk : Disk) (drive : ℕ) (lbas : List ℕ) : List (Slot × ℕ) :=
  lbas.map fun lba => (firstSlot disk drive lba, lba)

def sectorsOf (drive : ℕ) (lbas : List ℕ) : List (ℕ × ℕ) :=
  lbas.map fun lba => (drive, ataLba lba)

theorem appends_visitBoot (s : PartState) (lba : ℕ) :
    Appends s (visitBoot disk drive s lba)
      (entriesOf disk drive ([lba].filter (recorded disk drive)))
      (sectorsOf drive ([lba].filter (recorded disk drive))) := by
  unfold visitBoot
  cases hread : bootAt disk drive lba with
  | none =>
      have hskip : recorded disk drive lba = false := by simp [recorded, hread]
      simp only [List.filter_singleton, hskip, cond_false]
      exact Appends.refl rfl rfl rfl rfl
  | some bs =>
      by_cases hsigned : bs.signature = mbrSignature
      · have hkeep : recorded disk drive lba = true := by
          simp [recorded, hread, hsigned]
        have hentry : entriesOf disk drive [lba] = [(bs.part 0, lba)] := by
          simp [entriesOf, firstSlot, hread]
        simp only [List.filter_singleton, hkeep, cond_true, if_pos hsigned]
        rw [hentry]
        have hsize : (bs.part 0).numSec < 2 ^ 32 := numSec_lt hread 0
        have hsave := appends_savePartProps lba
          { s.dropBlock with
            temp := bs
            booted := s.booted ++ [(drive, ataLba lba)] } hsize
        exact ⟨hsave.records, hsave.partIn, hsave.saved, rfl⟩
      · have hskip : recorded disk drive lba = false := by
          simp [recorded, hread, hsigned]
        simp only [List.filter_singleton, hskip, cond_false,
          if_neg hsigned]
        exact Appends.refl rfl rfl rfl rfl

theorem appends_walk (s : PartState) (lbas : List ℕ) :
    Appends s (lbas.foldl (visitBoot disk drive) s)
      (entriesOf disk drive (lbas.filter (recorded disk drive)))
      (sectorsOf drive (lbas.filter (recorded disk drive))) := by
  induction lbas generalizing s with
  | nil => exact Appends.refl rfl rfl rfl rfl
  | cons lba lbas ih =>
      have hboth := Appends.trans (appends_visitBoot s lba)
        (ih (visitBoot disk drive s lba))
      rw [List.foldl_cons, ← List.singleton_append, List.filter_append]
      simpa only [entriesOf, sectorsOf, List.map_append] using hboth

/-- The entries of the four slots of the MBR. -/
def mbrEntries (mbr : BootSector) : List (Slot × ℕ) :=
  (List.range 4).map fun i => (mbr.part i, 0)

theorem foldl_savePartProps {bs : BootSector} (is : List ℕ) (s : PartState)
    (hsize : ∀ i, (bs.part i).numSec < 2 ^ 32) :
    Appends s (is.foldl (fun s i => savePartProps (bs.part i) 0 s) s)
      (is.map fun i => (bs.part i, 0)) [] ∧
      (is.foldl (fun s i => savePartProps (bs.part i) 0 s) s).bslist =
        s.bslist := by
  induction is generalizing s with
  | nil => exact ⟨Appends.refl rfl rfl rfl rfl, rfl⟩
  | cons i is ih =>
      obtain ⟨hrest, hbslist⟩ := ih (savePartProps (bs.part i) 0 s)
      have hfirst := appends_savePartProps 0 s (hsize i)
      exact ⟨hfirst.trans hrest, hbslist⟩

/-- The state in which the extended slots of a drive are looked for. -/
def beforeExtended (disk : Disk) (drive : ℕ) (s : PartState) : PartState :=
  let s := traversePrimaryPartitions (readMbr disk drive s)
  { s with temp := s.bslist }

theorem scanDrive_eq (fuel : ℕ) (s : PartState) :
    scanDrive disk fuel s drive =
      [0, 1, 2, 3].foldlM (checkIfExtended disk drive fuel)
        (beforeExtended disk drive s) :=
  rfl

theorem beforeExtended_of_signed {mbr : BootSector}
    (hread : bootAt disk drive 0 = some mbr)
    (hsigned : mbr.signature = mbrSignature) (s : PartState) :
    Appends s (beforeExtended disk drive s) (mbrEntries mbr) [] ∧
      (beforeExtended disk drive s).temp = mbr := by
  obtain ⟨buf, hbuf, rfl⟩ := Option.map_eq_some_iff.mp hread
  have hmbr : readMbr disk drive s =
      { s.dropBlock with bslist := bootSectorOf buf } := by
    rw [readMbr, hbuf]
  obtain ⟨happends, hbslist⟩ := foldl_savePartProps (List.range 4)
    { s.dropBlock with bslist := bootSectorOf buf } (numSec_lt hread)
  have hprimary : traversePrimaryPartitions (readMbr disk drive s) =
      (List.range 4).foldl
        (fun s i => savePartProps ((bootSectorOf buf).part i) 0 s)
        { s.dropBlock with bslist := bootSectorOf buf } := by
    rw [hmbr, traversePrimaryPartitions, if_pos hsigned]
  have hstart : Appends s
      { s.dropBlock with bslist := bootSectorOf buf } [] [] :=
    Appends.refl rfl rfl rfl rfl
  unfold beforeExtended
  rw [hprimary]
  refine ⟨?_, hbslist⟩
  exact (hstart.trans happends).trans (Appends.refl rfl rfl rfl rfl)

/-! ## Drives with a signed MBR and sound chains -/

/-- A drive with a signed MBR, and with the numbers of links of its chains,
whose boot sectors can all be read and are signed. -/
structure SoundDrive (disk : Disk) (drive : ℕ) where
  mbr : BootSector
  read : bootAt disk drive 0 = some mbr
  signed : mbr.signature = mbrSignature
  links : ℕ → ℕ
  ends : ∀ i < 4, isExtended (mbr.part i).type = true →
    WalkStops disk drive (mbr.part i).startLba (mbr.part i).startLba (links i)
  sound : ∀ i < 4, isExtended (mbr.part i).type = true →
    ∀ lba ∈ walk disk drive (mbr.part i).startLba (mbr.part i).startLba (links i),
      recorded disk drive lba = true

/-- The chains of the extended slots of the MBR, in the order of the slots. -/
def SoundDrive.chains (d : SoundDrive disk drive) : List (List ℕ) :=
  ((List.range 4).filter fun i => isExtended (d.mbr.part i).type).map fun i =>
    walk disk drive (d.mbr.part i).startLba (d.mbr.part i).startLba (d.links i)

/-- The scan of the drive comes back and has appended the records of the MBR's
slots and, chain by chain, those of the boot sectors of its chains. -/
def SoundDrive.RecordsChains (d : SoundDrive disk drive) (s : PartState) : Prop :=
  ∃ fuel s', scanDrive disk fuel s drive = .ok s' ∧
    ∃ news, s'.records = s.records ++ news ∧
      news.map describe = recordsFrom s.partIn
        (mbrEntries d.mbr ++ entriesOf disk drive d.chains.flatten)

/-- What the records of some entries say besides their numbers. -/
def valuesOf (entries : List (Slot × ℕ)) : List (ℕ × ℕ) :=
  entries.map fun e => ((e.2 + e.1.startLba) % 2 ^ 32, e.1.numSec / 2048)

theorem recordsFrom_inj (n : ℕ) (es es' : List (Slot × ℕ)) :
    recordsFrom n es = recordsFrom n es' ↔ valuesOf es = valuesOf es' := by
  induction es generalizing n es' with
  | nil => cases es' <;> simp [recordsFrom, valuesOf]
  | cons e es ih =>
      cases es' with
      | nil => simp [recordsFrom, valuesOf]
      | cons e' es' =>
          have htail := ih (n + 1) es'
          simp only [valuesOf] at htail
          simp only [recordsFrom, valuesOf, List.map_cons, List.cons.injEq,
            Prod.mk.injEq, true_and, htail]

theorem SoundDrive.appends_walks (d : SoundDrive disk drive) (s : PartState)
    (lbas : List ℕ) :
    ∃ news, (lbas.foldl (visitBoot disk drive)
        (beforeExtended disk drive s)).records = s.records ++ news ∧
      news.map describe = recordsFrom s.partIn (mbrEntries d.mbr ++
        entriesOf disk drive (lbas.filter (recorded disk drive))) :=
  ((beforeExtended_of_signed d.read d.signed s).1.trans
    (appends_walk _ lbas)).records

/-- Walks that stop and give the values of the chains give the records. -/
theorem SoundDrive.recordsChains_of_values (d : SoundDrive disk drive)
    {s : PartState} {walks : List (List ℕ)}
    (hseen : SeenWalks disk drive (beforeExtended disk drive s) [0, 1, 2, 3]
      walks)
    (hsame : valuesOf (entriesOf disk drive
        (walks.flatten.filter (recorded disk drive))) =
      valuesOf (entriesOf disk drive d.chains.flatten)) :
    d.RecordsChains s := by
  obtain ⟨fuel, hscan⟩ := hseen.scan
  obtain ⟨news, hnews, hvalues⟩ := d.appends_walks s walks.flatten
  refine ⟨fuel, _, hscan fuel le_rfl, news, hnews, ?_⟩
  rw [hvalues, recordsFrom_append, recordsFrom_append,
    List.append_cancel_left_eq, recordsFrom_inj]
  exact hsame

theorem SoundDrive.values_of_recordsChains (d : SoundDrive disk drive)
    {s : PartState} (hrecords : d.RecordsChains s) :
    ∃ walks, SeenWalks disk drive (beforeExtended disk drive s) [0, 1, 2, 3]
        walks ∧
      valuesOf (entriesOf disk drive
          (walks.flatten.filter (recorded disk drive))) =
        valuesOf (entriesOf disk drive d.chains.flatten) := by
  obtain ⟨fuel, s', hscan, news, hnews, hvalues⟩ := hrecords
  rw [scanDrive_eq] at hscan
  obtain ⟨walks, hseen, rfl⟩ := seenWalks_of_scan hscan
  obtain ⟨news', hnews', hvalues'⟩ := d.appends_walks s walks.flatten
  obtain rfl := List.append_cancel_left (hnews.symm.trans hnews')
  rw [hvalues', recordsFrom_append, recordsFrom_append,
    List.append_cancel_left_eq, recordsFrom_inj] at hvalues
  exact ⟨walks, hseen, hvalues⟩

/-! ## The slots of the MBR behind a chain -/

/-- Both slots are of no extended type, or both are and have the same start. -/
def SameExtended (pe pe' : Slot) : Prop :=
  isExtended pe.type = isExtended pe'.type ∧
    (isExtended pe'.type = true → pe.startLba = pe'.startLba)

/-- Up to the next extended slot of the MBR, the last boot sector of a chain has the slots
that the MBR has, as far as extended partitions go. -/
def SoundDrive.Agrees (d : SoundDrive disk drive) : Prop :=
  ∀ i j, i < j → j < 4 → isExtended (d.mbr.part i).type = true →
    (∀ k, i < k → k < j → isExtended (d.mbr.part k).type = false) →
    ∀ last bs, (walk disk drive (d.mbr.part i).startLba (d.mbr.part i).startLba
        (d.links i)).getLast? = some last →
      bootAt disk drive last = some bs → SameExtended (bs.part j) (d.mbr.part j)

/-- The chains of the extended slots from slot `i` on. -/
def SoundDrive.chainsFrom (d : SoundDrive disk drive) (i : ℕ) : List (List ℕ) :=
  ((List.range' i (4 - i)).filter fun j => isExtended (d.mbr.part j).type).map fun j =>
    walk disk drive (d.mbr.part j).startLba (d.mbr.part j).startLba (d.links j)

theorem range'_succ_of_lt {i n : ℕ} (hi : i < n) :
    List.range' i (n - i) = i :: List.range' (i + 1) (n - (i + 1)) := by
  obtain ⟨k, rfl⟩ : ∃ k, n = i + 1 + k := ⟨n - (i + 1), by omega⟩
  rw [show i + 1 + k - i = k + 1 by omega, Nat.add_sub_cancel_left, List.range'_succ]

theorem exists_bootAt_of_recorded {lba : ℕ} (hrecorded : recorded disk drive lba = true) :
    ∃ bs, bootAt disk drive lba = some bs := by
  unfold recorded at hrecorded
  cases hread : bootAt disk drive lba with
  | none => simp [hread] at hrecorded
  | some bs => exact ⟨bs, rfl⟩

/-- From a boot sector whose slots are as good as those of the MBR, the walks are the
chains. -/
theorem SoundDrive.Agrees.seenWalks {d : SoundDrive disk drive} (hagrees : d.Agrees) {i : ℕ}
    (hi : i ≤ 4) {s : PartState}
    (hsame : ∀ j, i ≤ j → j < 4 →
      (∀ k, i ≤ k → k < j → isExtended (d.mbr.part k).type = false) →
      SameExtended (s.temp.part j) (d.mbr.part j)) :
    SeenWalks disk drive s (List.range' i (4 - i)) (d.chainsFrom i) := by
  obtain ⟨n, hn⟩ : ∃ n, 4 = i + n := ⟨4 - i, by omega⟩
  induction n generalizing i s with
  | zero =>
      obtain rfl : i = 4 := hn.symm
      exact .done s
  | succ n ih =>
      have hlt : i < 4 := by omega
      obtain ⟨htype, hstart⟩ := hsame i le_rfl hlt fun k hk hki => absurd hki (by omega)
      rw [SoundDrive.chainsFrom, range'_succ_of_lt hlt, List.filter_cons]
      cases hslot : isExtended (d.mbr.part i).type with
      | false =>
          rw [if_neg Bool.false_ne_true]
          refine .skip (htype.trans hslot) (ih (by omega) (fun j hj hj4 hbetween => ?_)
            (by omega))
          refine hsame j (by omega) hj4 fun k hk hkj => ?_
          rcases Nat.eq_or_lt_of_le hk with rfl | hk
          · exact hslot
          · exact hbetween k hk hkj
      | true =>
          rw [if_pos rfl, List.map_cons]
          refine .follow_from (htype.trans hslot) (hstart hslot) (d.ends i hlt hslot)
            (ih (by omega) (fun j hj hj4 hbetween => ?_) (by omega))
          obtain ⟨last, hlast⟩ : ∃ last, (walk disk drive (d.mbr.part i).startLba
              (d.mbr.part i).startLba (d.links i)).getLast? = some last :=
            ⟨_, List.getLast?_eq_getLast_of_ne_nil (List.cons_ne_nil _ _)⟩
          obtain ⟨bs, hread⟩ := exists_bootAt_of_recorded
            (d.sound i hlt hslot last (List.mem_of_getLast? hlast))
          rw [temp_walk s hlast hread]
          exact hagrees i j (by omega) hj4 hslot (fun k hk hkj => hbetween k hk hkj)
            last bs hlast hread

/-- While the boot sectors that `temp` is left on agree with the MBR, the records are those
of the MBR and of its chains. -/
theorem SoundDrive.recordsChains_of_agrees (d : SoundDrive disk drive) (s : PartState)
    (hagrees : d.Agrees) : d.RecordsChains s := by
  obtain ⟨_, htemp⟩ := beforeExtended_of_signed d.read d.signed s
  have hseen : SeenWalks disk drive (beforeExtended disk drive s) [0, 1, 2, 3] d.chains :=
    hagrees.seenWalks (Nat.zero_le 4) fun j _ _ _ => by
      rw [htemp]
      exact ⟨rfl, fun _ => rfl⟩
  refine d.recordsChains_of_values hseen ?_
  rw [List.filter_eq_self.mpr]
  intro lba hlba
  obtain ⟨w, hw, hmem⟩ := List.mem_flatten.mp hlba
  obtain ⟨i, hi, rfl⟩ := List.mem_map.mp hw
  obtain ⟨hrange, hslot⟩ := List.mem_filter.mp hi
  exact d.sound i (List.mem_range.mp hrange) hslot lba hmem

/-! ## Two extended slots -/

/-- Signed sectors with tables of types, starts and sizes. -/
def tableDisk (table : ℕ → List (ℕ × ℕ × ℕ)) : Disk where
  readable := fun _ _ => true
  byte := fun _ n o =>
    if o = 510 then 0x55 else if o = 511 then 0xAA
    else if o < 446 then 0
    else
      let e := (table n).getD ((o - 446) / 16) (0, 0, 0)
      let r := (o - 446) % 16
      if r = 4 then UInt8.ofNat e.1
      else if r < 8 then 0
      else if r < 12 then UInt8.ofNat (e.2.1 / 256 ^ (r - 8))
      else UInt8.ofNat (e.2.2 / 256 ^ (r - 12))

def tableSector (table : ℕ → List (ℕ × ℕ × ℕ)) (n : ℕ) : BootSector :=
  bootSectorOf fun o => if o < 512 then (tableDisk table).byte 0 n o else 0

theorem bootAt_tableDisk (table : ℕ → List (ℕ × ℕ × ℕ)) {n : ℕ}
    (hn : n < 2 ^ 28) :
    bootAt (tableDisk table) 0 n = some (tableSector table n) := by
  rw [bootAt, readDiskSector_of_readable (fun _ => 0) fun _ _ => rfl,
    Option.map_some, ataLba_of_lt hn, tableSector]
  congr 2
  funext o
  by_cases ho : o < 512
  · simp only [Nat.mul_one, if_pos ho, Nat.div_eq_of_lt ho, Nat.mod_eq_of_lt ho,
      Nat.add_zero]
  · simp only [Nat.mul_one, if_neg ho]

/-- A heap whose blocks are full of a byte. -/
def heapOf (c : UInt8) : PartState where
  partIn := 0
  records := []
  partTemp := fun _ => 0
  fresh := fun _ _ => c
  currentLba := 0
  bslist := ⟨fun _ => ⟨0, 0, 0⟩, 0⟩
  temp := ⟨fun _ => ⟨0, 0, 0⟩, 0⟩
  saved := []
  booted := []

/-- The slots 0 and 2 are extended.  The first chain has two boot sectors, in the sectors 10
and 15, of which the last one has the MBR's slot 2 again. -/
def twoAgreeing (n : ℕ) : List (ℕ × ℕ × ℕ) :=
  if n = 0 then [(5, 10, 8192), (0x83, 63, 2048), (5, 20, 4096)]
  else if n = 10 then [(0x83, 1, 2048), (5, 5, 2048)]
  else if n = 15 then [(0x0B, 1, 4096), (0, 0, 0), (5, 20, 4096)]
  else [(0x83, 2, 2048)]

theorem twoAgreeing_boots {n : ℕ} (hn : n < 2 ^ 28) :
    bootAt (tableDisk twoAgreeing) 0 n = some (tableSector twoAgreeing n) :=
  bootAt_tableDisk twoAgreeing hn

theorem twoAgreeing_recorded {n : ℕ} (hn : n < 2 ^ 28) :
    recorded (tableDisk twoAgreeing) 0 n = true := by
  have hsigned : (tableSector twoAgreeing n).signature = mbrSignature := by
    simp [tableSector, bootSectorOf, tableDisk, le16, mbrSignature]
  rw [recorded, twoAgreeing_boots hn]
  exact beq_iff_eq.mpr hsigned

theorem twoAgreeing_first :
    WalkStops (tableDisk twoAgreeing) 0 10 10 1 ∧
      walk (tableDisk twoAgreeing) 0 10 10 1 = [10, 15] := by
  have hread : bootAt (tableDisk twoAgreeing) 0 10 = _ := twoAgreeing_boots (by norm_num)
  have hlast : bootAt (tableDisk twoAgreeing) 0 15 = _ := twoAgreeing_boots (by norm_num)
  have hlink : linkOf (tableDisk twoAgreeing) 0 10 10 = 15 := by
    rw [linkOf, hread]
    decide +kernel
  refine ⟨ChainWalk.endsAt_succ_iff.mpr ⟨fun hstop => ?_, ?_⟩, ?_⟩
  · have hzero := hstop _ hread (by decide +kernel)
    revert hzero
    decide +kernel
  · rw [hlink]
    refine ChainWalk.endsAt_zero_iff.mpr fun bs hbs _ => ?_
    rw [hlast, Option.some.injEq] at hbs
    rw [← hbs]
    decide +kernel
  · rw [walk, List.iterate, List.iterate, hlink]
    rfl

theorem twoAgreeing_second : WalkStops (tableDisk twoAgreeing) 0 20 20 0 := by
  refine ChainWalk.endsAt_zero_iff.mpr fun bs hbs _ => ?_
  rw [twoAgreeing_boots (by norm_num), Option.some.injEq] at hbs
  rw [← hbs]
  decide +kernel

/-- The slots of the MBR: the two that are extended, and their starts. -/
theorem twoAgreeing_slots {i : ℕ} (hi : i < 4)
    (hslot : isExtended ((tableSector twoAgreeing 0).part i).type = true) :
    i = 0 ∧ ((tableSector twoAgreeing 0).part i).startLba = 10 ∨
      i = 2 ∧ ((tableSector twoAgreeing 0).part i).startLba = 20 := by
  have hall : ∀ i < 4, isExtended ((tableSector twoAgreeing 0).part i).type = true →
      i = 0 ∧ ((tableSector twoAgreeing 0).part i).startLba = 10 ∨
        i = 2 ∧ ((tableSector twoAgreeing 0).part i).startLba = 20 := by
    decide +kernel
  exact hall i hi hslot

def twoAgreeingDrive : SoundDrive (tableDisk twoAgreeing) 0 where
  mbr := tableSector twoAgreeing 0
  read := twoAgreeing_boots (by norm_num)
  signed := by decide +kernel
  links := fun i => if i = 0 then 1 else 0
  ends := by
    intro i hi hslot
    rcases twoAgreeing_slots hi hslot with ⟨rfl, hstart⟩ | ⟨rfl, hstart⟩ <;> rw [hstart]
    · exact twoAgreeing_first.1
    · exact twoAgreeing_second
  sound := by
    intro i hi hslot lba hlba
    rcases twoAgreeing_slots hi hslot with ⟨rfl, hstart⟩ | ⟨rfl, hstart⟩ <;>
      rw [hstart] at hlba
    · rw [show (if 0 = 0 then 1 else 0) = 1 from rfl, twoAgreeing_first.2] at hlba
      rcases List.mem_pair.mp hlba with rfl | rfl <;>
        exact twoAgreeing_recorded (by norm_num)
    · obtain rfl := List.mem_singleton.mp hlba
      exact twoAgreeing_recorded (by norm_num)

theorem recordsChains_of_agrees_two : twoAgreeingDrive.RecordsChains (heapOf 5) := by
  refine twoAgreeingDrive.recordsChains_of_agrees (heapOf 5) ?_
  intro i j hij hj hslot _ last bs hlast hread
  rcases twoAgreeing_slots (hij.trans hj) hslot with ⟨rfl, hstart⟩ | ⟨rfl, hstart⟩
  · rw [show twoAgreeingDrive.mbr = tableSector twoAgreeing 0 from rfl, hstart,
      show twoAgreeingDrive.links 0 = 1 from rfl, twoAgreeing_first.2] at hlast
    obtain rfl : 15 = last := Option.some.inj hlast
    rw [twoAgreeing_boots (by norm_num), Option.some.injEq] at hread
    rw [← hread]
    have hall : ∀ j < 4, 0 < j → SameExtended ((tableSector twoAgreeing 15).part j)
        ((tableSector twoAgreeing 0).part j) := by
      unfold SameExtended
      decide +kernel
    exact hall j hj hij
  · rw [show twoAgreeingDrive.mbr = tableSector twoAgreeing 0 from rfl, hstart,
      show twoAgreeingDrive.links 2 = 0 from rfl, walk_zero] at hlast
    obtain rfl : 20 = last := Option.some.inj hlast
    rw [twoAgreeing_boots (by norm_num), Option.some.injEq] at hread
    rw [← hread]
    have hall : ∀ j < 4, 2 < j → SameExtended ((tableSector twoAgreeing 20).part j)
        ((tableSector twoAgreeing 0).part j) := by
      unfold SameExtended
      decide +kernel
    exact hall j hj hij

/-- The slots 0 and 1 are extended, with one boot sector each. -/
def twoExtended (n : ℕ) : List (ℕ × ℕ × ℕ) :=
  if n = 0 then [(5, 10, 2048), (5, 20, 2048)] else [(0x83, 1, 2048)]

theorem twoExtended_stops {n : ℕ} (hn : n < 2 ^ 28)
    (hlast : ((tableSector twoExtended n).part 1).type = 0) (extlba : ℕ) :
    WalkStops (tableDisk twoExtended) 0 extlba n 0 := by
  refine ChainWalk.endsAt_zero_iff.mpr fun bs hbs _ => ?_
  rw [bootAt_tableDisk twoExtended hn, Option.some.injEq] at hbs
  rw [← hbs]
  exact hlast

def twoExtendedDrive : SoundDrive (tableDisk twoExtended) 0 where
  mbr := tableSector twoExtended 0
  read := bootAt_tableDisk twoExtended (by norm_num)
  signed := by decide +kernel
  links := fun _ => 0
  ends := by
    intro i hi hslot
    have hstart : ∀ i < 4,
        isExtended ((tableSector twoExtended 0).part i).type = true →
        ((tableSector twoExtended 0).part i).startLba < 2 ^ 28 ∧
          ((tableSector twoExtended ((tableSector twoExtended 0).part
            i).startLba).part 1).type = 0 := by
      decide +kernel
    obtain ⟨hsmall, hlast⟩ := hstart i hi hslot
    exact twoExtended_stops hsmall hlast _
  sound := by
    intro i hi hslot lba hlba
    have hstart : ∀ i < 4,
        isExtended ((tableSector twoExtended 0).part i).type = true →
        recorded (tableDisk twoExtended) 0
          ((tableSector twoExtended 0).part i).startLba = true := by
      decide +kernel
    obtain rfl := List.mem_singleton.mp hlba
    exact hstart i hi hslot

/-- The scan has gone on to the slots of sector 10 when it comes to slot 1, and
misses the chain of sector 20. -/
theorem twoExtended_not_recordsChains (s : PartState) :
    ¬twoExtendedDrive.RecordsChains s := by
  intro hrecords
  obtain ⟨walks, hseen, hsame⟩ := twoExtendedDrive.values_of_recordsChains hrecords
  obtain ⟨start, hstart⟩ :
      ∃ p, p = beforeExtended (tableDisk twoExtended) 0 s := ⟨_, rfl⟩
  have htemp : start.temp = tableSector twoExtended 0 := by
    rw [hstart]
    exact (beforeExtended_of_signed twoExtendedDrive.read
      twoExtendedDrive.signed s).2
  rw [← hstart] at hseen
  have hfirst : isExtended (start.temp.part 0).type = true := by
    rw [htemp]
    decide +kernel
  have hlba : (start.temp.part 0).startLba = 10 := by
    rw [htemp]
    decide +kernel
  have hstops : WalkStops (tableDisk twoExtended) 0 10 10 0 :=
    twoExtended_stops (by norm_num) (by decide +kernel) 10
  have hread : bootAt (tableDisk twoExtended) 0 10 =
      some (tableSector twoExtended 10) :=
    bootAt_tableDisk twoExtended (by norm_num)
  have hmoved : ([10].foldl (visitBoot (tableDisk twoExtended) 0) start).temp =
      tableSector twoExtended 10 := temp_walk start rfl hread
  have hslots : ∀ i ∈ [1, 2, 3], isExtended
      (([10].foldl (visitBoot (tableDisk twoExtended) 0) start).temp.part
        i).type = false := by
    rw [hmoved]
    decide +kernel
  have hrest : SeenWalks (tableDisk twoExtended) 0
      ([10].foldl (visitBoot (tableDisk twoExtended) 0) start) [1, 2, 3] [] :=
    .skip_all hslots (.done _)
  rw [← walk_zero 10 10] at hrest
  have hpath : SeenWalks (tableDisk twoExtended) 0 start [0, 1, 2, 3]
      [walk (tableDisk twoExtended) 0 10 10 0] :=
    .follow_from hfirst hlba hstops hrest
  rw [walk_zero] at hpath
  obtain rfl := hseen.unique hpath
  revert hsame
  decide +kernel

theorem second_chain_missed : ¬twoExtendedDrive.RecordsChains (heapOf 0) :=
  twoExtended_not_recordsChains (heapOf 0)

end Partition
end Janus86
