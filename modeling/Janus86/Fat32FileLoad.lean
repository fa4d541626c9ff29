import Janus86.ChunkStores
import Janus86.Fat32Model

/-!
# What load_fat32 stores

The loop of `fat32_mmap` is bounded by the size of the file and not by the
size of a cluster: the first call alone stores as many sectors as the file
has, one behind the other from the first cluster on.  The calls that follow
the chain store behind the end of the file, at addresses of 32 bits, where what
the driver itself uses can lie.
-/

namespace Janus86
namespace Fat32

open ChunkStores

def sectorReadable (vol : Volume) (g : Globals) (cluster k : ℕ) : Bool :=
  vol.disk.readable vol.drive (ataLba (clusterSector vol g cluster k))

def sectorBytes (vol : Volume) (g : Globals) (cluster k : ℕ) : Buffer :=
  vol.sector (clusterSector vol g cluster k)

/-- The entry of a cluster in the FAT. -/
def fatEntry (vol : Volume) (g : Globals) (cluster : ℕ) : ℕ :=
  le32 (vol.sector (g.fatBeginLba + cluster / cluPerFat))
    (4 * (cluster % cluPerFat))

/-- The link in it: the highest 4 bits are reserved. -/
def fatLink (vol : Volume) (g : Globals) (cluster : ℕ) : ℕ :=
  fatEntry vol g cluster % 2 ^ 28

/-- A regular file with a well-formed chain, on sectors that can be read. -/
structure FatFile (vol : Volume) (g : Globals) where
  chain : List ℕ
  size : ℕ
  size_lt : size < 2 ^ 32
  nodup : chain.Nodup
  linked : chain.IsChain fun a b => fatLink vol g a = b
  ended : ∀ last ∈ chain.getLast?, 0x0FFFFFF8 ≤ fatLink vol g last
  long : size ≤ 512 * g.sectorsPerCluster * chain.length
  readable : ∀ cluster ∈ chain, ∀ k < g.sectorsPerCluster,
    sectorReadable vol g cluster k = true

variable {vol : Volume} {g : Globals}

/-- The cluster in the directory entry: 0 for a file without clusters. -/
def FatFile.start (file : FatFile vol g) : ℕ := file.chain.headD 0

/-- Byte `p` of the file. -/
def FatFile.byte (file : FatFile vol g) (p : ℕ) : UInt8 :=
  sectorBytes vol g (file.chain.getD (p / 512 / g.sectorsPerCluster) 0)
    (p / 512 % g.sectorsPerCluster) (p % 512)

/-- The driver finds the file under the name, as a file that is no
directory. -/
def FatFile.ListedAs (file : FatFile vol g) (stack : Stack) (cluster : ℕ)
    (g₀ : Globals) (fresh : List FreshBlock) (name : List UInt8) : Prop :=
  ∃ listed node, initFat32 vol stack cluster g₀ fresh = .ok listed ∧
    listed.globals = g ∧ findName name listed.search = some node ∧
    node.start = file.start ∧ node.size = file.size ∧
    node.fileType ≠ directory

/-- After the call the bytes at the destination are those of the file, and nothing
has been stored into the memory that the driver uses. -/
def FatFile.Loads (file : FatFile vol g) (used : Set ℕ) (stack : Stack) (cluster : ℕ)
    (g₀ : Globals) (fresh : List FreshBlock) (name : List UInt8)
    (loadMem block : ℕ) : Prop :=
  ∃ load, loadFat32 vol stack cluster g₀ fresh name loadMem block = .ok load ∧
    load.reply = destination loadMem block ∧
    (∀ s ∈ wrapped (chunkStores 512 load.reply load.chunks), s.1 ∉ used) ∧
    ∀ mem, ∀ p < file.size,
      applyStores mem (wrapped (chunkStores 512 load.reply load.chunks))
        ((load.reply + p) % 2 ^ 32) = file.byte p

/-- The sectors from the first one of the file on hold its bytes. -/
def FatFile.Contiguous (file : FatFile vol g) : Prop :=
  ∀ p < file.size, sectorReadable vol g file.start (p / 512) = true ∧
    sectorBytes vol g file.start (p / 512) (p % 512) = file.byte p

/-- A call of `fat32_mmap` that does not go on to another cluster. -/
def StopsAt (vol : Volume) (g : Globals) (cluster : ℕ) (size : ℤ) : Prop :=
  isError (fat32RdFAT vol g cluster) = true ∨ fat32RdFAT vol g cluster = 0 ∨
    ∃ k < mmapSectors size, sectorReadable vol g cluster k = false

/-- One of the calls stops before the size leaves the range of an `int`. -/
def WalkEnds (vol : Volume) (g : Globals) (cluster : ℕ) (size : ℤ) : Prop :=
  ∃ i : ℕ, intMin ≤ size - 512 * i - 1 ∧
    StopsAt vol g ((fat32RdFAT vol g)^[i] cluster) (size - 512 * i)

/-- Where a call of `fat32_mmap` and those that follow it store: as many sectors as
the size has from `loc` on, and the next call behind them. -/
inductive StoredAt (vol : Volume) (g : Globals) : ℕ → ℕ → ℤ → ℕ → Prop
  | here {loc cluster : ℕ} {size : ℤ} {k o : ℕ} (turn : k < mmapSectors size)
      (readable : ∀ j ≤ k, sectorReadable vol g cluster j = true) (inside : o < 512) :
      StoredAt vol g loc cluster size (loc + (512 * k + o))
  | next {loc cluster : ℕ} {size : ℤ} {a : ℕ} (goes : ¬ StopsAt vol g cluster size)
      (rest : StoredAt vol g (loc + 512 * mmapSectors size) (fat32RdFAT vol g cluster)
        (size - 512) a) : StoredAt vol g loc cluster size a

/-- No address that is stored to is one that the driver uses. -/
def FatFile.Clear (file : FatFile vol g) (used : Set ℕ) (loc : ℕ) : Prop :=
  ∀ a, StoredAt vol g loc file.start file.size a → a % 2 ^ 32 ∉ used

/-! ## The entry of a cluster -/

theorem fat32RdFAT_of_readable {cluster : ℕ}
    (hread : vol.disk.readable vol.drive
      (ataLba ((g.fatBeginLba + cluster / cluPerFat) % 2 ^ 32)) = true) :
    fat32RdFAT vol g cluster =
      if fatEntry vol g cluster = fatEofMarker then 0
      else fatEntry vol g cluster := by
  have hlba : ataLba ((g.fatBeginLba + cluster / cluPerFat) % 2 ^ 32) =
      ataLba (g.fatBeginLba + cluster / cluPerFat) :=
    Nat.mod_mod_of_dvd _ (by decide)
  obtain ⟨fat, hfat, hbytes⟩ := readDiskSector_one (fun _ => 0) hread
  have hmod : cluster % cluPerFat < 128 := Nat.mod_lt _ (by decide)
  have hentry : le32 fat (4 * (cluster % cluPerFat)) = fatEntry vol g cluster := by
    apply le32_congr
    intro o _ ho
    rw [hbytes o (by omega), hlba]
    rfl
  rw [fat32RdFAT, hfat]
  simp only [hentry]

/-! ## The copy loop -/

theorem readClusterSector_eq (vol : Volume) (g : Globals) (cluster k : ℕ) (buf : Buffer) :
    readClusterSector vol g cluster k buf =
        none ∧ sectorReadable vol g cluster k = false ∨
      ∃ buf', readClusterSector vol g cluster k buf = some buf' ∧
        sectorReadable vol g cluster k = true ∧
        ∀ o < 512, buf' o = sectorBytes vol g cluster k o := by
  cases hread : sectorReadable vol g cluster k with
  | false => exact Or.inl ⟨readDiskSector_one_eq_none buf hread, rfl⟩
  | true =>
      obtain ⟨buf', hok, hbytes⟩ := readDiskSector_one buf hread
      exact Or.inr ⟨buf', hok, rfl, hbytes⟩

/-- What a copy loop of `n` turns stores from sector `k` on. -/
structure CopiedSectors (vol : Volume) (g : Globals) (cluster n k : ℕ)
    (r : List Buffer × Bool) : Prop where
  length_le : r.1.length ≤ n
  bytes : ∀ j chunk, r.1[j]? = some chunk →
    sectorReadable vol g cluster (k + j) = true ∧
      ∀ o < 512, chunk o = sectorBytes vol g cluster (k + j) o
  finished : r.2 = true → r.1.length = n
  stopped : r.2 = false → r.1.length < n ∧
    sectorReadable vol g cluster (k + r.1.length) = false

theorem mmapCopy_copied (vol : Volume) (g : Globals) (cluster n k : ℕ) :
    CopiedSectors vol g cluster n k (mmapCopy vol g cluster n k) := by
  induction n generalizing k with
  | zero => exact ⟨by simp [mmapCopy], by simp [mmapCopy], by simp [mmapCopy],
      by simp [mmapCopy]⟩
  | succ n ih =>
      rw [mmapCopy]
      rcases readClusterSector_eq vol g cluster k (fun _ => 0) with
        ⟨hnone, hread⟩ | ⟨buf, hsome, hread, hbytes⟩
      · rw [hnone]
        exact ⟨by simp, by simp, by simp, fun _ => ⟨by simp, hread⟩⟩
      · rw [hsome]
        obtain ⟨hle, hrest, hfinished, hstopped⟩ := ih (k + 1)
        refine ⟨by simpa using hle, ?_, ?_, ?_⟩
        · intro j chunk hchunk
          cases j with
          | zero =>
              simp only [List.getElem?_cons_zero, Option.some.injEq] at hchunk
              subst hchunk
              exact ⟨hread, hbytes⟩
          | succ j =>
              have hadd : k + (j + 1) = k + 1 + j := by omega
              rw [hadd]
              exact hrest j chunk (by simpa using hchunk)
        · intro hdone
          simpa using hfinished hdone
        · intro hdone
          obtain ⟨hlt, hunread⟩ := hstopped hdone
          refine ⟨by simpa using hlt, ?_⟩
          rw [← hunread]
          simp only [List.length_cons]
          congr 1
          omega

theorem mmapCopy_eq_false_iff (cluster n : ℕ) :
    (mmapCopy vol g cluster n 0).2 = false ↔
      ∃ k < n, sectorReadable vol g cluster k = false := by
  have hcopied := mmapCopy_copied vol g cluster n 0
  constructor
  · intro hdone
    obtain ⟨hlt, hunread⟩ := hcopied.stopped hdone
    rw [Nat.zero_add] at hunread
    exact ⟨_, hlt, hunread⟩
  · rintro ⟨k, hk, hunread⟩
    by_contra hdone
    have hlen := hcopied.finished (by simpa using hdone)
    have hget := hcopied.bytes k
      ((mmapCopy vol g cluster n 0).1.get ⟨k, by omega⟩) (by simp)
    rw [Nat.zero_add, hunread] at hget
    exact absurd hget.1 (by simp)

/-! ## The number of turns -/

theorem mmapSectors_of_nonpos {size : ℤ} (hsize : size ≤ 0)
    (hge : -510 ≤ size) : mmapSectors size = 1 := by
  have hneg : size - 1 = -(1 - size) := by ring
  unfold mmapSectors
  rw [hneg, Int.neg_tdiv, Int.tdiv_eq_ediv_of_nonneg (by omega)]
  omega

/-- For an empty file the loop makes one turn, too. -/
theorem mmapSectors_natCast (n : ℕ) : mmapSectors n = (n - 1) / 512 + 1 := by
  rcases Nat.eq_zero_or_pos n with rfl | hpos
  · exact mmapSectors_of_nonpos (by simp) (by simp)
  · have hnat : ((n : ℤ) - 1) = ((n - 1 : ℕ) : ℤ) := by omega
    unfold mmapSectors
    rw [hnat, Int.tdiv_eq_ediv_of_nonneg (by omega)]
    omega

theorem mmapSectors_eq_zero {size : ℤ} (hsize : size < -510) :
    mmapSectors size = 0 := by
  have hneg : size - 1 = -(1 - size) := by ring
  unfold mmapSectors
  rw [hneg, Int.neg_tdiv, Int.tdiv_eq_ediv_of_nonneg (by omega)]
  omega

/-! ## The calls along the chain -/

theorem fat32Mmap_succ (fuel cluster : ℕ) (size : ℤ) (hmin : intMin ≤ size - 1) :
    fat32Mmap vol g (fuel + 1) cluster size =
      if (mmapCopy vol g cluster (mmapSectors size) 0).2 = false ∨
          isError (fat32RdFAT vol g cluster) = true ∨
          fat32RdFAT vol g cluster = 0 then
        .ok (mmapCopy vol g cluster (mmapSectors size) 0).1
      else if size - 512 < intMin then .error .signedOverflow
      else fat32Mmap vol g fuel (fat32RdFAT vol g cluster) (size - 512) >>=
        fun more =>
          .ok ((mmapCopy vol g cluster (mmapSectors size) 0).1 ++ more) := by
  rw [fat32Mmap, if_neg (by omega)]
  cases hcopy : mmapCopy vol g cluster (mmapSectors size) 0 with
  | mk chunks done =>
      cases done with
      | false => simp
      | true =>
          cases herror : isError (fat32RdFAT vol g cluster) with
          | true => simp [herror]
          | false => simp [herror]; rfl

theorem stopsAt_iff (cluster : ℕ) (size : ℤ) :
    StopsAt vol g cluster size ↔
      (mmapCopy vol g cluster (mmapSectors size) 0).2 = false ∨
        isError (fat32RdFAT vol g cluster) = true ∨
        fat32RdFAT vol g cluster = 0 := by
  rw [StopsAt, mmapCopy_eq_false_iff, ← or_assoc, or_comm]

/-- The chunks of the first call come first, and they are the only ones when
one of its sectors cannot be read. -/
theorem fat32Mmap_ok {fuel cluster : ℕ} {size : ℤ} {chunks : List Buffer}
    (hok : fat32Mmap vol g fuel cluster size = .ok chunks) :
    ∃ n more, fuel = n + 1 ∧
      chunks = (mmapCopy vol g cluster (mmapSectors size) 0).1 ++ more ∧
      (StopsAt vol g cluster size → more = []) ∧
      (¬ StopsAt vol g cluster size →
        fat32Mmap vol g n (fat32RdFAT vol g cluster) (size - 512) = .ok more) := by
  cases fuel with
  | zero => cases hok
  | succ fuel =>
      by_cases hmin : intMin ≤ size - 1
      · rw [fat32Mmap_succ fuel cluster size hmin] at hok
        rw [stopsAt_iff]
        split at hok
        · next hstop =>
            cases hok
            exact ⟨fuel, [], rfl, by simp, fun _ => rfl, fun h => absurd hstop h⟩
        · next hgo =>
            split at hok
            · cases hok
            · obtain ⟨more, hmore, hok⟩ := bind_eq_ok_iff.mp hok
              cases hok
              exact ⟨fuel, more, rfl, rfl, fun h => absurd h hgo, fun _ => hmore⟩
      · rw [fat32Mmap, if_pos (by omega)] at hok
        cases hok

theorem fat32Mmap_eq_nil {fuel cluster : ℕ} {size : ℤ} {chunks : List Buffer}
    (hok : fat32Mmap vol g fuel cluster size = .ok chunks)
    (hsize : size < -510) : chunks = [] := by
  induction fuel generalizing cluster size chunks with
  | zero => cases hok
  | succ fuel ih =>
      have hmin : intMin ≤ size - 1 := by
        by_contra hlt
        rw [fat32Mmap, if_pos (by omega)] at hok
        cases hok
      have hnone : (mmapCopy vol g cluster (mmapSectors size) 0).1 = [] := by
        rw [mmapSectors_eq_zero hsize]
        rfl
      rw [fat32Mmap_succ fuel cluster size hmin, hnone] at hok
      split at hok
      · cases hok
        rfl
      · split at hok
        · cases hok
        · obtain ⟨more, hmore, hok⟩ := bind_eq_ok_iff.mp hok
          cases hok
          exact ih hmore (by omega)

theorem fat32Mmap_returns_iff {fuel cluster : ℕ} {size : ℤ}
    (hfuel : size - intMin < 512 * fuel) :
    (∃ chunks, fat32Mmap vol g fuel cluster size = .ok chunks) ↔
      WalkEnds vol g cluster size := by
  induction fuel generalizing cluster size with
  | zero =>
      constructor
      · rintro ⟨_, hok⟩
        cases hok
      · rintro ⟨i, hmin, _⟩
        omega
  | succ fuel ih =>
      by_cases hmin : intMin ≤ size - 1
      · rw [fat32Mmap_succ fuel cluster size hmin]
        by_cases hstop : StopsAt vol g cluster size
        · rw [if_pos ((stopsAt_iff cluster size).mp hstop)]
          refine ⟨fun _ => ⟨0, by simpa using hmin, by simpa using hstop⟩,
            fun _ => ⟨_, rfl⟩⟩
        · rw [if_neg (fun h => hstop ((stopsAt_iff cluster size).mpr h))]
          have hnext : WalkEnds vol g cluster size ↔
              WalkEnds vol g (fat32RdFAT vol g cluster) (size - 512) := by
            constructor
            · rintro ⟨i, hi, hstops⟩
              cases i with
              | zero => exact absurd (by simpa using hstops) hstop
              | succ i =>
                  rw [Function.iterate_succ_apply] at hstops
                  have hsub : size - 512 * ((i + 1 : ℕ) : ℤ) =
                      size - 512 - 512 * i := by push_cast; ring
                  rw [hsub] at hi hstops
                  exact ⟨i, hi, hstops⟩
            · rintro ⟨i, hi, hstops⟩
              have hsub : size - 512 * ((i + 1 : ℕ) : ℤ) =
                  size - 512 - 512 * i := by push_cast; ring
              refine ⟨i + 1, by rw [hsub]; exact hi, ?_⟩
              rw [Function.iterate_succ_apply, hsub]
              exact hstops
          rw [hnext]
          split
          · next hlow =>
              constructor
              · rintro ⟨_, hok⟩
                cases hok
              · rintro ⟨i, hi, _⟩
                omega
          · rw [← ih (by push_cast at hfuel; omega)]
            simp only [bind_eq_ok_iff]
            constructor
            · rintro ⟨_, more, hmore, _⟩
              exact ⟨more, hmore⟩
            · rintro ⟨more, hmore⟩
              exact ⟨_, more, hmore, rfl⟩
      · rw [fat32Mmap, if_pos (by omega)]
        constructor
        · rintro ⟨_, hok⟩
          cases hok
        · rintro ⟨i, hi, _⟩
          omega

/-! ## The addresses of the stores -/

/-- The sectors that the copy loop gets to. -/
theorem lt_length_mmapCopy_iff {cluster n k : ℕ} :
    k < (mmapCopy vol g cluster n 0).1.length ↔
      k < n ∧ ∀ j ≤ k, sectorReadable vol g cluster j = true := by
  have hcopied := mmapCopy_copied vol g cluster n 0
  constructor
  · intro hk
    refine ⟨hk.trans_le hcopied.length_le, fun j hj => ?_⟩
    have hget := hcopied.bytes j ((mmapCopy vol g cluster n 0).1.get ⟨j, by omega⟩)
      (by simp)
    rw [Nat.zero_add] at hget
    exact hget.1
  · rintro ⟨hk, hread⟩
    cases hdone : (mmapCopy vol g cluster n 0).2 with
    | true => rwa [hcopied.finished hdone]
    | false =>
        by_contra hlong
        obtain ⟨_, hunread⟩ := hcopied.stopped hdone
        rw [Nat.zero_add, hread _ (by omega)] at hunread
        cases hunread

/-- The chunks lie one behind the other from `loc` on, and nowhere else. -/
theorem storedAt_iff {fuel loc cluster a : ℕ} {size : ℤ} {chunks : List Buffer}
    (hok : fat32Mmap vol g fuel cluster size = .ok chunks) :
    StoredAt vol g loc cluster size a ↔ loc ≤ a ∧ a < loc + 512 * chunks.length := by
  induction fuel generalizing loc cluster size chunks with
  | zero => cases hok
  | succ fuel ih =>
      obtain ⟨n, more, hn, rfl, hstop, hgo⟩ := fat32Mmap_ok hok
      obtain rfl : fuel = n := by omega
      have hfull : ¬ StopsAt vol g cluster size →
          (mmapCopy vol g cluster (mmapSectors size) 0).1.length = mmapSectors size := by
        intro hgoes
        refine (mmapCopy_copied vol g cluster (mmapSectors size) 0).finished ?_
        by_contra hdone
        exact hgoes ((stopsAt_iff cluster size).mpr (Or.inl (by simpa using hdone)))
      rw [List.length_append, Nat.mul_add]
      constructor
      · intro hstored
        cases hstored with
        | here hturn hread ho =>
            have hk := lt_length_mmapCopy_iff.mpr ⟨hturn, hread⟩
            omega
        | next hgoes hrest =>
            have hin := (ih (hgo hgoes)).mp hrest
            rw [hfull hgoes]
            omega
      · rintro ⟨hlow, hhigh⟩
        by_cases hfirst : (a - loc) / 512 <
            (mmapCopy vol g cluster (mmapSectors size) 0).1.length
        · obtain ⟨hturn, hread⟩ := lt_length_mmapCopy_iff.mp hfirst
          have ha : loc + (512 * ((a - loc) / 512) + (a - loc) % 512) = a := by omega
          rw [← ha]
          exact .here hturn hread (Nat.mod_lt _ (by decide))
        · have hgoes : ¬ StopsAt vol g cluster size := by
            intro hstops
            rw [hstop hstops, List.length_nil] at hhigh
            omega
          refine .next hgoes ((ih (hgo hgoes)).mpr ?_)
          rw [hfull hgoes] at hfirst hhigh
          omega

/-! ## The file at its destination -/

/-- The bytes are at the destination when the first call has stored them. -/
theorem stored_iff {fuel cluster size : ℕ} {chunks : List Buffer}
    {byte : ℕ → UInt8} (hok : fat32Mmap vol g fuel cluster size = .ok chunks) :
    (∀ p < size, ∃ chunk, chunks[p / 512]? = some chunk ∧
        chunk (p % 512) = byte p) ↔
      ∀ p < size, sectorReadable vol g cluster (p / 512) = true ∧
        sectorBytes vol g cluster (p / 512) (p % 512) = byte p := by
  obtain ⟨_, more, _, rfl, hstop, _⟩ := fat32Mmap_ok hok
  have hcopied := mmapCopy_copied vol g cluster (mmapSectors size) 0
  have hturns : ∀ p < size, p / 512 < mmapSectors size := by
    intro p hp
    rw [mmapSectors_natCast]
    omega
  constructor
  · intro hstored p hp
    obtain ⟨chunk, hchunk, hbyte⟩ := hstored p hp
    have hfirst : p / 512 <
        (mmapCopy vol g cluster (mmapSectors size) 0).1.length := by
      cases hdone : (mmapCopy vol g cluster (mmapSectors size) 0).2 with
      | true =>
          rw [hcopied.finished hdone]
          exact hturns p hp
      | false =>
          rw [hstop ((stopsAt_iff cluster size).mpr (Or.inl hdone)),
            List.append_nil] at hchunk
          exact (List.getElem?_eq_some_iff.mp hchunk).1
    rw [List.getElem?_append_left hfirst] at hchunk
    obtain ⟨hread, hbytes⟩ := hcopied.bytes _ chunk hchunk
    rw [Nat.zero_add] at hread hbytes
    exact ⟨hread, by rw [← hbytes _ (Nat.mod_lt _ (by decide)), hbyte]⟩
  · intro hall p hp
    have hfirst : p / 512 < (mmapCopy vol g cluster (mmapSectors size) 0).1.length := by
      refine lt_length_mmapCopy_iff.mpr ⟨hturns p hp, fun j hj => ?_⟩
      have hread := (hall (512 * j) (by omega)).1
      rwa [Nat.mul_div_cancel_left j (by decide)] at hread
    obtain ⟨chunk, hchunk⟩ : ∃ chunk,
        (mmapCopy vol g cluster (mmapSectors size) 0).1[p / 512]? = some chunk :=
      ⟨_, List.getElem?_eq_getElem hfirst⟩
    have hbytes := (hcopied.bytes _ chunk hchunk).2
    rw [Nat.zero_add] at hbytes
    refine ⟨chunk, ?_, ?_⟩
    · rw [List.getElem?_append_left hfirst]
      exact hchunk
    · rw [hbytes _ (Nat.mod_lt _ (by decide))]
      exact (hall p hp).2

theorem length_le_one_of_neg {fuel cluster : ℕ} {size : ℤ}
    {chunks : List Buffer} (hok : fat32Mmap vol g fuel cluster size = .ok chunks)
    (hneg : size < 0) : chunks.length ≤ 1 := by
  obtain ⟨_, more, _, rfl, hstop, hgo⟩ := fat32Mmap_ok hok
  have hmore : more = [] := by
    by_cases hstops : StopsAt vol g cluster size
    · exact hstop hstops
    · exact fat32Mmap_eq_nil (hgo hstops) (by omega)
  have hle := (mmapCopy_copied vol g cluster (mmapSectors size) 0).length_le
  have hturns : mmapSectors size ≤ 1 := by
    by_cases hlow : size < -510
    · rw [mmapSectors_eq_zero hlow]
      omega
    · rw [mmapSectors_of_nonpos (by omega) (by omega)]
  rw [hmore, List.append_nil]
  omega

theorem loadFat32_of_found {stack : Stack} {cluster : ℕ} {g₀ : Globals}
    {fresh : List FreshBlock} {name : List UInt8} {listed : Listed}
    {node : FsProperties}
    (hinit : initFat32 vol stack cluster g₀ fresh = .ok listed)
    (hfound : findName name listed.search = some node)
    (htype : node.fileType ≠ directory) (loadMem block : ℕ) :
    loadFat32 vol stack cluster g₀ fresh name loadMem block =
      fat32Mmap vol listed.globals mmapFuel node.start (toInt32 node.size) >>=
        fun chunks => .ok ⟨destination loadMem block, chunks⟩ := by
  unfold loadFat32
  rw [hinit, ok_bind, hfound]
  exact if_neg htype

section Loading

variable {file : FatFile vol g} {stack : Stack} {cluster : ℕ} {g₀ : Globals}
  {fresh : List FreshBlock} {name : List UInt8}

/-- Loading is a call of `fat32_mmap` for the first cluster of the file. -/
theorem FatFile.loads_iff_mmap
    (hlisted : file.ListedAs stack cluster g₀ fresh name) {used : Set ℕ}
    (hused : ∃ a ∈ used, a < 2 ^ 32) (loadMem block : ℕ) :
    file.Loads used stack cluster g₀ fresh name loadMem block ↔
      ∃ chunks, fat32Mmap vol g mmapFuel file.start (toInt32 file.size) =
          .ok chunks ∧
        (∀ s ∈ chunkStores 512 (destination loadMem block) chunks,
          s.1 % 2 ^ 32 ∉ used) ∧
        ∀ p < file.size, ∃ chunk, chunks[p / 512]? = some chunk ∧
          chunk (p % 512) = file.byte p := by
  obtain ⟨listed, node, hinit, hglobals, hfound, hstart, hsize, htype⟩ := hlisted
  have hload := loadFat32_of_found hinit hfound htype loadMem block
  rw [hstart, hsize, hglobals] at hload
  have hbytes : ∀ {chunks : List Buffer}, (∀ s ∈ chunkStores 512
      (destination loadMem block) chunks, s.1 % 2 ^ 32 ∉ used) →
      ((∀ mem, ∀ p < file.size, applyStores mem (wrapped (chunkStores 512
          (destination loadMem block) chunks))
            ((destination loadMem block + p) % 2 ^ 32) = file.byte p) ↔
        ∀ p < file.size, ∃ chunk, chunks[p / 512]? = some chunk ∧
          chunk (p % 512) = file.byte p) := fun hclear =>
    applyStores_wrapped_eq_iff (by decide) file.size_lt.le
      (length_lt_of_avoids hused hclear).le
  unfold FatFile.Loads
  simp only [hload, bind_eq_ok_iff]
  have havoids : ∀ {stores : List Store},
      (∀ s ∈ wrapped stores, s.1 ∉ used) ↔ ∀ s ∈ stores, s.1 % 2 ^ 32 ∉ used :=
    List.forall_mem_map
  simp only [havoids]
  constructor
  · rintro ⟨_, ⟨chunks, hok, hreply⟩, _, hclear, hstored⟩
    cases hreply
    exact ⟨chunks, hok, hclear, (hbytes hclear).mp hstored⟩
  · rintro ⟨chunks, hok, hclear, hstored⟩
    exact ⟨_, ⟨chunks, hok, rfl⟩, rfl, hclear, (hbytes hclear).mpr hstored⟩

/-- The file is loaded as it should be exactly when its size is no negative
`int`, its bytes lie in a row from its first cluster on, the walk along the
entries of the FAT ends early enough, and what is stored on the way leaves alone
what the driver uses. -/
theorem FatFile.loads_iff (hlisted : file.ListedAs stack cluster g₀ fresh name)
    {used : Set ℕ} (hused : ∃ a ∈ used, a < 2 ^ 32) (loadMem block : ℕ) :
    file.Loads used stack cluster g₀ fresh name loadMem block ↔
      file.size < 2 ^ 31 ∧ file.Contiguous ∧
        WalkEnds vol g file.start file.size ∧
        file.Clear used (destination loadMem block) := by
  rw [FatFile.loads_iff_mmap hlisted hused]
  by_cases hsmall : file.size < 2 ^ 31
  · have hfuel : (file.size : ℤ) - intMin < 512 * mmapFuel := by
      simp only [intMin, mmapFuel]
      omega
    have hclear : ∀ {chunks : List Buffer},
        fat32Mmap vol g mmapFuel file.start file.size = .ok chunks →
        ((∀ s ∈ chunkStores 512 (destination loadMem block) chunks,
          s.1 % 2 ^ 32 ∉ used) ↔ file.Clear used (destination loadMem block)) := by
      intro chunks hok
      unfold FatFile.Clear
      simp only [storedAt_iff hok, ← exists_mem_chunkStores_iff]
      exact ⟨fun h a ⟨b, hb⟩ => h _ hb, fun h s hs => h s.1 ⟨s.2, hs⟩⟩
    rw [toInt32_of_lt hsmall, ← fat32Mmap_returns_iff hfuel]
    constructor
    · rintro ⟨chunks, hok, havoids, hstored⟩
      exact ⟨hsmall, (stored_iff hok).mp hstored, ⟨chunks, hok⟩, (hclear hok).mp havoids⟩
    · rintro ⟨_, hrow, ⟨chunks, hok⟩, havoids⟩
      exact ⟨chunks, hok, (hclear hok).mpr havoids, (stored_iff hok).mpr hrow⟩
  · constructor
    · rintro ⟨chunks, hok, _, hstored⟩
      have hneg : toInt32 file.size < 0 := by
        have hlt := file.size_lt
        unfold toInt32
        rw [Int.bmod_def]
        omega
      have hone := length_le_one_of_neg hok hneg
      obtain ⟨chunk, hchunk, _⟩ := hstored 512 (by omega)
      have hlt := (List.getElem?_eq_some_iff.mp hchunk).1
      omega
    · rintro ⟨hlt, _⟩
      exact absurd hlt hsmall

end Loading

/-! ## A volume with clusters of one sector -/

/-- The bytes of a number, the low ones first. -/
def bytesOf (width n : ℕ) : List UInt8 :=
  (List.range width).map fun j => UInt8.ofNat (n / 256 ^ j)

def dirEntry (name : List UInt8) (attrib start size : ℕ) : List UInt8 :=
  name ++ bytesOf 1 attrib ++ List.replicate 14 0 ++ bytesOf 2 start ++
    bytesOf 4 size

/-- Sector 0 is the boot sector, sector 1 the FAT, and each cluster is the
sector with its number. -/
def smallVolume (fat : List ℕ) (cluster : ℕ → List (List UInt8)) : Volume where
  disk :=
    { readable := fun _ _ => true
      byte := fun _ n o =>
        if n = 0 then
          if o ∈ [13, 14, 16, 36] then 1
          else if o = 510 then 0x55 else if o = 511 then 0xAA else 0
        else if n = 1 then (bytesOf 4 (fat.getD (o / 4) 0)).getD (o % 4) 0
        else ((cluster n).getD (o / 32) []).getD (o % 32) 0 }
  drive := 0
  lba := 0

def smallGlobals : Globals := ⟨1, 2, 1⟩

def zeroStack : Stack := ⟨fun _ => 0, fun _ => 0⟩

/-- The root in cluster 2 lists `A`, with 513 bytes in the clusters 3 and 5.
Its last byte is 7. -/
def scatteredVolume : Volume :=
  smallVolume [0, 0, 0x0FFFFFFF, 5, 0, 0x0FFFFFFF] fun n =>
    if n = 2 then [dirEntry (65 :: List.replicate 10 32) 0x20 3 513]
    else if n = 5 then [[7]] else []

def scatteredFile : FatFile scatteredVolume smallGlobals where
  chain := [3, 5]
  size := 513
  size_lt := by decide
  nodup := by decide
  linked := by decide
  ended := by decide
  long := by decide
  readable := fun _ _ _ _ => rfl

/-- A listing in a form that can be computed and compared. -/
def shown (listed : Except Fault Listed) :
    Option (Globals × List FsProperties × List FsProperties × ℕ) :=
  listed.toOption.map fun l => (l.globals, l.list, l.search, l.fresh.length)

theorem eq_ok_of_shown {listed : Except Fault Listed}
    {list search : List FsProperties}
    (hshown : shown listed = some (g, list, search, 0)) :
    listed = .ok ⟨g, list, search, []⟩ := by
  cases listed with
  | error e => cases hshown
  | ok l =>
      simp only [shown, Except.toOption, Option.map_some, Option.some.injEq,
        Prod.mk.injEq, List.length_eq_zero_iff] at hshown
      obtain ⟨rfl, rfl, rfl, hfresh⟩ := hshown
      rw [← hfresh]

def scatteredList : List FsProperties := [⟨3, 513, 1, [65, 0]⟩, ⟨0, 0, 0, [0]⟩]

theorem scattered_init :
    initFat32 scatteredVolume zeroStack 2 smallGlobals [blank, blank] =
      .ok ⟨smallGlobals, scatteredList, scatteredList, []⟩ :=
  eq_ok_of_shown (by decide +kernel)

theorem scatteredFile_listedAs :
    scatteredFile.ListedAs zeroStack 2 smallGlobals [blank, blank] [65] :=
  ⟨_, _, scattered_init, rfl, rfl, rfl, rfl, by decide⟩

/-- The first MiB, where the kernel and the driver are. -/
def lowMemory : Set ℕ := {a | a < 0x100000}

theorem exists_mem_lowMemory : ∃ a ∈ lowMemory, a < 2 ^ 32 :=
  ⟨0, by simp [lowMemory], by decide⟩

theorem loads_iff_scattered :
    scatteredFile.Loads lowMemory zeroStack 2 smallGlobals [blank, blank] [65]
        0x100000 0 ↔
      scatteredFile.size < 2 ^ 31 ∧ scatteredFile.Contiguous ∧
        WalkEnds scatteredVolume smallGlobals scatteredFile.start
          scatteredFile.size ∧
        scatteredFile.Clear lowMemory 0x100000 :=
  FatFile.loads_iff scatteredFile_listedAs exists_mem_lowMemory 0x100000 0

/-- The last byte is taken from cluster 4. -/
theorem scattered_clusters_missed :
    ¬ scatteredFile.Loads lowMemory zeroStack 2 smallGlobals [blank, blank] [65]
      0x100000 0 := by
  intro hloads
  obtain ⟨chunks, hok, _, hstored⟩ := (FatFile.loads_iff_mmap scatteredFile_listedAs
    exists_mem_lowMemory 0x100000 0).mp hloads
  rw [toInt32_of_lt (by decide)] at hok
  have hbyte := ((stored_iff hok).mp hstored 512 (by decide)).2
  revert hbyte
  decide

end Fat32
end Janus86
