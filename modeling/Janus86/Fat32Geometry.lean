import Janus86.Fat32Model

/-!
# The geometry of a FAT32 volume

`fat32_rd_bootsec` keeps the start of the FAT as a sector of the drive and the
start of the data as a sector of the partition, to which `lba` is added for each
read.  On a volume whose sectors all have a 32-bit number no sum and no product
on the way to a sector overflows, but the drive takes 28 bits of the number.  So
the entries lie in the first FAT and each data cluster has its own sectors behind
the FATs if and only if the volume has no data cluster, or ends at `2 ^ 28` or
before.
-/

namespace Janus86
namespace Fat32

/-! ## The boot sector -/

def bytesPerSector (boot : Buffer) : ℕ := le16 boot 11

def perCluster (boot : Buffer) : ℕ := (boot 13).toNat

def numBootSectors (boot : Buffer) : ℕ := le16 boot 14

def numFats (boot : Buffer) : ℕ := (boot 16).toNat

def bigSectorsPerFat (boot : Buffer) : ℕ := le32 boot 36

def rootDirectoryStart (boot : Buffer) : ℕ := le32 boot 44

/-- The sectors in front of the data. -/
def systemSectors (boot : Buffer) : ℕ :=
  numBootSectors boot + numFats boot * bigSectorsPerFat boot

/-- A FAT32 boot sector, for a volume from `lba` on with that many sectors and
data clusters. -/
structure FatLayout where
  boot : Buffer
  lba : ℕ
  total : ℕ
  clusters : ℕ
  magic : le16 boot 510 = 0xAA55
  bytes_eq : bytesPerSector boot = 512
  fats_pos : 1 ≤ numFats boot
  sectors_pos : 1 ≤ perCluster boot
  fat_covers : clusters + 2 ≤ bigSectorsPerFat boot * cluPerFat
  data_fits : systemSectors boot + clusters * perCluster boot ≤ total
  total_le : total ≤ 2 ^ 32 - lba

/-- Such a volume on a drive. -/
structure FatVolume extends FatLayout where
  disk : Disk
  drive : ℕ
  readable : disk.readable drive (ataLba lba) = true
  stored : ∀ o < 512, disk.byte drive (ataLba lba) o = boot o

def FatVolume.vol (v : FatVolume) : Volume := ⟨v.disk, v.drive, v.lba⟩

/-- The data clusters are numbered from 2 on. -/
def FatLayout.DataCluster (l : FatLayout) : Type :=
  {c : ℕ // 2 ≤ c ∧ c < l.clusters + 2}

def FatLayout.fatStart (l : FatLayout) : ℕ := l.lba + numBootSectors l.boot

def FatLayout.dataStart (l : FatLayout) : ℕ := l.lba + systemSectors l.boot

/-! ## The computations -/

/-- The sector that `fat32_rd_FAT` asks for. -/
def fatSector (g : Globals) (cluster : ℕ) : ℕ :=
  (g.fatBeginLba + cluster / cluPerFat) % 2 ^ 32

theorem fat32RdFAT_fatSector (vol : Volume) (g : Globals) (cluster : ℕ) :
    fat32RdFAT vol g cluster =
      match readDiskSector vol.disk (fun _ => 0) vol.drive
          (fatSector g cluster) 1 with
      | none => diskReadErr
      | some fat =>
          let entry := le32 fat (4 * (cluster % cluPerFat))
          if entry = fatEofMarker then 0 else entry :=
  rfl

/-- The products and sums on the way to the globals, to the entry of a cluster,
and to its sector `k`, before they are cut to 32 bits. -/
def computations (l : FatLayout) (g : Globals) (cluster k : ℕ) : List ℕ :=
  [l.lba + numBootSectors l.boot,
    numFats l.boot * bigSectorsPerFat l.boot,
    numBootSectors l.boot + numFats l.boot * bigSectorsPerFat l.boot,
    g.fatBeginLba + cluster / cluPerFat,
    (cluster - 2) * g.sectorsPerCluster,
    (cluster - 2) * g.sectorsPerCluster + g.clusterBeginLba,
    l.lba + ((cluster - 2) * g.sectorsPerCluster + g.clusterBeginLba),
    l.lba + ((cluster - 2) * g.sectorsPerCluster + g.clusterBeginLba) + k]

/-- The sector read for the entry of a cluster lies in the first FAT, those read
for its data lie behind all FATs and inside the volume, and nothing overflows. -/
structure Placed (v : FatVolume) (g : Globals) (cluster : ℕ) : Prop where
  entry : v.fatStart ≤ ataLba (fatSector g cluster) ∧
    ataLba (fatSector g cluster) < v.fatStart + bigSectorsPerFat v.boot
  data : ∀ k < perCluster v.boot,
    v.dataStart ≤ ataLba (clusterSector v.vol g cluster k) ∧
      ataLba (clusterSector v.vol g cluster k) < v.lba + v.total
  exact : ∀ k < perCluster v.boot, ∀ x ∈ computations v.toFatLayout g cluster k,
    x < 2 ^ 32

/-- No sector is read for both clusters. -/
def Apart (v : FatVolume) (g : Globals) (cluster cluster' : ℕ) : Prop :=
  ∀ k < perCluster v.boot, ∀ k' < perCluster v.boot,
    ataLba (clusterSector v.vol g cluster k) ≠
      ataLba (clusterSector v.vol g cluster' k')

/-- After the boot sector has been read, every data cluster is where it should
be, and any two have no sector in common. -/
def PlacesClusters (v : FatVolume) : Prop :=
  ∀ (bootsec : Buffer) (g₀ : Globals) (c c' : v.DataCluster),
    ∃ g, fat32RdBootsec v.vol bootsec g₀ = (success, g) ∧ Placed v g c.1 ∧
      Placed v g c'.1 ∧ (c ≠ c' → Apart v g c.1 c'.1)

/-! ## The globals -/

variable (l : FatLayout)

def FatLayout.globals : Globals where
  fatBeginLba := l.fatStart
  clusterBeginLba := systemSectors l.boot
  sectorsPerCluster := perCluster l.boot

/-- The sectors of cluster `c` counted from the start of the data. -/
theorem FatLayout.sectors_le {c k : ℕ} (hlow : 2 ≤ c) (hhigh : c < l.clusters + 2)
    (hk : k < perCluster l.boot) :
    (c - 2) * perCluster l.boot + k < l.clusters * perCluster l.boot := by
  have hnext : (c - 2 + 1) * perCluster l.boot ≤
      l.clusters * perCluster l.boot :=
    Nat.mul_le_mul_right _ (by omega)
  rw [Nat.succ_mul] at hnext
  omega

theorem FatLayout.fat_le : bigSectorsPerFat l.boot ≤
    numFats l.boot * bigSectorsPerFat l.boot :=
  Nat.le_mul_of_pos_left _ l.fats_pos

/-- The volume ends where the 32-bit numbers do, or before. -/
theorem FatLayout.end_le {c : ℕ} (hlow : 2 ≤ c) (hhigh : c < l.clusters + 2) :
    l.lba + systemSectors l.boot < 2 ^ 32 := by
  have hfirst := l.sectors_le hlow hhigh l.sectors_pos
  have hfits := l.data_fits
  have hle := l.total_le
  omega

/-- The FATs leave too little room for the numbers to run out. -/
theorem FatLayout.number_lt {c : ℕ} (hhigh : c < l.clusters + 2) : c < 2 ^ 32 := by
  have hcovers : l.clusters + 2 ≤ bigSectorsPerFat l.boot * 128 := l.fat_covers
  have hsystem : bigSectorsPerFat l.boot ≤ systemSectors l.boot :=
    l.fat_le.trans (Nat.le_add_left _ _)
  have hone : l.clusters ≤ l.clusters * perCluster l.boot :=
    Nat.le_mul_of_pos_right _ l.sectors_pos
  have hfits := l.data_fits
  have hle := l.total_le
  omega

theorem FatVolume.rdBootsec (v : FatVolume) {c : ℕ} (hlow : 2 ≤ c)
    (hhigh : c < v.clusters + 2) (bootsec : Buffer) (g : Globals) :
    fat32RdBootsec v.vol bootsec g = (success, v.globals) := by
  obtain ⟨buf, hread, hbytes⟩ := readDiskSector_one bootsec v.readable
  have hsame : ∀ o < 512, buf o = v.boot o := fun o ho =>
    (hbytes o ho).trans (v.stored o ho)
  have hword : ∀ o, o + 2 ≤ 512 → le16 buf o = le16 v.boot o := fun o ho =>
    le16_congr fun i _ hi => hsame i (by omega)
  have hlong : le32 buf 36 = bigSectorsPerFat v.boot :=
    le32_congr fun i _ hi => hsame i (by omega)
  have hend := v.end_le hlow hhigh
  have hsystem : systemSectors v.boot =
      numBootSectors v.boot + numFats v.boot * bigSectorsPerFat v.boot := rfl
  have hread' : readDiskSector v.vol.disk bootsec v.vol.drive v.vol.lba 1 =
      some buf := hread
  rw [fat32RdBootsec, hread']
  simp only [hword 510 (by decide), v.magic, if_true, hword 14 (by decide),
    hlong, hsame 13 (by decide), hsame 16 (by decide)]
  have hfat : (v.lba + le16 v.boot 14) % 2 ^ 32 = v.fatStart := by
    refine Nat.mod_eq_of_lt ?_
    rw [← numBootSectors]
    omega
  have hdata : (le16 v.boot 14 + (v.boot 16).toNat * bigSectorsPerFat v.boot) %
      2 ^ 32 = systemSectors v.boot := by
    refine Nat.mod_eq_of_lt ?_
    rw [← numBootSectors, ← numFats, ← hsystem]
    omega
  rw [show v.vol.lba = v.lba from rfl, hfat, hdata]
  rfl

/-! ## The clusters -/

theorem FatVolume.clusterSector_eq (v : FatVolume) {c k : ℕ} (hlow : 2 ≤ c)
    (hhigh : c < v.clusters + 2) (hk : k < perCluster v.boot) :
    clusterSector v.vol v.globals c k =
      v.dataStart + ((c - 2) * perCluster v.boot + k) := by
  have hlast := v.sectors_le hlow hhigh hk
  have hfits := v.data_fits
  have hle := v.total_le
  have hsub : sub32 c 2 = c - 2 := sub32_of_le hlow (v.number_lt hhigh)
  rw [clusterSector, clusterToLba, hsub]
  change (v.lba + ((c - 2) * perCluster v.boot + systemSectors v.boot) % 2 ^ 32 +
    k) % 2 ^ 32 = v.lba + systemSectors v.boot + ((c - 2) * perCluster v.boot + k)
  rw [Nat.mod_eq_of_lt (a := _ + systemSectors v.boot) (by omega),
    Nat.mod_eq_of_lt (by omega)]
  omega

theorem FatVolume.fatSector_eq (v : FatVolume) {c : ℕ} (hlow : 2 ≤ c)
    (hhigh : c < v.clusters + 2) :
    fatSector v.globals c = v.fatStart + c / cluPerFat ∧
      c / cluPerFat < bigSectorsPerFat v.boot := by
  have hend := v.end_le hlow hhigh
  have hfat := v.fat_le
  have hcovers := v.fat_covers
  have hentry : c / cluPerFat < bigSectorsPerFat v.boot :=
    (Nat.div_lt_iff_lt_mul (by decide)).mpr (by omega)
  refine ⟨Nat.mod_eq_of_lt ?_, hentry⟩
  change v.lba + numBootSectors v.boot + c / cluPerFat < 2 ^ 32
  rw [systemSectors] at hend
  omega

/-- The first sector behind the data. -/
def FatLayout.dataEnd (l : FatLayout) : ℕ :=
  l.dataStart + l.clusters * perCluster l.boot

/-- Where the data end at `2 ^ 28` or before, the drive takes the whole number. -/
theorem FatVolume.ataLba_clusterSector (v : FatVolume) (hend : v.dataEnd ≤ 2 ^ 28)
    {c k : ℕ} (hlow : 2 ≤ c) (hhigh : c < v.clusters + 2)
    (hk : k < perCluster v.boot) :
    ataLba (clusterSector v.vol v.globals c k) =
      v.dataStart + ((c - 2) * perCluster v.boot + k) := by
  have hlast := v.sectors_le hlow hhigh hk
  rw [FatLayout.dataEnd] at hend
  rw [v.clusterSector_eq hlow hhigh hk]
  exact ataLba_of_lt (by omega)

theorem FatVolume.placed (v : FatVolume) (hsmall : v.dataEnd ≤ 2 ^ 28) {c : ℕ}
    (hlow : 2 ≤ c) (hhigh : c < v.clusters + 2) : Placed v v.globals c := by
  obtain ⟨hentry, hinside⟩ := v.fatSector_eq hlow hhigh
  have hend := v.end_le hlow hhigh
  have hfat := v.fat_le
  have hfits := v.data_fits
  have hle := v.total_le
  refine ⟨?_, fun k hk => ?_, fun k hk => ?_⟩
  · have hbefore : v.fatStart + c / cluPerFat < 2 ^ 28 := by
      rw [FatLayout.dataEnd, FatLayout.dataStart, systemSectors] at hsmall
      rw [FatLayout.fatStart]
      omega
    rw [hentry, ataLba_of_lt hbefore]
    exact ⟨Nat.le_add_right _ _, Nat.add_lt_add_left hinside _⟩
  · have hlast := v.sectors_le hlow hhigh hk
    rw [v.ataLba_clusterSector hsmall hlow hhigh hk]
    refine ⟨Nat.le_add_right _ _, ?_⟩
    rw [FatLayout.dataStart]
    omega
  · have hlast := v.sectors_le hlow hhigh hk
    have hsystem : systemSectors v.boot =
        numBootSectors v.boot + numFats v.boot * bigSectorsPerFat v.boot := rfl
    have hbegin : v.globals.fatBeginLba = v.lba + numBootSectors v.boot := rfl
    have hdata : v.globals.clusterBeginLba = systemSectors v.boot := rfl
    have hper : v.globals.sectorsPerCluster = perCluster v.boot := rfl
    simp only [computations, hbegin, hdata, hper, List.forall_mem_cons,
      List.not_mem_nil, false_implies, implies_true, and_true]
    refine ⟨?_, ?_, ?_, ?_, ?_, ?_, ?_, ?_⟩
    all_goals omega

/-- The cluster of a sector of the data. -/
theorem FatLayout.quotient_eq {c k : ℕ} (hlow : 2 ≤ c) (hk : k < perCluster l.boot) :
    ((c - 2) * perCluster l.boot + k) / perCluster l.boot + 2 = c := by
  rw [Nat.mul_comm, Nat.mul_add_div l.sectors_pos, Nat.div_eq_of_lt hk]
  omega

theorem FatVolume.apart (v : FatVolume) (hsmall : v.dataEnd ≤ 2 ^ 28) {c c' : ℕ}
    (hlow : 2 ≤ c) (hhigh : c < v.clusters + 2) (hlow' : 2 ≤ c')
    (hhigh' : c' < v.clusters + 2) (hne : c ≠ c') : Apart v v.globals c c' := by
  intro k hk k' hk' hsame
  rw [v.ataLba_clusterSector hsmall hlow hhigh hk,
    v.ataLba_clusterSector hsmall hlow' hhigh' hk', Nat.add_left_cancel_iff] at hsame
  refine hne ?_
  rw [← v.quotient_eq hlow hk, hsame, v.quotient_eq hlow' hk']

/-! ## The numbers past `2 ^ 28` -/

/-- A sector of the data is read for the cluster it belongs to. -/
theorem FatVolume.sector_of_data (v : FatVolume) {x : ℕ} (hlow : v.dataStart ≤ x)
    (hhigh : x < v.dataEnd) :
    ∃ (c : v.DataCluster) (k : ℕ), k < perCluster v.boot ∧
      clusterSector v.vol v.globals c.1 k = x := by
  have hpos : 0 < perCluster v.boot := v.sectors_pos
  have hquot : (x - v.dataStart) / perCluster v.boot < v.clusters := by
    refine (Nat.div_lt_iff_lt_mul hpos).mpr ?_
    rw [FatLayout.dataEnd] at hhigh
    omega
  have hmod := Nat.mod_lt (x - v.dataStart) hpos
  have hlt : (x - v.dataStart) / perCluster v.boot + 2 < v.clusters + 2 :=
    Nat.add_lt_add_right hquot 2
  have htwo : 2 ≤ (x - v.dataStart) / perCluster v.boot + 2 := Nat.le_add_left _ _
  refine ⟨⟨(x - v.dataStart) / perCluster v.boot + 2, htwo, hlt⟩, _, hmod, ?_⟩
  rw [v.clusterSector_eq htwo hlt hmod, Nat.add_sub_cancel,
    Nat.div_add_mod']
  omega

/-- The last sector of the data is read for the last cluster.  What the drive
takes of its number lies in front of the data, or belongs to another cluster. -/
theorem FatVolume.dataEnd_le_of_placesClusters (v : FatVolume)
    (hpos : 0 < v.clusters) (hplaces : PlacesClusters v) : v.dataEnd ≤ 2 ^ 28 := by
  by_contra hpast
  have hsectors : 0 < v.clusters * perCluster v.boot :=
    Nat.mul_pos hpos v.sectors_pos
  have hlow : v.dataStart ≤ v.dataEnd - 1 := by
    rw [FatLayout.dataEnd]
    omega
  obtain ⟨c, k, hk, hsector⟩ := v.sector_of_data hlow (by omega)
  have hmod : ataLba (v.dataEnd - 1) = (v.dataEnd - 1) % 2 ^ 28 := rfl
  have hglobals : ∀ {g}, fat32RdBootsec v.vol (fun _ => 0) ⟨0, 0, 0⟩ = (success, g) →
      g = v.globals := by
    intro g hg
    rw [v.rdBootsec c.2.1 c.2.2] at hg
    exact (Prod.ext_iff.mp hg).2.symm
  have hinside : v.dataStart ≤ ataLba (v.dataEnd - 1) := by
    obtain ⟨g, hg, hplaced, -⟩ := hplaces (fun _ => 0) ⟨0, 0, 0⟩ c c
    cases hglobals hg
    rw [← hsector]
    exact (hplaced.data k hk).1
  obtain ⟨c', k', hk', hsector'⟩ := v.sector_of_data hinside (by omega)
  have hcut : ataLba (ataLba (v.dataEnd - 1)) = ataLba (v.dataEnd - 1) :=
    Nat.mod_mod _ _
  by_cases hsame : c = c'
  · -- Sectors of one cluster are less than `2 ^ 28` apart.
    subst hsame
    rw [v.clusterSector_eq c.2.1 c.2.2 hk] at hsector
    rw [v.clusterSector_eq c.2.1 c.2.2 hk'] at hsector'
    have hper : perCluster v.boot < 256 := (v.boot 13).toNat_lt
    omega
  · obtain ⟨g, hg, -, -, hapart⟩ := hplaces (fun _ => 0) ⟨0, 0, 0⟩ c c'
    cases hglobals hg
    refine hapart hsame k hk k' hk' ?_
    rw [hsector, hsector', hcut]

/-- The clusters are placed as they should be if and only if there are none, or
the last sector of the last one has a 28-bit number. -/
theorem FatVolume.placesClusters_iff (v : FatVolume) :
    PlacesClusters v ↔ v.clusters = 0 ∨
      v.lba + (numBootSectors v.boot + numFats v.boot * bigSectorsPerFat v.boot +
        v.clusters * perCluster v.boot) ≤ 2 ^ 28 := by
  have hend : v.dataEnd = v.lba + (numBootSectors v.boot +
      numFats v.boot * bigSectorsPerFat v.boot +
        v.clusters * perCluster v.boot) := by
    rw [FatLayout.dataEnd, FatLayout.dataStart, systemSectors]
    omega
  rw [← hend]
  constructor
  · intro hplaces
    rcases Nat.eq_zero_or_pos v.clusters with hnone | hpos
    · exact .inl hnone
    · exact .inr (v.dataEnd_le_of_placesClusters hpos hplaces)
  · rintro (hnone | hsmall) bootsec g₀ ⟨c, hlow, hhigh⟩ ⟨c', hlow', hhigh'⟩
    · omega
    · refine ⟨v.globals, v.rdBootsec hlow hhigh bootsec g₀,
        v.placed hsmall hlow hhigh, v.placed hsmall hlow' hhigh', fun hne => ?_⟩
      exact v.apart hsmall hlow hhigh hlow' hhigh' fun hsame => hne (Subtype.ext hsame)

/-- The boot sector and the FAT of this volume have the last two 28-bit numbers. -/
def volumeAtLimit : FatVolume where
  boot := fun o =>
    if o ∈ [13, 14, 16, 36] then 1 else if o = 12 then 2
    else if o = 510 then 0x55 else if o = 511 then 0xAA else 0
  lba := 2 ^ 28 - 2
  total := 3
  clusters := 1
  magic := by decide
  bytes_eq := by decide
  fats_pos := by decide
  sectors_pos := by decide
  fat_covers := by decide
  data_fits := by decide
  total_le := by decide
  disk :=
    { byte := fun _ _ o =>
        if o ∈ [13, 14, 16, 36] then 1 else if o = 12 then 2
        else if o = 510 then 0x55 else if o = 511 then 0xAA else 0
      readable := fun _ _ => true }
  drive := 0
  readable := rfl
  stored := fun _ _ => rfl

/-- The data of its cluster 2 are in sector `2 ^ 28`; the drive reads sector 0. -/
theorem volume_end_missed : ¬ PlacesClusters volumeAtLimit := by
  intro hplaces
  have hend := volumeAtLimit.dataEnd_le_of_placesClusters (by decide) hplaces
  revert hend
  decide

end Fat32
end Janus86
