import Janus86.Ext2Model

/-!
# The place of an inode on the disk

An inode number counts from one, so the group and the slot of `n` are the
quotient and the remainder of `n - 1`.  The driver divides `n` itself and
subtracts one from the remainder.  The two agree except for the last inode
of each group: its remainder is zero, the driver takes the following group
for its group and `-1` for its index.
-/

namespace Janus86
namespace Ext2

def Globals.inodesCount (g : Globals) : ℕ := le32 g.super 0

def Globals.firstDataBlock (g : Globals) : ℕ := le32 g.super 20

def inodeGroup (g : Globals) (n : ℕ) : ℕ := (n - 1) / g.inodesPerGroup

def inodeSlot (g : Globals) (n : ℕ) : ℕ := (n - 1) % g.inodesPerGroup

/-- The first sector of the inode table of a group, as `inode_to_lba` has it.
In a group without a copy of the superblock the table comes right behind the
two bitmaps. -/
def tableSector (g : Globals) (group : ℕ) : ℕ :=
  if group ∈ sparseGroups then
    (group * g.blocksPerGroup + g.inodeTable) * (g.bs / 512)
  else
    (group * g.blocksPerGroup + 2) * (g.bs / 512) +
      if g.bs = 1024 then 2 else 0

/-- An ext2 geometry with 128-byte inodes on fewer than 2^28 sectors.  The
table of the first group lies in that group, behind its two bitmaps. -/
structure Geometry (g : Globals) (sectors : ℕ) : Prop where
  blockSize : g.bs = 1024 ∨ g.bs = 2048 ∨ g.bs = 4096
  inodes_pos : 0 < g.inodesPerGroup
  inodes_dvd : 8 ∣ g.inodesPerGroup
  count_dvd : g.inodesPerGroup ∣ g.inodesCount
  firstBlock : g.firstDataBlock = if g.bs = 1024 then 1 else 0
  table_ge : g.firstDataBlock + 2 ≤ g.inodeTable
  table_fits : g.inodeTable * (g.bs / 512) + g.inodesPerGroup / 4 ≤
    (g.firstDataBlock + g.blocksPerGroup) * (g.bs / 512)
  sectors_lt : sectors < 2 ^ 28
  on_volume : ∀ group, group * g.inodesPerGroup < g.inodesCount →
    tableSector g group + g.inodesPerGroup / 4 ≤ sectors

/-- The driver looks for inode `n` where it is, and no other inode of the
volume has the same sector and index. -/
structure PlacedAlone (g : Globals) (n : ℕ) : Prop where
  sector : ∃ lba, inodeToLba g n = .ok lba ∧
    (lba + superBlockOffset) % 2 ^ 32 =
      tableSector g (inodeGroup g n) + inodeSlot g n / 4
  index : getIndex g n = ((inodeSlot g n % 4 : ℕ) : ℤ)
  index_range : 0 ≤ getIndex g n ∧ getIndex g n ≤ 3
  alone : ∀ n', 1 ≤ n' → n' ≤ g.inodesCount → n' ≠ n →
    (inodeToLba g n', getIndex g n') ≠ (inodeToLba g n, getIndex g n)

/-- Behind the last inode of a group the remainder starts again. -/
theorem group_slot_of_not_dvd {g : Globals} {n : ℕ} (hn : 1 ≤ n)
    (hpos : 0 < g.inodesPerGroup) (hdvd : ¬ g.inodesPerGroup ∣ n) :
    n / g.inodesPerGroup = inodeGroup g n ∧
      n % g.inodesPerGroup = inodeSlot g n + 1 := by
  have hmod : n % g.inodesPerGroup ≠ 0 := fun h =>
    hdvd (Nat.dvd_of_mod_eq_zero h)
  have hlt := Nat.mod_lt n hpos
  have hdiv := Nat.div_add_mod n g.inodesPerGroup
  have hpred : n - 1 = n % g.inodesPerGroup - 1 +
      g.inodesPerGroup * (n / g.inodesPerGroup) := by omega
  have hsmall : n % g.inodesPerGroup - 1 < g.inodesPerGroup := by omega
  constructor
  · rw [inodeGroup, hpred, Nat.add_mul_div_left _ _ hpos,
      Nat.div_eq_of_lt hsmall, Nat.zero_add]
  · rw [inodeSlot, hpred, Nat.add_mul_mod_self_left, Nat.mod_eq_of_lt hsmall]
    omega

theorem inode_eq {g : Globals} {n : ℕ} (hn : 1 ≤ n) :
    n = g.inodesPerGroup * inodeGroup g n + inodeSlot g n + 1 := by
  have hdiv := Nat.div_add_mod (n - 1) g.inodesPerGroup
  simp only [inodeGroup, inodeSlot]
  omega

theorem getIndex_of_dvd {g : Globals} {n : ℕ} (hdvd : g.inodesPerGroup ∣ n) :
    getIndex g n = -1 := by
  unfold getIndex
  rw [Nat.mod_eq_zero_of_dvd hdvd]
  decide

/-- `inode_to_lba` takes the inode for one of the table at `tableSector`, as
long as four times that sector fits into a word. -/
theorem inodeToLba_eq_of_lt {g : Globals} {n : ℕ}
    (hbs : g.bs = 1024 ∨ g.bs = 2048 ∨ g.bs = 4096)
    (hpos : 0 < g.inodesPerGroup) (hn : 1 ≤ n) (hdvd : ¬ g.inodesPerGroup ∣ n)
    (hfits : 4 * tableSector g (inodeGroup g n) + inodeSlot g n < 2 ^ 32 - 1) :
    inodeToLba g n =
      .ok (sub32 (tableSector g (inodeGroup g n) + inodeSlot g n / 4) 2) := by
  obtain ⟨hgroup, hslot⟩ := group_slot_of_not_dvd hn hpos hdvd
  have hpred : sub32 (inodeSlot g n + 1) 1 = inodeSlot g n :=
    sub32_of_le (by omega) (by omega)
  unfold inodeToLba
  simp only [if_neg hpos.ne', hgroup, hslot, hpred]
  -- bs / 128 = 4 * (bs / 512), and four times the sectors do not overflow
  have hsmall : g.bs / 128 = 4 * (g.bs / 512) := by
    rcases hbs with h | h | h <;> rw [h]
  by_cases hsparse : inodeGroup g n ∈ sparseGroups
  · have hsum : inodeGroup g n * g.blocksPerGroup * (g.bs / 128) +
        inodeSlot g n + g.inodeTable * (g.bs / 128) =
        4 * tableSector g (inodeGroup g n) + inodeSlot g n := by
      simp only [tableSector, if_pos hsparse, hsmall]
      ring
    have hdiv : (4 * tableSector g (inodeGroup g n) + inodeSlot g n) / 4 =
        tableSector g (inodeGroup g n) + inodeSlot g n / 4 := by omega
    rw [if_pos hsparse, hsum, Nat.mod_eq_of_lt (by omega), hdiv]
  · have hsum : inodeGroup g n * g.blocksPerGroup * (g.bs / 128) +
        inodeSlot g n + 2 * (g.bs / 128) +
        4 * (if g.bs = 1024 then 2 else 0) =
        4 * tableSector g (inodeGroup g n) + inodeSlot g n := by
      simp only [tableSector, if_neg hsparse, hsmall]
      ring
    have hdiv : (if g.bs = 1024 then
          (inodeGroup g n * g.blocksPerGroup * (g.bs / 128) + inodeSlot g n +
            2 * (g.bs / 128)) / 4 + 2
        else (inodeGroup g n * g.blocksPerGroup * (g.bs / 128) +
          inodeSlot g n + 2 * (g.bs / 128)) / 4) =
        tableSector g (inodeGroup g n) + inodeSlot g n / 4 := by
      split at hsum
      · next hbs => rw [if_pos hbs]; omega
      · next hbs => rw [if_neg hbs]; omega
    rw [if_neg hsparse, Nat.mod_eq_of_lt (by omega), hdiv]

/-- Outside the list the table lies two blocks behind the first block of the
group. -/
theorem tableSector_of_not_mem {g : Globals} {group : ℕ}
    (hbs : g.bs = 1024 ∨ g.bs = 2048 ∨ g.bs = 4096)
    (hfirst : g.firstDataBlock = if g.bs = 1024 then 1 else 0)
    (hgroup : group ∉ sparseGroups) :
    tableSector g group =
      (group * g.blocksPerGroup + g.firstDataBlock + 2) * (g.bs / 512) := by
  rw [tableSector, if_neg hgroup, hfirst]
  rcases hbs with h | h | h
  · norm_num [h]
    ring
  · norm_num [h]
  · norm_num [h]

namespace Geometry

variable {g : Globals} {sectors n : ℕ}

theorem group_lt (hn : 1 ≤ n) (hle : n ≤ g.inodesCount) :
    inodeGroup g n * g.inodesPerGroup < g.inodesCount := by
  have h := inode_eq (g := g) hn
  rw [Nat.mul_comm] at h
  omega

theorem slot_lt (hgeo : Geometry g sectors) : inodeSlot g n < g.inodesPerGroup :=
  Nat.mod_lt _ hgeo.inodes_pos

theorem slot_div_lt (hgeo : Geometry g sectors) :
    inodeSlot g n / 4 < g.inodesPerGroup / 4 := by
  have hslot := hgeo.slot_lt (n := n)
  have hdvd := hgeo.inodes_dvd
  omega

theorem inodeToLba_eq (hgeo : Geometry g sectors) (hn : 1 ≤ n)
    (hle : n ≤ g.inodesCount) (hdvd : ¬ g.inodesPerGroup ∣ n) :
    inodeToLba g n =
      .ok (sub32 (tableSector g (inodeGroup g n) + inodeSlot g n / 4) 2) := by
  have hvolume := hgeo.on_volume _ (group_lt hn hle)
  have hsectors := hgeo.sectors_lt
  have hslotlt := hgeo.slot_lt (n := n)
  have hdvd8 := hgeo.inodes_dvd
  exact inodeToLba_eq_of_lt hgeo.blockSize hgeo.inodes_pos hn hdvd (by omega)

theorem getIndex_eq (hgeo : Geometry g sectors) (hn : 1 ≤ n)
    (hle : n ≤ g.inodesCount) (hdvd : ¬ g.inodesPerGroup ∣ n) :
    getIndex g n = ((inodeSlot g n % 4 : ℕ) : ℤ) := by
  have hslot := (group_slot_of_not_dvd hn hgeo.inodes_pos hdvd).2
  have hvolume := hgeo.on_volume _ (group_lt hn hle)
  have hsectors := hgeo.sectors_lt
  have hslotlt := hgeo.slot_lt (n := n)
  unfold getIndex
  rw [hslot, toInt32_of_lt (by omega)]
  push_cast
  rw [add_sub_cancel_right]
  exact Int.tmod_eq_emod_of_nonneg (by omega)

theorem tables_apart (hgeo : Geometry g sectors) {first second : ℕ}
    (hlt : first < second) :
    tableSector g first + g.inodesPerGroup / 4 ≤ tableSector g second := by
  have hfits := hgeo.table_fits
  have hge := hgeo.table_ge
  have hmono : (first + 1) * g.blocksPerGroup ≤ second * g.blocksPerGroup :=
    Nat.mul_le_mul_right _ hlt
  have hstart : ∀ group, (group * g.blocksPerGroup + g.firstDataBlock + 2) *
      (g.bs / 512) ≤ tableSector g group := by
    intro group
    by_cases hgroup : group ∈ sparseGroups
    · rw [tableSector, if_pos hgroup]
      exact Nat.mul_le_mul_right _ (by omega)
    · rw [tableSector_of_not_mem hgeo.blockSize hgeo.firstBlock hgroup]
  have hend : ∀ group, tableSector g group + g.inodesPerGroup / 4 ≤
      (group * g.blocksPerGroup + g.firstDataBlock + g.blocksPerGroup) *
        (g.bs / 512) := by
    intro group
    have hle : tableSector g group ≤
        (group * g.blocksPerGroup + g.inodeTable) * (g.bs / 512) := by
      by_cases hgroup : group ∈ sparseGroups
      · rw [tableSector, if_pos hgroup]
      · rw [tableSector_of_not_mem hgeo.blockSize hgeo.firstBlock hgroup]
        exact Nat.mul_le_mul_right _ (by omega)
    calc
      tableSector g group + g.inodesPerGroup / 4 ≤
          (group * g.blocksPerGroup + g.inodeTable) * (g.bs / 512) +
            g.inodesPerGroup / 4 := by omega
      _ = group * g.blocksPerGroup * (g.bs / 512) +
            (g.inodeTable * (g.bs / 512) + g.inodesPerGroup / 4) := by ring
      _ ≤ group * g.blocksPerGroup * (g.bs / 512) +
            (g.firstDataBlock + g.blocksPerGroup) * (g.bs / 512) := by omega
      _ = (group * g.blocksPerGroup + g.firstDataBlock + g.blocksPerGroup) *
            (g.bs / 512) := by ring
  calc
    tableSector g first + g.inodesPerGroup / 4 ≤
        (first * g.blocksPerGroup + g.firstDataBlock + g.blocksPerGroup) *
          (g.bs / 512) := hend first
    _ ≤ (second * g.blocksPerGroup + g.firstDataBlock + 2) * (g.bs / 512) := by
        apply Nat.mul_le_mul_right
        have : (first + 1) * g.blocksPerGroup =
          first * g.blocksPerGroup + g.blocksPerGroup := by ring
        omega
    _ ≤ tableSector g second := hstart second

theorem placedAlone (hgeo : Geometry g sectors) (hn : 1 ≤ n)
    (hle : n ≤ g.inodesCount) (hdvd : ¬ g.inodesPerGroup ∣ n) :
    PlacedAlone g n := by
  have hplace := hgeo.inodeToLba_eq hn hle hdvd
  have hindex := hgeo.getIndex_eq hn hle hdvd
  have hvolume := hgeo.on_volume _ (group_lt hn hle)
  have hslot := hgeo.slot_div_lt (n := n)
  have hsectors := hgeo.sectors_lt
  refine ⟨⟨_, hplace, sub32_add (by omega)⟩, hindex, by omega, ?_⟩
  intro n' hn' hle' hne heq
  obtain ⟨hlba, hindex'⟩ := Prod.mk.inj heq
  by_cases hdvd' : g.inodesPerGroup ∣ n'
  · rw [getIndex_of_dvd hdvd', hindex] at hindex'
    omega
  · have hvolume' := hgeo.on_volume _ (group_lt hn' hle')
    have hslot' := hgeo.slot_div_lt (n := n')
    rw [hgeo.inodeToLba_eq hn' hle' hdvd', hplace, Except.ok.injEq] at hlba
    rw [hgeo.getIndex_eq hn' hle' hdvd', hindex] at hindex'
    have hsector : tableSector g (inodeGroup g n') + inodeSlot g n' / 4 =
        tableSector g (inodeGroup g n) + inodeSlot g n / 4 := by
      have hadd := congrArg (fun lba => (lba + 2) % 2 ^ 32) hlba
      rwa [sub32_add (by omega), sub32_add (by omega)] at hadd
    rcases lt_trichotomy (inodeGroup g n') (inodeGroup g n) with hlt | heqg | hgt
    · have hapart := hgeo.tables_apart hlt
      omega
    · have hslots : inodeSlot g n' = inodeSlot g n := by
        rw [heqg] at hsector
        omega
      apply hne
      rw [inode_eq (g := g) hn', inode_eq (g := g) hn, heqg, hslots]
    · have hapart := hgeo.tables_apart hgt
      omega

/-- The driver finds an inode of the volume exactly when it is not the last
one of its group. -/
theorem placedAlone_iff (hgeo : Geometry g sectors) (hn : 1 ≤ n)
    (hle : n ≤ g.inodesCount) :
    PlacedAlone g n ↔ ¬ g.inodesPerGroup ∣ n := by
  constructor
  · intro hplaced hdvd
    have hrange := hplaced.index_range.1
    rw [getIndex_of_dvd hdvd] at hrange
    omega
  · exact hgeo.placedAlone hn hle

end Geometry

/-! ## A volume with two groups -/

/-- 32 inodes in two groups of 16, blocks of 1024 bytes, 8192 blocks in a
group. -/
def twoGroups : Globals where
  super := fun o =>
    if o = 0 then 32 else if o = 20 then 1 else if o = 33 then 32
    else if o = 40 then 16 else 0
  bs := 1024
  gdoffset := 2
  grblock := fun o => if o = 8 then 5 else 0

theorem twoGroups_geometry : Geometry twoGroups 40000 where
  blockSize := Or.inl rfl
  inodes_pos := by decide
  inodes_dvd := by decide
  count_dvd := by decide
  firstBlock := by decide
  table_ge := by decide
  table_fits := by decide
  sectors_lt := by decide
  on_volume := by
    intro group hgroup
    have hlt : group * 16 < 32 := hgroup
    have hcases : group = 0 ∨ group = 1 := by omega
    rcases hcases with rfl | rfl
    all_goals decide

theorem placedAlone_iff_seventeen :
    PlacedAlone twoGroups 17 ↔ ¬ twoGroups.inodesPerGroup ∣ 17 :=
  twoGroups_geometry.placedAlone_iff (by decide) (by decide)

/-- The last inode of the first group gets the index `-1`. -/
theorem last_of_group_misplaced : ¬ PlacedAlone twoGroups 16 := by
  intro hplaced
  have hrange := hplaced.index_range.1
  revert hrange
  decide

end Ext2
end Janus86
