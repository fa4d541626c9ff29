import Janus86.Ext2InodePlacement

/-!
# The groups with a copy of the superblock

With the sparse_super feature a group carries a copy of the superblock and of
the descriptors when its number is 0, 1 or a power of 3, 5 or 7, and its inode
table starts behind them.  `inode_to_lba` compares the group with a list of
such numbers, which is complete below 729 and holds none from there on.
-/

namespace Janus86
namespace Ext2

def Backup (group : ℕ) : Prop :=
  group = 0 ∨ group = 1 ∨ ∃ k, group = 3 ^ k ∨ group = 5 ^ k ∨ group = 7 ^ k

open Classical in
/-- The first block of the inode table of a group: where group 0 has it, or
two blocks behind the first block of the group. -/
noncomputable def tableBlock (g : Globals) (group : ℕ) : ℕ :=
  if Backup group then group * g.blocksPerGroup + g.inodeTable
  else group * g.blocksPerGroup + g.firstDataBlock + 2

noncomputable def inodeSector (g : Globals) (n : ℕ) : ℕ :=
  tableBlock g (inodeGroup g n) * (g.bs / 512) + inodeSlot g n / 4

/-- A volume in the sparse_super layout with 128-byte inodes. -/
structure SparseSuper (g : Globals) (sectors : ℕ) : Prop where
  blockSize : g.bs = 1024 ∨ g.bs = 2048 ∨ g.bs = 4096
  inodes_pos : 0 < g.inodesPerGroup
  firstBlock : g.firstDataBlock = if g.bs = 1024 then 1 else 0
  sectors_lt : sectors < 2 ^ 28
  on_volume : ∀ n, 1 ≤ n → n ≤ g.inodesCount → inodeSector g n < sectors

/-- `inode_to_lba` leads to the sector of the inode. -/
def FoundAt (g : Globals) (n sector : ℕ) : Prop :=
  ∃ lba, inodeToLba g n = .ok lba ∧ (lba + superBlockOffset) % 2 ^ 32 = sector

/-! ## The list of groups -/

theorem backup_of_mem {group : ℕ} (hmem : group ∈ sparseGroups) :
    Backup group := by
  simp only [sparseGroups, List.mem_cons, List.not_mem_nil, or_false] at hmem
  have hpow : ∀ k, Backup (3 ^ k) ∧ Backup (5 ^ k) ∧ Backup (7 ^ k) :=
    fun k => ⟨Or.inr (Or.inr ⟨k, Or.inl rfl⟩),
      Or.inr (Or.inr ⟨k, Or.inr (Or.inl rfl)⟩),
      Or.inr (Or.inr ⟨k, Or.inr (Or.inr rfl)⟩)⟩
  rcases hmem with rfl | rfl | rfl | rfl | rfl | rfl | rfl | rfl | rfl | rfl |
    rfl | rfl | rfl | rfl
  · exact Or.inl rfl
  · exact Or.inr (Or.inl rfl)
  · exact (hpow 1).1
  · exact (hpow 2).1
  · exact (hpow 3).1
  · exact (hpow 1).2.1
  · exact (hpow 2).2.1
  · exact (hpow 1).2.2
  · exact (hpow 2).2.2
  · exact (hpow 4).1
  · exact (hpow 3).2.1
  · exact (hpow 5).1
  · exact (hpow 3).2.2
  · exact (hpow 4).2.1

theorem lt_six_of_pow_lt {b k : ℕ} (hb : 3 ≤ b) (hlt : b ^ k < 729) : k < 6 := by
  have hle : 3 ^ k ≤ b ^ k := Nat.pow_le_pow_left hb k
  have hpow : 3 ^ k < 3 ^ 6 := hle.trans_lt hlt
  exact (Nat.pow_lt_pow_iff_right (by decide)).mp hpow

theorem mem_of_backup {group : ℕ} (hlt : group < 729) (hbackup : Backup group) :
    group ∈ sparseGroups := by
  rcases hbackup with rfl | rfl | ⟨k, rfl | rfl | rfl⟩
  · decide
  · decide
  · have hk := lt_six_of_pow_lt (by decide) hlt
    interval_cases k <;> decide
  · have hk := lt_six_of_pow_lt (by decide) hlt
    interval_cases k <;> revert hlt <;> decide
  · have hk := lt_six_of_pow_lt (by decide) hlt
    interval_cases k <;> revert hlt <;> decide

theorem lt_of_mem_sparseGroups {group : ℕ} (hmem : group ∈ sparseGroups) :
    group < 729 := by
  revert group
  decide

theorem mem_sparseGroups_iff {group : ℕ} :
    group ∈ sparseGroups ↔ Backup group ∧ group < 729 :=
  ⟨fun hmem => ⟨backup_of_mem hmem, lt_of_mem_sparseGroups hmem⟩,
    fun h => mem_of_backup h.2 h.1⟩

/-! ## The sector of an inode -/

section Placement

variable {g : Globals} {sectors n : ℕ}

/-- The table is where `inode_to_lba` looks for it, when the group is on the
list, carries no copy, or would have its table in the same place. -/
theorem SparseSuper.tableSector_eq_iff (hvol : SparseSuper g sectors)
    (group : ℕ) :
    tableSector g group = tableBlock g group * (g.bs / 512) ↔
      (Backup group → group < 729 ∨ g.inodeTable = g.firstDataBlock + 2) := by
  have hpos : 0 < g.bs / 512 := by
    rcases hvol.blockSize with h | h | h <;> rw [h] <;> decide
  by_cases hmem : group ∈ sparseGroups
  · obtain ⟨hbackup, hlt⟩ := mem_sparseGroups_iff.mp hmem
    refine iff_of_true ?_ fun _ => Or.inl hlt
    rw [tableSector, if_pos hmem, tableBlock, if_pos hbackup]
  · rw [tableSector_of_not_mem hvol.blockSize hvol.firstBlock hmem, tableBlock]
    by_cases hbackup : Backup group
    · have hge : ¬ group < 729 := fun hlt => hmem (mem_of_backup hlt hbackup)
      rw [if_pos hbackup, Nat.mul_left_inj hpos.ne']
      simp only [hbackup, hge, false_or, forall_const]
      omega
    · rw [if_neg hbackup]
      exact iff_of_true rfl fun h => absurd h hbackup

theorem SparseSuper.tableSector_lt (hvol : SparseSuper g sectors) (hn : 1 ≤ n)
    (hle : n ≤ g.inodesCount) : tableSector g (inodeGroup g n) < 2 ^ 28 + 24 := by
  have hvolume := hvol.on_volume n hn hle
  have hsectors := hvol.sectors_lt
  rw [inodeSector] at hvolume
  have hbs : g.bs / 512 ≤ 8 := by
    rcases hvol.blockSize with h | h | h <;> omega
  have hfirst : g.firstDataBlock ≤ 1 := by
    rw [hvol.firstBlock]
    split <;> omega
  by_cases hsame : tableSector g (inodeGroup g n) =
      tableBlock g (inodeGroup g n) * (g.bs / 512)
  · omega
  · -- the table is looked for at most three blocks too high
    have hmiss := (hvol.tableSector_eq_iff (inodeGroup g n)).not.mp hsame
    simp only [Classical.not_imp, not_or] at hmiss
    have hmem : inodeGroup g n ∉ sparseGroups := fun hmem =>
      hmiss.2.1 (lt_of_mem_sparseGroups hmem)
    rw [tableSector_of_not_mem hvol.blockSize hvol.firstBlock hmem]
    rw [tableBlock, if_pos hmiss.1] at hvolume
    calc
      (inodeGroup g n * g.blocksPerGroup + g.firstDataBlock + 2) *
          (g.bs / 512) ≤
          (inodeGroup g n * g.blocksPerGroup + g.inodeTable + 3) *
            (g.bs / 512) := Nat.mul_le_mul_right _ (by omega)
      _ = (inodeGroup g n * g.blocksPerGroup + g.inodeTable) * (g.bs / 512) +
            3 * (g.bs / 512) := by ring
      _ < 2 ^ 28 + 24 := by omega

/-- `inode_to_lba` leads to the sector of an inode exactly when the group of
the inode carries no copy of the superblock, is below 729, or has its inode
table two blocks behind its first block all the same. -/
theorem SparseSuper.foundAt_iff (hvol : SparseSuper g sectors) (hn : 1 ≤ n)
    (hle : n ≤ g.inodesCount) (hdvd : ¬ g.inodesPerGroup ∣ n) :
    FoundAt g n (inodeSector g n) ↔
      (Backup (inodeGroup g n) →
        inodeGroup g n < 729 ∨ g.inodeTable = g.firstDataBlock + 2) := by
  have htable := hvol.tableSector_lt hn hle
  have hslot : inodeSlot g n / 4 < 2 ^ 28 := by
    have hvolume := hvol.on_volume n hn hle
    have hsectors := hvol.sectors_lt
    rw [inodeSector] at hvolume
    omega
  have hplace := inodeToLba_eq_of_lt hvol.blockSize hvol.inodes_pos hn hdvd
    (by omega)
  rw [← hvol.tableSector_eq_iff, FoundAt, inodeSector, hplace]
  have hback : (sub32 (tableSector g (inodeGroup g n) + inodeSlot g n / 4) 2 +
      superBlockOffset) % 2 ^ 32 =
        tableSector g (inodeGroup g n) + inodeSlot g n / 4 :=
    sub32_add (by omega)
  simp only [Except.ok.injEq, exists_eq_left', hback]
  omega

end Placement

/-! ## A volume with 730 groups -/

/-- Blocks of 1024 bytes, 8192 blocks and 16 inodes in a group.  The first
inode table lies behind the superblock, 23 blocks of descriptors and the two
bitmaps. -/
def manyGroups : Globals where
  super := fun o =>
    if o = 0 then 0xA0 else if o = 1 then 0x2D else if o = 20 then 1
    else if o = 33 then 32 else if o = 40 then 16 else 0
  bs := 1024
  gdoffset := 2
  grblock := fun o => if o = 8 then 27 else 0

theorem tableBlock_manyGroups_le (group : ℕ) :
    tableBlock manyGroups group ≤ group * 8192 + 27 := by
  have hblocks : manyGroups.blocksPerGroup = 8192 := by decide
  have hfirst : manyGroups.firstDataBlock = 1 := by decide
  have htable : manyGroups.inodeTable = 27 := by decide
  rw [tableBlock, hblocks, hfirst, htable]
  split <;> omega

theorem manyGroups_sparseSuper : SparseSuper manyGroups 12000000 where
  blockSize := Or.inl rfl
  inodes_pos := by decide
  firstBlock := by decide
  sectors_lt := by decide
  on_volume := by
    intro n hn hle
    have hcount : manyGroups.inodesCount = 11680 := by decide
    have hinodes : manyGroups.inodesPerGroup = 16 := by decide
    have hbs : manyGroups.bs / 512 = 2 := by decide
    have htable := tableBlock_manyGroups_le (inodeGroup manyGroups n)
    rw [hcount] at hle
    rw [inodeSector, hbs]
    simp only [inodeGroup, inodeSlot, hinodes] at htable ⊢
    omega

theorem foundAt_iff_seventeen :
    FoundAt manyGroups 17 (inodeSector manyGroups 17) :=
  (manyGroups_sparseSuper.foundAt_iff (by decide) (by decide)
    (by decide)).mpr fun _ => Or.inl (by decide)

/-- Group 729 is a power of 3, and its first inode is looked for 48 sectors in
front of its place. -/
theorem inode_of_group_729_missed :
    ¬ ∀ (g : Globals) (sectors n : ℕ), SparseSuper g sectors → 1 ≤ n →
      n ≤ g.inodesCount → ¬ g.inodesPerGroup ∣ n →
      FoundAt g n (inodeSector g n) := by
  intro hclaim
  obtain ⟨lba, hlba, hsector⟩ := hclaim manyGroups _ 11665
    manyGroups_sparseSuper (by decide) (by decide) (by decide)
  have hplace : (inodeToLba manyGroups 11665).toOption = some 11943940 := by
    decide +kernel
  have hgroup : inodeGroup manyGroups 11665 = 729 := by decide
  have hslot : inodeSlot manyGroups 11665 = 0 := by decide
  have hbackup : Backup 729 := Or.inr (Or.inr ⟨6, Or.inl rfl⟩)
  have htable : (729 * manyGroups.blocksPerGroup + manyGroups.inodeTable) *
      (manyGroups.bs / 512) = 11943990 := by decide
  rw [hlba] at hplace
  obtain rfl : lba = 11943940 := Option.some.inj hplace
  rw [inodeSector, hgroup, hslot, tableBlock, if_pos hbackup, htable] at hsector
  exact absurd hsector (by decide)

end Ext2
end Janus86
