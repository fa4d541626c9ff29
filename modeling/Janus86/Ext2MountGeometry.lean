import Janus86.DriverSpecs
import Janus86.Ext2DirectoryBounds
import Janus86.Ext2FileBlocks
import Janus86.FileLoadBounds

/-!
# The geometry that a mount goes on to use

`init_ext2` does not look at what `ext2_rd_superblock` returns, and the magic
number is all that is checked there.  After a bad one the fields of the new
superblock are used with the block size of the mount before.
-/

namespace Janus86
namespace Ext2

open StepMachine

/-- The two sectors of the superblock can be read, and hold these bytes. -/
structure HoldsSuper (vol : Volume) (super : Buffer) : Prop where
  readable : ∀ i < 2, vol.disk.readable vol.drive
    (ataLba ((vol.lba + superBlockOffset) % 2 ^ 32) + i) = true
  bytes : ∀ o < 1024, vol.disk.byte vol.drive
    (ataLba ((vol.lba + superBlockOffset) % 2 ^ 32) + o / 512) (o % 512) =
      super o

/-- The inode table can be divided into groups, and a block fits the arrays of
4096 bytes. -/
structure Globals.Supported (g : Globals) : Prop where
  inodes_ne : g.inodesPerGroup ≠ 0
  blockSize : g.bs = 1024 ∨ g.bs = 2048 ∨ g.bs = 4096

def arithmeticFault (e : Fault) : Prop := e = .divideByZero ∨ e = .badShift

/-- A mount of a partition with this superblock, whatever else is on the disk
and in the memory, does not divide by zero or shift by 32 or more, and what it
goes on with is supported, so that no block goes beyond the array that it is
read into.  `g` is what the mount before has left. -/
structure MountsSafely (super : Buffer) (g : Globals) : Prop where
  arithmetic : ∀ (vol : Volume) (inode : ℕ) (s : State),
    HoldsSuper vol super → s.globals = g →
    FreeOf arithmeticFault (ext2Root vol.disk vol.lba vol.drive inode s)
  reads : ∀ (vol : Volume) (buf : Buffer) (g' : Globals),
    HoldsSuper vol super → ext2RdSuperblock vol buf g = .ok g' →
    ∀ (vol' : Volume) (drive block : ℕ) (buf' : Buffer),
      readBlock vol' drive g' block buf' ≠ .error .outOfBounds
  supported : ∀ (vol : Volume) (buf : Buffer) (g' : Globals),
    HoldsSuper vol super → ext2RdSuperblock vol buf g = .ok g' → g'.Supported

/-- The fields are good, with a bad magic number those of the mount before. -/
def SupportedSuper (super : Buffer) (g : Globals) : Prop :=
  le32 super 40 ≠ 0 ∧
    if le16 super 56 = ext2Magic then le32 super 24 ≤ 2
    else g.bs = 1024 ∨ g.bs = 2048 ∨ g.bs = 4096

/-! ## Reading the superblock -/

section Superblock

variable {vol : Volume} {super buf : Buffer} {g : Globals}

theorem HoldsSuper.read (hholds : HoldsSuper vol super) (buf : Buffer) :
    ∃ super', readDiskSector vol.disk buf vol.drive
        ((vol.lba + superBlockOffset) % 2 ^ 32) 2 = some super' ∧
      ∀ o < 1024, super' o = super o := by
  refine ⟨_, readDiskSector_of_readable buf hholds.readable, ?_⟩
  intro o ho
  rw [if_pos ho]
  exact hholds.bytes o ho

theorem HoldsSuper.rdSuperblock (hholds : HoldsSuper vol super)
    (buf : Buffer) (g : Globals) :
    ∃ super', (∀ o < 1024, super' o = super o) ∧
      ext2RdSuperblock vol buf g =
        if le16 super 56 = ext2Magic then
          if le32 super 24 < 32 then
            .ok { g with
              super := super'
              bs := 1024 * 2 ^ le32 super 24 % 2 ^ 32
              gdoffset :=
                if 1024 * 2 ^ le32 super 24 % 2 ^ 32 = 4096 then 6 else 2 }
          else .error .badShift
        else .ok { g with super := super' } := by
  obtain ⟨super', hread, hsame⟩ := hholds.read buf
  refine ⟨super', hsame, ?_⟩
  have hmagic : le16 super' 56 = le16 super 56 :=
    le16_congr fun i _ _ => hsame i (by omega)
  have hlog : le32 super' 24 = le32 super 24 :=
    le32_congr fun i _ _ => hsame i (by omega)
  unfold ext2RdSuperblock
  rw [hread, Option.getD_some]
  dsimp only
  rw [hmagic, hlog]

theorem inodesPerGroup_congr {super' : Buffer}
    (hsame : ∀ o < 1024, super' o = super o) :
    le32 super' 40 = le32 super 40 :=
  le32_congr fun i _ _ => hsame i (by omega)

theorem shifted_mem {log : ℕ} (hlog : log ≤ 2) :
    1024 * 2 ^ log % 2 ^ 32 = 1024 ∨ 1024 * 2 ^ log % 2 ^ 32 = 2048 ∨
      1024 * 2 ^ log % 2 ^ 32 = 4096 := by
  interval_cases log <;> decide

theorem le_two_of_shifted {log : ℕ} (hlt : log < 32)
    (hmem : 1024 * 2 ^ log % 2 ^ 32 = 1024 ∨ 1024 * 2 ^ log % 2 ^ 32 = 2048 ∨
      1024 * 2 ^ log % 2 ^ 32 = 4096) : log ≤ 2 := by
  interval_cases log <;> simp_all

theorem HoldsSuper.accepted (hholds : HoldsSuper vol super)
    (hsuper : SupportedSuper super g) (buf : Buffer) :
    ∃ g', ext2RdSuperblock vol buf g = .ok g' ∧ g'.Supported := by
  obtain ⟨hinodes, hsize⟩ := hsuper
  obtain ⟨super', hsame, hrun⟩ := hholds.rdSuperblock buf g
  rw [hrun]
  by_cases hmagic : le16 super 56 = ext2Magic
  · rw [if_pos hmagic] at hsize ⊢
    rw [if_pos (by omega)]
    refine ⟨_, rfl, ?_, shifted_mem hsize⟩
    exact (inodesPerGroup_congr hsame).trans_ne hinodes
  · rw [if_neg hmagic] at hsize ⊢
    refine ⟨_, rfl, ?_, hsize⟩
    exact (inodesPerGroup_congr hsame).trans_ne hinodes

theorem HoldsSuper.supportedSuper (hholds : HoldsSuper vol super)
    {g' : Globals} (hok : ext2RdSuperblock vol buf g = .ok g')
    (hsupported : g'.Supported) : SupportedSuper super g := by
  obtain ⟨super', hsame, hrun⟩ := hholds.rdSuperblock buf g
  rw [hrun] at hok
  by_cases hmagic : le16 super 56 = ext2Magic
  · rw [if_pos hmagic] at hok
    by_cases hlog : le32 super 24 < 32
    · rw [if_pos hlog] at hok
      cases hok
      refine ⟨?_, ?_⟩
      · rw [← inodesPerGroup_congr hsame]
        exact hsupported.inodes_ne
      · rw [if_pos hmagic]
        exact le_two_of_shifted hlog hsupported.blockSize
    · rw [if_neg hlog] at hok
      cases hok
  · rw [if_neg hmagic] at hok
    cases hok
    refine ⟨?_, ?_⟩
    · rw [← inodesPerGroup_congr hsame]
      exact hsupported.inodes_ne
    · rw [if_neg hmagic]
      exact hsupported.blockSize

end Superblock

/-! ## A mount with a supported geometry -/

section Mount

variable {vol : Volume} {drive : ℕ} {g : Globals}

theorem freeOf_takeFresh (fresh : List FreshBlock) :
    FreeOf arithmeticFault (takeFresh fresh) := by
  cases fresh with
  | nil => exact FreeOf.error (by simp [arithmeticFault])
  | cons block rest => exact FreeOf.ok _

theorem freeOf_setName (node : FsProperties) (name : List UInt8) :
    FreeOf arithmeticFault (node.setName name) := by
  unfold FsProperties.setName
  split
  · exact FreeOf.ok _
  · exact FreeOf.error (by simp [arithmeticFault])

theorem freeOf_ext2RdBlock (lba sectors capacity : ℕ) (buf : Buffer) :
    FreeOf arithmeticFault (ext2RdBlock vol drive lba sectors capacity buf) := by
  unfold ext2RdBlock
  split
  · exact FreeOf.ok _
  · split
    · exact FreeOf.ok _
    · exact FreeOf.error (by simp [arithmeticFault])

theorem freeOf_readInode (hinodes : g.inodesPerGroup ≠ 0) (n : ℕ)
    (buf : Buffer) :
    FreeOf arithmeticFault (readInode vol drive g n buf) := by
  obtain ⟨lba, hlba⟩ := exists_inodeToLba n (Nat.pos_of_ne_zero hinodes)
  unfold readInode
  rw [hlba, ok_bind]
  refine (freeOf_ext2RdBlock _ _ _ _).bind fun buf' _ => ?_
  dsimp only
  split
  · exact FreeOf.ok _
  · exact FreeOf.error (by simp [arithmeticFault])

theorem freeOf_fillNode (hinodes : g.inodesPerGroup ≠ 0) (dirbuf : Buffer)
    (o : ℕ) (c : DirCursor) :
    FreeOf arithmeticFault (fillNode vol g dirbuf o c) := by
  unfold fillNode
  dsimp only
  split
  · exact FreeOf.error (by simp [arithmeticFault])
  · refine (freeOf_setName _ _).bind fun node _ => ?_
    exact (freeOf_readInode hinodes _ _).bind fun _ _ => FreeOf.ok _

theorem freeOf_nextRecordNode (c : DirCursor) :
    FreeOf arithmeticFault (nextRecordNode c) := by
  unfold nextRecordNode nextNode
  refine FreeOf.bind ?_ fun _ _ => FreeOf.ok _
  exact (freeOf_takeFresh _).bind fun _ _ => FreeOf.ok _

theorem freeOf_readRecords (hinodes : g.inodesPerGroup ≠ 0) (dirbuf : Buffer)
    (c : DirCursor) :
    FreeOf arithmeticFault (readRecords vol g dirbuf c) := by
  apply (readRecords_halts vol g dirbuf c).result_of_stops
  intro s r hturn
  have hfill : FreeOf arithmeticFault (fillNode vol g dirbuf s.1 s.2) :=
    freeOf_fillNode hinodes dirbuf s.1 s.2
  unfold recordTurn at hturn
  cases hrun : fillNode vol g dirbuf s.1 s.2 with
  | error e =>
      rw [hrun] at hturn hfill
      cases hturn
      exact hfill
  | ok c₁ =>
      rw [hrun] at hturn
      dsimp only at hturn
      split at hturn
      · cases hturn
        exact FreeOf.ok _
      · have hnext := freeOf_nextRecordNode c₁
        cases hrun' : nextRecordNode c₁ with
        | error e =>
            rw [hrun'] at hturn hnext
            cases hturn
            exact hnext
        | ok c₂ =>
            rw [hrun'] at hturn
            dsimp only at hturn
            split at hturn
            · cases hturn
            · cases hturn
              exact FreeOf.ok _

theorem freeOf_readDirBlock (hinodes : g.inodesPerGroup ≠ 0) (block : ℕ)
    (s : Buffer × DirCursor) :
    FreeOf arithmeticFault (readDirBlock vol g block s) := by
  unfold readDirBlock
  split
  · exact FreeOf.ok _
  · refine (freeOf_ext2RdBlock _ _ _ _).bind fun dirbuf _ => ?_
    exact (freeOf_readRecords hinodes _ _).bind fun _ _ => FreeOf.ok _

theorem freeOf_ext2RdDir (hinodes : g.inodesPerGroup ≠ 0) (iblock : ℕ → ℕ)
    (dirbuf : Buffer) (c : DirCursor) :
    FreeOf arithmeticFault (ext2RdDir vol g iblock dirbuf c) := by
  refine FreeOf.bind ?_ fun _ _ => FreeOf.ok _
  exact FreeOf.foldlM (fun s k => freeOf_readDirBlock hinodes (iblock k) s) _ _

theorem freeOf_ext2RdInode (hinodes : g.inodesPerGroup ≠ 0) (stack : Stack)
    (inode : ℕ) (c : DirCursor) :
    FreeOf arithmeticFault (ext2RdInode vol stack inode g c) := by
  refine (freeOf_ext2RdBlock _ _ _ _).bind fun groupdescr _ => ?_
  -- the group descriptor is no part of the superblock
  have hinodes' : Globals.inodesPerGroup { g with grblock := groupdescr } ≠ 0 :=
    hinodes
  refine (freeOf_readInode hinodes' _ _).bind fun r _ => ?_
  dsimp only
  split
  · exact (freeOf_ext2RdDir hinodes' _ _ _).bind fun _ _ => FreeOf.ok _
  · exact FreeOf.ok _

theorem freeOf_initExt2
    (hsuper : ∀ buf, ∃ g', ext2RdSuperblock vol buf g = .ok g' ∧ g'.Supported)
    (stack : Stack) (inode : ℕ) (fresh : List FreshBlock) :
    FreeOf arithmeticFault (initExt2 vol stack inode g fresh) := by
  unfold initExt2
  refine (freeOf_takeFresh _).bind fun first _ => ?_
  refine (freeOf_takeFresh _).bind fun superBuf _ => ?_
  obtain ⟨g', hok, hsupported⟩ := hsuper superBuf.1.bytes
  dsimp only
  rw [hok, ok_bind]
  exact (freeOf_ext2RdInode hsupported.inodes_ne _ _ _).bind
    fun _ _ => FreeOf.ok _

/-- A mount stops where the reading of the directory does. -/
theorem ext2Root_eq_error_iff {disk : Disk} {lba inode : ℕ} {s : State}
    {e : Fault} : ext2Root disk lba drive inode s = .error e ↔
      initExt2 ⟨disk, drive, lba⟩ (s.locals 0) inode s.globals s.fresh =
        .error e := by
  have hpath : cString [47] = [47] := by decide
  have hread : (reader disk).read (s.moved lba drive inode) =
      initExt2 ⟨disk, drive, lba⟩ (s.locals 0) inode s.globals s.fresh >>=
        fun r => .ok (⟨.ext2, ⟨drive, lba, inode⟩, r.2.1, r.2.1⟩,
          (s.moved lba drive inode).after r.1 r.2.2) := rfl
  unfold ext2Root ext2Chdir
  rw [hpath, if_neg (by decide), splitPath_slash]
  unfold walkPath
  rw [hread]
  cases initExt2 ⟨disk, drive, lba⟩ (s.locals 0) inode s.globals s.fresh with
  | error e' => simp [bind, Except.bind]
  | ok r => simp [bind, Except.bind, enter, pure, Except.pure]

end Mount

/-! ## All superblocks -/

def superVolume (super : Buffer) : Volume where
  disk :=
    { readable := fun _ _ => true
      byte := fun _ n o => super (512 * (n - 2) + o) }
  drive := 0
  lba := 0

theorem superVolume_holds (super : Buffer) :
    HoldsSuper (superVolume super) super where
  readable := fun _ _ => rfl
  bytes := by
    intro o _
    have hsector : ataLba ((0 + superBlockOffset) % 2 ^ 32) = 2 := by decide
    change super (512 * (ataLba ((0 + superBlockOffset) % 2 ^ 32) + o / 512 - 2) +
      o % 512) = super o
    rw [hsector, Nat.add_sub_cancel_left, Nat.div_add_mod]

def twoBlockState (g : Globals) : State where
  place := ⟨0, 0, 0⟩
  globals := g
  fresh := [blank, blank]
  locals := fun _ => zeroStack

theorem initExt2_eq_error {vol : Volume} {g : Globals} {e : Fault}
    (hsuper : ext2RdSuperblock vol blank.bytes g = .error e) (stack : Stack)
    (inode : ℕ) : initExt2 vol stack inode g [blank, blank] = .error e := by
  unfold initExt2
  simp only [takeFresh, ok_bind]
  rw [hsuper]
  rfl

theorem initExt2_divides {vol : Volume} {g g' : Globals}
    (hsuper : ext2RdSuperblock vol blank.bytes g = .ok g')
    (hinodes : g'.inodesPerGroup = 0) (stack : Stack) (inode : ℕ) :
    initExt2 vol stack inode g [blank, blank] = .error .divideByZero := by
  obtain ⟨groupdescr, hgroup⟩ : ∃ buf, ext2RdBlock vol vol.drive
      (vol.lba + g'.gdoffset) 2 1024 stack.groupdescr = .ok buf := by
    unfold ext2RdBlock
    split
    · exact ⟨_, rfl⟩
    · exact ⟨_, if_pos (by decide)⟩
  have hinode : readInode vol vol.drive { g' with grblock := groupdescr } inode
      stack.inodebuff = .error .divideByZero := by
    have hlba : inodeToLba { g' with grblock := groupdescr } inode =
        .error .divideByZero := if_pos hinodes
    unfold readInode
    rw [hlba, error_bind]
  unfold initExt2 ext2RdInode
  simp only [takeFresh, ok_bind]
  rw [hsuper, ok_bind, hgroup, ok_bind, hinode]
  simp only [error_bind]

variable {super : Buffer} {g : Globals}

theorem mountsSafely_of_supported (hsuper : SupportedSuper super g) :
    MountsSafely super g := by
  have hsupported : ∀ (vol : Volume) (buf : Buffer) (g' : Globals),
      HoldsSuper vol super → ext2RdSuperblock vol buf g = .ok g' →
      g'.Supported := by
    intro vol buf g' hholds hok
    obtain ⟨g'', hok', hgood⟩ := hholds.accepted hsuper buf
    rw [hok, Except.ok.injEq] at hok'
    exact hok' ▸ hgood
  refine ⟨?_, ?_, hsupported⟩
  · intro vol inode s hholds hglobals e hbad herror
    refine freeOf_initExt2 (hholds.accepted hsuper) (s.locals 0) inode s.fresh e
      hbad ?_
    rw [← hglobals]
    exact ext2Root_eq_error_iff.mp herror
  · intro vol buf g' hholds hok vol' drive block buf' herror
    have hsize := (hsupported vol buf g' hholds hok).blockSize
    obtain ⟨_, hread⟩ : ∃ buf'', readBlock vol' drive g' block buf' = .ok buf'' :=
      readBlock_of_le vol' block buf' (by omega)
    rw [hread] at herror
    cases herror

theorem MountsSafely.supportedSuper (hmounts : MountsSafely super g) :
    SupportedSuper super g := by
  have hholds := superVolume_holds super
  cases hrun : ext2RdSuperblock (superVolume super) blank.bytes g with
  | ok g' =>
      exact hholds.supportedSuper hrun
        (hmounts.supported _ blank.bytes g' hholds hrun)
  | error e =>
      have hshift : e = .badShift := by
        obtain ⟨super', _, hcases⟩ := hholds.rdSuperblock blank.bytes g
        rw [hrun] at hcases
        split at hcases
        · split at hcases
          · cases hcases
          · cases hcases
            rfl
        · cases hcases
      refine absurd ?_ (hmounts.arithmetic (superVolume super) 2
        (twoBlockState g) hholds rfl e (Or.inr hshift))
      exact ext2Root_eq_error_iff.mpr (initExt2_eq_error hrun _ _)

/-- A mount is safe exactly when the superblock has inodes in its groups and
its block size is supported, or with a bad magic number the one before. -/
theorem mountsSafely_iff_supported (super : Buffer) (g : Globals) :
    MountsSafely super g ↔ SupportedSuper super g :=
  ⟨MountsSafely.supportedSuper, mountsSafely_of_supported⟩

/-- After a mount with blocks of 1024 bytes, a superblock of zeros is used
although its magic number is bad. -/
theorem zero_superblock_divides : ¬ MountsSafely (fun _ => 0) twoGroups := by
  intro hmounts
  have harith := hmounts.arithmetic (superVolume fun _ => 0) 2
    (twoBlockState twoGroups) (superVolume_holds fun _ => 0) rfl
  refine harith .divideByZero (Or.inl rfl) ?_
  rw [ext2Root_eq_error_iff]
  rfl

end Ext2
end Janus86
