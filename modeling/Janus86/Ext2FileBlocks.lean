import Janus86.Ext2Directory

/-!
# The blocks that ext2_rd_file stores

Each store of the driver is followed here by the number of the block whose
bytes it stores, through the three phases of the function.  The first two
phases are as they should be.  In the third phase the data are fetched with
`sind`, which points into the block of tables, so each second-level table is
stored 1024 times in the place of the blocks that it lists.
-/

namespace Janus86
namespace Ext2

open StepMachine

/-- Entry `j` of a block of block numbers. -/
def blockEntry (vol : Volume) (g : Globals) (block j : ℕ) : ℕ :=
  le32 (blockBytes vol 0 g block) (4 * j)

/-- The block with logical number `k` of a file with 4096-byte blocks. -/
def logicalBlock (vol : Volume) (g : Globals) (iblock : ℕ → ℕ) (k : ℕ) : ℕ :=
  if k < 12 then iblock k
  else if k < 1036 then blockEntry vol g (iblock 12) (k - 12)
  else blockEntry vol g (blockEntry vol g (iblock 13) ((k - 1036) / 1024))
    ((k - 1036) % 1024)

/-- The block whose bytes the driver stores as chunk `k`. -/
def storedBlock (vol : Volume) (g : Globals) (iblock : ℕ → ℕ) (k : ℕ) : ℕ :=
  if k < 12 then iblock k
  else if k < 1036 then blockEntry vol g (iblock 12) (k - 12)
  else blockEntry vol g (iblock 13) ((k - 1036) / 1024)

/-- A file of `n` blocks that needs the doubly indirect blocks and has no
holes. -/
structure LargeFile (vol : Volume) (g : Globals) (iblock : ℕ → ℕ) (n : ℕ) :
    Prop where
  readable : ∀ sector, vol.disk.readable 0 sector = true
  blockSize : g.bs = 4096
  doubly : 1036 < n
  le_doubly : n ≤ 1036 + 1024 * 1024
  single_ne : iblock 12 ≠ 0
  double_ne : iblock 13 ≠ 0
  table_ne : ∀ k, 1036 ≤ k → k < n →
    blockEntry vol g (iblock 13) ((k - 1036) / 1024) ≠ 0
  block_ne : ∀ k < n, logicalBlock vol g iblock k ≠ 0

/-- The first `n` chunks are the logical blocks of the file. -/
def StoresLogicalBlocks (vol : Volume) (stack : Stack) (stale : ℕ)
    (g : Globals) (iblock : ℕ → ℕ) (n : ℕ) : Prop :=
  ∃ chunks, ext2RdFile vol stack stale g iblock = .ok chunks ∧
    ∀ k < n, ∃ chunk, chunks[k]? = some chunk ∧
      ∀ o < 4096, chunk o = blockBytes vol 0 g (logicalBlock vol g iblock k) o

variable {vol : Volume} {g : Globals} {iblock : ℕ → ℕ} {n : ℕ}

/-- `n` chunks are stored, and chunk `k` has the bytes of block `f k`. -/
def Copied (vol : Volume) (g : Globals) (f : ℕ → ℕ) (n : ℕ) (c : FileCursor) :
    Prop :=
  c.chunks.length = n ∧ ∀ k chunk, c.chunks[k]? = some chunk →
    ∀ o < g.bs, chunk o = blockBytes vol 0 g (f k) o

section Phases

variable {f : ℕ → ℕ} {c : FileCursor}

theorem copyBlock_copied
    (hread : ∀ sector, vol.disk.readable 0 sector = true)
    (hbs : g.bs = 1024 ∨ g.bs = 2048 ∨ g.bs = 4096)
    (hcopied : Copied vol g f n c) :
    ∃ c', copyBlock vol g (f n) c = .ok c' ∧ Copied vol g f (n + 1) c' := by
  obtain ⟨buf, hok, hbytes⟩ := readBlock_of_readable c.databuf (f n) hread hbs
  obtain ⟨hlen, hchunks⟩ := hcopied
  refine ⟨_, bind_eq_ok_iff.mpr ⟨buf, hok, rfl⟩, ?_, ?_⟩
  · simp [hlen]
  · intro k chunk hchunk
    rcases lt_or_ge k n with hlt | hge
    · rw [List.getElem?_append_left (by omega)] at hchunk
      exact hchunks k chunk hchunk
    · rw [List.getElem?_append_right (by omega), hlen,
        List.getElem?_singleton] at hchunk
      split at hchunk
      · next hzero =>
          rw [Option.some.injEq] at hchunk
          rw [← hchunk, show k = n by omega]
          exact hbytes
      · cases hchunk

theorem rdDirect_copied
    (hread : ∀ sector, vol.disk.readable 0 sector = true)
    (hbs : g.bs = 1024 ∨ g.bs = 2048 ∨ g.bs = 4096)
    (hf : ∀ k < 12, f k = iblock k) (hne : ∀ k < 12, iblock k ≠ 0)
    (hcopied : Copied vol g f 0 c) :
    ∃ c', rdDirect vol g iblock c = .ok c' ∧ Copied vol g f 12 c' := by
  refine exists_foldlM_range (Copied vol g f) 12 hcopied ?_
  intro k s hk hinv
  rw [if_neg (hne k hk), ← hf k hk]
  exact copyBlock_copied hread hbs hinv

theorem tableEntry_eq {buf : Buffer} {block j : ℕ} (hbs : g.bs = 4096)
    (hbytes : ∀ o < g.bs, buf o = blockBytes vol 0 g block o) (hj : j < 1024) :
    tableEntry buf j = .ok (blockEntry vol g block j) := by
  rw [tableEntry, if_pos (by omega), blockEntry,
    le32_congr fun i _ _ => hbytes i (by omega)]

theorem rdSinglyIndirect_copied
    (hread : ∀ sector, vol.disk.readable 0 sector = true)
    (hbs : g.bs = 4096) {block : ℕ} (hne : block ≠ 0)
    (hf : ∀ j < 1024, f (n + j) = blockEntry vol g block j)
    (hcopied : Copied vol g f n c) :
    ∃ c', rdSinglyIndirect vol g block c = .ok c' ∧
      Copied vol g f (n + 1024) c' := by
  obtain ⟨buf, hok, hbytes⟩ := readBlock_of_readable c.indirectbuf block hread
    (Or.inr (Or.inr hbs))
  have hloop : ∃ c', (List.range 1024).foldlM
      (fun c j => tableEntry buf j >>= fun siblock => copyBlock vol g siblock c)
      { c with indirectbuf := buf } = .ok c' ∧ Copied vol g f (n + 1024) c' := by
    refine exists_foldlM_range (fun j c => Copied vol g f (n + j) c)
      1024 hcopied ?_
    intro j s hj hinv
    rw [tableEntry_eq hbs hbytes hj, ← hf j hj]
    exact copyBlock_copied hread (Or.inr (Or.inr hbs)) hinv
  obtain ⟨c', hrun, hcopied'⟩ := hloop
  refine ⟨c', ?_, hcopied'⟩
  have hquarter : g.bs / 4 = 1024 := by rw [hbs]
  rw [rdSinglyIndirect, if_neg hne, hquarter]
  exact bind_eq_ok_iff.mpr ⟨buf, hok, hrun⟩

/-- Whatever table is fetched for the pointer `dind`, the block that `sind`
points to is stored 1024 times. -/
theorem rdSecondLevel_copied (stale siblock : ℕ)
    (hread : ∀ sector, vol.disk.readable 0 sector = true) (hbs : g.bs = 4096)
    (hf : ∀ l < 1024, f (n + l) = siblock) (hcopied : Copied vol g f n c) :
    ∃ c', rdSecondLevel vol g stale siblock c = .ok c' ∧
      Copied vol g f (n + 1024) c' := by
  have hquarter : g.bs / 4 = 1024 := by rw [hbs]
  obtain ⟨buf, hok, _⟩ := readBlock_of_readable c.indirect2buf
    (c.diblock stale) hread (Or.inr (Or.inr hbs))
  have hloop : ∃ c', (List.range 1024).foldlM
      (fun c l => copyBlock vol g siblock { c with dind := some (4 * l) })
      { c with indirect2buf := buf } = .ok c' ∧ Copied vol g f (n + 1024) c' := by
    refine exists_foldlM_range (fun l c => Copied vol g f (n + l) c) 1024
      hcopied ?_
    intro l s hl hinv
    rw [← hf l hl]
    exact copyBlock_copied hread (Or.inr (Or.inr hbs)) hinv
  obtain ⟨c', hrun, hcopied'⟩ := hloop
  refine ⟨c', ?_, hcopied'⟩
  rw [rdSecondLevel, hquarter]
  exact bind_eq_ok_iff.mpr ⟨buf, hok, hrun⟩

theorem rdDoublyIndirect_copied
    (hread : ∀ sector, vol.disk.readable 0 sector = true)
    (hbs : g.bs = 4096) {stale block : ℕ} (hne : block ≠ 0)
    (hf : ∀ j < 1024 * 1024,
      f (n + j) = blockEntry vol g block (j / 1024))
    (hcopied : Copied vol g f n c) :
    ∃ c', rdDoublyIndirect vol g stale block c = .ok c' ∧
      Copied vol g f (n + 1024 * 1024) c' := by
  obtain ⟨buf, hok, hbytes⟩ := readBlock_of_readable c.indirectbuf block hread
    (Or.inr (Or.inr hbs))
  have hloop : ∃ c', (List.range 1024).foldlM
      (fun c j => tableEntry buf j >>= fun siblock =>
        rdSecondLevel vol g stale siblock c)
      { c with indirectbuf := buf } = .ok c' ∧
        Copied vol g f (n + 1024 * 1024) c' := by
    refine exists_foldlM_range
      (fun j c => Copied vol g f (n + 1024 * j) c) 1024 hcopied ?_
    intro j s hj hinv
    rw [tableEntry_eq hbs hbytes hj]
    have hsum : n + 1024 * (j + 1) = n + 1024 * j + 1024 := by ring
    rw [hsum]
    apply rdSecondLevel_copied stale (blockEntry vol g block j) hread hbs _ hinv
    intro l hl
    have hdiv : (1024 * j + l) / 1024 = j := by omega
    rw [Nat.add_assoc, hf _ (by omega), hdiv]
  obtain ⟨c', hrun, hcopied'⟩ := hloop
  refine ⟨c', ?_, hcopied'⟩
  have hquarter : g.bs / 4 = 1024 := by rw [hbs]
  rw [rdDoublyIndirect, if_neg hne, hquarter]
  exact bind_eq_ok_iff.mpr ⟨buf, hok, hrun⟩

end Phases

theorem storedBlock_eq_logicalBlock {k : ℕ} (hk : k < 1036) :
    storedBlock vol g iblock k = logicalBlock vol g iblock k := by
  simp [storedBlock, logicalBlock, hk]

theorem LargeFile.rdFile (hfile : LargeFile vol g iblock n) (stack : Stack)
    (stale : ℕ) :
    ∃ chunks, ext2RdFile vol stack stale g iblock = .ok chunks ∧
      ∀ k < n, ∃ chunk, chunks[k]? = some chunk ∧
        ∀ o < 4096, chunk o = blockBytes vol 0 g (storedBlock vol g iblock k) o := by
  have hread := hfile.readable
  have hbs := hfile.blockSize
  have hle := hfile.le_doubly
  have hdirect : ∀ k < 12, iblock k ≠ 0 := by
    intro k hk
    have hne := hfile.block_ne k (by have := hfile.doubly; omega)
    rwa [logicalBlock, if_pos hk] at hne
  obtain ⟨c₁, hrun₁, hcopied₁⟩ := rdDirect_copied
    (f := storedBlock vol g iblock)
    (c := ⟨[], stack.databuf, stack.indirectbuf, stack.indirect2buf, none⟩)
    hread (Or.inr (Or.inr hbs)) (fun k hk => by rw [storedBlock, if_pos hk])
    hdirect ⟨rfl, by simp⟩
  obtain ⟨c₂, hrun₂, hcopied₂⟩ := rdSinglyIndirect_copied hread hbs
    hfile.single_ne (fun j hj => by
      rw [storedBlock, if_neg (by omega), if_pos (by omega),
        Nat.add_sub_cancel_left]) hcopied₁
  obtain ⟨c₃, hrun₃, hlen, hchunks⟩ := rdDoublyIndirect_copied hread hbs
    hfile.double_ne (fun j hj => by
      rw [storedBlock, if_neg (by omega), if_neg (by omega),
        Nat.add_sub_cancel_left]) hcopied₂
  refine ⟨c₃.chunks, bind_eq_ok_iff.mpr ⟨c₁, hrun₁, bind_eq_ok_iff.mpr
    ⟨c₂, hrun₂, bind_eq_ok_iff.mpr ⟨c₃, hrun₃, rfl⟩⟩⟩, ?_⟩
  intro k hk
  obtain ⟨chunk, hchunk⟩ : ∃ chunk, c₃.chunks[k]? = some chunk :=
    ⟨c₃.chunks.get ⟨k, by omega⟩, by simp⟩
  refine ⟨chunk, hchunk, ?_⟩
  have hbytes := hchunks k _ hchunk
  rwa [hbs] at hbytes

theorem LargeFile.storesLogicalBlocks_of
    (hfile : LargeFile vol g iblock n) (stack : Stack) (stale : ℕ)
    (hsame : ∀ k, 1036 ≤ k → k < n → ∀ o < 4096,
      blockBytes vol 0 g (blockEntry vol g (iblock 13) ((k - 1036) / 1024)) o =
        blockBytes vol 0 g (logicalBlock vol g iblock k) o) :
    StoresLogicalBlocks vol stack stale g iblock n := by
  obtain ⟨chunks, hrun, hchunks⟩ := hfile.rdFile stack stale
  refine ⟨chunks, hrun, ?_⟩
  intro k hk
  obtain ⟨chunk, hchunk, hbytes⟩ := hchunks k hk
  refine ⟨chunk, hchunk, ?_⟩
  intro o ho
  rw [hbytes o ho]
  by_cases hlt : k < 1036
  · rw [storedBlock_eq_logicalBlock hlt]
  · rw [storedBlock, if_neg (by omega), if_neg hlt]
    exact hsame k (by omega) hk o ho

theorem LargeFile.tables_of_stores (hfile : LargeFile vol g iblock n)
    {stack : Stack} {stale : ℕ}
    (hstores : StoresLogicalBlocks vol stack stale g iblock n) :
    ∀ k, 1036 ≤ k → k < n → ∀ o < 4096,
      blockBytes vol 0 g (blockEntry vol g (iblock 13) ((k - 1036) / 1024)) o =
        blockBytes vol 0 g (logicalBlock vol g iblock k) o := by
  intro k hge hk o ho
  obtain ⟨chunks, hrun, hchunks⟩ := hfile.rdFile stack stale
  obtain ⟨chunks', hrun', hchunks'⟩ := hstores
  rw [hrun, Except.ok.injEq] at hrun'
  obtain ⟨chunk, hchunk, hbytes⟩ := hchunks k hk
  obtain ⟨chunk', hchunk', hbytes'⟩ := hchunks' k hk
  rw [← hrun', hchunk, Option.some.injEq] at hchunk'
  rw [← hbytes' o ho, ← hchunk', hbytes o ho, storedBlock,
    if_neg (by omega), if_neg (by omega)]

/-- The file is stored as it should be exactly when each of its doubly
indirect blocks has the same bytes as the table that lists it. -/
theorem LargeFile.storesLogicalBlocks_iff (hfile : LargeFile vol g iblock n)
    (stack : Stack) (stale : ℕ) :
    StoresLogicalBlocks vol stack stale g iblock n ↔
      ∀ k, 1036 ≤ k → k < n → ∀ o < 4096,
        blockBytes vol 0 g (blockEntry vol g (iblock 13) ((k - 1036) / 1024)) o =
          blockBytes vol 0 g (logicalBlock vol g iblock k) o :=
  ⟨hfile.tables_of_stores, hfile.storesLogicalBlocks_of stack stale⟩

/-! ## A file of 1037 blocks -/

/-- Block 13 lists data blocks, block 14 lists the table in block 15, and the
table lists block 16. -/
def largeVolume : Volume where
  disk :=
    { readable := fun _ _ => true
      byte := fun _ n o =>
        if 104 ≤ n ∧ n < 112 then 1
        else if o = 0 ∧ n = 112 then 15
        else if o = 0 ∧ n = 120 then 16
        else if o = 0 ∧ n = 128 then 7
        else 0 }
  drive := 0
  lba := 0

def largeGlobals : Globals := { twoGroups with bs := 4096, gdoffset := 6 }

def zeroStack : Stack :=
  ⟨fun _ => 0, fun _ => 0, fun _ => 0, fun _ => 0, fun _ => 0, fun _ => 0,
    fun _ => 0⟩

theorem blockEntry_thirteen {j : ℕ} (hj : j < 1024) :
    blockEntry largeVolume largeGlobals 13 j = 0x01010101 := by
  have hone : ∀ o < 4096, blockBytes largeVolume 0 largeGlobals 13 o = 1 := by
    intro o ho
    have hsector : 104 ≤ 104 + o / 512 ∧ 104 + o / 512 < 112 := by omega
    change (if 104 ≤ 104 + o / 512 ∧ 104 + o / 512 < 112 then (1 : UInt8)
      else _) = 1
    rw [if_pos hsector]
  simp only [blockEntry, le32, le16]
  rw [hone _ (by omega), hone _ (by omega), hone _ (by omega), hone _ (by omega)]
  rfl

theorem largeFile :
    LargeFile largeVolume largeGlobals (fun k => k + 1) 1037 where
  readable := fun _ => rfl
  blockSize := rfl
  doubly := by decide
  le_doubly := by decide
  single_ne := by decide
  double_ne := by decide
  table_ne := by
    intro k hge hk
    obtain rfl : k = 1036 := by omega
    decide
  block_ne := by
    intro k hk
    unfold logicalBlock
    split
    · exact Nat.succ_ne_zero k
    · split
      · rw [blockEntry_thirteen (by omega)]
        decide
      · obtain rfl : k = 1036 := by omega
        decide

theorem storesLogicalBlocks_iff_largeFile :
    StoresLogicalBlocks largeVolume zeroStack 0 largeGlobals (fun k => k + 1)
        1037 ↔
      ∀ k, 1036 ≤ k → k < 1037 → ∀ o < 4096,
        blockBytes largeVolume 0 largeGlobals
            (blockEntry largeVolume largeGlobals 14 ((k - 1036) / 1024)) o =
          blockBytes largeVolume 0 largeGlobals
            (logicalBlock largeVolume largeGlobals (fun k => k + 1) k) o :=
  largeFile.storesLogicalBlocks_iff zeroStack 0

/-- In the place of block 16 the driver stores the table in block 15. -/
theorem doubly_indirect_block_missed :
    ¬ StoresLogicalBlocks largeVolume zeroStack 0 largeGlobals
      (fun k => k + 1) 1037 := by
  intro hstores
  have hbyte := largeFile.tables_of_stores hstores 1036 (by decide)
    (by decide) 0 (by decide)
  revert hbyte
  decide

end Ext2
end Janus86
