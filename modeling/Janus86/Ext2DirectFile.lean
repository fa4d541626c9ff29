import Janus86.ChunkStores
import Janus86.Ext2FileBlocks

/-!
# Files of direct blocks

A hole is left out of the copy, so the blocks behind it are stored in its
place, and 4096 bytes are stored for each block whatever the block size is.
Both are harmless exactly when no block that holds a byte of the file is a
hole and either the blocks have 4096 bytes or there is only one of them.
-/

namespace Janus86
namespace Ext2

open ChunkStores

/-- A regular file that uses only direct blocks. -/
structure DirectFile where
  bs : ℕ
  iblock : ℕ → ℕ
  size : ℕ
  blockSize : bs = 1024 ∨ bs = 2048 ∨ bs = 4096
  single_eq : iblock 12 = 0
  double_eq : iblock 13 = 0
  size_le : size ≤ 12 * bs

/-- Byte `p` of a file: 0 in a hole. -/
def fileByte (vol : Volume) (g : Globals) (iblock : ℕ → ℕ) (p : ℕ) : UInt8 :=
  if iblock (p / g.bs) = 0 then 0
  else blockBytes vol 0 g (iblock (p / g.bs)) (p % g.bs)

/-- Whatever is on the disk, in the local arrays and at the destination, the
bytes of the file are at the destination after the call. -/
def DirectFile.Loads (f : DirectFile) : Prop :=
  ∀ (vol : Volume) (g : Globals) (stack : Stack) (stale loc : ℕ),
    (∀ sector, vol.disk.readable 0 sector = true) → g.bs = f.bs →
    ∃ chunks, ext2RdFile vol stack stale g f.iblock = .ok chunks ∧
      ∀ mem, ∀ p < f.size,
        applyStores mem (chunkStores 4096 loc chunks) (loc + p) =
          fileByte vol g f.iblock p

def DirectFile.NoHoles (f : DirectFile) : Prop :=
  ∀ k, k * f.bs < f.size → f.iblock k ≠ 0

variable {vol : Volume} {g : Globals} {iblock : ℕ → ℕ}

theorem DirectFile.rdFile (f : DirectFile) (stack : Stack) (stale : ℕ)
    {c : FileCursor}
    (hrun : rdDirect vol g f.iblock ⟨[], stack.databuf, stack.indirectbuf,
      stack.indirect2buf, none⟩ = .ok c) :
    ext2RdFile vol stack stale g f.iblock = .ok c.chunks := by
  refine bind_eq_ok_iff.mpr ⟨c, hrun, bind_eq_ok_iff.mpr ⟨c, ?_,
    bind_eq_ok_iff.mpr ⟨c, ?_, rfl⟩⟩⟩
  · exact if_pos f.single_eq
  · exact if_pos f.double_eq

/-! ## The blocks in front of the first hole -/

/-- After `i` turns the blocks in front of the first hole are stored, each at
its place. -/
structure PrefixStored (vol : Volume) (g : Globals) (iblock : ℕ → ℕ) (i : ℕ)
    (c : FileCursor) : Prop where
  length_eq : (∀ j < i, iblock j ≠ 0) → c.chunks.length = i
  stored : ∀ k < i, (∀ j ≤ k, iblock j ≠ 0) →
    ∃ chunk, c.chunks[k]? = some chunk ∧
      ∀ o < g.bs, chunk o = blockBytes vol 0 g (iblock k) o

theorem PrefixStored.hole {i : ℕ} {c : FileCursor}
    (hstored : PrefixStored vol g iblock i c) (hhole : iblock i = 0) :
    PrefixStored vol g iblock (i + 1) c where
  length_eq := fun hne => absurd hhole (hne i (Nat.lt_succ_self i))
  stored := by
    intro k hk hne
    have hlt : k < i := by
      by_contra hge
      exact hne i (by omega) hhole
    exact hstored.stored k hlt hne

theorem PrefixStored.copyBlock {i : ℕ} {c : FileCursor}
    (hread : ∀ sector, vol.disk.readable 0 sector = true)
    (hbs : g.bs = 1024 ∨ g.bs = 2048 ∨ g.bs = 4096)
    (hstored : PrefixStored vol g iblock i c) :
    ∃ c', copyBlock vol g (iblock i) c = .ok c' ∧
      PrefixStored vol g iblock (i + 1) c' := by
  obtain ⟨buf, hok, hbytes⟩ := readBlock_of_readable c.databuf (iblock i)
    hread hbs
  refine ⟨_, bind_eq_ok_iff.mpr ⟨buf, hok, rfl⟩, ?_, ?_⟩
  · intro hne
    rw [List.length_append, List.length_singleton,
      hstored.length_eq fun j hj => hne j (by omega)]
  · intro k hk hne
    rcases Nat.lt_succ_iff_lt_or_eq.mp hk with hlt | rfl
    · obtain ⟨chunk, hchunk, hbyte⟩ := hstored.stored k hlt hne
      refine ⟨chunk, ?_, hbyte⟩
      rw [List.getElem?_append_left (List.getElem?_eq_some_iff.mp hchunk).1]
      exact hchunk
    · have hlen := hstored.length_eq fun j hj => hne j hj.le
      refine ⟨buf, ?_, hbytes⟩
      rw [List.getElem?_append_right hlen.le, hlen, Nat.sub_self]
      rfl

theorem rdDirect_prefixStored (iblock : ℕ → ℕ) {c : FileCursor}
    (hempty : c.chunks = [])
    (hread : ∀ sector, vol.disk.readable 0 sector = true)
    (hbs : g.bs = 1024 ∨ g.bs = 2048 ∨ g.bs = 4096) :
    ∃ c', rdDirect vol g iblock c = .ok c' ∧
      PrefixStored vol g iblock 12 c' := by
  refine StepMachine.exists_foldlM_range (PrefixStored vol g iblock) 12
    ⟨fun _ => by rw [hempty]; rfl, by simp⟩ ?_
  intro i c hi hstored
  by_cases hhole : iblock i = 0
  · rw [if_pos hhole]
    exact ⟨c, rfl, hstored.hole hhole⟩
  · rw [if_neg hhole]
    exact hstored.copyBlock hread hbs

theorem DirectFile.bs_pos (f : DirectFile) : 0 < f.bs := by
  have := f.blockSize
  omega

theorem DirectFile.div_eq {f : DirectFile} (hfit : f.bs = 4096 ∨ f.size ≤ f.bs)
    {p : ℕ} (hp : p < f.size) :
    p / 4096 = p / f.bs ∧ p % 4096 = p % f.bs := by
  rcases hfit with hbs | hle
  · rw [hbs]
    exact ⟨rfl, rfl⟩
  · have hlt : p < f.bs := by omega
    have hlt' : p < 4096 := by have := f.blockSize; omega
    rw [Nat.div_eq_of_lt hlt, Nat.div_eq_of_lt hlt', Nat.mod_eq_of_lt hlt,
      Nat.mod_eq_of_lt hlt']
    exact ⟨rfl, rfl⟩

theorem DirectFile.loads_of {f : DirectFile} (hholes : f.NoHoles)
    (hfit : f.bs = 4096 ∨ f.size ≤ f.bs) : f.Loads := by
  intro vol g stack stale loc hread hbs
  have hsize := hbs ▸ f.blockSize
  obtain ⟨c, hrun, hstored⟩ := rdDirect_prefixStored f.iblock
    (c := ⟨[], stack.databuf, stack.indirectbuf, stack.indirect2buf, none⟩)
    rfl hread hsize
  refine ⟨c.chunks, f.rdFile stack stale hrun, ?_⟩
  rw [applyStores_eq_iff (by decide)]
  intro p hp
  obtain ⟨hdiv, hmod⟩ := DirectFile.div_eq hfit hp
  have hne : ∀ j ≤ p / f.bs, f.iblock j ≠ 0 := by
    intro j hj
    apply hholes
    calc j * f.bs ≤ p / f.bs * f.bs := Nat.mul_le_mul_right f.bs hj
      _ ≤ p := Nat.div_mul_le_self p f.bs
      _ < f.size := hp
  have hlt : p / f.bs < 12 := by
    rw [Nat.div_lt_iff_lt_mul f.bs_pos]
    exact lt_of_lt_of_le hp f.size_le
  obtain ⟨chunk, hchunk, hbyte⟩ := hstored.stored _ hlt hne
  refine ⟨chunk, hdiv ▸ hchunk, ?_⟩
  rw [hmod, fileByte, hbs, if_neg (hne _ le_rfl)]
  exact hbyte _ (lt_of_lt_of_eq (Nat.mod_lt p f.bs_pos) hbs.symm)

/-! ## A disk that tells the bytes apart -/

def onesVolume : Volume where
  disk := { readable := fun _ _ => true, byte := fun _ _ _ => 1 }
  drive := 0
  lba := 0

def twosStack : Stack := { zeroStack with databuf := fun _ => 2 }

def OnesThenTwos (bs : ℕ) (chunk : Buffer) : Prop :=
  ∀ o, chunk o = if o < bs then 1 else 2

/-- `databuf` has its first bytes from the disk, or none. -/
structure OnesStored (bs : ℕ) (c : FileCursor) : Prop where
  two_of_le : ∀ o, bs ≤ o → c.databuf o = 2
  stored : ∀ chunk ∈ c.chunks, OnesThenTwos bs chunk

theorem OnesStored.copyBlock {c : FileCursor} (block : ℕ)
    (hbs : g.bs = 1024 ∨ g.bs = 2048 ∨ g.bs = 4096)
    (hones : OnesStored g.bs c) :
    ∃ c', copyBlock onesVolume g block c = .ok c' ∧ OnesStored g.bs c' := by
  have hsectors : 512 * (g.bs / 512) = g.bs := by omega
  obtain ⟨buf, hok, hbuf⟩ : ∃ buf,
      readBlock onesVolume 0 g block c.databuf = .ok buf ∧
        OnesThenTwos g.bs buf := by
    refine ⟨fun o => if o < 512 * (g.bs / 512) then 1 else c.databuf o, ?_, ?_⟩
    · have hfits : 512 * (g.bs / 512) ≤ 4096 := by omega
      unfold readBlock ext2RdBlock
      rw [readDiskSector_of_readable c.databuf fun i _ => rfl]
      exact if_pos hfits
    · intro o
      simp only [hsectors]
      by_cases ho : o < g.bs
      · rw [if_pos ho, if_pos ho]
      · rw [if_neg ho, if_neg ho, hones.two_of_le o (not_lt.mp ho)]
  refine ⟨_, bind_eq_ok_iff.mpr ⟨buf, hok, rfl⟩, ?_, ?_⟩
  · intro o ho
    exact (hbuf o).trans (if_neg (not_lt.mpr ho))
  · intro chunk hchunk
    rcases List.mem_append.mp hchunk with hold | hnew
    · exact hones.stored chunk hold
    · rw [List.mem_singleton.mp hnew]
      exact hbuf

theorem rdDirect_onesStored (iblock : ℕ → ℕ) {c : FileCursor}
    (hbs : g.bs = 1024 ∨ g.bs = 2048 ∨ g.bs = 4096)
    (hones : OnesStored g.bs c) :
    ∃ c', rdDirect onesVolume g iblock c = .ok c' ∧ OnesStored g.bs c' := by
  refine StepMachine.exists_foldlM_range (fun _ c => OnesStored g.bs c) 12
    hones ?_
  intro i c _ hinv
  by_cases hhole : iblock i = 0
  · rw [if_pos hhole]
    exact ⟨c, rfl, hinv⟩
  · rw [if_neg hhole]
    exact hinv.copyBlock _ hbs

/-- On this disk a byte of a hole is neither on the disk nor in `databuf`. -/
theorem DirectFile.Loads.onesThenTwos {f : DirectFile} (hloads : f.Loads)
    {p : ℕ} (hp : p < f.size) :
    (if f.iblock (p / f.bs) = 0 then 0 else 1 : UInt8) =
      if p % 4096 < f.bs then 1 else 2 := by
  let g : Globals := { twoGroups with bs := f.bs }
  obtain ⟨c, hrun, hones⟩ := rdDirect_onesStored (g := g) f.iblock
    (c := ⟨[], twosStack.databuf, twosStack.indirectbuf,
      twosStack.indirect2buf, none⟩) f.blockSize
    ⟨fun _ _ => rfl, by simp⟩
  obtain ⟨chunks, hok, hbytes⟩ := hloads onesVolume g twosStack 0 0
    (fun _ => rfl) rfl
  rw [f.rdFile twosStack 0 hrun, Except.ok.injEq] at hok
  subst hok
  rw [applyStores_eq_iff (by decide)] at hbytes
  obtain ⟨chunk, hchunk, hbyte⟩ := hbytes p hp
  rw [hones.stored chunk (List.mem_of_getElem? hchunk)] at hbyte
  exact hbyte.symm

theorem DirectFile.Loads.noHoles {f : DirectFile} (hloads : f.Loads) :
    f.NoHoles := by
  intro k hk hhole
  have hbyte := hloads.onesThenTwos hk
  rw [Nat.mul_div_cancel k f.bs_pos, if_pos hhole] at hbyte
  split at hbyte
  · exact absurd hbyte (by decide)
  · exact absurd hbyte (by decide)

theorem DirectFile.Loads.size_le_bs {f : DirectFile} (hloads : f.Loads) :
    f.bs = 4096 ∨ f.size ≤ f.bs := by
  by_contra hnot
  push Not at hnot
  obtain ⟨hbs, hlt⟩ := hnot
  have hsmall : f.bs < 4096 := by have := f.blockSize; omega
  have hbyte := hloads.onesThenTwos hlt
  rw [Nat.mod_eq_of_lt hsmall, if_neg (lt_irrefl f.bs)] at hbyte
  split at hbyte
  · exact absurd hbyte (by decide)
  · exact absurd hbyte (by decide)

/-- A file of direct blocks is loaded as it should be exactly when it has no
holes and fits the unit of the copy. -/
theorem DirectFile.loads_iff_noHoles (f : DirectFile) :
    f.Loads ↔ f.NoHoles ∧ (f.bs = 4096 ∨ f.size ≤ f.bs) :=
  ⟨fun hloads => ⟨hloads.noHoles, hloads.size_le_bs⟩,
    fun h => DirectFile.loads_of h.1 h.2⟩

/-- Blocks of 1024 bytes, a hole, then block 5. -/
def holeFirst : DirectFile where
  bs := 1024
  iblock := fun k => if k = 1 then 5 else 0
  size := 2048
  blockSize := Or.inl rfl
  single_eq := rfl
  double_eq := rfl
  size_le := by decide

theorem hole_filled_with_next_block : ¬ holeFirst.Loads := by
  intro hloads
  exact hloads.noHoles 0 (by decide) rfl

end Ext2
end Janus86
