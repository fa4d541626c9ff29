import Janus86.Ext2Directory
import Janus86.Fat32FileLoad

/-!
# Where the loaders store

The loaders store whole sectors, or whole arrays of 4096 bytes, from the
destination on, so they stay inside the file's range exactly when there are
few enough of them.
-/

namespace Janus86

open ChunkStores

/-- A call returns, and all its stores go into a range of bytes.  There is no
range at `NULL`. -/
def StoresOnlyInto (result : Except Fault Load) (unit loc size : ℕ) : Prop :=
  ∃ load, result = .ok load ∧ ∀ s ∈ chunkStores unit loc load.chunks,
    loc ≠ 0 ∧ loc ≤ s.1 ∧ s.1 < loc + size

/-- The bytes that may be stored. -/
def allowance (loc size : ℕ) : ℕ := if loc = 0 then 0 else size

theorem storesOnlyInto_iff (result : Except Fault Load) (unit loc size : ℕ) :
    StoresOnlyInto result unit loc size ↔ ∃ load, result = .ok load ∧
      unit * load.chunks.length ≤ allowance loc size := by
  have hstores : ∀ chunks : List Buffer,
      (∀ s ∈ chunkStores unit loc chunks,
          loc ≠ 0 ∧ loc ≤ s.1 ∧ s.1 < loc + size) ↔
        unit * chunks.length ≤ allowance loc size := by
    intro chunks
    rw [← forall_chunkStores_lt_iff loc]
    unfold allowance
    by_cases hloc : loc = 0
    · simp [hloc]
    · simp [hloc]
  simp only [StoresOnlyInto, hstores]

/-! ## FAT32 -/

namespace Fat32

variable {vol : Volume} {g : Globals} {fuel cluster : ℕ}
  {chunks : List Buffer}

theorem mmapCopy_length_eq_zero_iff (cluster n : ℕ) :
    (mmapCopy vol g cluster n 0).1.length = 0 ↔
      n = 0 ∨ sectorReadable vol g cluster 0 = false := by
  have hcopied := mmapCopy_copied vol g cluster n 0
  constructor
  · intro hzero
    cases hdone : (mmapCopy vol g cluster n 0).2 with
    | true => exact Or.inl (hcopied.finished hdone ▸ hzero)
    | false =>
        have hunread := (hcopied.stopped hdone).2
        rw [hzero] at hunread
        exact Or.inr hunread
  · rintro (rfl | hunread)
    · rfl
    · by_contra hne
      have hread := (hcopied.bytes 0 _
        (List.getElem?_eq_getElem (Nat.pos_of_ne_zero hne))).1
      rw [Nat.zero_add, hunread] at hread
      cases hread

theorem length_eq_zero_iff {size : ℤ}
    (hok : fat32Mmap vol g fuel cluster size = .ok chunks) :
    chunks.length = 0 ↔
      mmapSectors size = 0 ∨ sectorReadable vol g cluster 0 = false := by
  rw [← mmapCopy_length_eq_zero_iff]
  constructor
  · intro hzero
    obtain ⟨fuel', more, rfl, rfl, _⟩ := fat32Mmap_ok hok
    rw [List.length_append] at hzero
    omega
  · intro hfirst
    by_cases hlow : size < -510
    · rw [fat32Mmap_eq_nil hok hlow]
      rfl
    · have hturns : mmapSectors size ≠ 0 := by
        rcases le_or_gt size 0 with hle | hpos
        · rw [mmapSectors_of_nonpos hle (by omega)]
          decide
        · obtain ⟨n, rfl⟩ := Int.eq_ofNat_of_zero_le hpos.le
          rw [mmapSectors_natCast]
          omega
      have hunread : sectorReadable vol g cluster 0 = false :=
        ((mmapCopy_length_eq_zero_iff cluster _).mp hfirst).resolve_left hturns
      obtain ⟨fuel', more, rfl, rfl, hstop, _⟩ := fat32Mmap_ok hok
      rw [hstop (Or.inr (Or.inr ⟨0, by omega, hunread⟩)), List.append_nil]
      exact hfirst

/-- The sectors of the first call fill the size, and no other call stores. -/
def EndsWithFirst (vol : Volume) (g : Globals) (start size : ℕ) : Prop :=
  512 ∣ size ∧ 0 < size ∧
    (isError (fat32RdFAT vol g start) = true ∨ fat32RdFAT vol g start = 0 ∨
      sectorReadable vol g (fat32RdFAT vol g start) 0 = false)

theorem length_le_iff {size : ℕ}
    (hok : fat32Mmap vol g fuel cluster size = .ok chunks) :
    512 * chunks.length ≤ size ↔
      (∃ k < mmapSectors size, sectorReadable vol g cluster k = false) ∨
        EndsWithFirst vol g cluster size := by
  obtain ⟨fuel', more, rfl, rfl, hstop, hgo⟩ := fat32Mmap_ok hok
  have hcopied := mmapCopy_copied vol g cluster (mmapSectors size) 0
  have hturns := mmapSectors_natCast size
  rw [List.length_append]
  constructor
  · intro hle
    by_cases hunread : ∃ k < mmapSectors size,
        sectorReadable vol g cluster k = false
    · exact Or.inl hunread
    · have hlen := hcopied.finished (by
        simpa using mt (mmapCopy_eq_false_iff cluster _).mp hunread)
      refine Or.inr ⟨by omega, by omega, ?_⟩
      by_cases hstops : StopsAt vol g cluster size
      · rcases hstops with herror | hzero | hread
        · exact Or.inl herror
        · exact Or.inr (Or.inl hzero)
        · exact absurd hread hunread
      · have hmore := hgo hstops
        have hnext : ((size : ℤ) - 512) = ((size - 512 : ℕ) : ℤ) := by omega
        rw [hnext] at hmore
        have hnone := (length_eq_zero_iff hmore).mp (by omega)
        rw [mmapSectors_natCast] at hnone
        exact Or.inr (Or.inr (hnone.resolve_left (by omega)))
  · rintro (hunread | ⟨hdvd, hpos, hend⟩)
    · have hshort := (hcopied.stopped
        ((mmapCopy_eq_false_iff cluster _).mpr hunread)).1
      rw [hstop (Or.inr (Or.inr hunread)), List.length_nil]
      omega
    · have hmore : more.length = 0 := by
        by_cases hstops : StopsAt vol g cluster size
        · rw [hstop hstops, List.length_nil]
        · have hmore := hgo hstops
          rcases hend with herror | hzero | hread
          · exact absurd (Or.inl herror) hstops
          · exact absurd (Or.inr (Or.inl hzero)) hstops
          · exact (length_eq_zero_iff hmore).mpr (Or.inr hread)
      have hle := hcopied.length_le
      omega

end Fat32

/-- A call of `load_fat32` for a file that it finds. -/
structure FatLoad where
  vol : Volume
  stack : Fat32.Stack
  cluster : ℕ
  g₀ : Fat32.Globals
  fresh : List FreshBlock
  name : List UInt8
  loadMem : ℕ
  block : ℕ
  listed : Fat32.Listed
  node : FsProperties
  init : Fat32.initFat32 vol stack cluster g₀ fresh = .ok listed
  found : findName name listed.search = some node
  not_directory : node.fileType ≠ directory
  size_lt : node.size < 2 ^ 32

def FatLoad.loc (c : FatLoad) : ℕ := destination c.loadMem c.block

def FatLoad.StaysInside (c : FatLoad) : Prop :=
  StoresOnlyInto (Fat32.loadFat32 c.vol c.stack c.cluster c.g₀ c.fresh c.name
    c.loadMem c.block) 512 c.loc c.node.size

/-- The walk along the FAT ends, and the sectors stored on it have room. -/
def FatLoad.Fits (c : FatLoad) : Prop :=
  Fat32.WalkEnds c.vol c.listed.globals c.node.start (toInt32 c.node.size) ∧
    if c.loc = 0 then
      Fat32.mmapSectors (toInt32 c.node.size) = 0 ∨
        Fat32.sectorReadable c.vol c.listed.globals c.node.start 0 = false
    else 2 ^ 31 ≤ c.node.size ∨
      (∃ k < (c.node.size - 1) / 512 + 1,
        Fat32.sectorReadable c.vol c.listed.globals c.node.start k = false) ∨
      Fat32.EndsWithFirst c.vol c.listed.globals c.node.start c.node.size

theorem FatLoad.inside_iff (c : FatLoad) : c.StaysInside ↔ c.Fits := by
  have hlt := c.size_lt
  have hfuel : toInt32 c.node.size - Fat32.intMin < 512 * Fat32.mmapFuel := by
    have hle : toInt32 c.node.size < 2 ^ 31 := by
      unfold toInt32
      exact Int.bmod_lt (by decide)
    simp only [Fat32.intMin, Fat32.mmapFuel]
    omega
  unfold FatLoad.StaysInside FatLoad.Fits
  rw [storesOnlyInto_iff, Fat32.loadFat32_of_found c.init c.found c.not_directory,
    ← Fat32.fat32Mmap_returns_iff hfuel]
  simp only [bind_eq_ok_iff]
  have hcount : ∀ chunks, Fat32.fat32Mmap c.vol c.listed.globals Fat32.mmapFuel
      c.node.start (toInt32 c.node.size) = .ok chunks →
      (512 * chunks.length ≤ allowance c.loc c.node.size ↔
        if c.loc = 0 then
          Fat32.mmapSectors (toInt32 c.node.size) = 0 ∨
            Fat32.sectorReadable c.vol c.listed.globals c.node.start 0 = false
        else 2 ^ 31 ≤ c.node.size ∨
          (∃ k < (c.node.size - 1) / 512 + 1,
            Fat32.sectorReadable c.vol c.listed.globals c.node.start k = false) ∨
          Fat32.EndsWithFirst c.vol c.listed.globals c.node.start
            c.node.size) := by
    intro chunks hok
    unfold allowance
    by_cases hloc : c.loc = 0
    · rw [if_pos hloc, if_pos hloc, ← Fat32.length_eq_zero_iff hok]
      omega
    · rw [if_neg hloc, if_neg hloc]
      rcases lt_or_ge c.node.size (2 ^ 31) with hsmall | hlarge
      · rw [toInt32_of_lt hsmall] at hok
        rw [Fat32.length_le_iff hok, Fat32.mmapSectors_natCast]
        exact (or_iff_right hsmall.not_ge).symm
      · have hneg : toInt32 c.node.size < 0 := by
          unfold toInt32
          rw [Int.bmod_def]
          omega
        have hone := Fat32.length_le_one_of_neg hok hneg
        constructor
        · intro _
          exact Or.inl hlarge
        · intro _
          omega
  constructor
  · rintro ⟨load, ⟨chunks, hok, hload⟩, hle⟩
    cases hload
    exact ⟨⟨chunks, hok⟩, (hcount chunks hok).mp hle⟩
  · rintro ⟨⟨chunks, hok⟩, hfits⟩
    exact ⟨_, ⟨chunks, hok, rfl⟩, (hcount chunks hok).mpr hfits⟩

/-! ## ext2 -/

namespace Ext2

open StepMachine

/-- How many arrays of 4096 bytes are stored for a file. -/
def storedArrays (g : Globals) (iblock : ℕ → ℕ) : ℕ :=
  (dataBlocks iblock).length +
    (if iblock 12 = 0 then 0 else g.bs / 4) +
    (if iblock 13 = 0 then 0 else g.bs / 4 * (g.bs / 4))

section Count

variable (vol : Volume) {g : Globals}

theorem readBlock_of_le {drive : ℕ} (block : ℕ) (buf : Buffer)
    (hbs : g.bs ≤ 4096) : ∃ buf', readBlock vol drive g block buf = .ok buf' := by
  unfold readBlock ext2RdBlock
  split
  · exact ⟨_, rfl⟩
  · rw [if_pos (by omega)]
    exact ⟨_, rfl⟩

theorem copyBlock_length (c : FileCursor) (block : ℕ) (hbs : g.bs ≤ 4096) :
    ∃ c', copyBlock vol g block c = .ok c' ∧
      c'.chunks.length = c.chunks.length + 1 := by
  obtain ⟨buf, hread⟩ := readBlock_of_le vol block c.databuf hbs
  exact ⟨_, bind_eq_ok_iff.mpr ⟨buf, hread, rfl⟩, by simp⟩

theorem rdDirect_length (c : FileCursor) (iblock : ℕ → ℕ) (hbs : g.bs ≤ 4096) :
    ∃ c', rdDirect vol g iblock c = .ok c' ∧
      c'.chunks.length = c.chunks.length + (dataBlocks iblock).length := by
  refine exists_foldlM_range (fun k (c' : FileCursor) => c'.chunks.length = c.chunks.length +
    (((List.range k).map iblock).filter (· ≠ 0)).length) 12 rfl ?_
  intro k s _ hlen
  rw [List.range_succ, List.map_append, List.filter_append, List.length_append]
  by_cases hzero : iblock k = 0
  · rw [if_pos hzero]
    exact ⟨s, rfl, by simp [hlen, hzero]⟩
  · rw [if_neg hzero]
    obtain ⟨s', hok, hlen'⟩ := copyBlock_length vol s (iblock k) hbs
    exact ⟨s', hok, by simp [hlen', hlen, hzero, Nat.add_assoc]⟩

theorem tableEntry_of_lt {buf : Buffer} {j : ℕ} (hbs : g.bs ≤ 4096)
    (hj : j < g.bs / 4) : tableEntry buf j = .ok (le32 buf (4 * j)) :=
  if_pos (by omega)

theorem rdSinglyIndirect_length (c : FileCursor) (block : ℕ)
    (hbs : g.bs ≤ 4096) :
    ∃ c', rdSinglyIndirect vol g block c = .ok c' ∧ c'.chunks.length =
      c.chunks.length + (if block = 0 then 0 else g.bs / 4) := by
  unfold rdSinglyIndirect
  by_cases hzero : block = 0
  · rw [if_pos hzero, if_pos hzero]
    exact ⟨c, rfl, rfl⟩
  · rw [if_neg hzero, if_neg hzero]
    obtain ⟨buf, hread⟩ := readBlock_of_le vol block c.indirectbuf hbs
    rw [hread, ok_bind]
    refine exists_foldlM_range
      (fun j (c' : FileCursor) => c'.chunks.length = c.chunks.length + j) (g.bs / 4) rfl ?_
    intro j s hj hlen
    rw [tableEntry_of_lt hbs hj, ok_bind, ← Nat.add_assoc, ← hlen]
    exact copyBlock_length vol _ _ hbs

theorem rdSecondLevel_length (c : FileCursor) (stale siblock : ℕ)
    (hbs : g.bs ≤ 4096) :
    ∃ c', rdSecondLevel vol g stale siblock c = .ok c' ∧
      c'.chunks.length = c.chunks.length + g.bs / 4 := by
  unfold rdSecondLevel
  obtain ⟨buf, hread⟩ := readBlock_of_le vol (c.diblock stale)
    c.indirect2buf hbs
  rw [hread, ok_bind]
  refine exists_foldlM_range
    (fun l (c' : FileCursor) => c'.chunks.length = c.chunks.length + l) (g.bs / 4) rfl ?_
  intro l s _ hlen
  rw [← Nat.add_assoc, ← hlen]
  exact copyBlock_length vol _ _ hbs

theorem rdDoublyIndirect_length (c : FileCursor) (stale block : ℕ)
    (hbs : g.bs ≤ 4096) :
    ∃ c', rdDoublyIndirect vol g stale block c = .ok c' ∧ c'.chunks.length =
      c.chunks.length + (if block = 0 then 0 else g.bs / 4 * (g.bs / 4)) := by
  unfold rdDoublyIndirect
  by_cases hzero : block = 0
  · rw [if_pos hzero, if_pos hzero]
    exact ⟨c, rfl, rfl⟩
  · rw [if_neg hzero, if_neg hzero]
    obtain ⟨buf, hread⟩ := readBlock_of_le vol block c.indirectbuf hbs
    rw [hread, ok_bind]
    refine exists_foldlM_range (fun j (c' : FileCursor) => c'.chunks.length =
      c.chunks.length + g.bs / 4 * j) (g.bs / 4) rfl ?_
    intro j s hj hlen
    rw [tableEntry_of_lt hbs hj, ok_bind, Nat.mul_succ, ← Nat.add_assoc, ← hlen]
    exact rdSecondLevel_length vol _ _ _ hbs

/-- The loader stores its arrays whatever the size of the file is. -/
theorem ext2RdFile_length (stack : Stack) (stale : ℕ) (iblock : ℕ → ℕ)
    (hbs : g.bs ≤ 4096) :
    ∃ chunks, ext2RdFile vol stack stale g iblock = .ok chunks ∧
      chunks.length = storedArrays g iblock := by
  obtain ⟨c₁, hdirect, hlen₁⟩ := rdDirect_length vol ⟨[], stack.databuf,
    stack.indirectbuf, stack.indirect2buf, none⟩ iblock hbs
  obtain ⟨c₂, hsingly, hlen₂⟩ := rdSinglyIndirect_length vol c₁ (iblock 12) hbs
  obtain ⟨c₃, hdoubly, hlen₃⟩ := rdDoublyIndirect_length vol c₂ stale (iblock 13)
    hbs
  refine ⟨c₃.chunks, bind_eq_ok_iff.mpr ⟨c₁, hdirect, bind_eq_ok_iff.mpr
    ⟨c₂, hsingly, bind_eq_ok_iff.mpr ⟨c₃, hdoubly, rfl⟩⟩⟩, ?_⟩
  rw [hlen₃, hlen₂, hlen₁, storedArrays]
  simp

/-- The number of arrays stored for the inode that the loader reads. -/
def inodeArrays (g : Globals) (r : Buffer × ℕ) : ℕ :=
  if isReg (le16 r.1 r.2) then storedArrays g (iBlock r.1 r.2) else 0

theorem ext2LoadFile_length_iff (n : ℕ) (stack : Stack) (stale inode : ℕ)
    (hbs : g.bs ≤ 4096) :
    (∃ chunks, ext2LoadFile vol stack stale g inode = .ok chunks ∧
        chunks.length = n) ↔
      ∃ r, readInode vol 0 g inode stack.inodebuff = .ok r ∧
        inodeArrays g r = n := by
  unfold ext2LoadFile
  cases hread : readInode vol 0 g inode stack.inodebuff with
  | error e =>
      constructor
      · rintro ⟨_, hok, _⟩
        cases hok
      · rintro ⟨_, hok, _⟩
        cases hok
  | ok r =>
      rw [ok_bind]
      unfold inodeArrays
      by_cases hreg : isReg (le16 r.1 r.2) = true
      · obtain ⟨chunks, hok, hlen⟩ := ext2RdFile_length vol stack stale
          (iBlock r.1 r.2) hbs
        simp [hreg, hok, hlen]
      · simp [hreg, pure, Except.pure]

end Count

end Ext2

/-- A call of `ext2_loadfile` for a regular file that it finds. -/
structure Ext2Load where
  vol : Volume
  stack : Ext2.Stack
  loadStack : Ext2.Stack
  stale : ℕ
  dangling : Buffer
  inode : ℕ
  g₀ : Ext2.Globals
  fresh : List FreshBlock
  name : List UInt8
  loadMem : ℕ
  block : ℕ
  g : Ext2.Globals
  list : List FsProperties
  rest : List FreshBlock
  node : FsProperties
  init : Ext2.initExt2 vol stack inode g₀ fresh = .ok (g, list, rest)
  found : findName name list = some node
  regular : node.fileType = regFile
  blockSize : g.bs ≤ 4096

def Ext2Load.loc (c : Ext2Load) : ℕ := destination c.loadMem c.block

def Ext2Load.StaysInside (c : Ext2Load) : Prop :=
  StoresOnlyInto (Ext2.ext2Loadfile c.vol c.stack c.loadStack c.stale c.dangling
    c.inode c.g₀ c.fresh c.name c.loadMem c.block) 4096 c.loc c.node.size

/-- What `inode_to_lba` works with while the file is loaded. -/
def Ext2Load.loadGlobals (c : Ext2Load) : Ext2.Globals :=
  { c.g with grblock := c.dangling }

/-- The inode is read, and the arrays stored for it have room. -/
def Ext2Load.Fits (c : Ext2Load) : Prop :=
  ∃ r, Ext2.readInode c.vol 0 c.loadGlobals c.node.start
      c.loadStack.inodebuff = .ok r ∧
    4096 * Ext2.inodeArrays c.loadGlobals r ≤ allowance c.loc c.node.size

theorem Ext2Load.inside_iff (c : Ext2Load) : c.StaysInside ↔ c.Fits := by
  have hload : Ext2.ext2Loadfile c.vol c.stack c.loadStack c.stale c.dangling
      c.inode c.g₀ c.fresh c.name c.loadMem c.block =
      Ext2.ext2LoadFile c.vol c.loadStack c.stale c.loadGlobals c.node.start >>=
        fun chunks => .ok ⟨c.loc, chunks⟩ := by
    unfold Ext2.ext2Loadfile
    rw [c.init, ok_bind]
    simp only [c.found]
    exact if_pos c.regular
  unfold Ext2Load.StaysInside Ext2Load.Fits
  rw [storesOnlyInto_iff, hload]
  simp only [bind_eq_ok_iff]
  have hbs : c.loadGlobals.bs ≤ 4096 := c.blockSize
  have hcount := fun n => Ext2.ext2LoadFile_length_iff c.vol n c.loadStack
    c.stale c.node.start hbs
  constructor
  · rintro ⟨load, ⟨chunks, hok, hload⟩, hle⟩
    cases hload
    obtain ⟨r, hread, hlen⟩ := (hcount chunks.length).mp ⟨chunks, hok, rfl⟩
    exact ⟨r, hread, by rw [hlen]; exact hle⟩
  · rintro ⟨r, hread, hle⟩
    obtain ⟨chunks, hok, hlen⟩ := (hcount _).mpr ⟨r, hread, rfl⟩
    exact ⟨_, ⟨chunks, hok, rfl⟩, by rw [hlen]; exact hle⟩

/-! ## Both loaders -/

inductive LoadCall where
  | fat32 (call : FatLoad)
  | ext2 (call : Ext2Load)

def LoadCall.StaysInside : LoadCall → Prop
  | .fat32 call => call.StaysInside
  | .ext2 call => call.StaysInside

def LoadCall.Fits : LoadCall → Prop
  | .fat32 call => call.Fits
  | .ext2 call => call.Fits

/-- A loader stays inside the range of the file exactly when the units that
it stores have room. -/
theorem LoadCall.staysInside_iff (call : LoadCall) :
    call.StaysInside ↔ call.Fits := by
  cases call with
  | fat32 call => exact call.inside_iff
  | ext2 call => exact call.inside_iff

/-- The file with 513 bytes, loaded to a block of 513 bytes. -/
def scatteredLoad : FatLoad where
  vol := Fat32.scatteredVolume
  stack := Fat32.zeroStack
  cluster := 2
  g₀ := Fat32.smallGlobals
  fresh := [blank, blank]
  name := [65]
  loadMem := 0
  block := 0x100000
  listed := ⟨Fat32.smallGlobals, Fat32.scatteredList, Fat32.scatteredList, []⟩
  node := ⟨3, 513, 1, [65, 0]⟩
  init := Fat32.scattered_init
  found := rfl
  not_directory := by decide
  size_lt := by decide

/-- The last sector of the file goes beyond the block. -/
theorem last_sector_overruns : ¬ (LoadCall.fat32 scatteredLoad).StaysInside := by
  intro hinside
  obtain ⟨_, hroom⟩ := scatteredLoad.inside_iff.mp hinside
  rw [if_neg (by decide)] at hroom
  rcases hroom with hlarge | ⟨k, _, hunread⟩ | ⟨hdvd, _⟩
  · exact absurd hlarge (by decide)
  · cases hunread
  · exact absurd hdvd (by decide)

end Janus86
