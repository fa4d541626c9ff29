import Janus86.Ext2DirectFile
import Janus86.FileSession
import Janus86.FsRegistrations

/-!
# The vfat driver from an ext2 partition

When the kernel starts, the ext2 driver is the only one.  The vfat driver is a file
then: `ldmod` brings its image to the memory that it is linked for, and
`register_module` finds there the type of the partitions that it is for and the
addresses of its routines.  From then on `root` mounts these partitions too.
-/

namespace Janus86

open StepMachine ChunkStores

namespace Ext2

variable {vol : Volume} {dangling : Buffer} {g : Globals} {n size : ℕ}

/-! ## Files -/

/-- Byte `p` of the file of an inode. -/
def contents (vol : Volume) (n p : ℕ) : UInt8 :=
  fileByte vol (mountedGlobals vol) (blocksFound vol (mountedGlobals vol) n) p

/-- A regular file that is stored as it is: it uses direct blocks, none of them is a hole,
and they are as large as what is stored for each.  Its inode is found although the group
descriptor is looked for where the call before has left it. -/
structure FileFound (vol : Volume) (dangling : Buffer) (n size : ℕ) : Prop where
  inodes_pos : 0 < (mountedGlobals vol).inodesPerGroup
  index : 0 ≤ getIndex (mountedGlobals vol) n
  placed : inodeToLba { mountedGlobals vol with grblock := dangling } n =
    inodeToLba (mountedGlobals vol) n
  mode : isReg (le16 (sectorFound vol (mountedGlobals vol) n)
    (offsetFound (mountedGlobals vol) n)) = true
  single_eq : blocksFound vol (mountedGlobals vol) n 12 = 0
  double_eq : blocksFound vol (mountedGlobals vol) n 13 = 0
  size_le : size ≤ 12 * (mountedGlobals vol).bs
  noHoles : ∀ k, k * (mountedGlobals vol).bs < size →
    blocksFound vol (mountedGlobals vol) n k ≠ 0
  fits : (mountedGlobals vol).bs = 4096 ∨ size ≤ (mountedGlobals vol).bs

theorem Mountable.blockSize (hmount : Mountable vol) :
    (mountedGlobals vol).bs = 1024 ∨ (mountedGlobals vol).bs = 2048 ∨
      (mountedGlobals vol).bs = 4096 :=
  shifted_mem hmount.log_le

theorem Mountable.bs_pos (hmount : Mountable vol) : 0 < (mountedGlobals vol).bs := by
  have hbs := hmount.blockSize
  omega

/-- Only the place of the inode depends on where the group descriptor is looked for. -/
theorem SameGeometry.withDescr (hsame : SameGeometry (mountedGlobals vol) g)
    (dangling : Buffer) :
    SameGeometry { mountedGlobals vol with grblock := dangling }
      { g with grblock := dangling } :=
  ⟨hsame.bs, hsame.blocksPerGroup, hsame.inodesPerGroup, rfl⟩

theorem fileByte_congr {g' : Globals} {iblock iblock' : ℕ → ℕ} {p : ℕ} (hbs : g'.bs = g.bs)
    (hblock : iblock' (p / g.bs) = iblock (p / g.bs)) :
    fileByte vol g' iblock' p = fileByte vol g iblock p := by
  unfold fileByte blockBytes
  rw [hbs, hblock]

/-- Each direct block is stored once at most. -/
theorem DirectFile.length_le (f : DirectFile) (hbs : g.bs ≤ 4096) {stack : Stack}
    {stale : ℕ} {chunks : List Buffer}
    (hok : ext2RdFile vol stack stale g f.iblock = .ok chunks) : chunks.length ≤ 12 := by
  obtain ⟨c, hrun, hlength⟩ := rdDirect_length vol
    ⟨[], stack.databuf, stack.indirectbuf, stack.indirect2buf, none⟩ f.iblock hbs
  rw [f.rdFile stack stale hrun] at hok
  cases hok
  rw [hlength, List.length_nil, Nat.zero_add, dataBlocks]
  exact (List.length_filter_le _ _).trans (by simp)

section FileFound

variable (found : FileFound vol dangling n size) (hmount : Mountable vol)
include found hmount

/-- The inode is read as it is on the disk, wherever the group descriptor is looked for. -/
theorem FileFound.readInode (hsame : SameGeometry (mountedGlobals vol) g)
    (inodebuff : Buffer) :
    ∃ buf, Ext2.readInode vol vol.drive { g with grblock := dangling } n inodebuff =
        .ok (buf, offsetFound (mountedGlobals vol) n) ∧
      isReg (le16 buf (offsetFound (mountedGlobals vol) n)) = true ∧
      ∀ k < 14, iBlock buf (offsetFound (mountedGlobals vol) n) k =
        blocksFound vol (mountedGlobals vol) n k := by
  have hgeometry := hsame.withDescr dangling
  have hsector : sectorFound vol { g with grblock := dangling } n =
      sectorFound vol (mountedGlobals vol) n := by
    unfold sectorFound
    rw [hgeometry.inodeToLba, found.placed]
  have hindex : getIndex { g with grblock := dangling } n =
      getIndex (mountedGlobals vol) n := hsame.getIndex n
  have hoffset : offsetFound { g with grblock := dangling } n =
      offsetFound (mountedGlobals vol) n := by
    unfold offsetFound
    rw [hindex]
  obtain ⟨buf, hbuf, hbytes⟩ := readInode_bytes (g := { g with grblock := dangling })
    hmount.readable (by rw [hgeometry.inodesPerGroup]; exact found.inodes_pos)
    (by rw [hindex]; exact found.index) inodebuff
  rw [hsector] at hbytes
  rw [hoffset] at hbuf
  have hle := offsetFound_le (mountedGlobals vol) n
  refine ⟨buf, hbuf, ?_, fun k hk => le32_congr fun i _ _ => hbytes i (by omega)⟩
  rw [le16_congr fun i _ _ => hbytes i (by omega)]
  exact found.mode

theorem FileFound.div_lt {p : ℕ} (hp : p < size) : p / (mountedGlobals vol).bs < 12 :=
  (Nat.div_lt_iff_lt_mul hmount.bs_pos).mpr (lt_of_lt_of_le hp found.size_le)

/-- The file as `ext2_rd_file` is given it. -/
theorem FileFound.directFile {iblock : ℕ → ℕ}
    (hblock : ∀ k < 14, iblock k = blocksFound vol (mountedGlobals vol) n k) :
    ∃ f : DirectFile, f.bs = (mountedGlobals vol).bs ∧ f.iblock = iblock ∧ f.size = size ∧
      f.NoHoles := by
  refine ⟨⟨(mountedGlobals vol).bs, iblock, size, hmount.blockSize,
    (hblock 12 (by omega)).trans found.single_eq, (hblock 13 (by omega)).trans found.double_eq,
    found.size_le⟩, rfl, rfl, rfl, ?_⟩
  intro k hk
  dsimp only at hk ⊢
  have hdiv := found.div_lt hmount hk
  rw [Nat.mul_div_cancel _ hmount.bs_pos] at hdiv
  rw [hblock k (by omega)]
  exact found.noHoles k hk

/-- `ext2_load_file` after a call of `init_ext2`. -/
theorem FileFound.loadFile (hdrive : vol.drive = 0)
    (hsame : SameGeometry (mountedGlobals vol) g) (stack : Stack) (stale loc : ℕ) :
    ∃ chunks, ext2LoadFile vol stack stale { g with grblock := dangling } n = .ok chunks ∧
      chunks.length ≤ 12 ∧ ∀ mem, ∀ p < size,
        applyStores mem (wrapped (chunkStores 4096 loc chunks)) ((loc + p) % 2 ^ 32) =
          contents vol n p := by
  obtain ⟨buf, hbuf, hmode, hblock⟩ := found.readInode hmount hsame stack.inodebuff
  rw [hdrive] at hbuf
  obtain ⟨f, hbs, hiblock, hsize, hholes⟩ := found.directFile hmount hblock
  obtain ⟨chunks, hfile, hstored⟩ := DirectFile.loads_of hholes
    (by rw [hbs, hsize]; exact found.fits) vol { g with grblock := dangling } stack stale loc
    (fun sector => hdrive ▸ hmount.readable sector) (hsame.bs.trans hbs.symm)
  rw [hiblock] at hfile hstored
  rw [hsize] at hstored
  have hmounted := hmount.blockSize
  have hfits := found.size_le
  have hle : g.bs ≤ 4096 := by
    rw [hsame.bs]
    omega
  have hlength : chunks.length ≤ 12 := f.length_le
    (g := { g with grblock := dangling }) hle (hiblock ▸ hfile)
  have hbytes : ∀ p < size, ∃ chunk, chunks[p / 4096]? = some chunk ∧
      chunk (p % 4096) = contents vol n p := by
    refine (applyStores_eq_iff (by decide)).mp fun mem p hp => (hstored mem p hp).trans ?_
    have hdiv := found.div_lt hmount hp
    exact fileByte_congr hsame.bs (hblock _ (by omega))
  refine ⟨chunks, ?_, hlength, ?_⟩
  · rw [ext2LoadFile, hbuf, ok_bind]
    dsimp only
    rw [if_pos hmode]
    exact hfile
  · exact (applyStores_wrapped_eq_iff (by decide) (by omega) (by omega)).mpr hbytes

end FileFound

/-- A call of `init_ext2` leaves the geometry of the volume behind. -/
theorem initExt2_geometry (hmount : Mountable vol) (found : DirectoryFound vol n)
    {stack : Stack} {fresh : List FreshBlock}
    {r : Globals × List FsProperties × List FreshBlock}
    (hok : initExt2 vol stack n g fresh = .ok r) :
    SameGeometry (mountedGlobals vol) r.1 := by
  have hindex := getIndex_of_initExt2 hmount hok
  match fresh, hok with
  | [], hok => cases hok
  | [_], hok => cases hok
  | first :: superBuf :: fresh, hok =>
      obtain ⟨g₁, hsame, heq⟩ :=
        initExt2_eq hmount found hindex stack g first superBuf fresh
      rw [heq] at hok
      cases hfold : (dataBlocks (blocksFound vol (mountedGlobals vol) n)).foldlM
          (fun s b => readDirBlock vol g₁ b s)
          (stack.dirbuf, (⟨⟨[], first.node, fresh⟩, stack.indbuf⟩ : DirCursor)) with
      | error e =>
          rw [hfold] at hok
          cases hok
      | ok s =>
          rw [hfold] at hok
          cases hok
          exact hsame

theorem ext2Root_eq (disk : Disk) (lba drive inode : ℕ) (s : State) :
    ext2Root disk lba drive inode s =
      (initCurrent disk (s.moved lba drive inode)).map fun r => (.list r.1, r.2) := by
  have hpath : cString [47] = [47] := by decide
  have hread : (reader disk).read (s.moved lba drive inode) =
      initCurrent disk (s.moved lba drive inode) := rfl
  unfold ext2Root ext2Chdir
  rw [hpath, if_neg (by decide), splitPath_slash]
  dsimp only
  rw [walkPath, hread]
  cases initCurrent disk (s.moved lba drive inode) with
  | error e => rfl
  | ok r => rfl

end Ext2

namespace Fs

open Janus86.Partition

variable {κ π : Type} {byte mem : Buffer} {size loadAddr : ℕ} {type : UInt8}
  {symbols : Symbols}

/-! ## Modules -/

/-- The bytes of a module that is linked for an address: its table of symbols stands
somewhere in the file. -/
structure DriverImage (byte : Buffer) (size loadAddr : ℕ) (type : UInt8)
    (symbols : Symbols) : Prop where
  signature : le16 byte 0 = modSignature
  type_eq : byte 16 = type
  name_ends : ∃ j < 11, byte (17 + j) = 0
  header_le : 28 ≤ size
  table : ∃ o, le32 byte 12 = loadAddr + o ∧ o + 48 ≤ size ∧
    symbols = ⟨symVal byte o 0, symVal byte o 1, symVal byte o 2⟩

/-- A type of partitions and the routines for it. -/
def Driver.serves (d : Driver) : UInt8 × Symbols := (d.fsTypeByte, d.symbols)

section Stored

variable (hstored : ∀ p < size, mem (loadAddr + p) = byte p)
include hstored

theorem le16_stored {a : ℕ} (ha : a + 2 ≤ size) :
    le16 mem (loadAddr + a) = le16 byte a := by
  unfold le16
  rw [Nat.add_assoc, hstored a (by omega), hstored (a + 1) (by omega)]

theorem le32_stored {a : ℕ} (ha : a + 4 ≤ size) :
    le32 mem (loadAddr + a) = le32 byte a := by
  unfold le32
  rw [Nat.add_assoc, le16_stored hstored (by omega), le16_stored hstored (by omega)]

theorem symVal_stored {o i : ℕ} (hfits : o + (i * 16 + 16) ≤ size) :
    symVal mem (loadAddr + o) i = symVal byte o i := by
  unfold symVal
  rw [Nat.add_assoc, Nat.add_assoc, ← Nat.add_assoc o, le32_stored hstored (by omega)]

/-- An image at the place that it is linked for is registered with what it says. -/
theorem DriverImage.registerModule (himage : DriverImage byte size loadAddr type symbols)
    (s : FsState κ π) :
    ∃ d : Driver, d.serves = (type, symbols) ∧ d.drvName.length ≤ 11 ∧
      Fs.registerModule mem loadAddr s = .ok (fsModuleRegistered,
        { s with drvList := s.drvList ++ [d], registered := s.registered + 1 }) := by
  obtain ⟨hsign, htype, ⟨j, hj, hzero⟩, hheader, o, htable, hfits, hsymbols⟩ := himage
  have hsign' : le16 mem loadAddr = modSignature :=
    (le16_stored hstored (by omega)).trans hsign
  have hname : 0 ∈ (List.range 11).map fun j => mem (loadAddr + 17 + j) :=
    List.mem_map.mpr ⟨j, List.mem_range.mpr hj, by
      rw [Nat.add_assoc, hstored _ (by omega), hzero]⟩
  have htable' : le32 mem (loadAddr + 12) = loadAddr + o :=
    (le32_stored hstored (by omega)).trans htable
  refine ⟨moduleDriver mem loadAddr s.registered, ?_, ?_, ?_⟩
  · simp only [Driver.serves, moduleDriver, Prod.mk.injEq]
    refine ⟨(hstored 16 (by omega)).trans htype, ?_⟩
    rw [htable', symVal_stored hstored (by omega), symVal_stored hstored (by omega),
      symVal_stored hstored (by omega), hsymbols]
  · exact (List.takeWhile_sublist _).length_le.trans (by simp [moduleName])
  · unfold Fs.registerModule
    rw [if_pos hsign']
    dsimp only
    rw [if_pos hname]
    rfl

end Stored

end Fs

namespace Shell

open Janus86.Partition
open Fs (Driver DriverImage Symbols)
open Fat32 (DiskTree)

variable {e : Surroundings} {lba : ℕ}

/-! ## An ext2 partition -/

/-- The ext2 driver is installed, is in a directory of the tree and has shown its list; so
many nodes can still be taken, and this memory is in use. -/
structure InExt2Tree (t : Ext2.DiskTree e.kernel.disk 0 lba) (used : ℕ → Bool)
    (room d : ℕ) (w : World) : Prop where
  mem_dirs : d ∈ t.dirs
  mounted : e.kernel.mounted w.machine = some .ext2
  place : w.machine.world.ext2.place = ⟨0, lba, d⟩
  shown : ∃ listing, w.machine.fsProp = .list listing ∧
    shownFiles listing.nodes = t.entries d
  room : room ≤ w.machine.world.ext2.fresh.length
  inUse : w.inUse = used
  names : ShortNames w

/-- A regular file of a directory of the tree. -/
structure Ext2Loadable (t : Ext2.DiskTree e.kernel.disk 0 lba) (d : ℕ)
    (name : List UInt8) where
  entry : Entry
  listed : entry ∈ t.entries d
  name_eq : entry.name = name
  type_eq : entry.fileType = regFile
  found : Ext2.FileFound ⟨e.kernel.disk, 0, lba⟩ e.scratch.dangling entry.start entry.size

variable {t : Ext2.DiskTree e.kernel.disk 0 lba} {used : ℕ → Bool} {room d : ℕ}
  {name : List UInt8}

def Ext2Loadable.byte (l : Ext2Loadable t d name) : Buffer :=
  Ext2.contents ⟨e.kernel.disk, 0, lba⟩ l.entry.start

/-- What is stored for 12 blocks leaves alone what is in use. -/
def Ext2Loadable.Clear (_ : Ext2Loadable t d name) (used : ℕ → Bool) (loadMem : ℕ) : Prop :=
  ∀ o < 4096 * 12, used ((destination loadMem e.scratch.block + o) % 2 ^ 32) = false

def Ext2Loadable.Stored (l : Ext2Loadable t d name) (loadMem : ℕ) (w : World) : Prop :=
  ∀ p < l.entry.size, w.bytes (destination loadMem e.scratch.block + p) = l.byte p

/-- The file is a module that is linked for where `ldmod` stores it. -/
def Ext2Loadable.Image (l : Ext2Loadable t d name) (loadMem : ℕ) :
    UInt8 × Symbols → Prop :=
  fun m => DriverImage l.byte l.entry.size (destination loadMem e.scratch.block) m.1 m.2

/-- These drivers have come to the list, and the vfat driver is as it was. -/
structure Adds (modules : List (UInt8 × Symbols)) (w w' : World) : Prop where
  drivers : w'.machine.drvList.map Driver.serves =
    w.machine.drvList.map Driver.serves ++ modules
  vfat : w'.machine.world.vfat = w.machine.world.vfat

theorem Adds.refl (w : World) : Adds [] w w := ⟨(List.append_nil _).symm, rfl⟩

theorem Adds.trans {modules more : List (UInt8 × Symbols)} {w₁ w₂ w₃ : World}
    (hfirst : Adds modules w₁ w₂) (hsecond : Adds more w₂ w₃) :
    Adds (modules ++ more) w₁ w₃ where
  drivers := by rw [hsecond.drivers, hfirst.drivers, List.append_assoc]
  vfat := hsecond.vfat.trans hfirst.vfat

/-- The memory in use once a module is registered that is stored at the number. -/
def withModule (e : Surroundings) (used : ℕ → Bool) (number : List UInt8) : ℕ → Bool :=
  fun a => used a || e.moduleArea (destination (e.atoi number) e.scratch.block) a

def ldmodWord : List UInt8 := [108, 100, 109, 111, 100]

/-- The words of lines that lead from one directory to another, with the nodes that their
commands take, the drivers that they load and the memory that is in use before and
behind them. -/
inductive Ext2Visit (t : Ext2.DiskTree e.kernel.disk 0 lba) :
    (ℕ → Bool) → ℕ → List (List (List UInt8)) → ℕ → List (UInt8 × Symbols) →
      (ℕ → Bool) → ℕ → Prop
  | done (used : ℕ → Bool) (d : ℕ) : Ext2Visit t used d [] 0 [] used d
  | cd {used used' : ℕ → Bool} {d d' n : ℕ} {path : List UInt8}
      {names : List (List UInt8)} {ds : List ℕ} {more : List (List (List UInt8))}
      {modules : List (UInt8 × Symbols)} (spells : Spells path names)
      (feed : NoLineFeed names) (few : names.length ≤ directoryNum)
      (short : path.length ≤ pathLen) (leads : t.Leads d names ds)
      (rest : Ext2Visit t used (ds.getLastD d) more n modules used' d') :
      Ext2Visit t used d ([cdWord, path] :: more) (t.blocks d + t.blocksOf ds + n) modules
        used' d'
  | load {used used' : ℕ → Bool} {d d' n : ℕ} {name number : List UInt8}
      {more : List (List (List UInt8))} {modules : List (UInt8 × Symbols)}
      (file : Ext2Loadable t d name) (clear : file.Clear used (e.atoi number))
      (rest : Ext2Visit t used d more n modules used' d') :
      Ext2Visit t used d ([loadWord, [45, 102], name, number] :: more) (t.blocks d + n)
        modules used' d'
  | ldmod {used used' : ℕ → Bool} {d d' n : ℕ} {name number : List UInt8}
      {more : List (List (List UInt8))} {m : UInt8 × Symbols}
      {modules : List (UInt8 × Symbols)} (file : Ext2Loadable t d name)
      (image : file.Image (e.atoi number) m) (clear : file.Clear used (e.atoi number))
      (rest : Ext2Visit t (withModule e used number) d more n modules used' d') :
      Ext2Visit t used d ([ldmodWord, name, number] :: more) (t.blocks d + n)
        (m :: modules) used' d'
  | look {used used' : ℕ → Bool} {d d' n : ℕ} {ws : List (List UInt8)}
      {more : List (List (List UInt8))} {modules : List (UInt8 × Symbols)}
      (looks : Looks (t.entries d) ws) (rest : Ext2Visit t used d more n modules used' d') :
      Ext2Visit t used d (ws :: more) n modules used' d'

section Commands

variable {w : World} {ds : List ℕ}

theorem InExt2Tree.less (hat : InExt2Tree t used room d w) {room' : ℕ} (hle : room' ≤ room) :
    InExt2Tree t used room' d w :=
  ⟨hat.mem_dirs, hat.mounted, hat.place, hat.shown, hle.trans hat.room, hat.inUse, hat.names⟩

/-! ## cd -/

theorem InExt2Tree.cmdCd (hat : InExt2Tree t used (t.blocks d + t.blocksOf ds + room) d w)
    {path : List UInt8} {names : List (List UInt8)} (hspells : Spells path names)
    (hfeed : NoLineFeed names) (hfew : names.length ≤ directoryNum)
    (hshort : path.length ≤ pathLen) (hleads : t.Leads d names ds) :
    ∃ w', e.cmdCd path w = .ok w' ∧ InExt2Tree t used room (ds.getLastD d) w' ∧
      Adds [] w w' := by
  have hfresh := hat.room
  obtain ⟨r, hcall, hshows, hleft⟩ := t.follows path names d ds w.machine.world.ext2
    hspells hfeed hfew hshort hleads hat.mem_dirs hat.place (by omega)
  obtain ⟨listing, hreply, hnodes⟩ := hshows.list
  have hchdir : w.machine.symbols.chdir ≠ 0 := by
    rw [Fs.Kernel.mounted_eq_some hat.mounted]
    exact e.kernel.symbols_chdir_ne .ext2
  have hfs : Fs.fsChdir e.kernel path w.machine = .ok (.list listing,
      { w.machine with world := { w.machine.world with ext2 := r.2 } }) := by
    rw [Fs.fsChdir, if_neg hchdir]
    simp only [hat.mounted]
    rw [hcall, ← hreply]
    rfl
  refine ⟨{ w with
    machine := { w.machine with
      world := { w.machine.world with ext2 := r.2 }
      fsProp := .list listing } }, ?_, ?_, (List.append_nil _).symm, rfl⟩
  · rw [Surroundings.cmdCd, Fs.cmdCd, if_pos rfl, hfs]
    rfl
  · exact ⟨hleads.mem_dirs hat.mem_dirs, hat.mounted, hshows.place, ⟨listing, rfl, hnodes⟩,
      by dsimp only; omega, hat.inUse, hat.names⟩

/-! ## Loading -/

theorem Ext2Loadable.cString_name (l : Ext2Loadable t d name)
    (hat : InExt2Tree t used room d w) : cString name = name := by
  obtain ⟨listing, _, hshown⟩ := hat.shown
  have hlisted := l.listed
  rw [← hshown] at hlisted
  rw [← l.name_eq]
  exact cString_name_of_shown hlisted

/-- `ext2_loadfile` reads the current directory, and finds the file there. -/
theorem InExt2Tree.loadfile (hat : InExt2Tree t used (t.blocks d + room) d w)
    (l : Ext2Loadable t d name) (loadMem : ℕ) :
    ∃ load s', Ext2.ext2Loadfile ⟨e.kernel.disk, 0, lba⟩ (w.machine.world.ext2.locals 0)
        e.scratch.ext2Locals e.scratch.stale e.scratch.dangling d
        w.machine.world.ext2.globals w.machine.world.ext2.fresh name loadMem
        e.scratch.block = .ok load ∧
      load.reply = destination loadMem e.scratch.block ∧ load.chunks.length ≤ 12 ∧
      (∀ mem, ∀ p < l.entry.size,
        applyStores mem (wrapped (chunkStores 4096 load.reply load.chunks))
          ((destination loadMem e.scratch.block + p) % 2 ^ 32) = l.byte p) ∧
      (∃ listing, (Ext2.reader e.kernel.disk).read w.machine.world.ext2 =
        .ok (listing, s')) ∧
      s'.place = ⟨0, lba, d⟩ ∧ room ≤ s'.fresh.length := by
  have hfresh := hat.room
  obtain ⟨c, hread, hin, hleft⟩ := t.shown.read hat.mem_dirs hat.place (by omega)
  obtain ⟨⟨g, list, fresh⟩, hinit, hrest⟩ := bind_eq_ok_iff.mp hread
  have hvolume : w.machine.world.ext2.volume e.kernel.disk = ⟨e.kernel.disk, 0, lba⟩ := by
    rw [DriverState.volume, hat.place]
  rw [hvolume, hat.place] at hinit
  obtain ⟨directory⟩ := t.found d hat.mem_dirs
  have hsame : Ext2.SameGeometry (Ext2.mountedGlobals ⟨e.kernel.disk, 0, lba⟩) g :=
    Ext2.initExt2_geometry t.mountable directory hinit
  have hlisting : c.listing = ⟨.ext2, w.machine.world.ext2.place, list, list⟩ :=
    (congrArg Prod.fst (Except.ok.inj hrest)).symm
  have hsearch := hin.search
  rw [hlisting] at hsearch
  have hmem := l.listed
  rw [← hsearch] at hmem
  obtain ⟨node, hfind, hentry⟩ := findName_of_mem
    (by rw [hsearch]; exact t.unique d hat.mem_dirs) hmem
  rw [l.name_eq] at hfind
  have hstart : node.start = l.entry.start := congrArg Entry.start hentry
  have htype : node.fileType = regFile := (congrArg Entry.fileType hentry).trans l.type_eq
  obtain ⟨chunks, hfile, hlength, hbytes⟩ := l.found.loadFile t.mountable rfl hsame
    e.scratch.ext2Locals e.scratch.stale (destination loadMem e.scratch.block)
  refine ⟨⟨destination loadMem e.scratch.block, chunks⟩, c.state, ?_, rfl, hlength, hbytes,
    ⟨c.listing, hread⟩, hin.place, by omega⟩
  rw [Ext2.ext2Loadfile, hinit, ok_bind]
  simp only [hfind]
  rw [if_pos htype, hstart, hfile]
  rfl

theorem InExt2Tree.fsLoadfile (hat : InExt2Tree t used (t.blocks d + room) d w)
    (l : Ext2Loadable t d name) {loadMem : ℕ} (hclear : l.Clear used loadMem) :
    ∃ w', e.fsLoadfile name loadMem w =
        .ok (destination loadMem e.scratch.block, w') ∧
      InExt2Tree t used room d w' ∧ l.Stored loadMem w' ∧ Adds [] w w' := by
  obtain ⟨load, s', hload, hreply, hlength, hbytes, ⟨listing, hread⟩, hplace, hleft⟩ :=
    hat.loadfile l loadMem
  have hname := l.cString_name hat
  have hvolume : w.machine.world.ext2.volume e.kernel.disk = ⟨e.kernel.disk, 0, lba⟩ := by
    rw [DriverState.volume, hat.place]
  have hdir : w.machine.world.ext2.place.dir = d := by rw [hat.place]
  have hloadfile : w.machine.symbols.loadfile ≠ 0 := by
    rw [Fs.Kernel.mounted_eq_some hat.mounted]
    exact e.loadfile_ne .ext2
  have hstored : Fs.fileStored e.kernel e.scratch name loadMem w.machine = .ok load := by
    rw [Fs.fileStored, if_neg hloadfile]
    simp only [hat.mounted]
    rw [hvolume, hdir, hname]
    exact hload
  have hfs : Fs.fsLoadfile e.kernel e.scratch name loadMem w.machine = .ok (load.reply,
      { w.machine with world := { w.machine.world with ext2 := s' } }) := by
    rw [Fs.fsLoadfile, if_neg hloadfile]
    simp only [hat.mounted]
    rw [Ext2.loadfileCurrent, hvolume, hdir, hname, hload, ok_bind, hread]
    rfl
  have hunit : e.kernel.unit w.machine = 4096 := by
    rw [Fs.Kernel.unit, if_pos hat.mounted]
  have hclear' : ∀ s ∈ wrapped (chunkStores (e.kernel.unit w.machine) load.reply load.chunks),
      w.inUse s.1 = false := by
    rw [hunit]
    refine List.forall_mem_map.mpr fun s hs => ?_
    obtain ⟨hle, hlt⟩ := (exists_mem_chunkStores_iff 4096 load.reply s.1 load.chunks).mp
      ⟨s.2, hs⟩
    have hfree := hclear (s.1 - load.reply) (by omega)
    rw [← hreply, Nat.add_sub_cancel' hle] at hfree
    rw [hat.inUse]
    exact hfree
  have hfile := e.fsLoadfile_ok hstored hfs hclear'
  rw [hunit] at hfile
  refine ⟨{ w with
    machine := { w.machine with world := { w.machine.world with ext2 := s' } }
    mem := applyStores w.mem (wrapped (chunkStores 4096 load.reply load.chunks)) }, ?_,
    ⟨hat.mem_dirs, hat.mounted, hplace, hat.shown, hleft, hat.inUse, hat.names⟩, hbytes w.mem,
    (List.append_nil _).symm, rfl⟩
  rw [hfile, hreply]

theorem InExt2Tree.loadFile (hat : InExt2Tree t used (t.blocks d + room) d w)
    (l : Ext2Loadable t d name) {loadMem : ℕ} (hclear : l.Clear used loadMem) :
    ∃ w', e.loadFile name loadMem w = .ok w' ∧ InExt2Tree t used room d w' ∧
      l.Stored loadMem w' ∧ Adds [] w w' := by
  obtain ⟨w', hload, hrest⟩ := hat.fsLoadfile l hclear
  exact ⟨w', by rw [Surroundings.loadFile, hload]; rfl, hrest⟩

theorem InExt2Tree.cmdLdmod (hat : InExt2Tree t used (t.blocks d + room) d w)
    (l : Ext2Loadable t d name) {number : List UInt8} {m : UInt8 × Symbols}
    (himage : l.Image (e.atoi number) m) (hclear : l.Clear used (e.atoi number)) :
    ∃ w', e.cmdLdmod name number w = .ok w' ∧
      InExt2Tree t (withModule e used number) room d w' ∧ Adds [m] w w' := by
  obtain ⟨w₁, hload, hat₁, hstored, hadds⟩ := hat.fsLoadfile l hclear
  obtain ⟨driver, hserves, hname, hregister⟩ := himage.registerModule hstored w₁.machine
  refine ⟨{ w₁ with
      machine := { w₁.machine with
        drvList := w₁.machine.drvList ++ [driver]
        registered := w₁.machine.registered + 1 }
      inUse := withModule e used number }, ?_,
    ⟨hat₁.mem_dirs, hat₁.mounted, hat₁.place, hat₁.shown, hat₁.room, rfl, ?_⟩,
    hadds.trans ⟨?_, rfl⟩⟩
  · rw [Surroundings.cmdLdmod, hload, ok_bind]
    dsimp only
    rw [hregister, ok_bind]
    simp only [if_true, hat₁.inUse]
    rfl
  · intro d' hmem
    rcases List.mem_append.mp hmem with hmem | hmem
    · exact hat₁.names d' hmem
    · rw [List.mem_singleton.mp hmem]
      omega
  · dsimp only
    rw [List.map_append, List.map_singleton, hserves]

/-! ## Runs of commands -/

theorem runWords_ldmod (name number : List UInt8) (w : World) :
    runWords e.meaning w [ldmodWord, name, number] = e.cmdLdmod name number w :=
  runWords_of_find (show findBuiltin ldmodWord = some .ldmod by decide +kernel)
    [name, number] w

/-- The commands lead through the tree, and what they load is registered in its order. -/
theorem Ext2Visit.runs {wss : List (List (List UInt8))} {n d' : ℕ}
    {modules : List (UInt8 × Symbols)} {used' : ℕ → Bool}
    (hvisit : Ext2Visit t used d wss n modules used' d')
    (hat : InExt2Tree t used (n + room) d w) :
    ∃ w', wss.foldlM (runWords e.meaning) w = .ok w' ∧ InExt2Tree t used' room d' w' ∧
      Adds modules w w' := by
  induction hvisit generalizing w with
  | done used d => exact ⟨w, rfl, hat.less (by omega), .refl w⟩
  | cd hspells hfeed hfew hshort hleads _ ih =>
      rw [Nat.add_assoc] at hat
      obtain ⟨w₁, hcd, hat₁, hadds₁⟩ := hat.cmdCd hspells hfeed hfew hshort hleads
      obtain ⟨w₂, hrest, hat₂, hadds₂⟩ := ih hat₁
      refine ⟨w₂, ?_, hat₂, hadds₁.trans hadds₂⟩
      rw [List.foldlM_cons, runWords_cd, hcd]
      exact hrest
  | load file hclear _ ih =>
      rw [Nat.add_assoc] at hat
      obtain ⟨w₁, hload, hat₁, _, hadds₁⟩ := hat.loadFile file hclear
      obtain ⟨w₂, hrest, hat₂, hadds₂⟩ := ih hat₁
      refine ⟨w₂, ?_, hat₂, hadds₁.trans hadds₂⟩
      rw [List.foldlM_cons, runWords_load, hload]
      exact hrest
  | ldmod file himage hclear _ ih =>
      rw [Nat.add_assoc] at hat
      obtain ⟨w₁, hldmod, hat₁, hadds₁⟩ := hat.cmdLdmod file himage hclear
      obtain ⟨w₂, hrest, hat₂, hadds₂⟩ := ih hat₁
      refine ⟨w₂, ?_, hat₂, hadds₁.trans hadds₂⟩
      rw [List.foldlM_cons, runWords_ldmod, hldmod]
      exact hrest
  | look hlooks _ ih =>
      obtain ⟨w₂, hrest, hat₂, hadds₂⟩ := ih hat
      refine ⟨w₂, ?_, hat₂, hadds₂⟩
      rw [List.foldlM_cons, hlooks.runWords hat.shown hat.names]
      exact hrest

/-! ## root -/

/-- The number behind the `p` is that of a partition of this type with this start. -/
structure Numbers (e : Surroundings) (digits : List UInt8) (type : UInt8) (lba : ℕ) :
    Prop where
  zero_free : 0 ∉ digits
  type_eq : Fs.partitionNode e.partitions (toInt32 (e.atoi digits)) typeByteOffset = type
  start : le32 (Fs.partitionNode e.partitions (toInt32 (e.atoi digits))) stLbaOffset = lba

/-- The first driver for a type, among drivers and among what they serve. -/
theorem driverFor_of_serves {drvList : List Driver} {type : UInt8} {symbols : Symbols}
    (hserves : (drvList.map Driver.serves).find? (·.1 == type) = some (type, symbols)) :
    ∃ driver, Fs.driverFor drvList type = some driver ∧ driver.symbols = symbols := by
  rw [List.find?_map, Option.map_eq_some_iff] at hserves
  obtain ⟨driver, hfind, hdriver⟩ := hserves
  exact ⟨driver, hfind, congrArg Prod.snd hdriver⟩

theorem Numbers.mounts {digits : List UInt8} {type : UInt8}
    (hnumbers : Numbers e digits type lba)
    (hserves : (w.machine.drvList.map Driver.serves).find? (·.1 == type) =
      some (type, e.kernel.vfat)) : Mounts e lba digits w where
  zero_free := hnumbers.zero_free
  driver := by
    rw [hnumbers.type_eq]
    exact driverFor_of_serves hserves
  start := hnumbers.start

/-- `root` with a partition of the ext2 driver. -/
theorem Numbers.cmdRoot {digits : List UInt8} {type : UInt8}
    (hnumbers : Numbers e digits type lba)
    (hserves : (w.machine.drvList.map Driver.serves).find? (·.1 == type) =
      some (type, e.kernel.ext2)) (hnames : ShortNames w) (hroot : 2 ∈ t.dirs)
    (hroom : t.blocks 2 + room ≤ w.machine.world.ext2.fresh.length) :
    ∃ w', e.cmdRoot 2 (112 :: digits) w = .ok w' ∧ InExt2Tree t w.inUse room 2 w' ∧
      Adds [] w w' := by
  obtain ⟨hzero, htype, hstart⟩ := hnumbers
  obtain ⟨driver, hdriver, hsymbols⟩ := driverFor_of_serves hserves
  obtain ⟨c, hread, hin, hleft⟩ := t.shown.read hroot
    (s := w.machine.world.ext2.moved lba 0 2) rfl (by simp only [DriverState.moved]; omega)
  have hrootExt2 : Ext2.ext2Root e.kernel.disk lba 0 2 w.machine.world.ext2 =
      .ok (.list c.listing, c.state) := by
    rw [Ext2.ext2Root_eq]
    exact congrArg (Except.map _) hread
  have hfs : Fs.fsRoot e.kernel.rootRoutine e.partitions (toInt32 (e.atoi digits))
      w.machine = .ok (Fs.fsDrvFound,
        { w.machine with
          symbols := driver.symbols
          fsProp := .list c.listing
          world := { w.machine.world with ext2 := c.state } }) := by
    unfold Fs.fsRoot
    simp only [htype, hdriver]
    unfold Fs.callRoot Fs.Kernel.rootRoutine
    rw [if_pos (congrArg Symbols.root hsymbols), hstart, hrootExt2]
    rfl
  refine ⟨{ w with
    machine := { w.machine with
      symbols := driver.symbols
      fsProp := .list c.listing
      world := { w.machine.world with ext2 := c.state } } }, ?_, ?_,
    (List.append_nil _).symm, rfl⟩
  · rw [e.cmdRoot_partition hzero, hfs]
    rfl
  · refine ⟨hroot, Fs.Kernel.mounted_of_symbols hsymbols, hin.place,
      ⟨c.listing, rfl, hin.nodes⟩, ?_, rfl, hnames⟩
    simp only [DriverState.moved] at hleft
    dsimp only
    omega

end Commands

/-! ## A typed session -/

/-- Typed at the keyboard of a kernel that knows only the ext2 driver, `root`, any way
through an ext2 partition and `ldmod` on it make the FAT32 partitions known, and then
`root`, any way through one of them and `load` bring the bytes of its file to the place in
the memory that the last line names, as long as nothing is stored into the memory in use,
modules included, and what is printed fits into the buffer of `kprintf`. -/
theorem typed_session_loads_driver {lba' : ℕ} {t : Ext2.DiskTree e.kernel.disk 0 lba}
    {t' : DiskTree e.kernel.disk 0 lba'} {size : ℕ} {s : Session World}
    {drivers : Fs.Drivers} {lines : List (List UInt8)} {rest : List UInt8}
    (hstart : s.world.machine = Fs.initFsModules e.kernel.ext2 (.code 0) drivers)
    (htyped : typed s.kbd.shift s.kbd.port = (keysOf lines rest).map some)
    (hlines : ∀ keys ∈ lines, Plain size keys) (hnew : Keyboard.ENTER ∉ rest)
    (hfits : rest.length < size) {digits digits' name number : List UInt8}
    {visits visits' : List (List (List UInt8))} {modules : List (UInt8 × Symbols)}
    {used : ℕ → Bool} {n n' d d' : ℕ} {type : UInt8}
    (hwords : lines.map words = [rootWord, 112 :: digits] :: visits ++
      ([rootWord, 112 :: digits'] :: visits' ++ [[loadWord, [45, 102], name, number]]))
    (hlinux : Numbers e digits 0x83 lba) (hroot : 2 ∈ t.dirs)
    (hvisit : Ext2Visit t s.world.inUse 2 visits n modules used d)
    (hmodule : modules.find? (·.1 == type) = some (type, e.kernel.vfat))
    (hother : type ≠ 0x83) (hfat : Numbers e digits' type lba') (hroot' : 2 ∈ t'.dirs)
    (hkernel : ∃ a < 2 ^ 32, used a = true) (hvisit' : Visit t' used 2 visits' n' d')
    (file : Loadable t' d' name) (hclear : file.Clear used (e.atoi number))
    (hroom : t.blocks 2 + n ≤ drivers.ext2.fresh.length)
    (hroom' : t'.blocks 2 + (n' + t'.blocks d') ≤ drivers.vfat.fresh.length) :
    ∃ w', Halts (shellTurn e.builtins size) s (.ok w') ∧ InTree t' used 0 d' w' ∧
      file.Stored (e.atoi number) w' := by
  have hhalts := session_runs_lines e.builtins_follow htyped hlines hnew hfits
  have hserves : s.world.machine.drvList.map Driver.serves = [(0x83, e.kernel.ext2)] := by
    rw [hstart]
    rfl
  have hnodes : t.blocks 2 + n ≤ s.world.machine.world.ext2.fresh.length := by
    rw [hstart]
    exact hroom
  have hnames : ShortNames s.world := by
    unfold ShortNames
    rw [hstart]
    exact List.forall_mem_singleton.mpr (show (ascii "ext2").length ≤ 45 by decide)
  obtain ⟨w₁, hmount, hat₁, hadds₁⟩ := hlinux.cmdRoot (t := t) (w := s.world)
    (by rw [hserves]; rfl) hnames hroot hnodes
  have hfirst : InExt2Tree t s.world.inUse (n + 0) 2 w₁ := hat₁
  obtain ⟨w₂, hvisits, hat₂, hadds₂⟩ := hvisit.runs hfirst
  have hadds := hadds₁.trans hadds₂
  have hmounts : Mounts e lba' digits' w₂ := by
    refine hfat.mounts ?_
    rw [hadds.drivers, hserves, List.nil_append, List.singleton_append,
      List.find?_cons_of_neg (by simpa using hother.symm), hmodule]
  have hfresh : w₂.machine.world.vfat = drivers.vfat := by
    rw [hadds.vfat, hstart]
    rfl
  obtain ⟨w₃, hmount', hat₃⟩ := hmounts.cmdRoot (t := t') hat₂.names hroot'
    (by rw [hfresh]; exact hroom')
  rw [hat₂.inUse] at hat₃
  obtain ⟨w₄, hvisits', hat₄⟩ := hvisit'.runs hkernel hat₃
  have hlast : InTree t' used (t'.blocks d' + 0) d' w₄ := hat₄
  obtain ⟨w₅, hload, hat₅, hstored⟩ := hlast.loadFile file hkernel hclear
  refine ⟨w₅, ?_, hat₅, hstored⟩
  have hrun : lines.foldlM (runLine e.meaning) s.world = .ok w₅ := by
    rw [foldlM_runLine, hwords, List.foldlM_append, List.foldlM_cons, runWords_root, hmount,
      ok_bind, hvisits, ok_bind, List.foldlM_append, List.foldlM_cons, runWords_root,
      hmount', ok_bind, hvisits', ok_bind, List.foldlM_cons, runWords_load, hload]
    rfl
  rwa [hrun] at hhalts

/-! ## A module of three addresses -/

def moduleVolume : Volume := ⟨fileDisk, 0, 1000⟩

def moduleState (room : ℕ) : Ext2.State :=
  ⟨⟨0, 1000, 2⟩, Ext2.mountedGlobals moduleVolume, List.replicate room blank,
    fun _ => Ext2.zeroStack⟩

/-- The one record of its root. -/
def moduleRecord : Ext2.DirRecord :=
  Ext2.recordAt (Ext2.blockBytes moduleVolume 0 (Ext2.mountedGlobals moduleVolume) 20) 0

theorem module_found : Nonempty (Ext2.DirectoryFound moduleVolume 2) := by
  have hbs : (Ext2.mountedGlobals moduleVolume).bs = 1024 := by decide +kernel
  have hinodes : (Ext2.mountedGlobals moduleVolume).inodesPerGroup = 16 := by
    decide +kernel
  have hlen : moduleRecord.recLen = 1024 := by decide +kernel
  have hname : moduleRecord.name.length = 1 := by decide +kernel
  have hform : moduleRecord.WellFormed := ⟨⟨256, hlen⟩, by omega⟩
  have htiled : Ext2.Tiled (Ext2.blockBytes moduleVolume 0
      (Ext2.mountedGlobals moduleVolume) 20) (Ext2.mountedGlobals moduleVolume).bs 0
      [moduleRecord] :=
    .last hform (by rw [hbs, ← hlen, Nat.zero_add]; rfl)
  refine ⟨⟨[[moduleRecord]], by simp, ⟨fun _ => rfl, Or.inl hbs, ?_, ?_, ?_⟩,
    by decide +kernel⟩⟩
  · rw [hinodes]
    decide
  · rw [hinodes, hbs]
    decide
  · rw [show Ext2.dataBlocks (Ext2.blocksFound moduleVolume
      (Ext2.mountedGlobals moduleVolume) 2) = [20] by decide +kernel]
    exact .cons htiled .nil

def moduleTree : Ext2.DiskTree fileSurroundings.kernel.disk 0 1000 where
  dirs := {2}
  entries := fun _ => [⟨[109], 3, 80, regFile⟩]
  blocks := fun _ => 2
  listed := by
    rintro d rfl
    exact ⟨moduleState 2, (exists_read (by decide +kernel)).imp
      fun s' hread => hread.imp fun listing hread => ⟨rfl, le_rfl, hread⟩⟩
  unique := by
    rintro d rfl
    exact List.nodup_singleton _
  mountable := ⟨fun _ => rfl, by decide +kernel, by decide +kernel⟩
  found := by
    rintro d rfl
    exact module_found

def moduleM : Ext2Loadable moduleTree 2 [109] where
  entry := ⟨[109], 3, 80, regFile⟩
  listed := by simp [moduleTree]
  name_eq := rfl
  type_eq := rfl
  found :=
    { inodes_pos := by decide +kernel
      index := by decide +kernel
      placed := by rfl
      mode := by decide +kernel
      single_eq := by decide +kernel
      double_eq := by decide +kernel
      size_le := by decide +kernel
      noHoles := by
        intro k hk
        have hbs : (Ext2.mountedGlobals moduleVolume).bs = 1024 := by decide +kernel
        have hzero : k = 0 := by
          have hlt : k * 1024 < 80 := hbs ▸ hk
          omega
        rw [hzero]
        decide +kernel
      fits := Or.inr (by decide +kernel) }

/-- `root p2`, `ldmod m 0x20000`, `root p1`, `cd A` and
`load -f F 0x3000000`. -/
def moduleScancodes : List UInt8 :=
  [0x13, 0x18, 0x18, 0x14, 0x39, 0x19, 0x03, 0x1C, 0x26, 0x20, 0x32, 0x18, 0x20, 0x39, 0x32,
    0x39, 0x0B, 0x2D, 0x03, 0x0B, 0x0B, 0x0B, 0x0B, 0x1C] ++ fileBytes

/-- `0x20000` -/
def moduleNumber : List UInt8 := [48, 120, 50, 48, 48, 48, 48]

def moduleLines : List (List UInt8) :=
  [[114, 111, 111, 116, 32, 112, 50],
    [108, 100, 109, 111, 100, 32, 109, 32] ++ moduleNumber] ++ fileLines

/-- What is in use after `ldmod`. -/
def moduleInUse : ℕ → Bool := withModule fileSurroundings kernelInUse moduleNumber

def moduleDrivers : Fs.Drivers := ⟨moduleState 4, Fs.treeStarted.world.vfat⟩

theorem plain_moduleLines : ∀ keys ∈ moduleLines, Plain 80 keys := by
  have hroot : Plain 80 [114, 111, 111, 116, 32, 112, 50] :=
    plain_of_fits .root (by decide +kernel) (by decide +kernel) (show 2 ≤ _ by decide +kernel)
  have hldmod : Plain 80 ([108, 100, 109, 111, 100, 32, 109, 32] ++ moduleNumber) :=
    plain_of_fits .ldmod (by decide +kernel) (by decide +kernel)
      (show 3 ≤ _ by decide +kernel)
  intro keys hmem
  rcases List.mem_append.mp hmem with hmem | hmem
  · simp only [List.mem_cons, List.not_mem_nil, or_false] at hmem
    rcases hmem with rfl | rfl
    · exact hroot
    · exact hldmod
  · exact plain_fileLines keys hmem

theorem moduleNumber_eq : fileSurroundings.atoi moduleNumber = 0x20000 := by decide +kernel

theorem moduleM_image :
    moduleM.Image (fileSurroundings.atoi moduleNumber) (0x0C, ⟨4, 5, 6⟩) := by
  rw [moduleNumber_eq]
  exact ⟨by decide +kernel, by decide +kernel, ⟨4, by decide, by decide +kernel⟩,
    by decide, 32, by decide +kernel, by decide, by decide +kernel⟩

theorem moduleM_clear : moduleM.Clear kernelInUse (fileSurroundings.atoi moduleNumber) := by
  rw [moduleNumber_eq]
  intro o ho
  have haddress : destination 0x20000 fileSurroundings.scratch.block = 0x20000 := rfl
  rw [haddress]
  exact kernelInUse_eq_false (by omega) (by omega) (by omega)

theorem moduleInUse_eq_false {a : ℕ} (hle : 0x3000000 ≤ a) (hlt : a < 0x3000200) :
    moduleInUse a = false := by
  have hmodule : fileSurroundings.moduleArea (destination
      (fileSurroundings.atoi moduleNumber) fileSurroundings.scratch.block) a = false := by
    have haddress : destination 0x20000 fileSurroundings.scratch.block = 0x20000 := rfl
    rw [moduleNumber_eq, haddress]
    simp only [fileSurroundings, Bool.and_eq_false_iff, decide_eq_false_iff_not]
    omega
  rw [moduleInUse, withModule, hmodule, kernelInUse_eq_false (by omega) (by omega) (by omega)]
  rfl

theorem typed_session_loads_driver_small :
    ∃ w', Halts (shellTurn fileSurroundings.builtins 80)
        ⟨⟨false, moduleScancodes⟩, fun _ => 7, emptyArrays,
          ⟨Fs.initFsModules ⟨1, 2, 3⟩ (.code 0) moduleDrivers, fun _ => 0, kernelInUse⟩⟩
        (.ok w') ∧
      InTree fileTree moduleInUse 0 3 w' ∧
      fileF.Stored (fileSurroundings.atoi fileNumber) w' := by
  have htyped : typed false moduleScancodes = (keysOf moduleLines []).map some := by
    decide +kernel
  have hwords : moduleLines.map words = [rootWord, 112 :: [50]] ::
        [[ldmodWord, [109], moduleNumber]] ++
      ([rootWord, 112 :: [49]] :: [[cdWord, [65]]] ++
        [[loadWord, [45, 102], [70], fileNumber]]) := by
    decide +kernel
  have hvisit : Ext2Visit moduleTree kernelInUse 2 [[ldmodWord, [109], moduleNumber]]
      (moduleTree.blocks 2 + 0) [(0x0C, ⟨4, 5, 6⟩)] moduleInUse 2 :=
    .ldmod moduleM moduleM_image moduleM_clear (.done moduleInUse 2)
  have hlinux : Numbers fileSurroundings [50] 0x83 1000 :=
    ⟨by decide, by decide +kernel, by decide +kernel⟩
  have hfat : Numbers fileSurroundings [49] 0x0C 0 :=
    ⟨by decide, by decide +kernel, by decide +kernel⟩
  exact typed_session_loads_driver rfl htyped plain_moduleLines (by simp) (by decide) hwords
    hlinux (by simp [moduleTree]) hvisit rfl (by decide) hfat (by simp [fileTree])
    ⟨0, by decide, by decide +kernel⟩ (visit_fileA moduleInUse) fileF
    (fileF_clear fun a => moduleInUse_eq_false) (by decide) (by decide)

end Shell

end Janus86
