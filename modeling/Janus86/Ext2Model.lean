import Janus86.FileListing
import Janus86.StepMachine

/-!
# The ext2 driver

The definitions follow `ext2.c`, `dir.c` and `superblock.c`.  A structure of
the disk is read out of the buffer that holds it, at the offset of its field.
`ext2_rd_block` reports an error of the drive and goes on, so the buffer
keeps its old bytes then; the contents of the local arrays at the entry of
their function are arguments.
-/

namespace Janus86
namespace Ext2

open StepMachine

/-- What `ext2super`, `gbinfo` and `grblock` point to. -/
structure Globals where
  super : Buffer
  bs : ℕ
  gdoffset : ℕ
  grblock : Buffer

def Globals.blocksPerGroup (g : Globals) : ℕ := le32 g.super 32

def Globals.inodesPerGroup (g : Globals) : ℕ := le32 g.super 40

def Globals.inodeTable (g : Globals) : ℕ := le32 g.grblock 8

def superBlockOffset : ℕ := 2

def ext2Magic : ℕ := 0xEF53

def isDir (mode : ℕ) : Bool := mode &&& 0xF000 == 0x4000

def isReg (mode : ℕ) : Bool := mode &&& 0xF000 == 0x8000

/-! ## Reads -/

/-- `ext2_rd_block` into an array of `capacity` bytes. -/
def ext2RdBlock (vol : Volume) (drive lba sectors capacity : ℕ) (buf : Buffer) :
    Except Fault Buffer :=
  match readDiskSector vol.disk buf drive ((lba + superBlockOffset) % 2 ^ 32)
      sectors with
  | none => .ok buf
  | some buf' =>
      if 512 * sectors ≤ capacity then .ok buf' else .error .outOfBounds

/-- The calls of `ext2_rd_block` that fetch a block into 4096 bytes. -/
def readBlock (vol : Volume) (drive : ℕ) (g : Globals) (block : ℕ)
    (buf : Buffer) : Except Fault Buffer :=
  ext2RdBlock vol drive (sub32 (vol.lba + g.bs / 512 * block) 2) (g.bs / 512)
    4096 buf

/-- `ext2_rd_superblock`; `buf` is the block that `kmalloc` returned. -/
def ext2RdSuperblock (vol : Volume) (buf : Buffer) (g : Globals) :
    Except Fault Globals :=
  let super := (readDiskSector vol.disk buf vol.drive
    ((vol.lba + superBlockOffset) % 2 ^ 32) 2).getD buf
  if le16 super 56 = ext2Magic then
    if le32 super 24 < 32 then
      let bs := 1024 * 2 ^ le32 super 24 % 2 ^ 32
      .ok { g with
        super := super
        bs := bs
        gdoffset := if bs = 4096 then 6 else 2 }
    else .error .badShift
  else .ok { g with super := super }

/-! ## The place of an inode -/

def sparseGroups : List ℕ :=
  [0, 1, 3, 9, 27, 5, 25, 7, 49, 81, 125, 243, 343, 625]

def inodeToLba (g : Globals) (inode : ℕ) : Except Fault ℕ :=
  if g.inodesPerGroup = 0 then .error .divideByZero else
  let j := inode % g.inodesPerGroup
  let group := inode / g.inodesPerGroup
  let smallSize := g.bs / 128
  if group ∈ sparseGroups then
    let sector := (group * g.blocksPerGroup * smallSize + sub32 j 1 +
      g.inodeTable * smallSize) % 2 ^ 32 / 4
    .ok (sub32 sector 2)
  else
    let sector := (group * g.blocksPerGroup * smallSize + sub32 j 1 +
      2 * smallSize) % 2 ^ 32 / 4
    .ok (sub32 (if g.bs = 1024 then sector + 2 else sector) 2)

def getIndex (g : Globals) (inode : ℕ) : ℤ :=
  (toInt32 (inode % g.inodesPerGroup) - 1).tmod 4

/-- The sector with the inode, and the offset of the inode in it.  The
pointer is kept in an array with four elements, which has no element for a
negative index. -/
def readInode (vol : Volume) (drive : ℕ) (g : Globals) (inode : ℕ)
    (buf : Buffer) : Except Fault (Buffer × ℕ) := do
  let inodesam ← inodeToLba g inode
  let buf ← ext2RdBlock vol drive (vol.lba + inodesam) 1 512 buf
  let i := getIndex g inode
  if 0 ≤ i then pure (buf, 128 * i.toNat) else throw .outOfBounds

/-- `i_block[k]` of the inode at an offset of a buffer. -/
def iBlock (buf : Buffer) (o k : ℕ) : ℕ := le32 buf (o + 40 + 4 * k)

/-! ## Directories -/

def recordName (dirbuf : Buffer) (prevRecLen : ℕ) : List UInt8 :=
  (List.range (dirbuf (prevRecLen + 6)).toNat).map
    fun j => dirbuf (prevRecLen + 8 + j)

/-- The list under construction, and `indbuf`. -/
structure DirCursor extends ListCursor where
  indbuf : Buffer

/-- `ext2_temp` filled from the record at `prev_rec_len`. -/
def fillNode (vol : Volume) (g : Globals) (dirbuf : Buffer) (prevRecLen : ℕ)
    (c : DirCursor) : Except Fault DirCursor :=
  let name := recordName dirbuf prevRecLen
  if 4096 < prevRecLen + 8 + name.length then .error .outOfBounds
  else do
    let node ← c.temp.setName (escapeName name)
    let inode := le32 dirbuf prevRecLen
    let (indbuf, o) ← readInode vol vol.drive g inode c.indbuf
    pure { c with
      temp := { node with
        start := inode
        size := le32 indbuf (o + 4)
        fileType := (dirbuf (prevRecLen + 7)).toNat }
      indbuf := indbuf }

/-- `ext2_temp = ext2_temp->next = kmalloc(...)`. -/
def nextRecordNode (c : DirCursor) : Except Fault DirCursor := do
  let list ← nextNode c.toListCursor
  pure { c with toListCursor := list }

/-- The do loop over the records of a block. -/
def recordTurn (vol : Volume) (g : Globals) (dirbuf : Buffer)
    (s : ℕ × DirCursor) : Turn (ℕ × DirCursor) (Except Fault DirCursor) :=
  match fillNode vol g dirbuf s.1 s.2 with
  | .error e => .stop (.error e)
  | .ok c =>
      let recLen := le16 dirbuf (s.1 + 4)
      -- goto a
      if g.bs ≤ recLen + s.1 then .stop (.ok c)
      else
        match nextRecordNode c with
        | .error e => .stop (.error e)
        | .ok c' =>
            if 0 < recLen then .next (recLen + s.1, c') else .stop (.ok c')

def readRecords (vol : Volume) (g : Globals) (dirbuf : Buffer)
    (c : DirCursor) : Except Fault DirCursor :=
  (runFuel (recordTurn vol g dirbuf) (g.bs + 1) (0, c)).getD
    (.error .outOfFuel)

/-- One turn of the loop over the direct blocks. -/
def readDirBlock (vol : Volume) (g : Globals) (block : ℕ)
    (s : Buffer × DirCursor) : Except Fault (Buffer × DirCursor) :=
  if block = 0 then pure s
  else do
    let dirbuf ← readBlock vol vol.drive g block s.1
    let c ← readRecords vol g dirbuf s.2
    pure (dirbuf, c)

def ext2RdDir (vol : Volume) (g : Globals) (iblock : ℕ → ℕ) (dirbuf : Buffer)
    (c : DirCursor) : Except Fault DirCursor := do
  let s ← (List.range 12).foldlM (fun s k => readDirBlock vol g (iblock k) s)
    (dirbuf, c)
  pure s.2

/-- The local arrays of a call chain, as they are found. -/
structure Stack where
  groupdescr : Buffer
  inodebuff : Buffer
  dirbuf : Buffer
  indbuf : Buffer
  databuf : Buffer
  indirectbuf : Buffer
  indirect2buf : Buffer

def ext2RdInode (vol : Volume) (stack : Stack) (inode : ℕ) (g : Globals)
    (c : DirCursor) : Except Fault (Globals × DirCursor) := do
  let groupdescr ← ext2RdBlock vol vol.drive (vol.lba + g.gdoffset) 2 1024
    stack.groupdescr
  let g := { g with grblock := groupdescr }
  let (inodebuff, o) ← readInode vol vol.drive g inode stack.inodebuff
  if isDir (le16 inodebuff o) then
    let c ← ext2RdDir vol g (iBlock inodebuff o) stack.dirbuf c
    pure (g, c)
  else pure (g, c)

/-- `init_ext2`: the listing from `ext2_file_prop` on. -/
def initExt2 (vol : Volume) (stack : Stack) (inode : ℕ) (g : Globals)
    (fresh : List FreshBlock) :
    Except Fault (Globals × List FsProperties × List FreshBlock) := do
  let (first, fresh) ← takeFresh fresh
  let (superBuf, fresh) ← takeFresh fresh
  let g ← ext2RdSuperblock vol superBuf.bytes g
  let (g, c) ← ext2RdInode vol stack inode g
    { done := [], temp := first.node, fresh := fresh, indbuf := stack.indbuf }
  pure (g, c.listing, c.fresh)

/-! ## Files -/

/-- The state of `ext2_rd_file`: the blocks stored at `memloc` so far, the
three buffers, and the offset in `indirect2buf` at which `dind` points, when
this call has set it. -/
structure FileCursor where
  chunks : List Buffer
  databuf : Buffer
  indirectbuf : Buffer
  indirect2buf : Buffer
  dind : Option ℕ

/-- `dind->diblock`; `stale` is what is found there before this call has set
`dind`. -/
def FileCursor.diblock (c : FileCursor) (stale : ℕ) : ℕ :=
  match c.dind with
  | none => stale
  | some o => le32 c.indirect2buf o

/-- A block fetched into `databuf`, whose 4096 bytes are stored. -/
def copyBlock (vol : Volume) (g : Globals) (block : ℕ) (c : FileCursor) :
    Except Fault FileCursor := do
  let databuf ← readBlock vol 0 g block c.databuf
  pure { c with databuf := databuf, chunks := c.chunks ++ [databuf] }

/-- An entry of a table in an array of 4096 bytes. -/
def tableEntry (buf : Buffer) (j : ℕ) : Except Fault ℕ :=
  if 4 * j < 4096 then .ok (le32 buf (4 * j)) else .error .outOfBounds

def rdDirect (vol : Volume) (g : Globals) (iblock : ℕ → ℕ) (c : FileCursor) :
    Except Fault FileCursor :=
  (List.range 12).foldlM
    (fun c k => if iblock k = 0 then pure c else copyBlock vol g (iblock k) c) c

def rdSinglyIndirect (vol : Volume) (g : Globals) (block : ℕ)
    (c : FileCursor) : Except Fault FileCursor :=
  if block = 0 then pure c
  else do
    let indirectbuf ← readBlock vol 0 g block c.indirectbuf
    (List.range (g.bs / 4)).foldlM
      (fun c j => do
        let siblock ← tableEntry indirectbuf j
        copyBlock vol g siblock c)
      { c with indirectbuf := indirectbuf }

/-- One turn of the outer doubly indirect loop.  The second-level table is
fetched from where `dind` happens to point, the data from where `sind`
points. -/
def rdSecondLevel (vol : Volume) (g : Globals) (stale siblock : ℕ)
    (c : FileCursor) : Except Fault FileCursor := do
  let indirect2buf ← readBlock vol 0 g (c.diblock stale) c.indirect2buf
  (List.range (g.bs / 4)).foldlM
    (fun c l => copyBlock vol g siblock { c with dind := some (4 * l) })
    { c with indirect2buf := indirect2buf }

def rdDoublyIndirect (vol : Volume) (g : Globals) (stale block : ℕ)
    (c : FileCursor) : Except Fault FileCursor :=
  if block = 0 then pure c
  else do
    let indirectbuf ← readBlock vol 0 g block c.indirectbuf
    (List.range (g.bs / 4)).foldlM
      (fun c j => do
        let siblock ← tableEntry indirectbuf j
        rdSecondLevel vol g stale siblock c)
      { c with indirectbuf := indirectbuf }

/-- `ext2_rd_file`: the blocks of 4096 bytes that are stored one behind the
other from `memloc` on. -/
def ext2RdFile (vol : Volume) (stack : Stack) (stale : ℕ) (g : Globals)
    (iblock : ℕ → ℕ) : Except Fault (List Buffer) := do
  let c ← rdDirect vol g iblock
    { chunks := []
      databuf := stack.databuf
      indirectbuf := stack.indirectbuf
      indirect2buf := stack.indirect2buf
      dind := none }
  let c ← rdSinglyIndirect vol g (iblock 12) c
  let c ← rdDoublyIndirect vol g stale (iblock 13) c
  pure c.chunks

/-- `ext2_load_file`: what is stored at `load_mem`. -/
def ext2LoadFile (vol : Volume) (stack : Stack) (stale : ℕ) (g : Globals)
    (inode : ℕ) : Except Fault (List Buffer) := do
  let (inodebuff, o) ← readInode vol 0 g inode stack.inodebuff
  if isReg (le16 inodebuff o) then
    ext2RdFile vol stack stale g (iBlock inodebuff o)
  else pure []

/-- `ext2_loadfile`.  By the time of the load `grblock` points to an array of
a call that has returned, with the bytes `dangling`; `block` is what `kmalloc`
returns for the size of the file, 0 for `NULL`. -/
def ext2Loadfile (vol : Volume) (stack loadStack : Stack) (stale : ℕ)
    (dangling : Buffer) (inode : ℕ) (g : Globals) (fresh : List FreshBlock)
    (name : List UInt8) (loadMem block : ℕ) : Except Fault Load := do
  let (g, list, _) ← initExt2 vol stack inode g fresh
  match findName name list with
  | none => pure ⟨filNotFound, []⟩
  | some node =>
      if node.fileType = regFile then do
        let chunks ← ext2LoadFile vol loadStack stale
          { g with grblock := dangling } node.start
        pure ⟨destination loadMem block, chunks⟩
      else pure ⟨notRegFile, []⟩

end Ext2
end Janus86
