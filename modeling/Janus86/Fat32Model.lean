import Janus86.FileListing
import Janus86.StepMachine

/-!
# The FAT32 driver

The definitions follow `fat32.c`.  A listing is built in the global list
while the sectors of the clusters go through one buffer, which a long name
reads again and again.
-/

namespace Janus86
namespace Fat32

open StepMachine

structure Globals where
  fatBeginLba : ℕ
  clusterBeginLba : ℕ
  sectorsPerCluster : ℕ
  deriving DecidableEq

def fatEofMarker : ℕ := 0x0FFFFFFF

def cluPerFat : ℕ := 128

def direntPerSector : ℕ := 16

/-! ## Reads -/

/-- `CLUSTER_TO_LBA(e)`. -/
def clusterToLba (g : Globals) (e : ℕ) : ℕ :=
  (sub32 e 2 * g.sectorsPerCluster + g.clusterBeginLba) % 2 ^ 32

/-- Sector `k` from the start of a cluster on. -/
def clusterSector (vol : Volume) (g : Globals) (cluster k : ℕ) : ℕ :=
  (vol.lba + clusterToLba g cluster + k) % 2 ^ 32

def readClusterSector (vol : Volume) (g : Globals) (cluster k : ℕ)
    (buf : Buffer) : Option Buffer :=
  readDiskSector vol.disk buf vol.drive (clusterSector vol g cluster k) 1

/-- `fat32_rd_bootsec`: the code, and the globals. -/
def fat32RdBootsec (vol : Volume) (bootsec : Buffer) (g : Globals) :
    ℕ × Globals :=
  match readDiskSector vol.disk bootsec vol.drive vol.lba 1 with
  | none => (diskReadErr, g)
  | some boot =>
      if le16 boot 510 = 0xAA55 then
        (success,
          { fatBeginLba := (vol.lba + le16 boot 14) % 2 ^ 32
            clusterBeginLba :=
              (le16 boot 14 + (boot 16).toNat * le32 boot 36) % 2 ^ 32
            sectorsPerCluster := (boot 13).toNat })
      else (badFatBootSector, g)

/-- `fat32_rd_FAT`; the array on the stack is filled before it is used. -/
def fat32RdFAT (vol : Volume) (g : Globals) (cluster : ℕ) : ℕ :=
  match readDiskSector vol.disk (fun _ => 0) vol.drive
      ((g.fatBeginLba + cluster / cluPerFat) % 2 ^ 32) 1 with
  | none => diskReadErr
  | some fat =>
      let entry := le32 fat (4 * (cluster % cluPerFat))
      if entry = fatEofMarker then 0 else entry

/-! ## Names -/

/-- `Check_char` for a short name: what the character adds. -/
def checkShort (c : UInt8) : List UInt8 :=
  if c ≠ 32 ∧ c ≠ 0 then [c] else []

/-- `Check_char` for a long name. -/
def checkLong (c : UInt8) : List UInt8 := if c = 32 then [92, 32] else [c]

/-- The offsets of the characters in a `fat_long_dirent`. -/
def longOffsets : List ℕ := [1, 3, 5, 7, 9, 14, 16, 18, 20, 22, 24, 28, 30]

def slotName (buf : Buffer) (o : ℕ) : List UInt8 :=
  longOffsets.flatMap fun j => checkLong (buf (o + j))

/-- The name and the extension of a `fat_dirent`. -/
def shortName (buf : Buffer) (o : ℕ) : List UInt8 :=
  (List.range 8).flatMap (fun j => checkShort (buf (o + j))) ++
    (if buf (o + 8) ≠ 32 then [46] else []) ++
    (List.range 3).flatMap fun j => checkShort (buf (o + 8 + j))

/-- The locals of `Generate_Long_Name`, and the name so far. -/
structure LongCursor where
  buf : Buffer
  i : ℕ
  k : ℕ
  flag : Bool
  name : List UInt8

/-- On to the sector before when the entries of this one are used up. -/
def previousSector (vol : Volume) (g : Globals) (cluster : ℕ)
    (s : LongCursor) : Option LongCursor :=
  if s.i = 0 then
    match readClusterSector vol g cluster (sub32 s.k 1) s.buf with
    | none => none
    | some buf => some { s with
        buf := buf, i := direntPerSector, k := sub32 s.k 1, flag := true }
  else some s

/-- The do loop; the result says whether all sectors could be read. -/
def longTurn (vol : Volume) (g : Globals) (cluster : ℕ) (s : LongCursor) :
    Turn LongCursor (Except Fault (LongCursor × Bool)) :=
  match previousSector vol g cluster s with
  | none => .stop (.ok (s, false))
  | some s =>
      let o := 32 * (s.i - 1)
      let name := s.name ++ slotName s.buf o
      if 255 < name.length then .stop (.error .outOfBounds)
      else
        let s := { s with i := s.i - 1, name := name }
        if (s.buf o).toNat &&& 0x40 = 0 then .next s
        else .stop (.ok (s, true))

/-- A name without its NUL over the first bytes of `filename`. -/
def leaveName (name : List UInt8) (c : ListCursor) : ListCursor :=
  { c with temp := { c.temp with
      filename := name ++ c.temp.filename.drop name.length } }

/-- `Generate_Long_Name`: the buffer and the list.  The loop takes 13
characters or more in each turn. -/
def generateLongName (vol : Volume) (g : Globals) (cluster : ℕ) (buf : Buffer)
    (i k : ℕ) (c : ListCursor) : Except Fault (Buffer × ListCursor) := do
  let (s, done) ← (runFuel (longTurn vol g cluster) 20
    ⟨buf, i, k, false, []⟩).getD (.error .outOfFuel)
  if done then
    match (if s.flag then readClusterSector vol g cluster (s.k + 1) s.buf
      else some s.buf) with
    | none => pure (s.buf, leaveName s.name c)
    | some buf => do
        let c ← putName s.name c
        pure (buf, c)
  else pure (s.buf, leaveName s.name c)

/-! ## Directories -/

/-- Why `fat32_rd_cluster` leaves its loops early. -/
inductive Stop where
  | fault (fault : Fault)
  | ret (code : ℕ) (list : ListCursor)

structure ClusterState where
  direntry : Buffer
  prev : ℕ
  list : ListCursor

def liftFault {α : Type} : Except Fault α → Except Stop α
  | .error e => .error (.fault e)
  | .ok a => .ok a

/-- A read of the loops, which ends the call when it fails. -/
def readOrReturn (vol : Volume) (g : Globals) (cluster k : ℕ)
    (s : ClusterState) : Except Stop ClusterState :=
  match readClusterSector vol g cluster k s.direntry with
  | none => .error (.ret diskReadErr s.list)
  | some buf => .ok { s with direntry := buf }

def attribOf (buf : Buffer) (o : ℕ) : ℕ := (buf (o + 11)).toNat

/-- The first character of a name in use. -/
def isLive (c : UInt8) : Bool := c != 0 && c != 0xE5 && c != 0x20

def startCluster (buf : Buffer) (o : ℕ) : ℕ :=
  let start := le16 buf (o + 20) * 2 ^ 16 + le16 buf (o + 26)
  if start = 0 ∧ attribOf buf o = 0x10 then 2 else start

def fileTypeOf (attrib : ℕ) : ℕ :=
  if attrib &&& 0x10 ≠ 0 ∨ attrib &&& 0x08 ≠ 0 then directory
  else if attrib &&& 0x27 ≠ 0 then regFile
  else attrib

/-- The properties, without the name, put into the last node. -/
def fillNode (buf : Buffer) (o : ℕ) (c : ListCursor) : ListCursor :=
  { c with temp := { c.temp with
      fileType := fileTypeOf (attribOf buf o)
      start := startCluster buf o
      size := le32 buf (o + 28) } }

@[simp] theorem fillNode_done (buf : Buffer) (o : ℕ) (c : ListCursor) :
    (fillNode buf o c).done = c.done := by
  unfold fillNode
  rfl

@[simp] theorem fillNode_temp (buf : Buffer) (o : ℕ) (c : ListCursor) :
    (fillNode buf o c).temp =
      { c.temp with
        fileType := fileTypeOf (attribOf buf o)
        start := startCluster buf o
        size := le32 buf (o + 28) } := by
  unfold fillNode
  rfl

@[simp] theorem fillNode_fresh (buf : Buffer) (o : ℕ) (c : ListCursor) :
    (fillNode buf o c).fresh = c.fresh := by
  unfold fillNode
  rfl

/-- The branch of an entry behind a long name. -/
def longEntry (vol : Volume) (g : Globals) (cluster k i : ℕ)
    (s : ClusterState) : Except Stop ClusterState :=
  if i = 0 then do
    let s ← readOrReturn vol g cluster (sub32 k 1) s
    let (buf, list) ← liftFault
      (generateLongName vol g cluster s.direntry direntPerSector k s.list)
    let s ← readOrReturn vol g cluster k { s with direntry := buf, list := list }
    pure { s with prev := 0 }
  else do
    let (buf, list) ← liftFault
      (generateLongName vol g cluster s.direntry i k s.list)
    pure { direntry := buf, prev := 0, list := list }

/-- The branch of any other entry. -/
def shortEntry (i : ℕ) (s : ClusterState) : Except Stop ClusterState :=
  if isLive (s.direntry (32 * i)) then do
    let list ← liftFault (putName (shortName s.direntry (32 * i)) s.list)
    pure { s with list := list }
  else pure s

/-- `prev` at the end of a turn. -/
def rememberAttrib (i : ℕ) (s : ClusterState) : ClusterState :=
  if isLive (s.direntry (32 * i)) then
    { s with prev := attribOf s.direntry (32 * i) }
  else s

/-- One turn of the loop over the entries of a sector. -/
def entryStep (vol : Volume) (g : Globals) (cluster k : ℕ) (s : ClusterState)
    (i : ℕ) : Except Stop ClusterState := do
  let attrib := attribOf s.direntry (32 * i)
  let s ←
    if attrib ≠ 0x0F ∧ attrib ≠ 0x08 then
      let s := { s with list := fillNode s.direntry (32 * i) s.list }
      if s.prev = 0x0F then longEntry vol g cluster k i s else shortEntry i s
    else pure s
  pure (rememberAttrib i s)

/-- One turn of the loop over the sectors of a cluster. -/
def sectorStep (vol : Volume) (g : Globals) (cluster : ℕ) (s : ClusterState)
    (k : ℕ) : Except Stop ClusterState := do
  let s ← readOrReturn vol g cluster k s
  (List.range direntPerSector).foldlM (entryStep vol g cluster k) s

/-- `strcpy(fat_temp->filename, "")`. -/
def clearName (c : ListCursor) : ListCursor :=
  { c with temp := { c.temp with filename := 0 :: c.temp.filename.drop 1 } }

/-- `fat32_rd_cluster`: the code and the list.  The code of the inner call is
not looked at. -/
def fat32RdCluster (vol : Volume) (g : Globals) (direntry : Buffer) :
    ℕ → ℕ → ListCursor → Except Fault (ℕ × ListCursor)
  | 0, _, _ => .error .outOfFuel
  | fuel + 1, cluster, c =>
      match (List.range g.sectorsPerCluster).foldlM (sectorStep vol g cluster)
          ⟨direntry, 0, c⟩ with
      | .error (.fault e) => .error e
      | .error (.ret code c) => .ok (code, c)
      | .ok s =>
          let next := fat32RdFAT vol g cluster
          if isError next then .ok (next, s.list)
          else if next = 0 then .ok (success, clearName s.list)
          else do
            let (_, c) ← fat32RdCluster vol g direntry fuel next s.list
            pure (success, clearName c)

/-- A chain of clusters that goes on for longer comes by one of them twice. -/
def chainFuel : ℕ := 2 ^ 32 + 1

/-- What `init_fat32` leaves: the globals, the list from `fat_file_prop` on
and from `fat_temp` on, and the blocks that `kmalloc` still has. -/
structure Listed where
  globals : Globals
  list : List FsProperties
  search : List FsProperties
  fresh : List FreshBlock

/-- The local arrays of a call chain, as they are found. -/
structure Stack where
  bootsec : Buffer
  direntry : Buffer

def initFat32 (vol : Volume) (stack : Stack) (cluster : ℕ) (g : Globals)
    (fresh : List FreshBlock) : Except Fault Listed := do
  let (first, fresh) ← takeFresh fresh
  let (code, g) := fat32RdBootsec vol stack.bootsec g
  if isError code then
    pure ⟨g, [first.node], [first.node], fresh⟩
  else do
    let (code, c) ← fat32RdCluster vol g stack.direntry chainFuel cluster
      ⟨[], first.node, fresh⟩
    pure ⟨g, c.listing, if isError code then [c.temp] else c.listing, c.fresh⟩

/-! ## Files -/

/-- The number of turns of the loop in `fat32_mmap`. -/
def mmapSectors (size : ℤ) : ℕ := ((size - 1).tdiv 512 + 1).toNat

/-- The copy loop of `fat32_mmap`: what it stores, and whether it comes to
its end. -/
def mmapCopy (vol : Volume) (g : Globals) (cluster : ℕ) :
    ℕ → ℕ → List Buffer × Bool
  | 0, _ => ([], true)
  | n + 1, k =>
      match readClusterSector vol g cluster k (fun _ => 0) with
      | none => ([], false)
      | some buf =>
          let (chunks, done) := mmapCopy vol g cluster n (k + 1)
          (buf :: chunks, done)

def intMin : ℤ := -2 ^ 31

/-- `fat32_mmap`: the sectors that are stored one behind the other from
`mem_loc` on. -/
def fat32Mmap (vol : Volume) (g : Globals) :
    ℕ → ℕ → ℤ → Except Fault (List Buffer)
  | 0, _, _ => .error .outOfFuel
  | fuel + 1, cluster, size =>
      if size - 1 < intMin then .error .signedOverflow
      else
        let (chunks, done) := mmapCopy vol g cluster (mmapSectors size) 0
        if done then
          let next := fat32RdFAT vol g cluster
          if isError next || next == 0 then .ok chunks
          else if size - 512 < intMin then .error .signedOverflow
          else do
            let more ← fat32Mmap vol g fuel next (size - 512)
            pure (chunks ++ more)
        else .ok chunks

/-- In this many calls the size drops below the range of an `int`. -/
def mmapFuel : ℕ := 2 ^ 24

/-- `load_fat32`; `block` is what `kmalloc` returns for the size of the file,
0 for `NULL`. -/
def loadFat32 (vol : Volume) (stack : Stack) (cluster : ℕ) (g : Globals)
    (fresh : List FreshBlock) (name : List UInt8) (loadMem block : ℕ) :
    Except Fault Load := do
  let listed ← initFat32 vol stack cluster g fresh
  match findName name listed.search with
  | none => pure ⟨filNotFound, []⟩
  | some node =>
      if node.fileType = directory then pure ⟨notRegFile, []⟩
      else do
        let chunks ← fat32Mmap vol listed.globals mmapFuel node.start
          (toInt32 node.size)
        pure ⟨destination loadMem block, chunks⟩

end Fat32
end Janus86
