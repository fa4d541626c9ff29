import Janus86.DiskModel

/-!
# Directory listings

Both drivers describe a directory by a linked list of nodes: the start (an
inode number, or a first cluster), the size, the type and the name of a file.
The shell reads the list through `struct fs_properties`, which the node types
of the two drivers repeat.  A node comes from `kmalloc` and holds what its
memory held before; a name is put over the first bytes of its `filename`.
The codes of the drivers are the bits of an `int`, so that an address or an
entry of a FAT may be mistaken for one.
-/

namespace Janus86

def success : ℕ := 1

def filNotFound : ℕ := 2 ^ 32 - 5

def notRegFile : ℕ := 2 ^ 32 - 6

def dirNotFound : ℕ := 2 ^ 32 - 7

def diskReadErr : ℕ := 2 ^ 32 - 8

def patLenExceed : ℕ := 2 ^ 32 - 9

def cdErr : ℕ := 2 ^ 32 - 10

def badFatBootSector : ℕ := 2 ^ 32 - 11

def noSuchPart : ℕ := 2 ^ 32 - 15

/-- `error(errcode)`, for the bits of `errcode`. -/
def isError (code : ℕ) : Bool := noSuchPart ≤ code && code ≤ filNotFound

def regFile : ℕ := 1

def directory : ℕ := 2

/-- A node of a listing.  `filename` are the bytes of the whole array. -/
structure FsProperties where
  start : ℕ
  size : ℕ
  fileType : ℕ
  filename : List UInt8
  deriving DecidableEq

/-- What a node says about a file. -/
structure Entry where
  name : List UInt8
  start : ℕ
  size : ℕ
  fileType : ℕ
  deriving DecidableEq

/-- A block that `kmalloc` hands out: its old contents, read as a node and as
plain bytes. -/
structure FreshBlock where
  node : FsProperties
  bytes : Buffer

def blank : FreshBlock := ⟨⟨0, 0, 0, []⟩, fun _ => 0⟩

def FsProperties.name (node : FsProperties) : List UInt8 := cString node.filename

def FsProperties.entry (node : FsProperties) : Entry where
  name := node.name
  start := node.start
  size := node.size
  fileType := node.fileType

/-- A name with a backslash before each space. -/
def escapeName (name : List UInt8) : List UInt8 :=
  name.flatMap fun c => if c = 32 then [92, 32] else [c]

/-- The name and its NUL over the first bytes of `filename[255]`. -/
def FsProperties.setName (node : FsProperties) (name : List UInt8) :
    Except Fault FsProperties :=
  if name.length < 255 then
    .ok { node with filename := name ++ 0 :: node.filename.drop (name.length + 1) }
  else .error .outOfBounds

/-- `kmalloc` as the drivers use it: the next block, which is dereferenced at
once. -/
def takeFresh : List FreshBlock → Except Fault (FreshBlock × List FreshBlock)
  | [] => .error .nullPointer
  | block :: rest => .ok (block, rest)

/-- A list that is being built: the nodes before the last one, the last node,
and the blocks that `kmalloc` still has. -/
structure ListCursor where
  done : List FsProperties
  temp : FsProperties
  fresh : List FreshBlock

def ListCursor.listing (c : ListCursor) : List FsProperties :=
  c.done ++ [c.temp]

/-- `temp->next = kmalloc(...)`, and on to that node. -/
def nextNode (c : ListCursor) : Except Fault ListCursor := do
  let (block, fresh) ← takeFresh c.fresh
  pure { done := c.done ++ [c.temp], temp := block.node, fresh := fresh }

/-- The name into the last node, and on to the next one. -/
def putName (name : List UInt8) (c : ListCursor) : Except Fault ListCursor := do
  let temp ← c.temp.setName name
  nextNode { c with temp := temp }

/-- The first node with the name. -/
def findName (name : List UInt8) : List FsProperties → Option FsProperties
  | [] => none
  | node :: rest => if node.name = name then some node else findName name rest

/-- The reply of a loader, and the chunks stored from there on. -/
structure Load where
  reply : ℕ
  chunks : List Buffer

/-- Where a loader stores: at `load_mem`, or at the block that `kmalloc`
returned when that is `NULL`. -/
def destination (loadMem block : ℕ) : ℕ := if loadMem = 0 then block else loadMem

/-- A number of a cluster is not a code of an error. -/
theorem isError_of_lt {code : ℕ} (hlt : code < noSuchPart) :
    isError code = false := by
  have hsmall : ¬ noSuchPart ≤ code := Nat.not_le.mpr hlt
  simp [isError, hsmall]

theorem setName_eq_ok_iff {node node' : FsProperties} {name : List UInt8} :
    node.setName name = .ok node' ↔ name.length < 255 ∧
      node' = { node with
        filename := name ++ 0 :: node.filename.drop (name.length + 1) } := by
  unfold FsProperties.setName
  split
  · next hlen => simp [hlen, eq_comm]
  · next hlen => simp [hlen]

/-- A name shows in the listing as far as its first NUL. -/
theorem entry_of_setName {node node' : FsProperties} {name : List UInt8}
    (hset : node.setName name = .ok node') :
    node'.entry = { node.entry with name := cString name } := by
  obtain ⟨_, rfl⟩ := setName_eq_ok_iff.mp hset
  simp [FsProperties.entry, FsProperties.name, cString_append_zero]

theorem nextNode_ok {c c' : ListCursor} (hnext : nextNode c = .ok c') :
    c'.done = c.done ++ [c.temp] ∧ c'.fresh.length + 1 = c.fresh.length := by
  obtain ⟨⟨block, fresh⟩, htake, hnext⟩ := bind_eq_ok_iff.mp hnext
  cases hnext
  cases hfresh : c.fresh with
  | nil =>
      rw [hfresh] at htake
      cases htake
  | cons b rest =>
      rw [hfresh] at htake
      cases htake
      exact ⟨rfl, rfl⟩

theorem nextNode_of_room {c : ListCursor} (hroom : 0 < c.fresh.length) :
    ∃ c', nextNode c = .ok c' := by
  cases hfresh : c.fresh with
  | nil => simp [hfresh] at hroom
  | cons b rest => exact ⟨_, by rw [nextNode, hfresh]; rfl⟩

end Janus86
