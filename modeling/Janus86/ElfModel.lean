import Janus86.DiskModel
import Janus86.KmallocModel

/-!
# The ELF loader

`elf.c` reads an image that is in memory at `elf_ptr`.  The tables that it makes hold
pointers into the image; a store into one of them goes to a block that `kmalloc`
returned, and one that does not fit ends the run.  What is printed fits into the buffer of
`kprintf`, but for the names of the symbols: they are taken from a block into which nothing
was stored, and are given as they are found there.
-/

namespace Janus86
namespace Elf

open StepMachine

def ELF_HEADER_SIZE : ℕ := 52
def ELF_SH_SIZE : ℕ := 40
def ELF_STENTRY_SIZE : ℕ := 16
def ELF_PH_SIZE : ℕ := 32

def SHT_SYMTAB : ℕ := 2
def SHT_STRTAB : ℕ := 3
def SHT_DYNSYM : ℕ := 11

/-- What ends a run of the loader. -/
inductive ElfFault where
  | outOfFuel
  | signedOverflow
  | outsideBlock
  | notAllocated
  | freedTwice
  deriving DecidableEq, Repr

/-! ## The image -/

section Image

variable (mem : Buffer) (elfPtr : ℕ)

def ePhoff : ℕ := le32 mem (elfPtr + 28)
def eShoff : ℕ := le32 mem (elfPtr + 32)
def ePhnum : ℕ := le16 mem (elfPtr + 44)
def eShnum : ℕ := le16 mem (elfPtr + 48)

end Image

/-- `&elf_ptr[offset]` -/
def elfPtrAt (elfPtr offset : ℕ) : ℕ := (elfPtr + offset % 2 ^ 32) % 2 ^ 32

/-- The fields of a section header that the readers look at. -/
structure Shdr where
  shType : ℕ
  shOffset : ℕ
  shSize : ℕ
  deriving DecidableEq, Repr

def shdrAt (mem : Buffer) (p : ℕ) : Shdr :=
  ⟨le32 mem (p + 4), le32 mem (p + 16), le32 mem (p + 20)⟩

def Shdr.isSymbolTable (s : Shdr) : Bool := s.shType == SHT_SYMTAB || s.shType == SHT_DYNSYM

/-! ## The blocks -/

/-- A block that was asked for, with the number of bytes. -/
structure Block where
  ptr : ℕ
  bytes : ℕ
  deriving DecidableEq, Repr

/-- The blocks that `kmalloc` has returned, and the pointers that were freed since. -/
structure Allocated where
  blocks : List Block
  freed : List ℕ
  deriving DecidableEq, Repr

/-- The pointer that `kmalloc` returns for so many bytes. -/
abbrev Allocator := Allocated → ℕ → ℕ

def kmalloc (alloc : Allocator) (nbytes : ℕ) (h : Allocated) : Block × Allocated :=
  let block := ⟨alloc h nbytes, nbytes⟩
  if block.ptr = 0 then (block, h)
  else (block, ⟨block :: h.blocks, h.freed.filter (· ≠ block.ptr)⟩)

/-- The bytes of a block: what was asked for, in whole units. -/
def Block.usable (b : Block) : ℕ := (Kmalloc.nunits b.bytes - 1) * Kmalloc.sizeofHeader

/-- `kfree` of a pointer that `kmalloc` returned and that was not freed since. -/
def kfree (p : ℕ) (h : Allocated) : Except ElfFault Allocated :=
  if p ∉ h.blocks.map Block.ptr then .error .notAllocated
  else if p ∈ h.freed then .error .freedTwice
  else .ok { h with freed := p :: h.freed }

/-- A pointer can be stored at this distance from the start of a block. -/
def storeInside (b : Block) (o : ℕ) : Except ElfFault Unit :=
  if b.ptr ≠ 0 ∧ o + 4 ≤ b.usable then .ok () else .error .outsideBlock

/-- A table of pointers while it is filled in. -/
structure Filling where
  entries : ℕ → ℕ
  heap : Allocated

/-- `table[i] = kmalloc (bytes); table[i] = p;` -/
def storeEntry (alloc : Allocator) (table : Block) (bytes i p : ℕ)
    (t : Filling) : Except ElfFault Filling := do
  let (entry, heap) := kmalloc alloc bytes t.heap
  storeInside table (4 * i)
  let entries := Function.update t.entries i entry.ptr
  storeInside table (4 * i)
  pure ⟨Function.update entries i p, heap⟩

/-! ## The readers -/

/-- The table of pointers to `num` headers that both header readers make. -/
def readHeaders (alloc : Allocator) (num bytes : ℕ)
    (header : ℕ → ℕ) (h : Allocated) : Except ElfFault (Block × Filling) := do
  let (table, h) := kmalloc alloc num h
  let t ← (List.range num).foldlM
    (fun t i => storeEntry alloc table bytes i (header i) t) ⟨fun _ => 0, h⟩
  pure (table, t)

def readSectionHeaders (alloc : Allocator) (mem : Buffer)
    (elfPtr : ℕ) (h : Allocated) : Except ElfFault (Block × Filling) :=
  readHeaders alloc (eShnum mem elfPtr) ELF_SH_SIZE
    (fun i => elfPtrAt elfPtr (eShoff mem elfPtr + i * ELF_SH_SIZE)) h

def readProgramHeaders (alloc : Allocator) (mem : Buffer)
    (elfPtr : ℕ) (h : Allocated) : Except ElfFault (Block × Filling) :=
  readHeaders alloc (ePhnum mem elfPtr) ELF_PH_SIZE
    (fun i => elfPtrAt elfPtr (ePhoff mem elfPtr + i * ELF_PH_SIZE)) h

/-- The sizes of the sections that a reader picks, added up. -/
def sumSizes (mem : Buffer) (elfPtr : ℕ) (elfShdr : ℕ → ℕ) (pick : Shdr → Bool)
    (size : ℕ) : ℕ :=
  (List.range (eShnum mem elfPtr)).foldl (fun size i =>
    let shdr := shdrAt mem (elfShdr i)
    if pick shdr then (size + shdr.shSize) % 2 ^ 32 else size) size

/-- `read_string_tables`: the block, and the new `strtab_size`, which grows by the sizes of
this image before the block is asked for. -/
def readStringTables (alloc : Allocator) (mem : Buffer) (elfPtr : ℕ) (elfShdr : ℕ → ℕ)
    (strtabSize : ℕ) (h : Allocated) : Block × ℕ × Allocated :=
  let isStringTable := fun s : Shdr => s.shType == SHT_STRTAB
  let (elfStrtab, h) := kmalloc alloc (sumSizes mem elfPtr elfShdr isStringTable strtabSize) h
  (elfStrtab, sumSizes mem elfPtr elfShdr isStringTable 0, h)

/-- The loop over the entries of a symbol table. -/
structure SymCursor where
  tabSize : ℕ
  tabEntry : ℕ
  symtabNum : ℕ
  table : Filling

/-- The names that `debug_symboltable_entry` finds for the entries, one after the other. -/
abbrev SymbolNames := ℕ → List UInt8

/-- `kprintf ("%25s", name)`: the buffer of `kprintf` has 100 bytes. -/
def printName (name : List UInt8) : Except ElfFault Unit :=
  if name.length < 100 then .ok () else .error .outsideBlock

/-- A turn of the loop.  `tab_entry` is never ahead of `symtab_num`, so the increment of
this one overflows first. -/
def symbolTurn (alloc : Allocator) (names : SymbolNames) (elfPtr : ℕ) (elfSym : Block)
    (shdr : Shdr) (c : SymCursor) : Turn SymCursor (Except ElfFault SymCursor) :=
  if c.tabSize = 0 then .stop (.ok c)
  else
    match storeEntry alloc elfSym ELF_STENTRY_SIZE c.symtabNum
          (elfPtrAt elfPtr (shdr.shOffset + c.tabEntry * ELF_STENTRY_SIZE)) c.table,
        printName (names c.symtabNum) with
    | .error e, _ => .stop (.error e)
    | .ok _, .error e => .stop (.error e)
    | .ok table, .ok _ =>
        if 2 ^ 31 ≤ c.symtabNum + 1 then .stop (.error .signedOverflow)
        else
          .next
            { tabSize := sub32 c.tabSize ELF_STENTRY_SIZE
              tabEntry := c.tabEntry + 1
              symtabNum := c.symtabNum + 1
              table := table }

/-- What `read_symbol_table` does with the section `i`. -/
def symbolSection (alloc : Allocator) (names : SymbolNames) (fuel : ℕ) (mem : Buffer)
    (elfPtr : ℕ) (elfShdr : ℕ → ℕ) (elfSym : Block) (c : SymCursor) (i : ℕ) :
    Except ElfFault SymCursor :=
  let shdr := shdrAt mem (elfShdr i)
  if shdr.isSymbolTable then
    (runFuel (symbolTurn alloc names elfPtr elfSym shdr) fuel
      { c with tabSize := shdr.shSize, tabEntry := 0 }).getD (.error .outOfFuel)
  else .ok c

/-- The number of bytes that `read_symbol_table` asks for. -/
def symtabBytes (mem : Buffer) (elfPtr : ℕ) (elfShdr : ℕ → ℕ) : ℕ :=
  sumSizes mem elfPtr elfShdr Shdr.isSymbolTable 0 / ELF_STENTRY_SIZE + 1

def readSymbolTable (alloc : Allocator) (names : SymbolNames) (fuel : ℕ) (mem : Buffer)
    (elfPtr : ℕ) (elfShdr : ℕ → ℕ) (h : Allocated) : Except ElfFault (Block × SymCursor) := do
  let (elfSym, h) := kmalloc alloc (symtabBytes mem elfPtr elfShdr) h
  let c ← (List.range (eShnum mem elfPtr)).foldlM
    (symbolSection alloc names fuel mem elfPtr elfShdr elfSym) ⟨0, 0, 0, ⟨fun _ => 0, h⟩⟩
  pure (elfSym, c)

/-- `elf_load`.  `elf_hdr` is the image itself, whose own block it does not keep. -/
def elfLoad (alloc : Allocator) (names : SymbolNames) (fuel : ℕ) (mem : Buffer)
    (elfPtr strtabSize : ℕ) (h : Allocated) : Except ElfFault Allocated := do
  let (_, h) := kmalloc alloc ELF_HEADER_SIZE h
  let (elfShdr, t) ← readSectionHeaders alloc mem elfPtr h
  let (elfStrtab, _, h) := readStringTables alloc mem elfPtr t.entries strtabSize t.heap
  let (elfSym, c) ← readSymbolTable alloc names fuel mem elfPtr t.entries h
  let (elfPhdr, t) ← readProgramHeaders alloc mem elfPtr c.table.heap
  let h ← kfree elfPtr t.heap
  let h ← kfree elfShdr.ptr h
  let h ← kfree elfSym.ptr h
  let h ← kfree elfPhdr.ptr h
  let h ← kfree elfPhdr.ptr h
  kfree elfStrtab.ptr h

end Elf
end Janus86
