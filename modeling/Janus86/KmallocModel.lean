import Janus86.StepMachine

/-!
# The storage allocator of the kernel

`src/mm/kmalloc.c` keeps its free blocks on a circular list threaded through
their headers and searches it with next fit.  A header pointer is an address
divided by `sizeof(union header)`, so that `p + n` is the pointer arithmetic
of the source and the units of the heap are numbered consecutively; the null
pointer is `0`.  Both loops of the allocator are step machines.
-/

namespace Janus86
namespace Kmalloc

open StepMachine

def KERNEL_MEM_START : ℕ := 0x200000
def KERNEL_MEM_END : ℕ := 0x1000000
def KERNEL_MEM_SIZE : ℕ := KERNEL_MEM_END - KERNEL_MEM_START

/-- `sizeof(union header)` on i386: a pointer and an `unsigned`. -/
def sizeofHeader : ℕ := 8

/-- The header of a block: the next free block and the block's size. -/
structure Header where
  ptr : ℕ
  size : ℕ
  deriving DecidableEq, Repr

/-- The headers in memory and the static variable `freep`. -/
structure Heap where
  header : ℕ → Header
  freep : ℕ

namespace Heap

def ptr (h : Heap) (p : ℕ) : ℕ := (h.header p).ptr

def size (h : Heap) (p : ℕ) : ℕ := (h.header p).size

/-- `p->s.ptr = q` -/
def setPtr (h : Heap) (p q : ℕ) : Heap :=
  { h with header := Function.update h.header p ⟨q, h.size p⟩ }

/-- `p->s.size = n` -/
def setSize (h : Heap) (p n : ℕ) : Heap :=
  { h with header := Function.update h.header p ⟨h.ptr p, n⟩ }

/-- `freep = p` -/
def setFreep (h : Heap) (p : ℕ) : Heap := { h with freep := p }

@[simp] theorem setPtr_ptr (h : Heap) (p q x : ℕ) :
    (h.setPtr p q).ptr x = if x = p then q else h.ptr x := by
  unfold setPtr ptr
  by_cases hx : x = p <;> simp [hx]

@[simp] theorem setPtr_size (h : Heap) (p q x : ℕ) :
    (h.setPtr p q).size x = h.size x := by
  unfold setPtr size
  by_cases hx : x = p <;> simp [hx]

@[simp] theorem setSize_ptr (h : Heap) (p n x : ℕ) :
    (h.setSize p n).ptr x = h.ptr x := by
  unfold setSize ptr
  by_cases hx : x = p <;> simp [hx]

@[simp] theorem setSize_size (h : Heap) (p n x : ℕ) :
    (h.setSize p n).size x = if x = p then n else h.size x := by
  unfold setSize size
  by_cases hx : x = p <;> simp [hx]

@[simp] theorem setFreep_ptr (h : Heap) (p x : ℕ) :
    (h.setFreep p).ptr x = h.ptr x := rfl

@[simp] theorem setFreep_size (h : Heap) (p x : ℕ) :
    (h.setFreep p).size x = h.size x := rfl

@[simp] theorem setFreep_freep (h : Heap) (p : ℕ) :
    (h.setFreep p).freep = p := rfl

@[simp] theorem setPtr_freep (h : Heap) (p q : ℕ) :
    (h.setPtr p q).freep = h.freep := rfl

@[simp] theorem setSize_freep (h : Heap) (p n : ℕ) :
    (h.setSize p n).freep = h.freep := rfl

end Heap

/-! ## kmalloc -/

/-- The units a request takes, header included; the sum wraps. -/
def nunits (nbytes : ℕ) : ℕ :=
  (nbytes + sizeofHeader - 1) % 2 ^ 32 / sizeofHeader + 1

/-- The first call makes the whole heap one free block. -/
def initHeap (h : Heap) : Heap :=
  if h.freep = 0 then
    let base := KERNEL_MEM_START / sizeofHeader
    ((h.setPtr base base).setFreep base).setSize base
      (KERNEL_MEM_SIZE / sizeofHeader)
  else h

/-- Take `n` units out of the free block `p`, whose predecessor is `prevp`:
the new heap and the block handed out. -/
def takeUnits (h : Heap) (n prevp p : ℕ) : Heap × ℕ :=
  if h.size p = n then
    ((h.setPtr prevp (h.ptr p)).setFreep prevp, p)
  else
    let rest := h.size p - n
    (((h.setSize p rest).setSize (p + rest) n).setFreep prevp, p + rest)

/-- One turn of the search of `kmalloc` at the blocks `(prevp, p)`; the
result is the heap and the returned pointer.  `morecore` always fails. -/
def searchTurn (n : ℕ) (h : Heap) : ℕ × ℕ → Turn (ℕ × ℕ) (Heap × ℕ)
  | (prevp, p) =>
      if n ≤ h.size p then
        .stop ((takeUnits h n prevp p).1, (takeUnits h n prevp p).2 + 1)
      else if p = h.freep then .stop (h, 0)
      else .next (p, h.ptr p)

/-- `kmalloc(nbytes)` with a bound on the turns of its search. -/
def kmalloc (fuel nbytes : ℕ) (h : Heap) : Option (Heap × ℕ) :=
  let h := initHeap h
  runFuel (searchTurn (nunits nbytes) h) fuel (h.freep, h.ptr h.freep)

/-- `kmalloc(nbytes)` called in `h` returns `r` and leaves `h'`. -/
def KmallocReturns (nbytes : ℕ) (h h' : Heap) (r : ℕ) : Prop :=
  ∃ fuel, kmalloc fuel nbytes h = some (h', r)

/-! ## kfree -/

/-- One turn of the search of `kfree` for the free block behind which `bp`
belongs. -/
def placeTurn (h : Heap) (bp p : ℕ) : Turn ℕ ℕ :=
  if p < bp ∧ bp < h.ptr p then .stop p
  else if h.ptr p ≤ p ∧ (p < bp ∨ bp < h.ptr p) then .stop p
  else .next (h.ptr p)

/-- Link `bp` to the block behind `p`, or join the two when they touch. -/
def joinUpper (h : Heap) (bp p : ℕ) : Heap :=
  if bp + h.size bp = h.ptr p then
    (h.setSize bp (h.size bp + h.size (h.ptr p))).setPtr bp
      (h.ptr (h.ptr p))
  else h.setPtr bp (h.ptr p)

/-- Link `p` to `bp`, or join the two when they touch. -/
def joinLower (h : Heap) (bp p : ℕ) : Heap :=
  if p + h.size p = bp then
    (h.setSize p (h.size p + h.size bp)).setPtr p (h.ptr bp)
  else h.setPtr p bp

/-- What `kfree` does once it has found the place `p` of `bp`. -/
def putBehind (h : Heap) (bp p : ℕ) : Heap :=
  (joinLower (joinUpper h bp p) bp p).setFreep p

/-- `kfree(ap)` with a bound on the turns of its search. -/
def kfree (fuel ap : ℕ) (h : Heap) : Option Heap :=
  (runFuel (placeTurn h (ap - 1)) fuel h.freep).map (putBehind h (ap - 1))

/-- `kfree(ap)` called in `h` returns and leaves `h'`. -/
def KfreeReturns (ap : ℕ) (h h' : Heap) : Prop :=
  ∃ fuel, kfree fuel ap h = some h'

end Kmalloc
end Janus86
