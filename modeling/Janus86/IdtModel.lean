import Janus86.InterruptMask

/-!
# The interrupt controllers and the interrupt descriptor table

`Init8259` programs both controllers with four initialisation words each, after which
their upper ports take masks.  `InitIDT` and `set_vector` fill the descriptor table.  A
line of a controller reaches the processor as a vector, and the processor goes to the
gate of that vector.  Priorities between lines and the in-service registers are left out:
one line is looked at at a time.
-/

namespace Janus86
namespace Irq

def ICW1 : BitVec 8 := 0x11
def ICW4 : BitVec 8 := 0x01

def M_VEC : BitVec 8 := 0x68
def S_VEC : BitVec 8 := 0x70

def D_INT : BitVec 16 := 0x0E00
def D_DPL3 : BitVec 16 := 0x6000
def D_PRESENT : BitVec 16 := 0x8000

/-! ## The controllers -/

/-- What a controller takes the next byte at its upper port for. -/
inductive Expects where
  | mask
  | vector
  | cascade
  | mode
  deriving DecidableEq

structure Chip where
  expects : Expects
  icw1 : BitVec 8
  vectorBase : BitVec 8
  cascade : BitVec 8
  icw4 : BitVec 8
  imr : BitVec 8

/-- A byte at the lower port.  Bit 4 begins an initialisation; the other commands, such
as the end of an interrupt, do not touch what is kept here. -/
def Chip.command (val : BitVec 8) (c : Chip) : Chip :=
  if val.getLsbD 4 then { c with icw1 := val, imr := 0, expects := .vector } else c

/-- A byte at the upper port. -/
def Chip.data (val : BitVec 8) (c : Chip) : Chip :=
  let afterCascade : Expects := if c.icw1.getLsbD 0 then .mode else .mask
  match c.expects with
  | .vector =>
      { c with
        vectorBase := val &&& 0xF8
        expects := if c.icw1.getLsbD 1 then afterCascade else .cascade }
  | .cascade => { c with cascade := val, expects := afterCascade }
  | .mode => { c with icw4 := val, expects := .mask }
  | .mask => { c with imr := val }

/-- The vector of a line, once the controller is in the mode of this processor. -/
def Chip.vector (line : ℕ) (c : Chip) : Option (BitVec 8) :=
  if c.expects = .mask ∧ c.icw4.getLsbD 0 = true then
    some (c.vectorBase + BitVec.ofNat 8 line)
  else none

structure Chips where
  master : Chip
  slave : Chip

def Chips.outportb (port : ℕ) (val : BitVec 8) (c : Chips) : Chips :=
  if port = M_PIC then { c with master := c.master.command val }
  else if port = M_IMR then { c with master := c.master.data val }
  else if port = S_PIC then { c with slave := c.slave.command val }
  else if port = S_IMR then { c with slave := c.slave.data val }
  else c

/-- The vector with which line `irq` reaches the processor, if it does.  The slave is
heard on the line of the master that both were told. -/
def Chips.raise (irq : ℕ) (c : Chips) : Option (BitVec 8) :=
  if irq < 8 then
    if c.master.imr.getLsbD irq = false ∧ c.master.cascade.getLsbD irq = false then
      c.master.vector irq
    else none
  else
    let line := c.slave.cascade.toNat
    if c.slave.imr.getLsbD (irq - 8) = false ∧ c.master.imr.getLsbD line = false ∧
        c.master.cascade.getLsbD line = true then
      c.slave.vector (irq - 8)
    else none

/-! ## The descriptor table -/

/-- The fields of a `struct x86_gate` in the union with a `long long`. -/
def gate (handler : BitVec 32) (selector access : BitVec 16) : BitVec 64 :=
  (handler >>> 16).setWidth 16 ++ access ++ selector ++ (handler &&& 0xFFFF).setWidth 16

/-- A code segment and an offset in it. -/
structure Entry where
  selector : BitVec 16
  offset : BitVec 32
  deriving DecidableEq

/-- The processor takes a gate apart.  What is no interrupt or trap gate raises exception
13 and a gate that is not present exception 11; there are no task gates here. -/
def enter (idt : BitVec 8 → BitVec 64) (vector : BitVec 8) : Except (BitVec 8) Entry :=
  let g := idt vector
  let access := g.extractLsb' 32 16
  let type := access.extractLsb' 8 5
  if type = 0x0E ∨ type = 0x0F then
    if access.getLsbD 15 then
      .ok ⟨g.extractLsb' 16 16, g.extractLsb' 48 16 ++ g.extractLsb' 0 16⟩
    else .error 11
  else .error 13

/-- A line of a controller or an `int` instruction, or an exception of the processor. -/
inductive Event where
  | interrupt (vector : BitVec 8)
  | exception (vector : BitVec 8)
  deriving DecidableEq

inductive Outcome where
  | enters (entry : Entry)
  | shutdown
  deriving DecidableEq

def doubleFault (idt : BitVec 8 → BitVec 64) : Outcome :=
  match enter idt 8 with
  | .ok entry => .enters entry
  | .error _ => .shutdown

/-- The exceptions on top of which another one becomes a double fault. -/
def Event.contributory : Event → Bool
  | .interrupt _ => false
  | .exception vector => vector == 0 || vector == 10 || vector == 11 || vector == 12 ||
      vector == 13 || vector == 14

def Event.vector : Event → BitVec 8
  | .interrupt vector => vector
  | .exception vector => vector

def deliver (idt : BitVec 8 → BitVec 64) (event : Event) : Outcome :=
  match enter idt event.vector with
  | .ok entry => .enters entry
  | .error fault =>
      if event = .exception 8 then .shutdown
      else if event.contributory then doubleFault idt
      else
        match enter idt fault with
        | .ok entry => .enters entry
        | .error _ => doubleFault idt

/-! ## 8259.c and idt.c -/

/-- The variables of both files, the controllers, the table, and the code segment that
`set_vector` finds in `cs`. -/
structure System where
  pic : Pic
  chips : Chips
  idt : BitVec 8 → BitVec 64
  cs : BitVec 16

def System.outportb (port : ℕ) (val : BitVec 8) (s : System) : System :=
  { s with
    pic := Irq.outportb port (val.setWidth 32) s.pic
    chips := s.chips.outportb port val }

def init8259 (s : System) : System :=
  let s := s.outportb M_PIC ICW1
  let s := s.outportb S_PIC ICW1
  let s := s.outportb (M_PIC + 1) M_VEC
  let s := s.outportb (S_PIC + 1) S_VEC
  let s := s.outportb (M_PIC + 1) (1#8 <<< 2)
  let s := s.outportb (S_PIC + 1) 2
  let s := s.outportb (M_PIC + 1) ICW4
  let s := s.outportb (S_PIC + 1) ICW4
  let s := s.outportb M_IMR 0xFF
  s.outportb S_IMR 0xFF

/-- `enable_irq` or `disable_irq`, with the two bytes that the controllers get. -/
def System.call (call : Call) (s : System) : System :=
  let pic := call.run s.pic
  { s with
    pic := pic
    chips := (s.chips.outportb (M_PIC + 1) (pic.written (M_PIC + 1))).outportb (S_PIC + 1)
      (pic.written (S_PIC + 1)) }

def setVector (handler : BitVec 32) (interrupt : BitVec 8) (controlMajor : BitVec 16)
    (s : System) : System :=
  { s with idt := Function.update s.idt interrupt (gate handler s.cs controlMajor) }

/-- The addresses of `_int0` to `_int16` and of `int_null`. -/
structure Handlers where
  int : ℕ → BitVec 32
  intNull : BitVec 32

/-- The third argument of all calls of `set_vector`. -/
def vectorControl : BitVec 16 := D_PRESENT + D_INT + D_DPL3

/-- The vectors of the calls behind the loop; the one of `_int11` is missing. -/
def intVectors : List ℕ := [0, 1, 2, 3, 4, 5, 6, 7, 8, 9, 10, 12, 13, 14, 15, 16]

def initIDT (handlers : Handlers) (s : System) : System :=
  let s := (List.range' 16 240).foldl (fun s count =>
    setVector handlers.intNull (BitVec.ofNat 8 count) vectorControl s) s
  intVectors.foldl (fun s n =>
    setVector (handlers.int n) (BitVec.ofNat 8 n) vectorControl s) s

/-- What happens when a line is raised. -/
def System.interrupt (irq : ℕ) (s : System) : Option Outcome :=
  (s.chips.raise irq).map fun vector => deliver s.idt (.interrupt vector)

end Irq
end Janus86
