import Janus86.DiskModel
import Janus86.StepMachine

/-!
# The boot sector

The definitions follow `boot.s` from one label to the next: a turn executes the
instructions up to a jump, a call or a return, or up to a label.  The disk service of the
BIOS and the keyboard controller are idealised.  A call of the service fails as often as it
likes, and leaves what it likes in the place of the sectors then; the input buffer of the
controller is found full as often as it likes.  The stack, the boot sector itself and what
the BIOS keeps lie apart from the memory that is loaded.
-/

namespace Janus86
namespace Boot

open StepMachine

/-! ## Registers -/

def low (r : ℕ) : ℕ := r % 2 ^ 8

def high (r : ℕ) : ℕ := r / 2 ^ 8 % 2 ^ 8

def setLow (r v : ℕ) : ℕ := 2 ^ 8 * high r + v % 2 ^ 8

def setHigh (r v : ℕ) : ℕ := 2 ^ 8 * (v % 2 ^ 8) + low r

/-- The labels of the source, and the places behind the calls. -/
inductive Label where
  | resetDrive
  | loadSectors
  | read
  | loadKernel
  | afterLoad
  | writeCommand
  | writeData
  | enter
  | empty8042
  deriving DecidableEq, Repr

inductive Cell where
  | word (value : ℕ)
  | back (label : Label)
  deriving DecidableEq, Repr

/-- The keyboard controller: how many reads of the status still find the input buffer full,
how many bytes were written, whether the next one is for the output port, and that port. -/
structure Controller where
  full : ℕ
  writes : ℕ
  awaited : Bool
  outputPort : ℕ
  deriving DecidableEq, Repr

/-- The registers, and what the program works on; `calls` counts the calls of the service.
The carry flag is looked at behind these calls only. -/
structure Machine where
  ax : ℕ
  bx : ℕ
  cx : ℕ
  dx : ℕ
  es : ℕ
  carry : Bool
  interrupts : Bool
  stack : List Cell
  mem : Buffer
  calls : ℕ
  controller : Controller

/-- The disk in the drive, and what each call of the service and each byte for the
controller meets.  After a call that fails, `ah` tells why. -/
structure Bios where
  byte : ℕ → ℕ → UInt8
  fails : ℕ → Bool
  code : ℕ → ℕ
  code_ne : ∀ n, high (code n) ≠ 0
  junk : ℕ → Buffer
  full : ℕ → ℕ

/-! ## The disk service -/

def sectorsPerTrack : ℕ := 18

def heads : ℕ := 2

def cylinders : ℕ := 80

def Machine.cylinder (m : Machine) : ℕ := high m.cx + 2 ^ 8 * (low m.cx / 2 ^ 6)

def Machine.sector (m : Machine) : ℕ := low m.cx % 2 ^ 6

def Machine.head (m : Machine) : ℕ := high m.dx

/-- The number of the first sector that the registers ask for; in a track sectors are
numbered from 1 on. -/
def Machine.sectorNumber (m : Machine) : ℕ :=
  (m.cylinder * heads + m.head) * sectorsPerTrack + (m.sector - 1)

/-- The place of the sectors. -/
def Machine.address (m : Machine) : ℕ := (16 * m.es + m.bx) % 2 ^ 20

/-- The sectors are on one track of the first drive, and their place does not go over a
multiple of 64 KiB. -/
def Machine.Valid (m : Machine) : Prop :=
  low m.dx = 0 ∧ m.cylinder < cylinders ∧ m.head < heads ∧ 1 ≤ m.sector ∧
    m.sector + low m.ax ≤ sectorsPerTrack + 1 ∧
    m.address % 2 ^ 16 + 512 * low m.ax ≤ 2 ^ 16

instance (m : Machine) : Decidable m.Valid := by
  unfold Machine.Valid
  infer_instance

/-- `n` sectors from one on, over a place in the memory. -/
def storeSectors (byte : ℕ → ℕ → UInt8) (address first n : ℕ) (mem : Buffer) : Buffer :=
  fun a =>
    if address ≤ a ∧ a < address + 512 * n then
      byte (first + (a - address) / 512) ((a - address) % 512)
    else mem a

/-- `int $0x13`: function 0 resets the drive, function 2 reads sectors. -/
def int13 (b : Bios) (m : Machine) : Machine :=
  let done := { m with ax := setHigh m.ax 0, carry := false, calls := m.calls + 1 }
  let failed := { m with ax := b.code m.calls, carry := true, calls := m.calls + 1 }
  if high m.ax = 0 then
    if b.fails m.calls then failed else done
  else if high m.ax = 2 then
    if b.fails m.calls ∨ ¬ m.Valid then
      { failed with
        mem := fun a =>
          if m.address ≤ a ∧ a < m.address + 512 * low m.ax then b.junk m.calls a
          else m.mem a }
    else
      { done with mem := storeSectors b.byte m.address m.sectorNumber (low m.ax) m.mem }
  else failed

/-! ## The keyboard controller -/

/-- The status register; of its bits only the one that is looked at. -/
def Controller.status (c : Controller) : ℕ := if 0 < c.full then 2 else 0

def Controller.afterStatus (c : Controller) : Controller := { c with full := c.full - 1 }

/-- A command is lost while the input buffer is full. -/
def Controller.command (b : Bios) (v : ℕ) (c : Controller) : Controller :=
  if 0 < c.full then c
  else { c with full := b.full c.writes, writes := c.writes + 1, awaited := v == 0xD1 }

/-- And so is a byte. -/
def Controller.data (b : Bios) (v : ℕ) (c : Controller) : Controller :=
  if 0 < c.full then c
  else
    { full := b.full c.writes
      writes := c.writes + 1
      awaited := false
      outputPort := if c.awaited then v else c.outputPort }

/-- Bit 1 of the output port opens the address line. -/
def Controller.A20 (c : Controller) : Prop := c.outputPort.testBit 1 = true

/-! ## The program -/

def push (c : Cell) (m : Machine) : Machine := { m with stack := c :: m.stack }

def pop (m : Machine) : Except Fault (ℕ × Machine) :=
  match m.stack with
  | .word value :: rest => .ok (value, { m with stack := rest })
  | _ => .error .outOfBounds

def ret (m : Machine) : Except Fault (Label × Machine) :=
  match m.stack with
  | .back label :: rest => .ok (label, { m with stack := rest })
  | _ => .error .outOfBounds

def resetDrive (b : Bios) (m : Machine) : Except Fault (Label × Machine) :=
  let m := int13 b { m with ax := setHigh m.ax 0 }
  if high m.ax ≠ 0 then .ok (.resetDrive, m) else .ok (.loadKernel, m)

/-- The registers for the sector with the number in `ax`; a quotient that does not fit is an
exception. -/
def loadSectors (m : Machine) : Except Fault (Label × Machine) :=
  let m := push (.word m.cx) (push (.word m.bx) (push (.word m.ax) m))
  let dx := setLow m.dx 0x12
  if 2 ^ 8 ≤ m.ax / low dx then .error .divideByZero
  else
    let ax := 2 ^ 8 * (m.ax % low dx) + m.ax / low dx
    let ax := setHigh ax (high ax + 1)
    let cx := setLow m.cx (high ax)
    let dx := setHigh dx (low ax)
    let dx := setHigh dx (high dx &&& 0x01)
    let ax := setLow ax (low ax / 2)
    let cx := setHigh cx (low ax)
    let dx := setLow dx 0x00
    .ok (.read, { m with ax := ax, cx := cx, dx := dx })

/-- `read`, and what is behind `jc`. -/
def read (b : Bios) (m : Machine) : Except Fault (Label × Machine) :=
  let m := int13 b { m with ax := setLow (setHigh m.ax 0x02) 0x01 }
  if m.carry then .ok (.read, m)
  else do
    let (cx, m) ← pop m
    let (bx, m) ← pop m
    let (ax, m) ← pop m
    let m :=
      { m with
        bx := (bx + 0x0200) % 2 ^ 16
        ax := (ax + 1) % 2 ^ 16
        cx := (cx + 2 ^ 16 - 1) % 2 ^ 16 }
    if m.cx ≠ 0 then .ok (.loadSectors, m) else ret m

def loadKernel (m : Machine) : Label × Machine :=
  (.loadSectors,
    push (.back .afterLoad) { m with ax := 0x01, es := 0x1000, bx := 0x00, cx := 0x40 })

def afterLoad (m : Machine) : Label × Machine :=
  (.empty8042, push (.back .writeCommand) { m with interrupts := false })

def writeCommand (b : Bios) (m : Machine) : Label × Machine :=
  let m := { m with ax := setLow m.ax 0xD1 }
  (.empty8042,
    push (.back .writeData) { m with controller := m.controller.command b (low m.ax) })

def writeData (b : Bios) (m : Machine) : Label × Machine :=
  let m := { m with ax := setLow m.ax 0xDF }
  (.empty8042, push (.back .enter) { m with controller := m.controller.data b (low m.ax) })

def empty8042 (m : Machine) : Except Fault (Label × Machine) :=
  let status := m.controller.status
  let m := { m with ax := setLow m.ax status, controller := m.controller.afterStatus }
  if status &&& 2 ≠ 0 then .ok (.empty8042, m) else ret m

/-- From one label to the next; `enter` is left by the jump into the kernel. -/
def block (b : Bios) : Label → Machine → Except Fault (Label × Machine)
  | .resetDrive, m => resetDrive b m
  | .loadSectors, m => loadSectors m
  | .read, m => read b m
  | .loadKernel, m => .ok (loadKernel m)
  | .afterLoad, m => .ok (afterLoad m)
  | .writeCommand, m => .ok (writeCommand b m)
  | .writeData, m => .ok (writeData b m)
  | .enter, m => .ok (.enter, m)
  | .empty8042, m => empty8042 m

/-- A turn of the program; it ends with `jmp $0x1000, $0x0`. -/
def bootTurn (b : Bios) (s : Label × Machine) :
    Turn (Label × Machine) (Except Fault Machine) :=
  if s.1 = .enter then .stop (.ok s.2)
  else
    match block b s.1 s.2 with
    | .ok s' => .next s'
    | .error e => .stop (.error e)

end Boot
end Janus86
