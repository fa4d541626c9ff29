import Janus86.PrintfSpec
import Janus86.StepMachine

/-!
# vsnprintf

`fmt` is the memory from the format string on, its NUL and what follows it
included; a scan that leaves the bytes given ends with a fault.  The argument
list is read in slots of one word.  The cases of the `switch` fall through
into each other, so each case is a function that calls the next one.
-/

namespace Janus86
namespace Printf

open StepMachine

/-- `state`, by what the scan is awaiting. -/
inductive ScanState where
  | literal
  | flag
  | width
  | modifier
  deriving DecidableEq

/-- The bits of `flags`. -/
structure Flags where
  ljfy : Bool
  caps : Bool
  sign : Bool
  num32 : Bool
  num16 : Bool
  num0 : Bool
  zeropad : Bool
  farptr : Bool
  deriving DecidableEq

def Flags.none : Flags :=
  ⟨false, false, false, false, false, false, false, false⟩

/-- The variables of the scan; `out` are the bytes stored at `str` so far and
`used` is the number of slots taken from the argument list. -/
structure PrintState where
  state : ScanState
  flags : Flags
  givenWd : ℕ
  count : ℕ
  out : List UInt8
  used : ℕ

/-- `*str++ = c; count++`. -/
def PrintState.put (p : PrintState) (c : UInt8) : PrintState :=
  { p with out := p.out ++ [c], count := (p.count + 1) % 2 ^ 32 }

/-- `state = flags = given_wd = 0`. -/
def PrintState.reset (p : PrintState) : PrintState :=
  { p with state := .literal, flags := .none, givenWd := 0 }

/-! ## Emission -/

/-- The loop that pads on the left; the counter bounds its turns. -/
def padLeft (actualWd : ℕ) : ℕ → PrintState → PrintState
  | 0, p => p
  | turns + 1, p =>
      if actualWd < p.givenWd then
        let p := p.put (if p.flags.zeropad then '0'.toUInt8 else ' '.toUInt8)
        padLeft actualWd turns { p with givenWd := p.givenWd - 1 }
      else p

/-- The loop that pads on the right. -/
def padRight : ℕ → PrintState → PrintState
  | 0, p => p
  | turns + 1, p =>
      if p.givenWd = 0 then p
      else
        let p := p.put ' '.toUInt8
        padRight turns { p with givenWd := p.givenWd - 1 }

/-- The sign, when the padding on the left is done with spaces. -/
def putSign (p : PrintState) : PrintState :=
  if p.flags.num0 && !p.flags.zeropad then p.put '-'.toUInt8 else p

/-- The width that is left for the right. -/
def dropWidth (actualWd : ℕ) (p : PrintState) : PrintState :=
  if p.givenWd < actualWd then { p with givenWd := 0 }
  else { p with givenWd := p.givenWd - actualWd }

/-- From `EMIT2` on; `body` is the string at `where`. -/
def emit2 (body : List UInt8) (actualWd : ℕ) (p : PrintState) : PrintState :=
  let p := if p.flags.ljfy then p else padLeft actualWd p.givenWd p
  let p := dropWidth actualWd (body.foldl PrintState.put (putSign p))
  padRight p.givenWd p

/-- From `EMIT` on. -/
def emit (body : List UInt8) (p : PrintState) : PrintState :=
  let actualWd := if p.flags.num0 then body.length + 1 else body.length
  let p := if p.flags.num0 && p.flags.zeropad then p.put '-'.toUInt8 else p
  emit2 body actualWd p

/-! ## Conversions -/

/-- The digits put before `where` by the do loop, which has `PR_BUFLEN - 1`
bytes of `buf` for them. -/
def putDigits (caps : Bool) (radix : ℕ) : ℕ → ℕ → List UInt8 → List UInt8
  | 0, _, body => body
  | room + 1, num, body =>
      let body := digit caps (num % radix) :: body
      if num / radix = 0 then body else putDigits caps radix room (num / radix) body

def prBuflen : ℕ := 16

/-- `num`, as the 32 bits of a `long`. -/
def loadNum (flags : Flags) (word : ℕ) : ℕ :=
  if flags.num32 then word
  else if flags.num16 then
    if flags.sign then
      if word % 2 ^ 16 < 2 ^ 15 then word % 2 ^ 16
      else word % 2 ^ 16 + (2 ^ 32 - 2 ^ 16)
    else word % 2 ^ 16
  else word

/-- From `DO_NUM` on. -/
def doNum (args : ℕ → Arg) (radix : ℕ) (p : PrintState) : PrintState :=
  let num := loadNum p.flags (args p.used).word.toNat
  let p := { p with used := p.used + 1 }
  if p.flags.sign ∧ 2 ^ 31 ≤ num then
    let p := { p with flags := { p.flags with num0 := true } }
    emit (putDigits p.flags.caps radix (prBuflen - 1) (2 ^ 32 - num) []) p
  else emit (putDigits p.flags.caps radix (prBuflen - 1) num []) p

/-- The `switch` of state 4. -/
def convert (args : ℕ → Arg) (c : UInt8) (p : PrintState) : PrintState :=
  if c = 'X'.toUInt8 then
    doNum args 16 { p with flags := { p.flags with caps := true } }
  else if c = 'x'.toUInt8 ∨ c = 'p'.toUInt8 ∨ c = 'n'.toUInt8 then
    doNum args 16 p
  else if c = 'd'.toUInt8 ∨ c = 'i'.toUInt8 then
    doNum args 10 { p with flags := { p.flags with sign := true } }
  else if c = 'u'.toUInt8 then doNum args 10 p
  else if c = 'o'.toUInt8 then doNum args 8 p
  else if c = 'c'.toUInt8 then
    let body := cString [UInt8.ofNat (args p.used).word.toNat]
    emit2 body 1
      { p with flags := { p.flags with zeropad := false }, used := p.used + 1 }
  else if c = 's'.toUInt8 then
    let body := cString (args p.used).bytes
    emit body
      { p with flags := { p.flags with zeropad := false }, used := p.used + 1 }
  else p

/-! ## The scan -/

/-- State 3, awaiting modifiers, and on into state 4. -/
def scanModifier (args : ℕ → Arg) (c : UInt8) (p : PrintState) : PrintState :=
  if c = 'F'.toUInt8 then
    { p with state := .modifier, flags := { p.flags with farptr := true } }
  else if c = 'N'.toUInt8 then { p with state := .modifier }
  else if c = 'l'.toUInt8 then
    { p with state := .modifier, flags := { p.flags with num32 := true } }
  else if c = 'h'.toUInt8 then
    { p with state := .modifier, flags := { p.flags with num16 := true } }
  else (convert args c p).reset

/-- State 2, awaiting the width. -/
def scanWidth (args : ℕ → Arg) (c : UInt8) (p : PrintState) : PrintState :=
  if isDigit c then
    { p with
      state := .width
      givenWd := (10 * p.givenWd + (c.toNat - '0'.toNat)) % 2 ^ 32 }
  else scanModifier args c p

/-- The scan goes on at the first component, or leaves the bytes given. -/
abbrev ScanTurn :=
  Turn (List UInt8 × PrintState) (Except Fault PrintState)

/-- State 1, awaiting flags; `fmt` follows the character. -/
def scanFlag (args : ℕ → Arg) (c : UInt8) (fmt : List UInt8) (p : PrintState) :
    ScanTurn :=
  if c = '%'.toUInt8 then .next (fmt, (p.put c).reset)
  else if c = '-'.toUInt8 then
    if p.flags.ljfy then .next (fmt, p.reset)
    else .next (fmt,
      { p with state := .flag, flags := { p.flags with ljfy := true } })
  else if c = '0'.toUInt8 then
    match fmt with
    | [] => .stop (.error .outOfBounds)
    | c' :: fmt' => .next (fmt', scanWidth args c'
        { p with flags := { p.flags with zeropad := true } })
  else .next (fmt, scanWidth args c p)

/-- One turn of the loop over the format. -/
def scanTurn (args : ℕ → Arg) (s : List UInt8 × PrintState) : ScanTurn :=
  match s.1 with
  | [] => .stop (.error .outOfBounds)
  | c :: fmt =>
      if c = 0 then .stop (.ok s.2)
      else match s.2.state with
        | .literal =>
            if c = '%'.toUInt8 then
              match fmt with
              | [] => .stop (.error .outOfBounds)
              | c' :: fmt' => scanFlag args c' fmt' s.2
            else .next (fmt, s.2.put c)
        | .flag => scanFlag args c fmt s.2
        | .width => .next (fmt, scanWidth args c s.2)
        | .modifier => .next (fmt, scanModifier args c s.2)

/-- What a call has done: the bytes of the string it stored, the value it
returned, and the number of slots it took. -/
structure Printed where
  out : List UInt8
  ret : ℤ
  used : ℕ

def startState : PrintState where
  state := .literal
  flags := .none
  givenWd := 0
  count := 0
  out := []
  used := 0

/-- `vsnprintf(str, size, fmt, args)`; the code does not look at `size`. -/
def vsnprintf (_size : ℕ) (fmt : List UInt8) (args : ℕ → Arg) :
    Except Fault Printed := do
  let p ← (runFuel (scanTurn args) (fmt.length + 1) (fmt, startState)).getD
    (.error .outOfFuel)
  pure { out := p.out, ret := toInt32 p.count, used := p.used }

/-- The stores of the string and of its NUL. -/
def Printed.stores (str : ℕ) (r : Printed) : List (ℕ × UInt8) :=
  (r.out ++ [0]).mapIdx fun i c => (str + i, c)

def bufferSize : ℕ := 100

/-- What `kprintf` puts into its buffer before it shows it. -/
def kprintf (fmt : List UInt8) (args : ℕ → Arg) : Except Fault Printed :=
  vsnprintf bufferSize fmt args

end Printf
end Janus86
