import Janus86.PrintfNumbers

/-!
# atoi

The definitions follow `power` and `atoi` of `string.c`.  The decimal branch
goes forward to the first character that is no digit; the one behind `0x` takes
the string from its end on, and a character that is no digit leaves `val` as it
was.  `int`s and `ULONG`s have 32 bits, and products wrap.
-/

namespace Janus86
namespace Atoi

open Printf (isDigit valueOf)

def power (a : ℕ) : ℕ → ℕ
  | 0 => 1
  | b + 1 => power a b * a % 2 ^ 32

def isUpperHex (c : UInt8) : Bool := 'A'.toUInt8 ≤ c && c ≤ 'F'.toUInt8

def isLowerHex (c : UInt8) : Bool := 'a'.toUInt8 ≤ c && c ≤ 'f'.toUInt8

/-- `val` behind the three tests of the loop. -/
def hexVal (c : UInt8) (val : ℕ) : ℕ :=
  let val := if isDigit c then c.toNat - '0'.toNat else val
  let val := if isUpperHex c then c.toNat - 'A'.toNat + 10 else val
  if isLowerHex c then c.toNat - 'a'.toNat + 10 else val

structure HexState where
  ret : ℕ
  val : ℕ
  i : ℕ

/-- One turn of the loop behind `0x`. -/
def hexTurn (s : HexState) (c : UInt8) : HexState :=
  let val := hexVal c s.val
  ⟨(s.ret + power 16 s.i * val) % 2 ^ 32, val, s.i + 1⟩

/-- The characters of the loop behind `0x`: `len` is an `int`. -/
def hexRead (s : List UInt8) : List UInt8 :=
  s.take (toInt32 (s.length % 2 ^ 32)).toNat

def decTurn (ret : ℕ) (c : UInt8) : ℕ :=
  (ret * 10 + (c.toNat - '0'.toNat)) % 2 ^ 32

/-- What follows `0x` or `0X`. -/
def behindHex : List UInt8 → Option (List UInt8)
  | c :: x :: s =>
      if c = '0'.toUInt8 ∧ (x = 'x'.toUInt8 ∨ x = 'X'.toUInt8) then some s else none
  | _ => none

/-- `atoi`; `val` is what the local variable holds before the loop. -/
def atoi (s : List UInt8) (val : ℕ) : ℕ :=
  (behindHex s).elim ((s.takeWhile isDigit).foldl decTurn 0) fun hex =>
    ((hexRead hex).reverse.foldl hexTurn ⟨0, val, 0⟩).ret

/-! ## The number that stands in front -/

def isHexDigit (c : UInt8) : Bool := isDigit c || isUpperHex c || isLowerHex c

/-- The value of a digit. -/
def digitVal (c : UInt8) : ℕ :=
  if isDigit c then c.toNat - '0'.toNat
  else if isUpperHex c then c.toNat - 'A'.toNat + 10
  else c.toNat - 'a'.toNat + 10

/-- The value of the longest prefix of valid digits. -/
def leadingNumber (s : List UInt8) : ℕ :=
  (behindHex s).elim (valueOf 10 ((s.takeWhile isDigit).map digitVal)) fun hex =>
    valueOf 16 ((hex.takeWhile isHexDigit).map digitVal)

/-- `atoi` reads that number, whatever its local variable holds. -/
def ReadsNumber (s : List UInt8) : Prop :=
  ∀ val < 2 ^ 32, atoi s val = leadingNumber s % 2 ^ 32

/-- Digit `i` of a number, counted from its end. -/
def placeDigit (digits : List UInt8) (i : ℕ) : ℕ :=
  (digits.reverse.map digitVal).getD i 0

/-- What counts for character `i` from the end: the nearest digit, there or
behind. -/
def nearestDigit (s : List UInt8) (i : ℕ) : ℕ :=
  if i < s.length then
    (((s.reverse.take (i + 1)).filter isHexDigit).map digitVal).getLastD 0
  else 0

/-- The characters that are read end with a digit, and in the last eight places
they count for the digits of the number. -/
def HexCounts (hex : List UInt8) : Prop :=
  (∀ c ∈ (hexRead hex).getLast?, isHexDigit c = true) ∧
    ∀ i < 8, nearestDigit (hexRead hex) i =
      placeDigit (hex.takeWhile isHexDigit) i

end Atoi
end Janus86
