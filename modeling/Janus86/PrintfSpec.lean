import Mathlib.Data.Nat.Digits.Lemmas
import Janus86.DiskModel

/-!
# What a format string asks for

A format string is a sequence of pieces: characters that are copied, `%%`,
directives, and specifications that are dropped because their conversion
character is none.  `parse` reads the pieces off the bytes of the string and
`Piece.text` is what a piece prints.  The string ends with a NUL, but a NUL
straight behind `%` or behind the flag `0` counts as a conversion character.
-/

namespace Janus86
namespace Printf

/-- A slot of the argument list: its word, and the bytes at the address that
the word is. -/
structure Arg where
  word : UInt32
  bytes : List UInt8

inductive Conv where
  | hexCaps
  | hex
  | signed
  | unsigned
  | octal
  | char
  | string
  deriving DecidableEq

structure Directive where
  left : Bool
  zero : Bool
  width : ℕ
  long : Bool
  short : Bool
  conv : Conv
  deriving DecidableEq

inductive Piece where
  | literal (c : UInt8)
  | percent
  | directive (d : Directive)
  | dropped
  deriving DecidableEq

/-! ## The text of a piece -/

def digit (caps : Bool) (d : ℕ) : UInt8 :=
  if d < 10 then UInt8.ofNat (d + '0'.toNat)
  else if caps then UInt8.ofNat (d - 10 + 'A'.toNat)
  else UInt8.ofNat (d - 10 + 'a'.toNat)

def numeral (caps : Bool) (radix num : ℕ) : List UInt8 :=
  if num = 0 then [digit caps 0]
  else ((Nat.digits radix num).map (digit caps)).reverse

def Conv.radix : Conv → ℕ
  | .hexCaps | .hex => 16
  | .octal => 8
  | _ => 10

/-- The 32 bits that the modifiers make of an argument. -/
def Directive.bits (d : Directive) (a : Arg) : ℕ :=
  if d.long then a.word.toNat
  else if d.short then
    if d.conv = .signed ∧ 2 ^ 15 ≤ a.word.toNat % 2 ^ 16 then
      a.word.toNat % 2 ^ 16 + (2 ^ 32 - 2 ^ 16)
    else a.word.toNat % 2 ^ 16
  else a.word.toNat

def Directive.negative (d : Directive) (a : Arg) : Bool :=
  decide (d.conv = .signed ∧ 2 ^ 31 ≤ d.bits a)

def Directive.magnitude (d : Directive) (a : Arg) : ℕ :=
  if d.negative a then 2 ^ 32 - d.bits a else d.bits a

/-- What is printed of an argument besides its sign and padding. -/
def Directive.body (d : Directive) (a : Arg) : List UInt8 :=
  match d.conv with
  | .char => cString [UInt8.ofNat a.word.toNat]
  | .string => cString a.bytes
  | conv => numeral (decide (conv = .hexCaps)) conv.radix (d.magnitude a)

def Directive.sign (d : Directive) (a : Arg) : List UInt8 :=
  if d.negative a then ['-'.toUInt8] else []

/-- The width that the sign and the body count for: a NUL printed by `%c`
counts, though nothing is printed of it. -/
def Directive.actualWidth (d : Directive) (a : Arg) : ℕ :=
  if d.conv = .char then 1 else (d.sign a).length + (d.body a).length

def Directive.padsZero (d : Directive) : Bool :=
  d.zero && decide (d.conv ≠ .char ∧ d.conv ≠ .string)

/-- A sign and a body that count for `actualWidth`, padded to the width. -/
def field (left zero : Bool) (width actualWidth : ℕ) (sign body : List UInt8) :
    List UInt8 :=
  if left then
    sign ++ body ++ List.replicate (width - actualWidth) ' '.toUInt8
  else if zero then
    sign ++ List.replicate (width - actualWidth) '0'.toUInt8 ++ body
  else List.replicate (width - actualWidth) ' '.toUInt8 ++ sign ++ body

def Directive.text (d : Directive) (a : Arg) : List UInt8 :=
  field d.left d.padsZero d.width (d.actualWidth a) (d.sign a) (d.body a)

def Piece.text : Piece → Arg → List UInt8
  | .literal c, _ => [c]
  | .percent, _ => ['%'.toUInt8]
  | .directive d, a => d.text a
  | .dropped, _ => []

def Piece.arity : Piece → ℕ
  | .directive _ => 1
  | _ => 0

/-- The text of the pieces, the first argument being number `used`. -/
def textOf (args : ℕ → Arg) : List Piece → ℕ → List UInt8
  | [], _ => []
  | p :: ps, used => p.text (args used) ++ textOf args ps (used + p.arity)

def arityOf (ps : List Piece) : ℕ := (ps.map Piece.arity).sum

/-! ## The pieces of a string -/

def isDigit (c : UInt8) : Bool := '0'.toUInt8 ≤ c && c ≤ '9'.toUInt8

def isModifier (c : UInt8) : Bool :=
  c == 'F'.toUInt8 || c == 'N'.toUInt8 || c == 'l'.toUInt8 || c == 'h'.toUInt8

def convOf (c : UInt8) : Option Conv :=
  if c = 'X'.toUInt8 then some .hexCaps
  else if c = 'x'.toUInt8 ∨ c = 'p'.toUInt8 ∨ c = 'n'.toUInt8 then some .hex
  else if c = 'd'.toUInt8 ∨ c = 'i'.toUInt8 then some .signed
  else if c = 'u'.toUInt8 then some .unsigned
  else if c = 'o'.toUInt8 then some .octal
  else if c = 'c'.toUInt8 then some .char
  else if c = 's'.toUInt8 then some .string
  else none

/-- The width that decimal digits give a 32-bit counter. -/
def widthOf (width : ℕ) (digits : List UInt8) : ℕ :=
  digits.foldl (fun w c => (10 * w + (c.toNat - '0'.toNat)) % 2 ^ 32) width

def modified (left zero : Bool) (width : ℕ) (mods : List UInt8) (conv : Conv) :
    Directive where
  left := left
  zero := zero
  width := width
  long := mods.contains 'l'.toUInt8
  short := mods.contains 'h'.toUInt8
  conv := conv

def parseConv (left zero : Bool) (width : ℕ) (mods : List UInt8) (c : UInt8)
    (fmt : List UInt8) : Piece × List UInt8 :=
  match convOf c with
  | none => (.dropped, fmt)
  | some conv => (.directive (modified left zero width mods conv), fmt)

/-- More modifiers, and the conversion character; a NUL ends the string
here. -/
def parseTail (left zero : Bool) (width : ℕ) (mods fmt : List UInt8) :
    Option (Piece × List UInt8) :=
  match fmt.dropWhile isModifier with
  | [] => none
  | c :: rest =>
      if c = 0 then some (.dropped, c :: rest)
      else some (parseConv left zero width (mods ++ fmt.takeWhile isModifier) c rest)

/-- The width, or whatever stands in its place. -/
def parseWidth (left zero : Bool) : List UInt8 → Option (Piece × List UInt8)
  | [] => none
  | c :: fmt =>
      if isDigit c then
        parseTail left zero (widthOf 0 (c :: fmt.takeWhile isDigit)) []
          (fmt.dropWhile isDigit)
      else if isModifier c then parseTail left zero 0 [c] fmt
      else some (parseConv left zero 0 [] c fmt)

def parseZero (left : Bool) : List UInt8 → Option (Piece × List UInt8)
  | [] => none
  | c :: fmt =>
      if c = '0'.toUInt8 then parseWidth left true fmt
      else parseWidth left false (c :: fmt)

/-- What follows `%-`. -/
def parseLeft : List UInt8 → Option (Piece × List UInt8)
  | [] => none
  | c :: fmt =>
      if c = 0 then some (.dropped, c :: fmt)
      else if c = '%'.toUInt8 then some (.percent, fmt)
      else if c = '-'.toUInt8 then some (.dropped, fmt)
      else parseZero true (c :: fmt)

/-- What follows `%`. -/
def parseSpec : List UInt8 → Option (Piece × List UInt8)
  | [] => none
  | c :: fmt =>
      if c = '%'.toUInt8 then some (.percent, fmt)
      else if c = '-'.toUInt8 then parseLeft fmt
      else parseZero false (c :: fmt)

/-- The pieces up to the NUL that ends the string; `none` when it is not
found in the bytes given. -/
def parseFuel : ℕ → List UInt8 → Option (List Piece)
  | 0, _ => none
  | _ + 1, [] => none
  | fuel + 1, c :: fmt =>
      if c = 0 then some []
      else if c = '%'.toUInt8 then do
        let (p, rest) ← parseSpec fmt
        let ps ← parseFuel fuel rest
        pure (p :: ps)
      else do
        let ps ← parseFuel fuel fmt
        pure (.literal c :: ps)

def parse (fmt : List UInt8) : Option (List Piece) :=
  parseFuel (fmt.length + 1) fmt

/-! ## Lengths -/

/-- The number of bytes that a piece prints. -/
def Piece.length (p : Piece) (a : Arg) : ℕ :=
  match p with
  | .literal _ | .percent => 1
  | .dropped => 0
  | .directive d =>
      (d.sign a).length + (d.body a).length + (d.width - d.actualWidth a)

def lengthOf (args : ℕ → Arg) : List Piece → ℕ → ℕ
  | [], _ => 0
  | p :: ps, used => p.length (args used) + lengthOf args ps (used + p.arity)

theorem Piece.length_text (p : Piece) (a : Arg) :
    (p.text a).length = p.length a := by
  cases p with
  | literal c => rfl
  | percent => rfl
  | dropped => rfl
  | directive d =>
      simp only [Piece.text, Directive.text, field, Piece.length]
      split
      · simp [Nat.add_assoc]
      · split
        all_goals
          simp only [List.length_append, List.length_replicate]
          omega

theorem length_textOf (args : ℕ → Arg) (ps : List Piece) (used : ℕ) :
    (textOf args ps used).length = lengthOf args ps used := by
  induction ps generalizing used with
  | nil => rfl
  | cons p ps ih =>
      rw [textOf, lengthOf, List.length_append, Piece.length_text, ih]

end Printf
end Janus86
