import Mathlib.Tactic

/-!
# The keyboard driver

`GetRawKey` takes bytes from the keyboard port until one of them is the press of a key
other than a shift key, and keeps in `shift` whether a shift key was pressed or released
last.  `getch` looks the code up in one of two tables.  The port is the list of the bytes
that are still to come; where it ends the driver waits.
-/

namespace Janus86
namespace Keyboard

def ESC : UInt8 := 27
def BACKSPACE : UInt8 := 8
def TAB : UInt8 := 9
def ENTER : UInt8 := 10

def KF1 : UInt8 := 0x80
def KF2 : UInt8 := KF1 + 1
def KF3 : UInt8 := KF2 + 1
def KF4 : UInt8 := KF3 + 1
def KF5 : UInt8 := KF4 + 1
def KF6 : UInt8 := KF5 + 1
def KF7 : UInt8 := KF6 + 1
def KF8 : UInt8 := KF7 + 1
def KF9 : UInt8 := KF8 + 1
def KF10 : UInt8 := KF9 + 1
def KF11 : UInt8 := KF10 + 1
def KF12 : UInt8 := KF11 + 1

def KINS : UInt8 := 0x90
def KDEL : UInt8 := KINS + 1
def KHOME : UInt8 := KDEL + 1
def KEND : UInt8 := KHOME + 1
def KPGUP : UInt8 := KEND + 1
def KPGDN : UInt8 := KPGUP + 1
def KLEFT : UInt8 := KPGDN + 1
def KUP : UInt8 := KLEFT + 1
def KDOWN : UInt8 := KUP + 1
def KRIGHT : UInt8 := KDOWN + 1

def KRLEFT_SHIFT : UInt8 := 0x2A
def KRRIGHT_SHIFT : UInt8 := 0x36
def KEYPRESS : UInt8 := 0x80

def chars (cs : List Char) : List UInt8 := cs.map Char.toUInt8

def functionKeys : List UInt8 := [KF1, KF2, KF3, KF4, KF5, KF6, KF7, KF8, KF9, KF10, 0, 0]

def keypad : List UInt8 :=
  [KHOME, KUP, KPGUP, '-'.toUInt8, KLEFT, '5'.toUInt8, KRIGHT, '+'.toUInt8, KEND, KDOWN,
    KPGDN, KINS, KDEL, 0, 0, 0, KF11, KF12]

/-- 39, 96 and 92 are the quote, the backquote and the backslash. -/
def asciiNonSh : List UInt8 :=
  chars [' '] ++ [ESC] ++
  chars ['1', '2', '3', '4', '5', '6', '7', '8', '9', '0', '-', '='] ++ [BACKSPACE, TAB] ++
  chars ['q', 'w', 'e', 'r', 't', 'y', 'u', 'i', 'o', 'p', '[', ']'] ++ [ENTER, 0] ++
  chars ['a', 's', 'd', 'f', 'g', 'h', 'j', 'k', 'l', ';'] ++ [39, 96, 0, 92] ++
  chars ['z', 'x', 'c', 'v', 'b', 'n', 'm', ',', '.', '/'] ++ [0, 0, 0] ++ chars [' '] ++
  [0] ++ functionKeys ++ keypad

/-- 34 is the double quote. -/
def asciiShift : List UInt8 :=
  chars [' '] ++ [ESC] ++
  chars ['!', '@', '#', '$', '%', '^', '&', '*', '(', ')', '_', '+'] ++ [BACKSPACE, TAB] ++
  chars ['Q', 'W', 'E', 'R', 'T', 'Y', 'U', 'I', 'O', 'P', '{', '}'] ++ [ENTER, 0] ++
  chars ['A', 'S', 'D', 'F', 'G', 'H', 'J', 'K', 'L', ':'] ++ [34] ++ chars ['~'] ++ [0] ++
  chars ['|', 'Z', 'X', 'C', 'V', 'B', 'N', 'M', '<', '>', '?'] ++ [0, 0, 0] ++
  chars [' '] ++ [0] ++ functionKeys ++ keypad

/-- The flag of the driver and the bytes that the port has not delivered yet. -/
structure Kbd where
  shift : Bool
  port : List UInt8
  deriving DecidableEq, Repr

/-- `GetRawKey`; `none` when it waits for a byte that does not come. -/
def getRawKey (shift : Bool) : List UInt8 → Option (UInt8 × Kbd)
  | [] => none
  | scancode :: port =>
      if scancode &&& KEYPRESS ≠ 0 then
        -- a key is up
        let scancode := scancode &&& 0x7F
        if scancode = KRLEFT_SHIFT ∨ scancode = KRRIGHT_SHIFT then getRawKey false port
        else getRawKey shift port
      else if scancode = KRLEFT_SHIFT ∨ scancode = KRRIGHT_SHIFT then getRawKey true port
      else some (scancode, ⟨shift, port⟩)

/-- A call of `getch` that returns: the code, the table that it is looked up in, and the
character, which is missing where the code is not inside the table. -/
structure Returned where
  scan : UInt8
  shifted : Bool
  char : Option UInt8
  after : Kbd
  deriving DecidableEq, Repr

def getch (k : Kbd) : Option Returned :=
  match getRawKey k.shift k.port with
  | none => none
  | some (scan, k) =>
      let table := if k.shift then asciiShift else asciiNonSh
      some ⟨scan, k.shift, table[scan.toNat]?, k⟩

/-- The calls that return when `getch` is called again and again. -/
inductive Returns : Kbd → Returned → Prop
  | here {k : Kbd} {r : Returned} (call : getch k = some r) : Returns k r
  | later {k : Kbd} {r r' : Returned} (call : getch k = some r)
      (rest : Returns r.after r') : Returns k r'

end Keyboard
end Janus86
