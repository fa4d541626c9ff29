import Janus86.VsnprintfLaws

/-!
# Numbers in a format

A directive for a number is read here as the standard's `printf` reads it: the
value of the argument, its digits, the sign, and the width.  `vsnprintf` keeps
to it, although it cuts the sign off in one place and puts it in front of the
padding or behind it in another, and its digits never leave the array in which
they are built from the end on.
-/

namespace Janus86
namespace Printf

open StepMachine

/-! ## Digits -/

/-- The value of digits, the highest one first. -/
def valueOf (base : ℕ) (ds : List ℕ) : ℕ := ds.foldl (fun n d => base * n + d) 0

/-- The digits of a number, without a zero in front. -/
structure IsDigits (base n : ℕ) (ds : List ℕ) : Prop where
  ne : ds ≠ []
  lt : ∀ d ∈ ds, d < base
  value : valueOf base ds = n
  minimal : ds.head? = some 0 → ds = [0]

theorem valueOf_append_one (base : ℕ) (ds : List ℕ) (d : ℕ) :
    valueOf base (ds ++ [d]) = base * valueOf base ds + d := by
  simp [valueOf]

theorem valueOf_replicate_zero (base k : ℕ) (ds : List ℕ) :
    valueOf base (List.replicate k 0 ++ ds) = valueOf base ds := by
  induction k with
  | zero => rfl
  | succ k ih =>
      rw [← ih]
      simp [valueOf, List.replicate_succ]

theorem isDigits_of_lt {base n : ℕ} (hlt : n < base) : IsDigits base n [n] where
  ne := by simp
  lt := by simpa using hlt
  value := by simp [valueOf]
  minimal := by simp

theorem IsDigits.append {base n d : ℕ} {ds : List ℕ} (hds : IsDigits base n ds)
    (hn : 0 < n) (hd : d < base) : IsDigits base (base * n + d) (ds ++ [d]) where
  ne := by simp
  lt := by
    intro c hc
    rcases List.mem_append.mp hc with hc | hc
    · exact hds.lt c hc
    · exact List.mem_singleton.mp hc ▸ hd
  value := by rw [valueOf_append_one, hds.value]
  minimal := by
    intro hhead
    rw [List.head?_append_of_ne_nil _ hds.ne] at hhead
    have hvalue := hds.value
    rw [hds.minimal hhead] at hvalue
    simp [valueOf] at hvalue
    omega

theorem numeral_isDigits (caps : Bool) {base : ℕ} (hbase : 2 ≤ base) (n : ℕ) :
    ∃ ds, numeral caps base n = ds.map (digit caps) ∧ IsDigits base n ds := by
  induction n using Nat.strong_induction_on with
  | _ n ih =>
      by_cases hlt : n < base
      · exact ⟨[n], numeral_of_lt hlt, isDigits_of_lt hlt⟩
      · have hpos : 0 < n / base := Nat.div_pos (by omega) (by omega)
        obtain ⟨ds, hnumeral, hds⟩ := ih (n / base)
          (Nat.div_lt_self (by omega) (by omega))
        refine ⟨ds ++ [n % base], ?_, ?_⟩
        · rw [numeral_of_le caps hbase (by omega), hnumeral, List.map_append]
          rfl
        · have happ := hds.append hpos (Nat.mod_lt n (by omega))
          rwa [Nat.div_add_mod] at happ

theorem digit_ne_zero (caps : Bool) {d : ℕ} (hd : d < 16) : digit caps d ≠ 0 := by
  cases caps <;> interval_cases d <;> decide

/-! ## The digit loop -/

/-- `where`, counted from the start of `buf`, and the number that is left. -/
structure DigitCursor where
  pos : ℕ
  num : ℕ
  buf : Buffer

/-- One turn of the do loop behind `DO_NUM`. -/
def digitTurn (caps : Bool) (radix : ℕ) (s : DigitCursor) :
    Turn DigitCursor (Except Fault DigitCursor) :=
  match s.pos with
  | 0 => .stop (.error .outOfBounds)
  | pos + 1 =>
      let s : DigitCursor := ⟨pos, s.num / radix,
        Function.update s.buf pos (digit caps (s.num % radix))⟩
      if s.num = 0 then .stop (.ok s) else .next s

/-- `where = buf + PR_BUFLEN - 1; *where = '\0'`. -/
def startDigits (num : ℕ) (buf : Buffer) : DigitCursor :=
  ⟨prBuflen - 1, num, Function.update buf (prBuflen - 1) 0⟩

/-- The string at `where`. -/
def DigitCursor.body (s : DigitCursor) : List UInt8 :=
  cString ((List.range' s.pos (prBuflen - s.pos)).map s.buf)

theorem body_update {pos : ℕ} (num num' : ℕ) (buf : Buffer) {c : UInt8}
    (hc : c ≠ 0) (hpos : pos < prBuflen) :
    (DigitCursor.mk pos num (Function.update buf pos c)).body =
      c :: (DigitCursor.mk (pos + 1) num' buf).body := by
  have hlen : prBuflen - pos = prBuflen - (pos + 1) + 1 := by omega
  have hkept : (List.range' (pos + 1) (prBuflen - (pos + 1))).map
      (Function.update buf pos c) =
        (List.range' (pos + 1) (prBuflen - (pos + 1))).map buf := by
    refine List.map_congr_left fun i hi => Function.update_of_ne ?_ _ _
    have hlow := (List.mem_range'_1.mp hi).1
    omega
  simp only [DigitCursor.body]
  rw [hlen, List.range'_succ, List.map_cons, Function.update_self, hkept]
  simp [cString, hc]

/-- The loop comes to its end within the array when there is room for the
digits, and leaves them in front of what it has built. -/
theorem digits_halt (caps : Bool) {radix : ℕ} (hlow : 2 ≤ radix)
    (hhigh : radix ≤ 16) {pos num : ℕ} (buf : Buffer) (hpos : 0 < pos)
    (hinside : pos < prBuflen) (hroom : num < radix ^ pos) :
    ∃ s, Halts (digitTurn caps radix) ⟨pos, num, buf⟩ (.ok s) ∧
      s.body = numeral caps radix num ++ (DigitCursor.mk pos num buf).body := by
  induction pos generalizing num buf with
  | zero => omega
  | succ pos ih =>
      have hdigit : digit caps (num % radix) ≠ 0 :=
        digit_ne_zero caps ((Nat.mod_lt num (by omega)).trans_le hhigh)
      have hbody := body_update (num / radix) num buf hdigit
        (show pos < prBuflen by omega)
      by_cases hlt : num < radix
      · have hzero : num / radix = 0 := Nat.div_eq_of_lt hlt
        refine ⟨_, Halts.of_stop (by simp only [digitTurn]; rw [if_pos hzero]), ?_⟩
        rw [hbody, numeral_of_lt hlt, Nat.mod_eq_of_lt hlt]
        rfl
      · have hquot : num / radix ≠ 0 := (Nat.div_pos (by omega) (by omega)).ne'
        have hroom' : num / radix < radix ^ pos := by
          rw [Nat.div_lt_iff_lt_mul (by omega), ← Nat.pow_succ]
          exact hroom
        have hpos' : 0 < pos := by
          rcases Nat.eq_zero_or_pos pos with rfl | h
          · rw [pow_zero, Nat.lt_one_iff] at hroom'
            exact absurd hroom' hquot
          · exact h
        obtain ⟨s, hhalts, hs⟩ := ih
          (Function.update buf pos (digit caps (num % radix))) hpos'
          (by omega) hroom'
        refine ⟨s, Halts.of_next (by simp only [digitTurn]; rw [if_neg hquot])
          hhalts, ?_⟩
        rw [hs, hbody, numeral_of_le caps hlow (show radix ≤ num by omega)]
        simp

/-! ## Formats of one number -/

/-- The conversions of numbers. -/
inductive NumConv where
  | d
  | i
  | u
  | x
  | X
  | p
  | n
  | o
  deriving DecidableEq

def NumConv.char : NumConv → UInt8
  | .d => 'd'.toUInt8
  | .i => 'i'.toUInt8
  | .u => 'u'.toUInt8
  | .x => 'x'.toUInt8
  | .X => 'X'.toUInt8
  | .p => 'p'.toUInt8
  | .n => 'n'.toUInt8
  | .o => 'o'.toUInt8

def NumConv.signed : NumConv → Bool
  | .d | .i => true
  | _ => false

def NumConv.base : NumConv → ℕ
  | .d | .i | .u => 10
  | .o => 8
  | _ => 16

def NumConv.caps (c : NumConv) : Bool := decide (c = .X)

/-- Without a modifier, with `l`, and with `h`. -/
inductive NumSize where
  | int
  | long
  | short
  deriving DecidableEq

def NumSize.text : NumSize → List UInt8
  | .int => []
  | .long => ['l'.toUInt8]
  | .short => ['h'.toUInt8]

/-- A directive for a number.  A width is an `int`; 0 is no width. -/
structure NumberFormat where
  left : Bool
  zero : Bool
  width : ℕ
  size : NumSize
  conv : NumConv
  width_lt : width < 2 ^ 31

/-- The width as it is written. -/
def widthText (width : ℕ) : List UInt8 :=
  if width = 0 then [] else numeral false 10 width

def NumberFormat.text (f : NumberFormat) : List UInt8 :=
  '%'.toUInt8 :: ((if f.left then ['-'.toUInt8] else []) ++
    (if f.zero then ['0'.toUInt8] else []) ++ widthText f.width ++ f.size.text ++
      [f.conv.char])

/-- The value of an argument: `int` and `long` have 32 bits, and of a `short`
there are 16. -/
def NumberFormat.value (f : NumberFormat) (v : UInt32) : ℤ :=
  match f.conv.signed, f.size with
  | true, .short => (v.toNat : ℤ).bmod (2 ^ 16)
  | true, _ => toInt32 v.toNat
  | false, .short => (v.toNat % 2 ^ 16 : ℕ)
  | false, _ => v.toNat

/-- The number that comes to the digit loop. -/
def digitNum (flags : Flags) (word : ℕ) : ℕ :=
  let num := loadNum flags word
  if flags.sign ∧ 2 ^ 31 ≤ num then 2 ^ 32 - num else num

/-- The flags at `DO_NUM`. -/
def NumberFormat.flags (f : NumberFormat) : Flags where
  ljfy := f.left
  caps := f.conv.caps
  sign := f.conv.signed
  num32 := decide (f.size = .long)
  num16 := decide (f.size = .short)
  num0 := false
  zeropad := f.zero
  farptr := false

/-- What the standard's `printf` makes of a value: the digits of its magnitude,
a minus sign in front of a negative one, and padding to the width. -/
structure NumberFormat.Renders (f : NumberFormat) (v : UInt32)
    (digits out : List UInt8) : Prop where
  minimal : ∃ ds, digits = ds.map (digit f.conv.caps) ∧
    IsDigits f.conv.base (f.value v).natAbs ds
  length : out.length = max f.width ((signOf (f.value v < 0)).length + digits.length)
  padded : ∃ n, out =
    if f.left then
      signOf (f.value v < 0) ++ digits ++ List.replicate n ' '.toUInt8
    else if f.zero then
      signOf (f.value v < 0) ++ List.replicate n '0'.toUInt8 ++ digits
    else List.replicate n ' '.toUInt8 ++ signOf (f.value v < 0) ++ digits

/-! ## The directive -/

theorem digit_toNat {d : ℕ} (hd : d < 10) : (digit false d).toNat = d + 48 := by
  interval_cases d <;> rfl

theorem isDigit_digit {d : ℕ} (hd : d < 10) : isDigit (digit false d) = true := by
  interval_cases d <;> rfl

theorem widthOf_digits {ds : List ℕ} (hds : ∀ d ∈ ds, d < 10) (w : ℕ) :
    widthOf (w % 2 ^ 32) (ds.map (digit false)) =
      ds.foldl (fun n d => 10 * n + d) w % 2 ^ 32 := by
  induction ds generalizing w with
  | nil => rfl
  | cons d ds ih =>
      have hd := digit_toNat (hds d (by simp))
      have hstep : (10 * (w % 2 ^ 32) + ((digit false d).toNat - '0'.toNat)) %
          2 ^ 32 = (10 * w + d) % 2 ^ 32 := by
        rw [hd, show '0'.toNat = 48 from rfl, Nat.add_sub_cancel]
        omega
      rw [List.foldl_cons, ← ih (fun c hc => hds c (List.mem_cons_of_mem d hc)),
        ← hstep]
      rfl

theorem widthOf_numeral {n : ℕ} (hlt : n < 2 ^ 32) :
    widthOf 0 (numeral false 10 n) = n := by
  obtain ⟨ds, htext, hds⟩ := numeral_isDigits false (show 2 ≤ 10 by decide) n
  have hwidth := widthOf_digits hds.lt 0
  rw [htext]
  exact hwidth.trans ((congrArg (· % 2 ^ 32) hds.value).trans
    (Nat.mod_eq_of_lt hlt))

/-- A number that is not 0 is written without a 0 in front. -/
theorem numeral_head {n : ℕ} (hpos : 0 < n) :
    ∃ c cs, numeral false 10 n = c :: cs ∧ c ≠ '0'.toUInt8 := by
  obtain ⟨ds, htext, hds⟩ := numeral_isDigits false (show 2 ≤ 10 by decide) n
  cases ds with
  | nil => exact absurd rfl hds.ne
  | cons d ds =>
      refine ⟨digit false d, ds.map (digit false), htext, ?_⟩
      intro hzero
      have hvalue := hds.value
      have hd := digit_toNat (hds.lt d (by simp))
      rw [hzero] at hd
      have hminimal := hds.minimal (by
        rw [List.head?_cons, Option.some.injEq]
        have hcode : '0'.toUInt8.toNat = 48 := rfl
        omega)
      rw [hminimal] at hvalue
      simp [valueOf] at hvalue
      omega

variable (f : NumberFormat)

/-- The directive as it is written. -/
def NumberFormat.written : DirectiveSyntax where
  left := f.left
  zero := f.zero
  digits := widthText f.width
  mods := f.size.text
  conv := f.conv.char
  digits_form := by
    unfold widthText
    split
    · simp
    · obtain ⟨ds, htext, hds⟩ := numeral_isDigits false (show 2 ≤ 10 by decide) f.width
      rw [htext]
      intro c hc
      obtain ⟨d, hd, rfl⟩ := List.mem_map.mp hc
      exact isDigit_digit (hds.lt d hd)
  mods_form := by
    cases f.size <;> decide +kernel
  conv_form := by
    cases f.conv <;> decide

theorem NumberFormat.text_written :
    (Item.directive f.written).text = f.text := by
  unfold Item.text Item.write DirectiveSyntax.afterPercent DirectiveSyntax.afterLeft
    DirectiveSyntax.tail NumberFormat.text NumberFormat.written
  cases f.left <;> cases f.zero <;> simp

def NumConv.kind : NumConv → Conv
  | .d | .i => .signed
  | .u => .unsigned
  | .X => .hexCaps
  | .o => .octal
  | _ => .hex

/-- What the directive means. -/
def NumberFormat.directive : Directive where
  left := f.left
  zero := f.zero
  width := f.width
  long := decide (f.size = .long)
  short := decide (f.size = .short)
  conv := f.conv.kind

theorem NumConv.convOf_char (c : NumConv) : convOf c.char = some c.kind := by
  cases c <;> rfl

theorem NumConv.kind_signed (c : NumConv) :
    (c.kind = .signed) = (c.signed = true) := by
  cases c <;> decide

theorem NumberFormat.modified_eq : modified f.left f.zero f.width f.size.text
    f.written.kind = f.directive := by
  have hkind : f.written.kind = f.conv.kind := Option.some.inj
    ((Option.some_get f.written.conv_form).trans f.conv.convOf_char)
  have hlong : f.size.text.contains 'l'.toUInt8 = decide (f.size = .long) := by
    cases f.size <;> decide
  have hshort : f.size.text.contains 'h'.toUInt8 = decide (f.size = .short) := by
    cases f.size <;> decide
  rw [modified, hkind, hlong, hshort]
  rfl

/-- Without a 0 in front the digits are the width. -/
theorem DirectiveSyntax.meaning_of_head {d : DirectiveSyntax}
    (hhead : ∀ c ∈ d.digits.head?, c ≠ '0'.toUInt8) :
    d.meaning = modified d.left d.zero (widthOf 0 d.digits) d.mods d.kind := by
  unfold DirectiveSyntax.meaning
  split
  · next hzero => rw [hzero]
  · next hzero hdigits =>
      rw [hzero, hdigits]
      rfl
  · next c ds hzero hdigits =>
      rw [if_neg (hhead c (by rw [hdigits]; rfl)), hzero, hdigits]

theorem NumberFormat.meaning_written : f.written.meaning = f.directive := by
  have hlt := f.width_lt
  have hwidth : widthOf 0 (widthText f.width) = f.width := by
    unfold widthText
    split
    · next hzero => exact hzero.symm
    · exact widthOf_numeral (hlt.trans (by decide))
  rw [DirectiveSyntax.meaning_of_head, ← f.modified_eq]
  · change modified f.left f.zero (widthOf 0 (widthText f.width)) _ _ = _
    rw [hwidth]
    rfl
  · intro c hc
    change c ∈ (widthText f.width).head? at hc
    unfold widthText at hc
    split at hc
    · cases hc
    · obtain ⟨c', cs, htext, hne⟩ := numeral_head (n := f.width) (by omega)
      rw [htext] at hc
      cases hc
      exact hne

/-! ## Its text -/

theorem NumberFormat.bits_eq (v : UInt32) (bytes : List UInt8) :
    loadNum f.flags v.toNat = f.directive.bits ⟨v, bytes⟩ := by
  refine loadNum_eq (p := { startState with flags := f.flags }) (d := f.directive)
    rfl rfl ?_ ⟨v, bytes⟩
  simp [NumberFormat.flags, NumberFormat.directive, f.conv.kind_signed]

theorem toInt32_of_word {a : ℕ} (ha : a < 2 ^ 32) :
    toInt32 a = (a : ℤ) - (if 2 ^ 31 ≤ a then 2 ^ 32 else 0 : ℤ) := by
  unfold toInt32
  rw [Int.bmod_def]
  split <;> split <;> omega

/-- The 16 bits of a `short` in the 32 bits that are loaded. -/
theorem toInt32_short (v : ℕ) : toInt32
    (if 2 ^ 15 ≤ v % 2 ^ 16 then v % 2 ^ 16 + (2 ^ 32 - 2 ^ 16) else v % 2 ^ 16) =
      (v : ℤ).bmod (2 ^ 16) := by
  have hlow : v % 2 ^ 16 < 2 ^ 32 := by omega
  have hhigh : v % 2 ^ 16 + (2 ^ 32 - 2 ^ 16) < 2 ^ 32 := by omega
  rw [Int.bmod_def]
  split
  · rw [toInt32_of_word hhigh, if_pos (by omega), if_neg (by omega)]
    omega
  · rw [toInt32_of_word hlow, if_neg (by omega), if_pos (by omega)]
    omega

/-- The value of an argument is that of its 32 bits. -/
theorem NumberFormat.value_eq (v : UInt32) (bytes : List UInt8) :
    f.value v = if f.conv.signed = true then toInt32 (f.directive.bits ⟨v, bytes⟩)
      else (f.directive.bits ⟨v, bytes⟩ : ℤ) := by
  have hhalf := toInt32_short v.toNat
  unfold NumberFormat.value Directive.bits NumberFormat.directive
  simp only [f.conv.kind_signed]
  cases hconv : f.conv.signed with
  | true =>
      cases hsize : f.size with
      | short => simpa using hhalf.symm
      | int => simp
      | long => simp
  | false =>
      cases hsize : f.size with
      | short => simp
      | int => simp
      | long => simp

theorem NumberFormat.digitNum_eq (v : UInt32) :
    digitNum f.flags v.toNat = (f.value v).natAbs := by
  have hlt := bits_lt f.directive ⟨v, []⟩
  have hsign : f.flags.sign = f.conv.signed := rfl
  rw [digitNum, f.bits_eq v [], f.value_eq v [], toInt32_of_word hlt, hsign]
  by_cases hconv : f.conv.signed = true
  · simp only [hconv, true_and, if_true]
    split <;> omega
  · simp [hconv]

theorem NumberFormat.negative_eq (v : UInt32) (bytes : List UInt8) :
    f.directive.negative ⟨v, bytes⟩ = decide (f.value v < 0) := by
  have hlt := bits_lt f.directive ⟨v, bytes⟩
  have hsigned : f.directive.conv = .signed ↔ f.conv.signed = true :=
    iff_of_eq f.conv.kind_signed
  rw [Directive.negative, f.value_eq v bytes, toInt32_of_word hlt,
    decide_eq_decide, hsigned]
  by_cases hconv : f.conv.signed = true
  · simp only [hconv, true_and, if_true]
    split <;> omega
  · simp [hconv]

theorem NumberFormat.body_eq (a : Arg) : f.directive.body a =
    numeral f.conv.caps f.conv.base (f.value a.word).natAbs := by
  have hmagnitude : f.directive.magnitude a = (f.value a.word).natAbs := by
    have hsigned : f.directive.conv = .signed ↔ f.flags.sign = true :=
      iff_of_eq f.conv.kind_signed
    rw [← f.digitNum_eq, digitNum, f.bits_eq a.word a.bytes, Directive.magnitude,
      Directive.negative]
    simp only [hsigned, decide_eq_true_eq]
  rw [← hmagnitude]
  unfold Directive.body NumberFormat.directive
  cases f.conv <;> rfl

/-- The field of a directive has the width, or more when it needs more. -/
theorem length_field (left zero : Bool) (width : ℕ) (sign body : List UInt8) :
    (field left zero width (sign.length + body.length) sign body).length =
      max width (sign.length + body.length) := by
  unfold field
  split
  · simp
    omega
  · split
    all_goals
      simp only [List.length_append, List.length_replicate]
      omega

theorem NumberFormat.text_directive (a : Arg) : f.directive.text a =
    field f.left f.zero f.width ((signOf (f.value a.word < 0)).length +
        (f.directive.body a).length) (signOf (f.value a.word < 0))
      (f.directive.body a) := by
  have hconv : f.conv.kind ≠ .char ∧ f.conv.kind ≠ .string := by
    cases f.conv <;> decide
  have hsign : f.directive.sign a = signOf (f.value a.word < 0) := by
    rw [Directive.sign, f.negative_eq a.word a.bytes]
    rfl
  have hpads : f.directive.padsZero = f.zero := by
    simp [Directive.padsZero, NumberFormat.directive, hconv]
  have hwidth : f.directive.actualWidth a =
      (f.directive.sign a).length + (f.directive.body a).length := by
    exact if_neg hconv.1
  rw [Directive.text, hpads, hwidth, hsign]
  rfl

theorem NumberFormat.renders (a : Arg) :
    f.Renders a.word (f.directive.body a) (f.directive.text a) where
  minimal := by
    rw [f.body_eq a]
    refine numeral_isDigits _ ?_ _
    cases f.conv <;> decide
  length := by
    rw [f.text_directive a, length_field]
  padded := by
    rw [f.text_directive a]
    exact ⟨_, rfl⟩

theorem NumberFormat.vsnprintf_out (size : ℕ) (args : ℕ → Arg) :
    ∃ r, vsnprintf size (f.text ++ [0]) args = .ok r ∧
      r.out = f.directive.text (args 0) := by
  obtain ⟨r, hrun, _, hout⟩ := vsnprintf_item size args (.directive f.written)
  rw [f.text_written] at hrun
  refine ⟨r, hrun, ?_⟩
  rw [hout, Item.piece, f.meaning_written]
  rfl

/-- The digit loop leaves the digits in its array. -/
theorem NumberFormat.digits_in_buf (a : Arg) (buf : Buffer) :
    ∃ s, Halts (digitTurn f.conv.caps f.conv.base)
        (startDigits (digitNum f.flags a.word.toNat) buf) (.ok s) ∧
      s.body = f.directive.body a := by
  have hbase : 8 ≤ f.conv.base ∧ f.conv.base ≤ 16 := by
    cases f.conv <;> decide
  have hroom : (f.value a.word).natAbs < f.conv.base ^ (prBuflen - 1) := by
    have hlt := bits_lt f.directive ⟨a.word, []⟩
    have hnum : digitNum f.flags a.word.toNat ≤ 2 ^ 32 := by
      rw [digitNum, f.bits_eq _ []]
      split
      · exact Nat.sub_le _ _
      · exact hlt.le
    rw [← f.digitNum_eq]
    exact hnum.trans_lt (lt_of_lt_of_le (by decide)
      (Nat.pow_le_pow_left hbase.1 (prBuflen - 1)))
  obtain ⟨s, hhalts, hbody⟩ := digits_halt f.conv.caps (by omega) hbase.2
    (Function.update buf (prBuflen - 1) 0) (by decide) (by decide) hroom
  have hempty : (DigitCursor.mk (prBuflen - 1) (f.value a.word).natAbs
      (Function.update buf (prBuflen - 1) 0)).body = [] := by
    simp [DigitCursor.body, prBuflen, cString]
  rw [hempty, List.append_nil, ← f.body_eq] at hbody
  refine ⟨s, ?_, hbody⟩
  rw [startDigits, f.digitNum_eq]
  exact hhalts

/-- What `vsnprintf` prints of a number is what the standard's `printf` does, and
the digits are those that the loop leaves in its array. -/
theorem vsnprintf_number (f : NumberFormat) (size : ℕ) (args : ℕ → Arg)
    (buf : Buffer) :
    ∃ r s, vsnprintf size (f.text ++ [0]) args = .ok r ∧
      Halts (digitTurn f.conv.caps f.conv.base)
        (startDigits (digitNum f.flags (args 0).word.toNat) buf) (.ok s) ∧
      f.Renders (args 0).word s.body r.out := by
  obtain ⟨r, hrun, hout⟩ := f.vsnprintf_out size args
  obtain ⟨s, hhalts, hbody⟩ := f.digits_in_buf (args 0) buf
  refine ⟨r, s, hrun, hhalts, ?_⟩
  rw [hbody, hout]
  exact f.renders (args 0)

end Printf
end Janus86
