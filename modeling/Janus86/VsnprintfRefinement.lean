import Janus86.VsnprintfModel

/-!
# vsnprintf prints the pieces of its format

The loops of the emission are put into closed form first, then a conversion
is shown to print the text of its directive, and then the scan is followed
through one piece.  A scan that is between two pieces has no flags and no
width left, so the pieces do not influence each other.
-/

namespace Janus86
namespace Printf

open StepMachine

/-! ## Emission -/

/-- The counter counts the bytes stored. -/
def PrintState.Counted (p : PrintState) : Prop :=
  p.count = p.out.length % 2 ^ 32

/-- The bytes `cs` are stored on the way from `p` to `p'`. -/
structure Appended (p p' : PrintState) (cs : List UInt8) : Prop where
  out : p'.out = p.out ++ cs
  used : p'.used = p.used
  flags : p'.flags = p.flags
  counted : p'.Counted

/-- The scan between two pieces. -/
def textState (out : List UInt8) (used : ℕ) : PrintState where
  state := .literal
  flags := .none
  givenWd := 0
  count := out.length % 2 ^ 32
  out := out
  used := used

variable {p p' p'' : PrintState} {args : ℕ → Arg} {cs ds : List UInt8}

theorem Appended.refl (hcount : p.Counted) : Appended p p [] :=
  ⟨(List.append_nil _).symm, rfl, rfl, hcount⟩

theorem Appended.trans (hfirst : Appended p p' cs)
    (hsecond : Appended p' p'' ds) : Appended p p'' (cs ++ ds) where
  out := by rw [hsecond.out, hfirst.out, List.append_assoc]
  used := hsecond.used.trans hfirst.used
  flags := hsecond.flags.trans hfirst.flags
  counted := hsecond.counted

theorem Appended.of_eq (happ : Appended p p' cs) (heq : cs = ds) :
    Appended p p' ds := heq ▸ happ

theorem Counted.reset (hcount : p.Counted) : p.reset = textState p.out p.used := by
  rw [PrintState.Counted] at hcount
  simp [PrintState.reset, textState, hcount]

theorem appended_put (hcount : p.Counted) (c : UInt8) (w : ℕ) :
    Appended p { p.put c with givenWd := w } [c] where
  out := rfl
  used := rfl
  flags := rfl
  counted := by
    rw [PrintState.Counted] at hcount ⊢
    simp [PrintState.put, hcount]

theorem appended_foldl_put (hcount : p.Counted) (body : List UInt8) :
    Appended p (body.foldl PrintState.put p) body ∧
      (body.foldl PrintState.put p).givenWd = p.givenWd := by
  induction body generalizing p with
  | nil => exact ⟨.refl hcount, rfl⟩
  | cons c body ih =>
      have hput := appended_put hcount c p.givenWd
      obtain ⟨hrest, hwd⟩ := ih hput.counted
      exact ⟨hput.trans hrest, hwd⟩

/-- The character that pads on the left. -/
def PrintState.padChar (p : PrintState) : UInt8 :=
  if p.flags.zeropad then '0'.toUInt8 else ' '.toUInt8

theorem appended_padLeft (hcount : p.Counted) (actualWd turns : ℕ)
    (hturns : turns = p.givenWd) :
    Appended p (padLeft actualWd turns p)
        (List.replicate (p.givenWd - actualWd) p.padChar) ∧
      (padLeft actualWd turns p).givenWd = min p.givenWd actualWd := by
  induction turns generalizing p with
  | zero =>
      rw [← hturns, Nat.zero_sub, Nat.zero_min]
      exact ⟨.refl hcount, hturns.symm⟩
  | succ turns ih =>
      by_cases hlt : actualWd < p.givenWd
      · have hput := appended_put hcount p.padChar (p.givenWd - 1)
        obtain ⟨hrest, hwd⟩ := ih hput.counted (by simp only; omega)
        have hcons : [p.padChar] ++
            List.replicate (p.givenWd - 1 - actualWd) p.padChar =
            List.replicate (p.givenWd - actualWd) p.padChar := by
          rw [List.singleton_append, ← List.replicate_succ]
          congr 1
          omega
        rw [padLeft, if_pos hlt]
        refine ⟨(hput.trans hrest).of_eq hcons, hwd.trans ?_⟩
        simp only
        omega
      · rw [padLeft, if_neg hlt, Nat.sub_eq_zero_of_le (by omega),
          min_eq_left (by omega)]
        exact ⟨.refl hcount, rfl⟩

theorem appended_padRight (hcount : p.Counted) (turns : ℕ)
    (hturns : turns = p.givenWd) :
    Appended p (padRight turns p)
      (List.replicate p.givenWd ' '.toUInt8) := by
  induction turns generalizing p with
  | zero =>
      rw [← hturns]
      exact .refl hcount
  | succ turns ih =>
      have hput := appended_put hcount ' '.toUInt8 (p.givenWd - 1)
      have hrest := ih hput.counted (by simp only; omega)
      have hcons : [' '.toUInt8] ++
          List.replicate (p.givenWd - 1) ' '.toUInt8 =
          List.replicate p.givenWd ' '.toUInt8 := by
        rw [List.singleton_append, ← List.replicate_succ]
        congr 1
        omega
      rw [padRight, if_neg (by omega)]
      exact (hput.trans hrest).of_eq hcons

/-- The sign that is put behind the padding. -/
def PrintState.lateSign (p : PrintState) : List UInt8 :=
  if p.flags.num0 && !p.flags.zeropad then ['-'.toUInt8] else []

theorem appended_putSign (hcount : p.Counted) :
    Appended p (putSign p) p.lateSign ∧ (putSign p).givenWd = p.givenWd := by
  unfold putSign PrintState.lateSign
  split
  · exact ⟨appended_put hcount '-'.toUInt8 p.givenWd, rfl⟩
  · exact ⟨.refl hcount, rfl⟩

theorem appended_dropWidth (hcount : p.Counted) (actualWd : ℕ) :
    Appended p (dropWidth actualWd p) [] ∧
      (dropWidth actualWd p).givenWd = p.givenWd - actualWd := by
  unfold dropWidth
  split
  · next hlt =>
      exact ⟨⟨(List.append_nil _).symm, rfl, rfl, hcount⟩,
        (Nat.sub_eq_zero_of_le hlt.le).symm⟩
  · exact ⟨⟨(List.append_nil _).symm, rfl, rfl, hcount⟩, rfl⟩

/-- From the sign on; a width is left over for the right only when nothing
was padded on the left. -/
theorem appended_signed (hcount : p.Counted) (body : List UInt8) (actualWd : ℕ) :
    Appended p
      (let q := dropWidth actualWd (body.foldl PrintState.put (putSign p))
      padRight q.givenWd q)
      (p.lateSign ++ body ++
        List.replicate (p.givenWd - actualWd) ' '.toUInt8) := by
  obtain ⟨hsign, hwd⟩ := appended_putSign hcount
  obtain ⟨hbody, hwd'⟩ := appended_foldl_put hsign.counted body
  obtain ⟨hdrop, hwd''⟩ := appended_dropWidth hbody.counted actualWd
  have hright := (appended_padRight hdrop.counted _ rfl).of_eq
    (show _ = List.replicate (p.givenWd - actualWd) ' '.toUInt8 by
      rw [hwd'', hwd', hwd])
  exact (hsign.trans hbody).trans (hdrop.trans hright)

theorem appended_emit2 (hcount : p.Counted) (body : List UInt8) (actualWd : ℕ) :
    Appended p (emit2 body actualWd p)
      (if p.flags.ljfy then p.lateSign ++ body ++
        List.replicate (p.givenWd - actualWd) ' '.toUInt8
      else List.replicate (p.givenWd - actualWd) p.padChar ++ p.lateSign ++
        body) := by
  unfold emit2
  split
  · exact appended_signed hcount body actualWd
  · obtain ⟨hleft, hwd⟩ := appended_padLeft hcount actualWd p.givenWd rfl
    have h := hleft.trans (appended_signed hleft.counted body actualWd)
    have hzero : (padLeft actualWd p.givenWd p).givenWd - actualWd = 0 := by
      omega
    have hsign : (padLeft actualWd p.givenWd p).lateSign = p.lateSign := by
      simp only [PrintState.lateSign, hleft.flags]
    rw [hzero, hsign, List.replicate_zero, List.append_nil,
      ← List.append_assoc] at h
    exact h

/-- The sign that is put before the padding. -/
def PrintState.earlySign (p : PrintState) : List UInt8 :=
  if p.flags.num0 && p.flags.zeropad then ['-'.toUInt8] else []

theorem appended_putEarlySign (hcount : p.Counted) :
    Appended p (if p.flags.num0 && p.flags.zeropad then p.put '-'.toUInt8
        else p) p.earlySign ∧
      (if p.flags.num0 && p.flags.zeropad then p.put '-'.toUInt8
        else p).givenWd = p.givenWd := by
  unfold PrintState.earlySign
  split
  · exact ⟨appended_put hcount '-'.toUInt8 p.givenWd, rfl⟩
  · exact ⟨.refl hcount, rfl⟩

/-- The sign of a number. -/
def signOf (negative : Bool) : List UInt8 :=
  if negative then ['-'.toUInt8] else []

theorem appended_emit (hcount : p.Counted) (body : List UInt8) :
    Appended p (emit body p)
      (field p.flags.ljfy p.flags.zeropad p.givenWd
        ((signOf p.flags.num0).length + body.length) (signOf p.flags.num0)
        body) := by
  obtain ⟨hsign, hwd⟩ := appended_putEarlySign hcount
  have hemit := appended_emit2 hsign.counted body
    (if p.flags.num0 then body.length + 1 else body.length)
  apply (hsign.trans hemit).of_eq
  have hactual : (if p.flags.num0 then body.length + 1 else body.length) =
      (signOf p.flags.num0).length + body.length := by
    unfold signOf
    split
    · exact Nat.add_comm _ _
    · simp
  rw [hactual, hwd]
  simp only [PrintState.lateSign, PrintState.padChar, hsign.flags,
    PrintState.earlySign, field, signOf]
  cases p.flags.ljfy <;> cases p.flags.zeropad <;> cases p.flags.num0 <;> simp

/-! ## Conversions -/

theorem numeral_of_lt {caps : Bool} {radix num : ℕ} (hlt : num < radix) :
    numeral caps radix num = [digit caps num] := by
  unfold numeral
  split
  · next hzero => rw [hzero]
  · next hne => rw [Nat.digits_of_lt radix num hne hlt]; rfl

theorem numeral_of_le (caps : Bool) {radix num : ℕ} (hradix : 2 ≤ radix)
    (hle : radix ≤ num) :
    numeral caps radix num =
      numeral caps radix (num / radix) ++ [digit caps (num % radix)] := by
  have hquot : num / radix ≠ 0 := (Nat.div_pos hle (by omega)).ne'
  unfold numeral
  rw [if_neg (by omega), if_neg hquot, Nat.digits_def' (by omega) (by omega)]
  simp

/-- The do loop leaves the numeral before `where` when `buf` has room for
it. -/
theorem putDigits_eq (caps : Bool) {radix : ℕ} (hradix : 2 ≤ radix)
    {room num : ℕ} (hroom : num < radix ^ room) (hpos : 0 < room)
    (body : List UInt8) :
    putDigits caps radix room num body = numeral caps radix num ++ body := by
  induction room generalizing num body with
  | zero => omega
  | succ room ih =>
      rw [putDigits]
      by_cases hlt : num < radix
      · rw [if_pos (Nat.div_eq_of_lt hlt), Nat.mod_eq_of_lt hlt,
          numeral_of_lt hlt]
        rfl
      · have hquot : num / radix ≠ 0 :=
          (Nat.div_pos (by omega) (by omega)).ne'
        have hroom' : num / radix < radix ^ room := by
          rw [Nat.div_lt_iff_lt_mul (by omega), ← Nat.pow_succ]
          exact hroom
        have hpos' : 0 < room := by
          rcases Nat.eq_zero_or_pos room with rfl | h
          · rw [pow_zero, Nat.lt_one_iff] at hroom'
            exact absurd hroom' hquot
          · exact h
        have hstep := numeral_of_le caps hradix (show radix ≤ num by omega)
        rw [if_neg hquot, ih hroom' hpos', hstep]
        simp

/-- The state of the scan before the conversion character of a directive. -/
structure Matches (d : Directive) (p : PrintState) : Prop where
  left : p.flags.ljfy = d.left
  zero : p.flags.zeropad = d.zero
  long : p.flags.num32 = d.long
  short : p.flags.num16 = d.short
  num0 : p.flags.num0 = false
  width : p.givenWd = d.width

/-- The conversion prints `cs` and takes one argument. -/
structure Converted (p p' : PrintState) (cs : List UInt8) : Prop where
  out : p'.out = p.out ++ cs
  used : p'.used = p.used + 1
  counted : p'.Counted

theorem loadNum_eq {d : Directive} (hlong : p.flags.num32 = d.long)
    (hshort : p.flags.num16 = d.short)
    (hsign : p.flags.sign = decide (d.conv = .signed)) (a : Arg) :
    loadNum p.flags a.word.toNat = d.bits a := by
  unfold loadNum Directive.bits
  rw [hlong, hshort, hsign]
  by_cases hconv : d.conv = .signed
  · simp only [hconv, decide_true, if_true, true_and]
    split
    · rfl
    · split
      · split
        · next hlt => rw [if_neg (by omega)]
        · next hge => rw [if_pos (by omega)]
      · rfl
  · simp [hconv]

theorem bits_lt (d : Directive) (a : Arg) : d.bits a < 2 ^ 32 := by
  have hword := a.word.toNat_lt
  unfold Directive.bits
  split
  · exact hword
  · split
    · split
      · omega
      · omega
    · exact hword

theorem doNum_text (args : ℕ → Arg) {d : Directive} (hcount : p.Counted) (hmatch : Matches d p)
    (hsign : p.flags.sign = decide (d.conv = .signed))
    (hcaps : p.flags.caps = (decide (d.conv = .hexCaps)))
    (hchar : d.conv ≠ .char) (hstring : d.conv ≠ .string) :
    Converted p (doNum args d.conv.radix p) (d.text (args p.used)) := by
  have hload := loadNum_eq hmatch.long hmatch.short hsign (args p.used)
  have hlt := bits_lt d (args p.used)
  have hradix : 8 ≤ d.conv.radix := by
    cases d.conv <;> decide
  have hpow : 2 ^ 32 < d.conv.radix ^ (prBuflen - 1) :=
    lt_of_lt_of_le (by decide) (Nat.pow_le_pow_left hradix (prBuflen - 1))
  have hbody : d.body (args p.used) =
      numeral (decide (d.conv = .hexCaps)) d.conv.radix (d.magnitude (args p.used)) := by
    unfold Directive.body
    cases hconv : d.conv <;> simp_all
  have hdigits : ∀ num, num ≤ 2 ^ 32 →
      putDigits p.flags.caps d.conv.radix (prBuflen - 1) num [] =
        numeral (decide (d.conv = .hexCaps)) d.conv.radix num := by
    intro num hnum
    rw [hcaps, putDigits_eq _ (by omega) (by omega) (by decide),
      List.append_nil]
  have hpads : d.padsZero = d.zero := by
    simp [Directive.padsZero, hchar, hstring]
  have hactual : d.actualWidth (args p.used) =
      (d.sign (args p.used)).length + (d.body (args p.used)).length := by
    rw [Directive.actualWidth, if_neg hchar]
  have htext : d.text (args p.used) = field p.flags.ljfy p.flags.zeropad
      p.givenWd ((signOf (d.negative (args p.used))).length +
        (d.body (args p.used)).length) (signOf (d.negative (args p.used)))
      (d.body (args p.used)) := by
    rw [Directive.text, hpads, hactual, hmatch.left, hmatch.zero, hmatch.width]
    rfl
  have hcond : p.flags.sign = true ∧ 2 ^ 31 ≤ d.bits (args p.used) ↔
      d.negative (args p.used) = true := by
    rw [hsign, decide_eq_true_eq, Directive.negative, decide_eq_true_eq]
  unfold doNum
  dsimp only
  rw [hload, htext, hbody, Directive.magnitude]
  by_cases hneg : d.negative (args p.used) = true
  · rw [if_pos (hcond.mpr hneg), if_pos hneg, hneg, hdigits _ (by omega)]
    have h := appended_emit (p := { p with
      used := p.used + 1
      flags := { p.flags with num0 := true } }) hcount
      (numeral (decide (d.conv = .hexCaps)) d.conv.radix
        (2 ^ 32 - d.bits (args p.used)))
    exact ⟨h.out, h.used, h.counted⟩
  · rw [if_neg (mt hcond.mp hneg), if_neg hneg, hdigits _ (by omega)]
    rw [Bool.not_eq_true] at hneg
    have h := appended_emit (p := { p with used := p.used + 1 }) hcount
      (numeral (decide (d.conv = .hexCaps)) d.conv.radix
        (d.bits (args p.used)))
    simp only [hmatch.num0] at h
    rw [hneg]
    exact ⟨h.out, h.used, h.counted⟩

theorem char_text {d : Directive} (hcount : p.Counted) (hmatch : Matches d p)
    (hconv : d.conv = .char) :
    Converted p
      (emit2 (cString [UInt8.ofNat (args p.used).word.toNat]) 1
        { p with
          flags := { p.flags with zeropad := false }
          used := p.used + 1 })
      (d.text (args p.used)) := by
  have h := appended_emit2 (p := { p with
    flags := { p.flags with zeropad := false }
    used := p.used + 1 }) hcount
    (cString [UInt8.ofNat (args p.used).word.toNat]) 1
  have hpads : d.padsZero = false := by simp [Directive.padsZero, hconv]
  have hsign : d.sign (args p.used) = [] := by
    simp [Directive.sign, Directive.negative, hconv]
  have hbody : d.body (args p.used) =
      cString [UInt8.ofNat (args p.used).word.toNat] := by
    rw [Directive.body, hconv]
  have hactual : d.actualWidth (args p.used) = 1 := by
    simp [Directive.actualWidth, hconv]
  refine ⟨?_, h.used, h.counted⟩
  rw [Directive.text, hpads, hsign, hbody, hactual, ← hmatch.left,
    ← hmatch.width, h.out]
  simp [PrintState.lateSign, PrintState.padChar, hmatch.num0, field]

theorem string_text {d : Directive} (hcount : p.Counted) (hmatch : Matches d p)
    (hconv : d.conv = .string) :
    Converted p
      (emit (cString (args p.used).bytes)
        { p with
          flags := { p.flags with zeropad := false }
          used := p.used + 1 })
      (d.text (args p.used)) := by
  have h := appended_emit (p := { p with
    flags := { p.flags with zeropad := false }
    used := p.used + 1 }) hcount (cString (args p.used).bytes)
  have hpads : d.padsZero = false := by simp [Directive.padsZero, hconv]
  have hsign : d.sign (args p.used) = [] := by
    simp [Directive.sign, Directive.negative, hconv]
  have hbody : d.body (args p.used) = cString (args p.used).bytes := by
    rw [Directive.body, hconv]
  have hactual : d.actualWidth (args p.used) =
      (cString (args p.used).bytes).length := by
    simp [Directive.actualWidth, hconv, hsign, hbody]
  refine ⟨?_, h.used, h.counted⟩
  rw [Directive.text, hpads, hsign, hbody, hactual, ← hmatch.left,
    ← hmatch.width, h.out]
  simp [signOf, hmatch.num0]

/-- The conversion character of a directive prints the directive. -/
theorem convert_text {d : Directive} {c : UInt8} (hcount : p.Counted)
    (hmatch : Matches d p) (hsign : p.flags.sign = false)
    (hcaps : p.flags.caps = false) (hconv : convOf c = some d.conv) :
    Converted p (convert args c p) (d.text (args p.used)) := by
  have hplain : d.conv ≠ .signed → d.conv ≠ .hexCaps → d.conv ≠ .char →
      d.conv ≠ .string →
      Converted p (doNum args d.conv.radix p) (d.text (args p.used)) := by
    intro hs hx hc ht
    exact doNum_text args hcount hmatch (by simp [hsign, hs]) (by simp [hcaps, hx])
      hc ht
  unfold convOf at hconv
  unfold convert
  by_cases hX : c = 'X'.toUInt8
  · rw [if_pos hX, Option.some.injEq] at hconv
    rw [if_pos hX]
    have h := doNum_text args (d := d)
      (p := { p with flags := { p.flags with caps := true } }) hcount
      ⟨hmatch.left, hmatch.zero, hmatch.long, hmatch.short, hmatch.num0,
        hmatch.width⟩ (by simp [hsign, ← hconv]) (by simp [← hconv])
      (by simp [← hconv]) (by simp [← hconv])
    rw [← hconv] at h
    exact ⟨h.out, h.used, h.counted⟩
  rw [if_neg hX] at hconv ⊢
  by_cases hx : c = 'x'.toUInt8 ∨ c = 'p'.toUInt8 ∨ c = 'n'.toUInt8
  · rw [if_pos hx, Option.some.injEq] at hconv
    rw [if_pos hx]
    have h := hplain (by simp [← hconv]) (by simp [← hconv])
      (by simp [← hconv]) (by simp [← hconv])
    rwa [← hconv] at h
  rw [if_neg hx] at hconv ⊢
  by_cases hd : c = 'd'.toUInt8 ∨ c = 'i'.toUInt8
  · rw [if_pos hd, Option.some.injEq] at hconv
    rw [if_pos hd]
    have h := doNum_text args (d := d)
      (p := { p with flags := { p.flags with sign := true } }) hcount
      ⟨hmatch.left, hmatch.zero, hmatch.long, hmatch.short, hmatch.num0,
        hmatch.width⟩ (by simp [← hconv]) (by simp [hcaps, ← hconv])
      (by simp [← hconv]) (by simp [← hconv])
    rw [← hconv] at h
    exact ⟨h.out, h.used, h.counted⟩
  rw [if_neg hd] at hconv ⊢
  by_cases hu : c = 'u'.toUInt8
  · rw [if_pos hu, Option.some.injEq] at hconv
    rw [if_pos hu]
    have h := hplain (by simp [← hconv]) (by simp [← hconv])
      (by simp [← hconv]) (by simp [← hconv])
    rwa [← hconv] at h
  rw [if_neg hu] at hconv ⊢
  by_cases ho : c = 'o'.toUInt8
  · rw [if_pos ho, Option.some.injEq] at hconv
    rw [if_pos ho]
    have h := hplain (by simp [← hconv]) (by simp [← hconv])
      (by simp [← hconv]) (by simp [← hconv])
    rwa [← hconv] at h
  rw [if_neg ho] at hconv ⊢
  by_cases hc : c = 'c'.toUInt8
  · rw [if_pos hc, Option.some.injEq] at hconv
    rw [if_pos hc]
    exact char_text hcount hmatch hconv.symm
  rw [if_neg hc] at hconv ⊢
  by_cases hs : c = 's'.toUInt8
  · rw [if_pos hs, Option.some.injEq] at hconv
    rw [if_pos hs]
    exact string_text hcount hmatch hconv.symm
  rw [if_neg hs] at hconv
  cases hconv

theorem convert_of_convOf_none {c : UInt8} (hconv : convOf c = none) :
    convert args c p = p := by
  unfold convOf at hconv
  unfold convert
  split_ifs at hconv with hX hx hd hu ho hc hs
  rw [if_neg hX, if_neg hx, if_neg hd, if_neg hu, if_neg ho, if_neg hc,
    if_neg hs]

/-! ## The scan of a specification -/

/-- The flags after a modifier. -/
def Flags.modify (f : Flags) (c : UInt8) : Flags :=
  { f with
    farptr := f.farptr || c == 'F'.toUInt8
    num32 := f.num32 || c == 'l'.toUInt8
    num16 := f.num16 || c == 'h'.toUInt8 }

theorem scanModifier_of_isModifier {c : UInt8} (hc : isModifier c = true) :
    scanModifier args c p =
      { p with state := .modifier, flags := p.flags.modify c } := by
  have hcases : c = 'F'.toUInt8 ∨ c = 'N'.toUInt8 ∨ c = 'l'.toUInt8 ∨
      c = 'h'.toUInt8 := by
    simpa [isModifier, or_assoc] using hc
  rcases hcases with rfl | rfl | rfl | rfl
  all_goals simp [scanModifier, Flags.modify, show 'F'.toUInt8 = 70 from rfl,
    show 'N'.toUInt8 = 78 from rfl, show 'l'.toUInt8 = 108 from rfl,
    show 'h'.toUInt8 = 104 from rfl]

theorem scanModifier_of_not {c : UInt8} (hc : isModifier c = false) :
    scanModifier args c p = (convert args c p).reset := by
  have hcases : c ≠ 'F'.toUInt8 ∧ c ≠ 'N'.toUInt8 ∧ c ≠ 'l'.toUInt8 ∧
      c ≠ 'h'.toUInt8 := by
    simpa [isModifier, and_assoc] using hc
  simp [scanModifier, hcases]

theorem ne_zero_of_isModifier {c : UInt8} (hc : isModifier c = true) : c ≠ 0 := by
  rintro rfl
  revert hc
  decide

theorem ne_zero_of_isDigit {c : UInt8} (hc : isDigit c = true) : c ≠ 0 := by
  rintro rfl
  revert hc
  decide

variable (args)

/-- The scan awaits a modifier or the conversion character. -/
def Awaiting (p : PrintState) (fmt : List UInt8) : Prop :=
  p.state = .modifier ∨
    p.state = .width ∧ ∀ c ∈ fmt.head?, isDigit c = false

theorem scanTurn_awaiting {c : UInt8} {fmt : List UInt8}
    (hc : c ≠ 0) (hawait : Awaiting p (c :: fmt)) :
    scanTurn args (c :: fmt, p) = .next (fmt, scanModifier args c p) := by
  unfold scanTurn
  simp only [if_neg hc]
  rcases hawait with hstate | ⟨hstate, hdigit⟩
  · rw [hstate]
  · rw [hstate]
    simp [scanWidth, hdigit c rfl]

theorem reaches_modifiers (fmt : List UInt8) (hawait : Awaiting p fmt) :
    ∃ p', Reaches (scanTurn args) (fmt, p) (fmt.dropWhile isModifier, p') ∧
      Awaiting p' (fmt.dropWhile isModifier) ∧
      p'.flags = (fmt.takeWhile isModifier).foldl Flags.modify p.flags ∧
      p'.givenWd = p.givenWd ∧ p'.out = p.out ∧ p'.used = p.used ∧
      p'.count = p.count := by
  induction fmt generalizing p with
  | nil => exact ⟨p, .refl _, hawait, rfl, rfl, rfl, rfl, rfl⟩
  | cons c fmt ih =>
      by_cases hc : isModifier c = true
      · have hturn := scanTurn_awaiting args
          (ne_zero_of_isModifier hc) hawait
        rw [scanModifier_of_isModifier hc] at hturn
        obtain ⟨p', hreach, hrest⟩ := ih
          (p := { p with state := .modifier, flags := p.flags.modify c })
          (Or.inl rfl)
        rw [List.dropWhile_cons_of_pos hc, List.takeWhile_cons_of_pos hc]
        exact ⟨p', .head hturn hreach, hrest⟩
      · rw [List.dropWhile_cons_of_neg hc, List.takeWhile_cons_of_neg hc]
        exact ⟨p, .refl _, hawait, rfl, rfl, rfl, rfl, rfl⟩

theorem reaches_digits (fmt : List UInt8) (hstate : p.state = .width) :
    ∃ p', Reaches (scanTurn args) (fmt, p) (fmt.dropWhile isDigit, p') ∧
      Awaiting p' (fmt.dropWhile isDigit) ∧ p'.flags = p.flags ∧
      p'.givenWd = widthOf p.givenWd (fmt.takeWhile isDigit) ∧
      p'.out = p.out ∧ p'.used = p.used ∧ p'.count = p.count := by
  induction fmt generalizing p with
  | nil =>
      exact ⟨p, .refl _, Or.inr ⟨hstate, by simp⟩, rfl, rfl, rfl, rfl, rfl⟩
  | cons c fmt ih =>
      by_cases hc : isDigit c = true
      · have hturn : scanTurn args (c :: fmt, p) = .next (fmt, { p with
            state := .width
            givenWd := (10 * p.givenWd + (c.toNat - '0'.toNat)) % 2 ^ 32 }) := by
          unfold scanTurn
          simp only [if_neg (ne_zero_of_isDigit hc), hstate, scanWidth, if_pos hc]
        obtain ⟨p', hreach, hrest⟩ := ih (p := { p with
          state := .width
          givenWd := (10 * p.givenWd + (c.toNat - '0'.toNat)) % 2 ^ 32 }) rfl
        rw [List.dropWhile_cons_of_pos hc, List.takeWhile_cons_of_pos hc]
        exact ⟨p', .head hturn hreach, hrest⟩
      · rw [List.dropWhile_cons_of_neg hc, List.takeWhile_cons_of_neg hc]
        exact ⟨p, .refl _, Or.inr ⟨hstate, by simpa using hc⟩, rfl, rfl, rfl,
          rfl, rfl⟩

def specFlags (left zero : Bool) : Flags :=
  { Flags.none with ljfy := left, zeropad := zero }

theorem foldl_modify (mods : List UInt8) (f : Flags) :
    (mods.foldl Flags.modify f).ljfy = f.ljfy ∧
      (mods.foldl Flags.modify f).zeropad = f.zeropad ∧
      (mods.foldl Flags.modify f).num0 = f.num0 ∧
      (mods.foldl Flags.modify f).sign = f.sign ∧
      (mods.foldl Flags.modify f).caps = f.caps ∧
      (mods.foldl Flags.modify f).num32 =
        (f.num32 || mods.contains 'l'.toUInt8) ∧
      (mods.foldl Flags.modify f).num16 =
        (f.num16 || mods.contains 'h'.toUInt8) := by
  induction mods generalizing f with
  | nil => simp
  | cons c mods ih =>
      obtain ⟨hl, hz, h0, hs, hc, h32, h16⟩ := ih (f.modify c)
      rw [List.foldl_cons]
      refine ⟨hl, hz, h0, hs, hc, h32.trans ?_, h16.trans ?_⟩
      · simp only [Flags.modify, List.contains_cons, Bool.or_assoc, BEq.comm]
      · simp only [Flags.modify, List.contains_cons, Bool.or_assoc, BEq.comm]

/-- The scan is between two pieces, or at a NUL that ends the string in the
middle of a specification. -/
def Between (out : List UInt8) (used : ℕ) (fmt : List UInt8) (p : PrintState) :
    Prop :=
  p = textState out used ∨
    fmt.head? = some 0 ∧ p.out = out ∧ p.used = used ∧ p.Counted

/-- From `fmt` and `p` the scan goes through the piece and on to the rest. -/
def Resumes (out : List UInt8) (used : ℕ) (fmt : List UInt8) (p : PrintState) :
    Option (Piece × List UInt8) → Prop
  | none => Halts (scanTurn args) (fmt, p) (.error .outOfBounds)
  | some (piece, rest) => ∃ p', Reaches (scanTurn args) (fmt, p) (rest, p') ∧
      Between (out ++ piece.text (args used)) (used + piece.arity) rest p'

variable {args}

theorem Resumes.head {out : List UInt8} {used : ℕ} {fmt fmt' : List UInt8}
    {result : Option (Piece × List UInt8)}
    (hreach : Reaches (scanTurn args) (fmt, p) (fmt', p'))
    (hresumes : Resumes args out used fmt' p' result) :
    Resumes args out used fmt p result := by
  cases result with
  | none => exact hreach.halts_iff.mpr hresumes
  | some result =>
      obtain ⟨piece, rest⟩ := result
      obtain ⟨q, hreach', hbetween⟩ := hresumes
      exact ⟨q, hreach.trans hreach', hbetween⟩

variable (args)

theorem convert_reset {left zero : Bool} {width : ℕ} (mods : List UInt8)
    (hcount : p.Counted)
    (hflags : p.flags = mods.foldl Flags.modify (specFlags left zero))
    (hwd : p.givenWd = width) (c : UInt8) (fmt : List UInt8) :
    (convert args c p).reset = textState
        (p.out ++ (parseConv left zero width mods c fmt).1.text (args p.used))
        (p.used + (parseConv left zero width mods c fmt).1.arity) ∧
      (parseConv left zero width mods c fmt).2 = fmt := by
  obtain ⟨hl, hz, h0, hs, hc, h32, h16⟩ :=
    foldl_modify mods (specFlags left zero)
  rw [← hflags] at hl hz h0 hs hc h32 h16
  unfold parseConv
  cases hconv : convOf c with
  | none =>
      rw [convert_of_convOf_none hconv, Counted.reset hcount]
      simp [Piece.text, Piece.arity]
  | some conv =>
      have hmatch : Matches (modified left zero width mods conv) p :=
        ⟨hl, hz, h32, h16, h0, hwd⟩
      have h : Converted p (convert args c p) _ :=
        convert_text hcount hmatch hs hc hconv
      rw [Counted.reset h.counted, h.out, h.used]
      exact ⟨rfl, rfl⟩

theorem resumes_tail {left zero : Bool} {width : ℕ} {fmt : List UInt8}
    (mods : List UInt8)
    (hcount : p.Counted)
    (hflags : p.flags = mods.foldl Flags.modify (specFlags left zero))
    (hwd : p.givenWd = width) (hawait : Awaiting p fmt) :
    Resumes args p.out p.used fmt p (parseTail left zero width mods fmt) := by
  obtain ⟨p', hreach, hawait', hflags', hwd', hout, hused, hcount'⟩ :=
    reaches_modifiers args fmt hawait
  have hhead := List.head?_dropWhile_not isModifier fmt
  rw [PrintState.Counted, ← hcount', ← hout] at hcount
  rw [hflags, ← List.foldl_append] at hflags'
  rw [hwd] at hwd'
  unfold parseTail
  cases hrest : fmt.dropWhile isModifier with
  | nil =>
      rw [hrest] at hreach
      exact hreach.halts_iff.mpr (.of_stop rfl)
  | cons c rest =>
      rw [hrest] at hreach hawait' hhead
      dsimp only
      by_cases hc : c = 0
      · rw [if_pos hc]
        refine ⟨p', hreach, Or.inr ⟨by rw [hc]; rfl, ?_, hused, hcount⟩⟩
        rw [hout]
        exact (List.append_nil _).symm
      · rw [if_neg hc]
        have hturn := scanTurn_awaiting args hc hawait'
        rw [scanModifier_of_not hhead] at hturn
        have hconv := convert_reset args _ hcount hflags' hwd' c rest
        generalize parseConv left zero width (mods ++ fmt.takeWhile isModifier)
          c rest = result at hconv ⊢
        obtain ⟨piece, rest'⟩ := result
        obtain ⟨hreset, rfl⟩ := hconv
        rw [hreset, hout, hused] at hturn
        exact ⟨_, hreach.trans (.head hturn (.refl _)), Or.inl rfl⟩

/-- What the turn that looks at the character `c` in the place of the width
leads to. -/
theorem resumes_width {left zero : Bool} (hcount : p.Counted)
    (hflags : p.flags = specFlags left zero) (hwd : p.givenWd = 0) (c : UInt8)
    (fmt : List UInt8) :
    Resumes args p.out p.used fmt (scanWidth args c p)
      (parseWidth left zero (c :: fmt)) := by
  rw [scanWidth, parseWidth]
  by_cases hdigit : isDigit c = true
  · rw [if_pos hdigit, if_pos hdigit]
    obtain ⟨p', hreach, hawait, hflags', hwd', hout, hused, hcount'⟩ :=
      reaches_digits args (p := { p with
        state := .width
        givenWd := (10 * p.givenWd + (c.toNat - '0'.toNat)) % 2 ^ 32 }) fmt rfl
    rw [hwd] at hwd'
    have htail := resumes_tail args (p := p') []
      (by rw [PrintState.Counted, hcount', hout]; exact hcount)
      (hflags'.trans hflags) hwd' hawait
    rw [hout, hused] at htail
    exact .head hreach htail
  · rw [if_neg hdigit, if_neg hdigit]
    by_cases hmod : isModifier c = true
    · rw [if_pos hmod, scanModifier_of_isModifier hmod]
      exact resumes_tail args (p := { p with
        state := .modifier
        flags := p.flags.modify c }) [c] hcount
        (by rw [hflags]; rfl) hwd (Or.inl rfl)
    · rw [if_neg hmod, scanModifier_of_not (Bool.not_eq_true _ ▸ hmod)]
      have hconv := convert_reset args [] hcount hflags hwd c fmt
      generalize parseConv left zero 0 [] c fmt = result at hconv ⊢
      obtain ⟨piece, rest⟩ := result
      obtain ⟨hreset, rfl⟩ := hconv
      exact ⟨_, .refl _, Or.inl hreset⟩

/-- `Resumes` for a turn that is taken. -/
def TurnResumes (out : List UInt8) (used : ℕ) (turn : ScanTurn)
    (result : Option (Piece × List UInt8)) : Prop :=
  match turn with
  | .next s => Resumes args out used s.1 s.2 result
  | .stop r => r = .error .outOfBounds ∧ result = none

theorem TurnResumes.resumes {out : List UInt8} {used : ℕ} {fmt : List UInt8}
    {turn : ScanTurn} {result : Option (Piece × List UInt8)}
    (hturn : scanTurn args (fmt, p) = turn)
    (hresumes : TurnResumes args out used turn result) :
    Resumes args out used fmt p result := by
  cases turn with
  | next s => exact Resumes.head (.head hturn (.refl _)) hresumes
  | stop r =>
      obtain ⟨rfl, rfl⟩ := hresumes
      exact Halts.of_stop hturn

theorem scanFlag_percent (fmt : List UInt8) (p : PrintState) :
    scanFlag args '%'.toUInt8 fmt p =
      .next (fmt, (p.put '%'.toUInt8).reset) := rfl

theorem scanFlag_minus (fmt : List UInt8) (p : PrintState) :
    scanFlag args '-'.toUInt8 fmt p =
      if p.flags.ljfy then .next (fmt, p.reset)
      else .next (fmt,
        { p with state := .flag, flags := { p.flags with ljfy := true } }) :=
  rfl

theorem turnResumes_zero {left : Bool} (hcount : p.Counted)
    (hflags : p.flags = specFlags left false) (hwd : p.givenWd = 0)
    {c : UInt8} (hpercent : c ≠ '%'.toUInt8) (hminus : c ≠ '-'.toUInt8)
    (fmt : List UInt8) :
    TurnResumes args p.out p.used (scanFlag args c fmt p)
      (parseZero left (c :: fmt)) := by
  rw [parseZero]
  by_cases hzero : c = '0'.toUInt8
  · subst hzero
    cases fmt with
    | nil => exact ⟨rfl, rfl⟩
    | cons c' fmt' =>
        exact resumes_width args (p := { p with
          flags := { p.flags with zeropad := true } }) hcount
          (by rw [hflags]; rfl) hwd c' fmt'
  · have hturn : scanFlag args c fmt p = .next (fmt, scanWidth args c p) := by
      unfold scanFlag
      rw [if_neg hpercent, if_neg hminus, if_neg hzero]
    rw [if_neg hzero, hturn]
    exact resumes_width args hcount hflags hwd c fmt

theorem resumes_left {fmt : List UInt8} (hcount : p.Counted)
    (hstate : p.state = .flag) (hflags : p.flags = specFlags true false)
    (hwd : p.givenWd = 0) :
    Resumes args p.out p.used fmt p (parseLeft fmt) := by
  cases fmt with
  | nil => exact Halts.of_stop rfl
  | cons c fmt =>
      rw [parseLeft]
      by_cases hc : c = 0
      · rw [if_pos hc, hc]
        exact ⟨p, .refl _, Or.inr ⟨rfl, (List.append_nil _).symm, rfl, hcount⟩⟩
      rw [if_neg hc]
      have hturn : scanTurn args (c :: fmt, p) = scanFlag args c fmt p := by
        unfold scanTurn
        simp only [if_neg hc, hstate]
      apply TurnResumes.resumes args hturn
      by_cases hpercent : c = '%'.toUInt8
      · rw [if_pos hpercent, hpercent, scanFlag_percent]
        refine ⟨_, .refl _, Or.inl ?_⟩
        exact Counted.reset (appended_put hcount _ _).counted
      rw [if_neg hpercent]
      by_cases hminus : c = '-'.toUInt8
      · rw [if_pos hminus, hminus, scanFlag_minus, hflags]
        refine ⟨_, .refl _, Or.inl ?_⟩
        rw [Counted.reset hcount]
        exact congrArg (textState · _) (List.append_nil _).symm
      · rw [if_neg hminus]
        exact turnResumes_zero args hcount hflags hwd hpercent hminus fmt

theorem resumes_spec (out : List UInt8) (used : ℕ) (fmt : List UInt8) :
    Resumes args out used ('%'.toUInt8 :: fmt) (textState out used)
      (parseSpec fmt) := by
  have hcount : (textState out used).Counted := rfl
  cases fmt with
  | nil => exact Halts.of_stop rfl
  | cons c fmt =>
      have hturn : scanTurn args ('%'.toUInt8 :: c :: fmt, textState out used) =
          scanFlag args c fmt (textState out used) := rfl
      apply TurnResumes.resumes args hturn
      rw [parseSpec]
      by_cases hpercent : c = '%'.toUInt8
      · rw [if_pos hpercent, hpercent, scanFlag_percent]
        refine ⟨_, .refl _, Or.inl ?_⟩
        exact Counted.reset (appended_put hcount _ _).counted
      rw [if_neg hpercent]
      by_cases hminus : c = '-'.toUInt8
      · rw [if_pos hminus, hminus, scanFlag_minus]
        exact resumes_left args (p := { textState out used with
          state := .flag
          flags := { Flags.none with ljfy := true } }) hcount rfl rfl rfl
      · rw [if_neg hminus]
        exact turnResumes_zero args hcount rfl rfl hpercent hminus fmt

/-! ## The scan of a format -/

/-- A specification takes bytes off the format only. -/
theorem parseTail_length {left zero : Bool} {width : ℕ} {mods fmt rest : List UInt8}
    {piece : Piece} (htail : parseTail left zero width mods fmt =
      some (piece, rest)) : rest.length ≤ fmt.length := by
  unfold parseTail at htail
  have hle : (fmt.dropWhile isModifier).length ≤ fmt.length :=
    (List.dropWhile_sublist isModifier).length_le
  cases hdrop : fmt.dropWhile isModifier with
  | nil => rw [hdrop] at htail; cases htail
  | cons c fmt' =>
      rw [hdrop, List.length_cons] at hle
      rw [hdrop] at htail
      dsimp only at htail
      split at htail
      · cases htail
        exact hle
      · rw [Option.some.injEq, parseConv] at htail
        split at htail
        all_goals
          cases htail
          omega

theorem parseWidth_length {left zero : Bool} {fmt rest : List UInt8}
    {piece : Piece} (hparse : parseWidth left zero fmt = some (piece, rest)) :
    rest.length ≤ fmt.length := by
  cases fmt with
  | nil => cases hparse
  | cons c fmt =>
      rw [parseWidth] at hparse
      have hle : (fmt.dropWhile isDigit).length ≤ fmt.length :=
        (List.dropWhile_sublist isDigit).length_le
      rw [List.length_cons]
      split at hparse
      · exact (parseTail_length hparse).trans (by omega)
      · split at hparse
        · exact (parseTail_length hparse).trans (by omega)
        · rw [Option.some.injEq, parseConv] at hparse
          split at hparse
          all_goals
            cases hparse
            omega

theorem parseZero_length {left : Bool} {fmt rest : List UInt8} {piece : Piece}
    (hparse : parseZero left fmt = some (piece, rest)) :
    rest.length ≤ fmt.length := by
  cases fmt with
  | nil => cases hparse
  | cons c fmt =>
      rw [parseZero] at hparse
      split at hparse
      · exact (parseWidth_length hparse).trans (by simp)
      · exact parseWidth_length hparse

theorem parseSpec_length {fmt rest : List UInt8} {piece : Piece}
    (hparse : parseSpec fmt = some (piece, rest)) : rest.length ≤ fmt.length := by
  cases fmt with
  | nil => cases hparse
  | cons c fmt =>
      rw [parseSpec] at hparse
      split at hparse
      · cases hparse
        simp
      · split at hparse
        · cases fmt with
          | nil => cases hparse
          | cons c' fmt =>
              rw [parseLeft] at hparse
              split at hparse
              · cases hparse
                simp
              · split at hparse
                · cases hparse
                  simp only [List.length_cons]
                  omega
                · split at hparse
                  · cases hparse
                    simp only [List.length_cons]
                    omega
                  · exact (parseZero_length hparse).trans (by simp)
        · exact parseZero_length hparse

theorem halts_parseFuel (fuel : ℕ) (fmt : List UInt8) (out : List UInt8)
    (used : ℕ) (hfuel : fmt.length < fuel) (hbetween : Between out used fmt p) :
    match parseFuel fuel fmt with
    | none => Halts (scanTurn args) (fmt, p) (.error .outOfBounds)
    | some ps => ∃ p', Halts (scanTurn args) (fmt, p) (.ok p') ∧
        p'.out = out ++ textOf args ps used ∧ p'.used = used + arityOf ps ∧
        p'.Counted := by
  induction fuel generalizing fmt out used p with
  | zero => omega
  | succ fuel ih =>
      cases fmt with
      | nil => exact Halts.of_stop rfl
      | cons c fmt =>
          rw [parseFuel]
          by_cases hzero : c = 0
          · rw [if_pos hzero]
            have hturn : scanTurn args (c :: fmt, p) = .stop (.ok p) := by
              unfold scanTurn
              simp only [if_pos hzero]
            refine ⟨p, .of_stop hturn, ?_⟩
            simp only [textOf, arityOf, List.append_nil]
            rcases hbetween with rfl | ⟨_, hout, hused, hcount⟩
            · exact ⟨rfl, rfl, rfl⟩
            · exact ⟨hout, hused, hcount⟩
          rw [if_neg hzero]
          have htext : p = textState out used := by
            rcases hbetween with h | ⟨hhead, _⟩
            · exact h
            · rw [List.head?_cons, Option.some.injEq] at hhead
              exact absurd hhead hzero
          subst htext
          by_cases hpercent : c = '%'.toUInt8
          · rw [if_pos hpercent, hpercent]
            have hspec := resumes_spec args out used fmt
            cases hparse : parseSpec fmt with
            | none =>
                rw [hparse] at hspec
                exact hspec
            | some result =>
                obtain ⟨piece, rest⟩ := result
                rw [hparse] at hspec
                obtain ⟨p', hreach, hbetween'⟩ := hspec
                have hlen := parseSpec_length hparse
                rw [List.length_cons] at hfuel
                have hrest := ih rest _ _ (by omega) hbetween'
                cases hps : parseFuel fuel rest with
                | none =>
                    rw [hps] at hrest
                    simp only [hps, Option.bind_eq_bind, Option.bind_some,
                      Option.bind_none]
                    exact hreach.halts_iff.mpr hrest
                | some ps =>
                    rw [hps] at hrest
                    obtain ⟨q, hhalts, hout, hused, hcount⟩ := hrest
                    simp only [hps, Option.bind_eq_bind, Option.bind_some]
                    refine ⟨q, hreach.halts_iff.mpr hhalts, ?_, ?_, hcount⟩
                    · rw [hout, textOf, List.append_assoc]
                    · rw [hused, Nat.add_assoc]
                      simp [arityOf]
          · rw [if_neg hpercent]
            have hput : scanTurn args (c :: fmt, textState out used) =
                .next (fmt, (textState out used).put c) := by
              unfold scanTurn
              simp only [if_neg hzero, textState, if_neg hpercent]
            have hbetween' : Between (out ++ [c]) used fmt
                ((textState out used).put c) := by
              have hcount := (appended_put (p := textState out used) rfl c
                0).counted
              exact Or.inl (Counted.reset hcount)
            rw [List.length_cons] at hfuel
            have hrest := ih fmt _ _ (by omega) hbetween'
            cases hps : parseFuel fuel fmt with
            | none =>
                rw [hps] at hrest
                simp only [Option.bind_eq_bind, Option.bind_none]
                exact .of_next hput hrest
            | some ps =>
                rw [hps] at hrest
                obtain ⟨q, hhalts, hout, hused, hcount⟩ := hrest
                simp only [Option.bind_eq_bind, Option.bind_some]
                refine ⟨q, .of_next hput hhalts, ?_, ?_, hcount⟩
                · rw [hout, textOf, List.append_assoc]
                  rfl
                · rw [hused]
                  simp [arityOf, Piece.arity]

theorem scanFlag_shortens {c : UInt8} {fmt : List UInt8} {s : List UInt8 × PrintState}
    (hturn : scanFlag args c fmt p = .next s) : s.1.length ≤ fmt.length := by
  unfold scanFlag at hturn
  split at hturn
  · cases hturn
    exact le_rfl
  split at hturn
  · split at hturn
    all_goals
      cases hturn
      exact le_rfl
  split at hturn
  · split at hturn
    · cases hturn
    · cases hturn
      simp
  · cases hturn
    exact le_rfl

theorem scanTurn_shortens (s s' : List UInt8 × PrintState)
    (hturn : scanTurn args s = .next s') : s'.1.length < s.1.length := by
  obtain ⟨fmt, q⟩ := s
  cases fmt with
  | nil => cases hturn
  | cons c fmt =>
      rw [List.length_cons, Nat.lt_succ_iff]
      unfold scanTurn at hturn
      dsimp only at hturn
      split at hturn
      · cases hturn
      split at hturn
      · split at hturn
        · split at hturn
          · cases hturn
          · exact (scanFlag_shortens args hturn).trans (by simp)
        · cases hturn
          exact le_rfl
      · exact scanFlag_shortens args hturn
      · cases hturn
        exact le_rfl
      · cases hturn
        exact le_rfl

/-- `vsnprintf` prints the text of the pieces of the format, and returns its
length. -/
theorem vsnprintf_eq (size : ℕ) (fmt : List UInt8) :
    vsnprintf size fmt args =
      match parse fmt with
      | none => .error .outOfBounds
      | some ps => .ok
          { out := textOf args ps 0
            ret := toInt32 ((textOf args ps 0).length % 2 ^ 32)
            used := arityOf ps } := by
  have hrun := halts_parseFuel args (p := textState [] 0) (fmt.length + 1) fmt
    [] 0 (by omega) (Or.inl rfl)
  have hfuel : ∀ r, Halts (scanTurn args) (fmt, startState) r →
      runFuel (scanTurn args) (fmt.length + 1) (fmt, startState) = some r :=
    fun r hhalts => hhalts.runFuel_of_measure (fun s => s.1.length)
      (scanTurn_shortens args) _ (by simp)
  unfold vsnprintf parse
  cases hparse : parseFuel (fmt.length + 1) fmt with
  | none =>
      rw [hparse] at hrun
      rw [hfuel _ hrun]
      rfl
  | some ps =>
      rw [hparse] at hrun
      obtain ⟨q, hhalts, hout, hused, hcount⟩ := hrun
      rw [hfuel _ hhalts]
      rw [PrintState.Counted, hout] at hcount
      simp only [List.nil_append] at hout hcount
      rw [Nat.zero_add] at hused
      simp [bind, Except.bind, pure, Except.pure, hout, hused, hcount]

end Printf
end Janus86
