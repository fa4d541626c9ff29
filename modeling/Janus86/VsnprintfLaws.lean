import Janus86.VsnprintfRefinement

/-!
# Concatenation and bounds

A format that is written as a sequence of literals, `%%` and complete
directives is parsed into these, so `vsnprintf` prints what they print one
at a time.  How much it stores is decided by the format and the arguments
alone: the size of the buffer plays no part in it.
-/

namespace Janus86
namespace Printf

/-! ## Formats written from items -/

/-- A complete directive as it is written. -/
structure DirectiveSyntax where
  left : Bool
  zero : Bool
  digits : List UInt8
  mods : List UInt8
  conv : UInt8
  digits_form : ∀ c ∈ digits, isDigit c = true
  mods_form : ∀ c ∈ mods, isModifier c = true
  conv_form : (convOf conv).isSome = true

inductive Item where
  | literal (c : UInt8) (ne_zero : c ≠ 0) (ne_percent : c ≠ '%'.toUInt8)
  | percent
  | directive (d : DirectiveSyntax)

/-- What follows the flags. -/
def DirectiveSyntax.tail (d : DirectiveSyntax) (fmt : List UInt8) : List UInt8 :=
  d.digits ++ (d.mods ++ d.conv :: fmt)

/-- What follows `-`. -/
def DirectiveSyntax.afterLeft (d : DirectiveSyntax) (fmt : List UInt8) :
    List UInt8 :=
  if d.zero then '0'.toUInt8 :: d.tail fmt else d.tail fmt

def DirectiveSyntax.afterPercent (d : DirectiveSyntax) (fmt : List UInt8) :
    List UInt8 :=
  if d.left then '-'.toUInt8 :: d.afterLeft fmt else d.afterLeft fmt

/-- An item written in front of a format. -/
def Item.write : Item → List UInt8 → List UInt8
  | .literal c _ _, fmt => c :: fmt
  | .percent, fmt => '%'.toUInt8 :: '%'.toUInt8 :: fmt
  | .directive d, fmt => '%'.toUInt8 :: d.afterPercent fmt

def Item.text (item : Item) : List UInt8 := item.write []

def Item.arity : Item → ℕ
  | .directive _ => 1
  | _ => 0

theorem DirectiveSyntax.tail_append (d : DirectiveSyntax) (fmt : List UInt8) :
    d.tail [] ++ fmt = d.tail fmt := by
  simp [DirectiveSyntax.tail]

theorem Item.text_append (item : Item) (fmt : List UInt8) :
    item.text ++ fmt = item.write fmt := by
  cases item with
  | literal c _ _ => rfl
  | percent => rfl
  | directive d =>
      simp only [Item.text, Item.write, DirectiveSyntax.afterPercent,
        DirectiveSyntax.afterLeft, List.cons_append, List.cons.injEq, true_and]
      cases d.left <;> cases d.zero <;> simp [← d.tail_append fmt]

theorem convOf_isSome {c : UInt8} (hconv : (convOf c).isSome = true) :
    isDigit c = false ∧ isModifier c = false ∧ c ≠ 0 ∧ c ≠ '%'.toUInt8 ∧
      c ≠ '-'.toUInt8 := by
  have hcases : c = 'X'.toUInt8 ∨ c = 'x'.toUInt8 ∨ c = 'p'.toUInt8 ∨
      c = 'n'.toUInt8 ∨ c = 'd'.toUInt8 ∨ c = 'i'.toUInt8 ∨ c = 'u'.toUInt8 ∨
      c = 'o'.toUInt8 ∨ c = 'c'.toUInt8 ∨ c = 's'.toUInt8 := by
    by_contra hnone
    simp only [not_or] at hnone
    simp [convOf, hnone] at hconv
  rcases hcases with rfl | rfl | rfl | rfl | rfl | rfl | rfl | rfl | rfl | rfl
  all_goals decide

theorem isModifier_cases {c : UInt8} (hc : isModifier c = true) :
    isDigit c = false ∧ c ≠ '%'.toUInt8 ∧ c ≠ '-'.toUInt8 := by
  have hcases : c = 'F'.toUInt8 ∨ c = 'N'.toUInt8 ∨ c = 'l'.toUInt8 ∨
      c = 'h'.toUInt8 := by
    simpa [isModifier, or_assoc] using hc
  rcases hcases with rfl | rfl | rfl | rfl
  all_goals decide

theorem isDigit_cases {c : UInt8} (hc : isDigit c = true) :
    c ≠ '%'.toUInt8 ∧ c ≠ '-'.toUInt8 := by
  constructor
  all_goals
    rintro rfl
    revert hc
    decide

namespace DirectiveSyntax

variable (d : DirectiveSyntax) (fmt : List UInt8)

theorem tail_head : ∃ c rest, d.tail fmt = c :: rest ∧ c ≠ 0 ∧
    c ≠ '%'.toUInt8 ∧ c ≠ '-'.toUInt8 := by
  unfold tail
  cases hdigits : d.digits with
  | cons c ds =>
      have hc := d.digits_form c (by simp [hdigits])
      exact ⟨c, _, rfl, ne_zero_of_isDigit hc, isDigit_cases hc⟩
  | nil =>
      cases hmods : d.mods with
      | cons c ms =>
          have hc := d.mods_form c (by simp [hmods])
          exact ⟨c, _, rfl, ne_zero_of_isModifier hc, (isModifier_cases hc).2⟩
      | nil => exact ⟨d.conv, fmt, rfl, (convOf_isSome d.conv_form).2.2⟩

/-- The conversion that the character stands for. -/
def kind : Conv := (convOf d.conv).get d.conv_form

theorem parseConv_conv (left zero : Bool) (width : ℕ) (mods : List UInt8) :
    parseConv left zero width mods d.conv fmt =
      (.directive (modified left zero width mods d.kind), fmt) := by
  have hconv : convOf d.conv = some d.kind := (Option.some_get d.conv_form).symm
  rw [parseConv, hconv]

theorem parseTail_mods (left zero : Bool) (width : ℕ) (mods ms : List UInt8)
    (hms : ∀ c ∈ ms, isModifier c = true) :
    parseTail left zero width mods (ms ++ d.conv :: fmt) =
      some (.directive (modified left zero width (mods ++ ms) d.kind), fmt) := by
  have hconv := convOf_isSome d.conv_form
  have hdrop : (ms ++ d.conv :: fmt).dropWhile isModifier = d.conv :: fmt := by
    rw [List.dropWhile_append_of_pos hms, List.dropWhile_cons_of_neg]
    simp [hconv.2.1]
  have htake : (ms ++ d.conv :: fmt).takeWhile isModifier = ms := by
    rw [List.takeWhile_append_of_pos hms, List.takeWhile_cons_of_neg]
    · exact List.append_nil ms
    · simp [hconv.2.1]
  unfold parseTail
  rw [hdrop, htake]
  dsimp only
  rw [if_neg hconv.2.2.1, parseConv_conv]

theorem span_digits (ds : List UInt8) (hds : ∀ c ∈ ds, isDigit c = true) :
    (ds ++ (d.mods ++ d.conv :: fmt)).takeWhile isDigit = ds ∧
      (ds ++ (d.mods ++ d.conv :: fmt)).dropWhile isDigit =
        d.mods ++ d.conv :: fmt := by
  have hrest : (d.mods ++ d.conv :: fmt).takeWhile isDigit = [] ∧
      (d.mods ++ d.conv :: fmt).dropWhile isDigit = d.mods ++ d.conv :: fmt := by
    cases hmods : d.mods with
    | nil => simp [(convOf_isSome d.conv_form).1]
    | cons c ms =>
        have hc := d.mods_form c (by simp [hmods])
        simp [(isModifier_cases hc).1]
  rw [List.takeWhile_append_of_pos hds, List.dropWhile_append_of_pos hds,
    hrest.1, hrest.2, List.append_nil]
  exact ⟨rfl, rfl⟩

theorem parseWidth_digits (left zero : Bool) (ds : List UInt8)
    (hds : ∀ c ∈ ds, isDigit c = true) :
    parseWidth left zero (ds ++ (d.mods ++ d.conv :: fmt)) =
      some (.directive (modified left zero (widthOf 0 ds) d.mods d.kind), fmt) := by
  cases ds with
  | cons c ds =>
      obtain ⟨htake, hdrop⟩ :=
        d.span_digits fmt ds fun c hc => hds c (by simp [hc])
      rw [List.cons_append, parseWidth, if_pos (hds c (by simp)), htake, hdrop,
        parseTail_mods _ _ _ _ _ _ _ d.mods_form, List.nil_append]
  | nil =>
      rw [List.nil_append]
      cases hmods : d.mods with
      | nil =>
          have hconv := convOf_isSome d.conv_form
          rw [List.nil_append, parseWidth, if_neg (by simp [hconv.1]),
            if_neg (by simp [hconv.2.1]), parseConv_conv]
          rfl
      | cons c ms =>
          have hc := d.mods_form c (by simp [hmods])
          rw [List.cons_append, parseWidth,
            if_neg (by simp [(isModifier_cases hc).1]), if_pos hc,
            parseTail_mods _ _ _ _ _ _ _ fun c' hc' =>
              d.mods_form c' (by simp [hmods, hc'])]
          rfl

/-- The directive meant: a width that is written with a leading zero sets the
flag `0`. -/
def meaning : Directive :=
  match d.zero, d.digits with
  | true, digits => modified d.left true (widthOf 0 digits) d.mods d.kind
  | false, [] => modified d.left false 0 d.mods d.kind
  | false, c :: digits =>
      if c = '0'.toUInt8 then
        modified d.left true (widthOf 0 digits) d.mods d.kind
      else modified d.left false (widthOf 0 (c :: digits)) d.mods d.kind

theorem parseZero_of_not_digit {c : UInt8} (left : Bool)
    (hc : isDigit c = false) :
    parseZero left (c :: fmt) = parseWidth left false (c :: fmt) := by
  rw [parseZero, if_neg]
  rintro rfl
  revert hc
  decide

theorem parseZero_afterLeft :
    parseZero d.left (d.afterLeft fmt) = some (.directive d.meaning, fmt) := by
  unfold afterLeft meaning
  cases hzero : d.zero with
  | true =>
      rw [if_pos rfl, parseZero, if_pos rfl]
      exact d.parseWidth_digits fmt d.left true d.digits d.digits_form
  | false =>
      rw [if_neg (by simp)]
      have hform := d.digits_form
      unfold tail
      cases hdigits : d.digits with
      | nil =>
          have hparse := d.parseWidth_digits fmt d.left false [] (by simp)
          rw [List.nil_append] at hparse ⊢
          rw [← show widthOf 0 [] = 0 from rfl, ← hparse]
          cases hmods : d.mods with
          | nil => exact parseZero_of_not_digit _ _ (convOf_isSome d.conv_form).1
          | cons c ms =>
              have hc := d.mods_form c (by simp [hmods])
              exact parseZero_of_not_digit _ _ (isModifier_cases hc).1
      | cons c ds =>
          rw [hdigits] at hform
          rw [List.cons_append, parseZero]
          dsimp only
          split
          · exact d.parseWidth_digits fmt d.left true ds
              fun x hx => hform x (by simp [hx])
          · exact d.parseWidth_digits fmt d.left false (c :: ds) hform

theorem afterLeft_head : ∃ c rest, d.afterLeft fmt = c :: rest ∧ c ≠ 0 ∧
    c ≠ '%'.toUInt8 ∧ c ≠ '-'.toUInt8 := by
  unfold afterLeft
  split
  · exact ⟨'0'.toUInt8, d.tail fmt, rfl, by decide, by decide, by decide⟩
  · exact d.tail_head fmt

theorem parseSpec_afterPercent :
    parseSpec (d.afterPercent fmt) = some (.directive d.meaning, fmt) := by
  have hzero := d.parseZero_afterLeft fmt
  obtain ⟨c, rest, hhead, hc, hpercent, hminus⟩ := d.afterLeft_head fmt
  unfold afterPercent
  cases hleft : d.left with
  | true =>
      rw [if_pos rfl, parseSpec, if_neg (by decide), if_pos rfl]
      rw [hleft, hhead] at hzero
      rw [hhead, parseLeft, if_neg hc, if_neg hpercent, if_neg hminus]
      exact hzero
  | false =>
      rw [if_neg (by simp)]
      rw [hleft, hhead] at hzero
      rw [hhead, parseSpec, if_neg hpercent, if_neg hminus]
      exact hzero

end DirectiveSyntax

/-! ## One piece for each item -/

def Item.piece : Item → Piece
  | .literal c _ _ => .literal c
  | .percent => .percent
  | .directive d => .directive d.meaning

theorem Item.parseFuel_write (item : Item) (fuel : ℕ) (fmt : List UInt8) :
    parseFuel (fuel + 1) (item.write fmt) =
      (parseFuel fuel fmt).map (item.piece :: ·) := by
  cases item with
  | literal c hzero hpercent =>
      rw [Item.write, parseFuel, if_neg hzero, if_neg hpercent]
      cases parseFuel fuel fmt <;> rfl
  | percent =>
      rw [Item.write, parseFuel, if_neg (by decide), if_pos rfl, parseSpec,
        if_pos rfl]
      cases hrest : parseFuel fuel fmt <;> simp [hrest, Item.piece]
  | directive d =>
      rw [Item.write, parseFuel, if_neg (by decide), if_pos rfl,
        d.parseSpec_afterPercent]
      cases hrest : parseFuel fuel fmt <;> simp [hrest, Item.piece]

theorem Item.text_length_pos (item : Item) : 0 < item.text.length := by
  cases item with
  | literal c _ _ => simp [Item.text, Item.write]
  | percent => simp [Item.text, Item.write]
  | directive d => simp [Item.text, Item.write]

theorem parseFuel_items (items : List Item) (fuel : ℕ) (rest : List UInt8)
    (hfuel : (items.flatMap Item.text).length < fuel) :
    parseFuel fuel (items.flatMap Item.text ++ 0 :: rest) =
      some (items.map Item.piece) := by
  induction items generalizing fuel with
  | nil =>
      obtain ⟨fuel, rfl⟩ : ∃ k, fuel = k + 1 := ⟨fuel - 1, by omega⟩
      simp [parseFuel]
  | cons item items ih =>
      obtain ⟨fuel, rfl⟩ : ∃ k, fuel = k + 1 := ⟨fuel - 1, by omega⟩
      have hpos := item.text_length_pos
      rw [List.flatMap_cons, List.length_append] at hfuel
      rw [List.flatMap_cons, List.append_assoc, Item.text_append,
        Item.parseFuel_write, ih fuel (by omega)]
      rfl

theorem parse_items (items : List Item) (rest : List UInt8) :
    parse (items.flatMap Item.text ++ 0 :: rest) =
      some (items.map Item.piece) := by
  apply parseFuel_items
  simp only [List.length_append]
  omega

theorem Item.arity_piece (item : Item) : item.piece.arity = item.arity := by
  cases item <;> rfl

theorem vsnprintf_item (size : ℕ) (args : ℕ → Arg) (item : Item) :
    ∃ r, vsnprintf size (item.text ++ [0]) args = .ok r ∧
      r.used = item.arity ∧ r.out = item.piece.text (args 0) := by
  have hparse : parse (item.text ++ [0]) = some [item.piece] := by
    have h := parse_items [item] []
    rwa [List.flatMap_singleton] at h
  have hrun := vsnprintf_eq args size (item.text ++ [0])
  rw [hparse] at hrun
  refine ⟨_, hrun, ?_, ?_⟩
  · simp [arityOf, item.arity_piece]
  · simp [textOf]

/-- The calls that format the items one at a time, each with the arguments
that begin with its own. -/
def oneByOne (size : ℕ) (args : ℕ → Arg) :
    List Item → ℕ → List (Except Fault Printed)
  | [], _ => []
  | item :: items, used =>
      vsnprintf size (item.text ++ [0]) (fun i => args (used + i)) ::
        oneByOne size args items (used + item.arity)

theorem oneByOne_eq (size : ℕ) (args : ℕ → Arg) (items : List Item) (used : ℕ) :
    ∃ rs : List Printed, oneByOne size args items used = rs.map .ok ∧
      rs.map Printed.used = items.map Item.arity ∧
      rs.flatMap Printed.out = textOf args (items.map Item.piece) used := by
  induction items generalizing used with
  | nil => exact ⟨[], rfl, rfl, rfl⟩
  | cons item items ih =>
      obtain ⟨rs, hruns, hused, hout⟩ := ih (used + item.arity)
      obtain ⟨r, hrun, hused', hout'⟩ :=
        vsnprintf_item size (fun i => args (used + i)) item
      refine ⟨r :: rs, ?_, ?_, ?_⟩
      · rw [oneByOne, hrun, hruns]
        rfl
      · rw [List.map_cons, List.map_cons, hused, hused']
      · rw [List.flatMap_cons, hout, hout', List.map_cons, textOf,
          item.arity_piece]
        rfl

/-- A format of items prints what the items print one at a time, takes one
argument for each directive, and returns the length as an `int`. -/
theorem vsnprintf_items (size : ℕ) (args : ℕ → Arg) (items : List Item)
    (rest : List UInt8) :
    ∃ (rs : List Printed) (r : Printed),
      oneByOne size args items 0 = rs.map .ok ∧
      rs.map Printed.used = items.map Item.arity ∧
      vsnprintf size (items.flatMap Item.text ++ 0 :: rest) args = .ok r ∧
      r.out = rs.flatMap Printed.out ∧
      r.used = (items.map Item.arity).sum ∧
      r.ret = (r.out.length : ℤ).bmod (2 ^ 32) := by
  obtain ⟨rs, hruns, hused, hout⟩ := oneByOne_eq size args items 0
  have hrun := vsnprintf_eq args size (items.flatMap Item.text ++ 0 :: rest)
  rw [parse_items] at hrun
  have harity : arityOf (items.map Item.piece) =
      (items.map Item.arity).sum := by
    rw [arityOf, List.map_map]
    exact congrArg _ (List.map_congr_left fun item _ => Item.arity_piece item)
  have hret := toInt32_mod (textOf args (items.map Item.piece) 0).length
  refine ⟨rs, _, hruns, hused, hrun, hout.symm, harity, ?_⟩
  dsimp only
  rw [hret]

/-! ## Bounds -/

/-- The call stores into `n` bytes from `str` on only, a NUL among them. -/
def StaysWithin (str n : ℕ) (call : Except Fault Printed) : Prop :=
  ∃ r, call = .ok r ∧ (∀ s ∈ r.stores str, str ≤ s.1 ∧ s.1 < str + n) ∧
    ∃ s ∈ r.stores str, s.2 = 0

/-- The format ends, and its pieces print fewer than `n` bytes. -/
def FitsIn (n : ℕ) (fmt : List UInt8) (args : ℕ → Arg) : Prop :=
  ∃ ps, parse fmt = some ps ∧ lengthOf args ps 0 < n

theorem mem_stores_iff (str : ℕ) (r : Printed) (s : ℕ × UInt8) :
    s ∈ r.stores str ↔
      ∃ i c, (r.out ++ [0])[i]? = some c ∧ s = (str + i, c) := by
  rw [Printed.stores, List.mem_mapIdx]
  constructor
  · rintro ⟨i, hi, rfl⟩
    exact ⟨i, _, List.getElem?_eq_getElem hi, rfl⟩
  · rintro ⟨i, c, hc, rfl⟩
    obtain ⟨hi, rfl⟩ := List.getElem?_eq_some_iff.mp hc
    exact ⟨i, hi, rfl⟩

theorem stores_within_iff (str n : ℕ) (r : Printed) :
    (∀ s ∈ r.stores str, str ≤ s.1 ∧ s.1 < str + n) ↔ r.out.length < n := by
  constructor
  · intro hall
    have hlast := hall (str + r.out.length, 0)
      ((mem_stores_iff str r _).mpr ⟨r.out.length, 0, by simp, rfl⟩)
    simp only at hlast
    omega
  · intro hlt s hs
    obtain ⟨i, c, hc, rfl⟩ := (mem_stores_iff str r s).mp hs
    obtain ⟨hi, _⟩ := List.getElem?_eq_some_iff.mp hc
    simp only [List.length_append, List.length_singleton] at hi
    simp only
    omega

theorem fitsIn_of_staysWithin {str n size : ℕ} {fmt : List UInt8}
    {args : ℕ → Arg} (hstays : StaysWithin str n (vsnprintf size fmt args)) :
    FitsIn n fmt args := by
  obtain ⟨r, hrun, hstores, _⟩ := hstays
  rw [vsnprintf_eq] at hrun
  cases hparse : parse fmt with
  | none =>
      rw [hparse] at hrun
      cases hrun
  | some ps =>
      rw [hparse, Except.ok.injEq] at hrun
      rw [stores_within_iff, ← hrun, length_textOf] at hstores
      exact ⟨ps, hparse, hstores⟩

theorem staysWithin_of_fitsIn {n : ℕ} {fmt : List UInt8} {args : ℕ → Arg}
    (str size : ℕ) (hfits : FitsIn n fmt args) :
    StaysWithin str n (vsnprintf size fmt args) := by
  obtain ⟨ps, hparse, hlt⟩ := hfits
  have hrun := vsnprintf_eq args size fmt
  rw [hparse] at hrun
  refine ⟨_, hrun, ?_, ?_⟩
  · rw [stores_within_iff, length_textOf]
    exact hlt
  · exact ⟨_, (mem_stores_iff _ _ _).mpr ⟨_, 0, List.getElem?_concat_length, rfl⟩,
      rfl⟩

/-- The buffer is large enough exactly when the pieces of the format print
less than its size; so is the buffer of `kprintf`. -/
theorem vsnprintf_staysWithin_iff (str n buffer : ℕ) (fmt : List UInt8)
    (args : ℕ → Arg) :
    (StaysWithin str n (vsnprintf n fmt args) ↔ FitsIn n fmt args) ∧
    (StaysWithin buffer bufferSize (kprintf fmt args) ↔
      FitsIn bufferSize fmt args) :=
  ⟨⟨fitsIn_of_staysWithin, staysWithin_of_fitsIn str n⟩,
    ⟨fitsIn_of_staysWithin, staysWithin_of_fitsIn buffer bufferSize⟩⟩

/-- `%100u` fills the buffer of `kprintf` and puts the NUL behind it. -/
theorem kprintf_width_overflow :
    ¬ StaysWithin 0 bufferSize
      (kprintf [37, 49, 48, 48, 117, 0] fun _ => ⟨7, []⟩) := by
  intro hstays
  obtain ⟨ps, hparse, hlt⟩ := fitsIn_of_staysWithin hstays
  have hps : parse [37, 49, 48, 48, 117, 0] =
      some [.directive ⟨false, false, 100, false, false, .unsigned⟩] := by
    decide
  rw [hps, Option.some.injEq] at hparse
  rw [← hparse] at hlt
  revert hlt
  decide

end Printf
end Janus86
