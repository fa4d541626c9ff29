import Janus86.AtoiModel

/-!
# The numbers that atoi reads

The decimal branch reads the number in front.  The branch behind `0x` reads it
when the last eight characters count for its digits: a character that is no
digit counts for the nearest digit behind it, and when there is none for what
the stack holds.
-/

namespace Janus86
namespace Atoi

open Printf

/-! ## Digits -/

theorem valueOf_eq_ofDigits (base : ℕ) (ds : List ℕ) :
    valueOf base ds = Nat.ofDigits base ds.reverse := by
  induction ds using List.reverseRecOn with
  | nil => rfl
  | append_singleton ds d ih =>
      rw [valueOf_append_one, ih, List.reverse_append, List.reverse_singleton,
        List.singleton_append, Nat.ofDigits_cons]
      exact Nat.add_comm _ _

theorem ofDigits_getD (base : ℕ) (ds : List ℕ) :
    Nat.ofDigits base ds = ds.getD 0 0 + base * Nat.ofDigits base ds.tail := by
  cases ds with
  | nil => simp
  | cons d ds => simp [Nat.ofDigits_cons]

/-- Two numbers agree in their last `k` places exactly when their digits do. -/
theorem ofDigits_mod_eq_iff {base : ℕ} {ds ds' : List ℕ} (k : ℕ)
    (hds : ∀ d ∈ ds, d < base) (hds' : ∀ d ∈ ds', d < base) (hbase : 0 < base) :
    Nat.ofDigits base ds % base ^ k = Nat.ofDigits base ds' % base ^ k ↔
      ∀ i < k, ds.getD i 0 = ds'.getD i 0 := by
  induction k generalizing ds ds' with
  | zero => simp [Nat.mod_one]
  | succ k ih =>
      have hfirst : ∀ es : List ℕ, (∀ d ∈ es, d < base) → es.getD 0 0 < base := by
        intro es hes
        cases es with
        | nil => exact hbase
        | cons d es => exact hes d (by simp)
      have hsplit : ∀ es : List ℕ, (∀ d ∈ es, d < base) →
          Nat.ofDigits base es % base ^ (k + 1) =
            es.getD 0 0 + base * (Nat.ofDigits base es.tail % base ^ k) := by
        intro es hes
        rw [ofDigits_getD, pow_succ, Nat.mul_comm (base ^ k), Nat.mod_mul,
          Nat.add_mul_mod_self_left, Nat.mod_eq_of_lt (hfirst es hes),
          Nat.add_mul_div_left _ _ hbase, Nat.div_eq_of_lt (hfirst es hes),
          Nat.zero_add]
      have hdigit : ∀ {a a' b b' : ℕ}, a < base → a' < base →
          (a + base * b = a' + base * b' ↔ a = a' ∧ b = b') := by
        intro a a' b b' ha ha'
        constructor
        · intro heq
          have hmod := congrArg (· % base) heq
          have hdiv := congrArg (· / base) heq
          simp only [Nat.add_mul_mod_self_left, Nat.mod_eq_of_lt ha,
            Nat.mod_eq_of_lt ha'] at hmod
          simp only [Nat.add_mul_div_left _ _ hbase, Nat.div_eq_of_lt ha,
            Nat.div_eq_of_lt ha', Nat.zero_add] at hdiv
          exact ⟨hmod, hdiv⟩
        · rintro ⟨rfl, rfl⟩
          rfl
      have hrest := ih (fun d hd => hds d (List.mem_of_mem_tail hd))
        (fun d hd => hds' d (List.mem_of_mem_tail hd))
      have htail : ∀ (es : List ℕ) (i : ℕ), es.getD (i + 1) 0 = es.tail.getD i 0 := by
        intro es i
        cases es <;> simp
      rw [hsplit ds hds, hsplit ds' hds', hdigit (hfirst ds hds) (hfirst ds' hds'),
        hrest, Nat.forall_lt_succ_left]
      simp only [htail]

theorem power_eq (a b : ℕ) : power a b % 2 ^ 32 = a ^ b % 2 ^ 32 := by
  induction b with
  | zero => rfl
  | succ b ih =>
      rw [power, Nat.mod_mod, Nat.mul_mod, ih, ← Nat.mul_mod, ← pow_succ]

/-! ## The decimal branch -/

theorem foldl_decTurn {cs : List UInt8} (hcs : ∀ c ∈ cs, isDigit c = true)
    (r : ℕ) : cs.foldl decTurn (r % 2 ^ 32) =
      (cs.map digitVal).foldl (fun n d => 10 * n + d) r % 2 ^ 32 := by
  induction cs generalizing r with
  | nil => rfl
  | cons c cs ih =>
      have hval : digitVal c = c.toNat - '0'.toNat := if_pos (hcs c (by simp))
      have hstep : decTurn (r % 2 ^ 32) c = (10 * r + digitVal c) % 2 ^ 32 := by
        rw [decTurn, hval]
        omega
      rw [List.foldl_cons, hstep, List.map_cons, List.foldl_cons]
      exact ih (fun c' hc' => hcs c' (List.mem_cons_of_mem c hc')) _

theorem atoi_decimal {s : List UInt8} (hdec : behindHex s = none) (val : ℕ) :
    atoi s val = leadingNumber s % 2 ^ 32 := by
  rw [atoi, leadingNumber, hdec, Option.elim_none, Option.elim_none]
  exact foldl_decTurn (fun c hc => List.mem_takeWhile_imp hc) 0

/-! ## The branch behind `0x` -/

/-- `val` after each of the characters. -/
def carried (val : ℕ) : List UInt8 → List ℕ
  | [] => []
  | c :: cs => hexVal c val :: carried (hexVal c val) cs

theorem foldl_hexTurn (cs : List UInt8) {ret : ℕ} (hret : ret < 2 ^ 32)
    (val i : ℕ) : (cs.foldl hexTurn ⟨ret, val, i⟩).ret =
      (ret + 16 ^ i * Nat.ofDigits 16 (carried val cs)) % 2 ^ 32 := by
  induction cs generalizing ret val i with
  | nil =>
      rw [carried, Nat.ofDigits_nil, Nat.mul_zero, Nat.add_zero,
        Nat.mod_eq_of_lt hret]
      rfl
  | cons c cs ih =>
      have hturn : (ret + power 16 i * hexVal c val) % 2 ^ 32 =
          (ret + 16 ^ i * hexVal c val) % 2 ^ 32 := by
        rw [Nat.add_mod, Nat.mul_mod, power_eq, ← Nat.mul_mod, ← Nat.add_mod]
      have hstep := ih (Nat.mod_lt (ret + 16 ^ i * hexVal c val) (by decide))
        (hexVal c val) (i + 1)
      rw [← hturn] at hstep
      rw [List.foldl_cons, carried, Nat.ofDigits_cons]
      refine hstep.trans ?_
      rw [hturn, Nat.mod_add_mod, pow_succ]
      congr 1
      ring

theorem atoi_hex {s hex : List UInt8} (hhex : behindHex s = some hex)
    (val : ℕ) : atoi s val =
      Nat.ofDigits 16 (carried val (hexRead hex).reverse) % 2 ^ 32 := by
  have hfold := foldl_hexTurn (hexRead hex).reverse (Nat.two_pow_pos 32) val 0
  rw [pow_zero, Nat.one_mul, Nat.zero_add] at hfold
  rw [atoi, hhex, Option.elim_some, hfold]

theorem isDigit_iff (c : UInt8) :
    isDigit c = true ↔ 48 ≤ c.toNat ∧ c.toNat ≤ 57 := by
  simp only [isDigit, Bool.and_eq_true, decide_eq_true_eq, UInt8.le_iff_toNat_le]
  rfl

theorem isUpperHex_iff (c : UInt8) :
    isUpperHex c = true ↔ 65 ≤ c.toNat ∧ c.toNat ≤ 70 := by
  simp only [isUpperHex, Bool.and_eq_true, decide_eq_true_eq,
    UInt8.le_iff_toNat_le]
  rfl

theorem isLowerHex_iff (c : UInt8) :
    isLowerHex c = true ↔ 97 ≤ c.toNat ∧ c.toNat ≤ 102 := by
  simp only [isLowerHex, Bool.and_eq_true, decide_eq_true_eq,
    UInt8.le_iff_toNat_le]
  rfl

/-- At most one of the three tests of the loop succeeds. -/
theorem hexVal_eq (c : UInt8) (val : ℕ) :
    hexVal c val = if isHexDigit c = true then digitVal c else val := by
  simp only [hexVal, isHexDigit, digitVal, Bool.or_eq_true, isDigit_iff,
    isUpperHex_iff, isLowerHex_iff]
  split_ifs <;> omega

theorem digitVal_lt {c : UInt8} (hc : isHexDigit c = true) : digitVal c < 16 := by
  simp only [isHexDigit, Bool.or_eq_true, isDigit_iff, isUpperHex_iff,
    isLowerHex_iff] at hc
  simp only [digitVal, isDigit_iff, isUpperHex_iff]
  have hcodes : '0'.toNat = 48 ∧ 'A'.toNat = 65 ∧ 'a'.toNat = 97 := ⟨rfl, rfl, rfl⟩
  split_ifs <;> omega

theorem getLastD_map_cons {a b : ℕ} (as : List ℕ) :
    (a :: as).getLastD b = as.getLastD a := by
  cases as <;> rfl

theorem carried_getD (val : ℕ) (cs : List UInt8) (i : ℕ) :
    (carried val cs).getD i 0 =
      if i < cs.length then
        (((cs.take (i + 1)).filter isHexDigit).map digitVal).getLastD val
      else 0 := by
  induction cs generalizing val i with
  | nil => simp [carried]
  | cons c cs ih =>
      rw [carried, hexVal_eq]
      cases i with
      | zero =>
          by_cases hc : isHexDigit c = true
          · simp [hc]
          · simp [hc]
      | succ i =>
          simp only [List.getD_cons_succ, ih, List.length_cons, List.take_succ_cons,
            Nat.add_lt_add_iff_right]
          by_cases hc : isHexDigit c = true
          · rw [if_pos hc, List.filter_cons_of_pos hc, List.map_cons,
              getLastD_map_cons]
          · rw [if_neg hc, List.filter_cons_of_neg hc]

theorem hexVal_lt {val : ℕ} (c : UInt8) (hval : val < 16) : hexVal c val < 16 := by
  rw [hexVal_eq]
  split
  · next hc => exact digitVal_lt hc
  · exact hval

theorem carried_lt {val : ℕ} (hval : val < 16) (cs : List UInt8) :
    ∀ d ∈ carried val cs, d < 16 := by
  induction cs generalizing val with
  | nil => simp [carried]
  | cons c cs ih =>
      have hnext := hexVal_lt c hval
      rw [carried]
      intro d hd
      rcases List.mem_cons.mp hd with rfl | hd
      · exact hnext
      · exact ih hnext d hd

/-- What the stack holds does not count when the first character read is a
digit. -/
theorem carried_congr {cs : List UInt8}
    (hhead : ∀ c ∈ cs.head?, isHexDigit c = true) (val val' : ℕ) :
    carried val cs = carried val' cs := by
  cases cs with
  | nil => rfl
  | cons c cs =>
      rw [carried, carried, hexVal_eq, hexVal_eq, if_pos (hhead c rfl),
        if_pos (hhead c rfl)]

theorem nearestDigit_eq (s : List UInt8) (i : ℕ) :
    nearestDigit s i = (carried 0 s.reverse).getD i 0 := by
  rw [carried_getD, List.length_reverse]
  rfl

theorem leadingNumber_hex {s hex : List UInt8} (hhex : behindHex s = some hex) :
    leadingNumber s = Nat.ofDigits 16
      ((hex.takeWhile isHexDigit).reverse.map digitVal) := by
  rw [leadingNumber, hhex, Option.elim_some, valueOf_eq_ofDigits,
    List.map_reverse]

/-- The last eight characters decide. -/
theorem atoi_hex_eq_iff {s hex : List UInt8} (hhex : behindHex s = some hex) :
    atoi s 0 = leadingNumber s % 2 ^ 32 ↔ ∀ i < 8, nearestDigit (hexRead hex) i =
      placeDigit (hex.takeWhile isHexDigit) i := by
  have hplaces : ∀ d ∈ (hex.takeWhile isHexDigit).reverse.map digitVal,
      d < 16 := by
    intro d hd
    obtain ⟨c, hc, rfl⟩ := List.mem_map.mp hd
    exact digitVal_lt (List.mem_takeWhile_imp (List.mem_reverse.mp hc))
  have hpow : 2 ^ 32 = 16 ^ 8 := by norm_num
  simp only [nearestDigit_eq, placeDigit]
  rw [atoi_hex hhex, leadingNumber_hex hhex, hpow, ofDigits_mod_eq_iff 8
    (carried_lt (by decide) _) hplaces (by decide)]

/-- A character in the last place that is no digit counts for what the stack
holds. -/
theorem atoi_hex_ne {s hex cs : List UInt8} {c : UInt8}
    (hhex : behindHex s = some hex) (hread : (hexRead hex).reverse = c :: cs)
    (hc : isHexDigit c ≠ true) : atoi s 0 ≠ atoi s 1 := by
  rw [atoi_hex hhex, atoi_hex hhex, hread, carried, carried, hexVal_eq, hexVal_eq,
    if_neg hc, if_neg hc, Nat.ofDigits_cons, Nat.ofDigits_cons]
  push_cast
  omega

/-- `atoi` reads the number that stands in front in the decimal branch, and
behind `0x` exactly when the characters count for its digits. -/
theorem readsNumber_iff (s : List UInt8) :
    ReadsNumber s ↔ ∀ hex, behindHex s = some hex → HexCounts hex := by
  cases hhex : behindHex s with
  | none =>
      refine iff_of_true (fun val _ => atoi_decimal hhex val) ?_
      intro hex h
      cases h
  | some hex =>
      constructor
      · intro hreads other hother
        cases hother
        refine ⟨?_, (atoi_hex_eq_iff hhex).mp (hreads 0 (by decide))⟩
        intro c hc
        rw [← List.head?_reverse] at hc
        by_contra hne
        cases hread : (hexRead hex).reverse with
        | nil =>
            rw [hread] at hc
            cases hc
        | cons c' cs =>
            rw [hread] at hc
            cases hc
            exact atoi_hex_ne hhex hread hne
              ((hreads 0 (by decide)).trans (hreads 1 (by decide)).symm)
      · intro hcounts val _
        obtain ⟨hlast, hplaces⟩ := hcounts hex rfl
        rw [← List.head?_reverse] at hlast
        rw [← (atoi_hex_eq_iff hhex).mpr hplaces, atoi_hex hhex, atoi_hex hhex,
          carried_congr hlast val 0]

/-- The number in front of `0x1g` is 1. -/
theorem hex_garbage_shifts :
    ¬ ReadsNumber ['0'.toUInt8, 'x'.toUInt8, '1'.toUInt8, 'g'.toUInt8] := by
  intro hreads
  exact absurd (hreads 0 (by decide)) (by decide)

/-! ## What vsnprintf prints -/

theorem hexRead_of_lt {hex : List UInt8} (hlen : hex.length < 2 ^ 31) :
    hexRead hex = hex := by
  rw [hexRead, Nat.mod_eq_of_lt (hlen.trans (by decide)), toInt32_of_lt hlen,
    Int.toNat_natCast, List.take_length]

theorem carried_of_digits {cs : List UInt8} (hcs : ∀ c ∈ cs, isHexDigit c = true)
    (val : ℕ) : carried val cs = cs.map digitVal := by
  induction cs generalizing val with
  | nil => rfl
  | cons c cs ih =>
      rw [carried, hexVal_eq, if_pos (hcs c (by simp)), List.map_cons,
        ih fun c' hc' => hcs c' (List.mem_cons_of_mem c hc')]

/-- Behind `0x` digits are read as long as an `int` can count them. -/
theorem hexCounts_of_digits {hex : List UInt8}
    (hhex : ∀ c ∈ hex, isHexDigit c = true) (hlen : hex.length < 2 ^ 31) :
    HexCounts hex := by
  rw [HexCounts, hexRead_of_lt hlen, List.takeWhile_eq_self_iff.mpr hhex]
  refine ⟨fun c hc => hhex c (List.mem_of_mem_getLast? hc), fun i _ => ?_⟩
  rw [nearestDigit_eq, carried_of_digits
    (fun c hc => hhex c (List.mem_reverse.mp hc)), placeDigit]

theorem digit_isHexDigit (caps : Bool) {d : ℕ} (hd : d < 16) :
    isHexDigit (digit caps d) = true ∧ digitVal (digit caps d) = d := by
  cases caps <;> interval_cases d <;> decide

theorem map_digitVal (caps : Bool) {base : ℕ} (hbase : base ≤ 16) {ds : List ℕ}
    (hds : ∀ d ∈ ds, d < base) : (ds.map (digit caps)).map digitVal = ds := by
  rw [List.map_map]
  exact (List.map_congr_left fun d hd =>
    (digit_isHexDigit caps ((hds d hd).trans_le hbase)).2).trans (List.map_id ds)

theorem atoi_hexDigits {caps : Bool} {ds : List ℕ} (hds : ∀ d ∈ ds, d < 16)
    (hlen : ds.length < 2 ^ 31) (val : UInt32) :
    atoi ('0'.toUInt8 :: 'x'.toUInt8 :: ds.map (digit caps)) val.toNat =
      valueOf 16 ds % 2 ^ 32 := by
  have hhex : ∀ c ∈ ds.map (digit caps), isHexDigit c = true := by
    intro c hc
    obtain ⟨d, hd, rfl⟩ := List.mem_map.mp hc
    exact (digit_isHexDigit caps (hds d hd)).1
  have hbehind : behindHex ('0'.toUInt8 :: 'x'.toUInt8 :: ds.map (digit caps)) =
      some (ds.map (digit caps)) := rfl
  have hread : hexRead (ds.map (digit caps)) = ds.map (digit caps) :=
    hexRead_of_lt (by rw [List.length_map]; exact hlen)
  rw [atoi_hex hbehind, hread,
    carried_of_digits fun c hc => hhex c (List.mem_reverse.mp hc),
    List.map_reverse, map_digitVal caps le_rfl hds, valueOf_eq_ofDigits]

/-- A decimal number is not taken for one behind `0x`. -/
theorem behindHex_digits {n : ℕ} {ds : List ℕ} (hds : IsDigits 10 n ds) :
    behindHex (ds.map (digit false)) = none := by
  match ds, hds with
  | [], _ => rfl
  | [_], _ => rfl
  | d :: d' :: ds, hds =>
      refine if_neg ?_
      rintro ⟨hzero, _⟩
      have hd := (digit_isHexDigit false ((hds.lt d (by simp)).trans (by decide))).2
      rw [hzero] at hd
      have hminimal := hds.minimal (congrArg some hd.symm)
      cases hminimal

theorem atoi_numeral (n : ℕ) (val : UInt32) :
    atoi (numeral false 10 n) val.toNat = n % 2 ^ 32 := by
  obtain ⟨ds, htext, hds⟩ := numeral_isDigits false (show 2 ≤ 10 by decide) n
  have hbehind := behindHex_digits hds
  have hdigits : ∀ c ∈ ds.map (digit false), isDigit c = true := by
    intro c hc
    obtain ⟨d, hd, rfl⟩ := List.mem_map.mp hc
    exact isDigit_digit (hds.lt d hd)
  rw [htext, atoi_decimal hbehind, leadingNumber, hbehind, Option.elim_none,
    List.takeWhile_eq_self_iff.mpr hdigits,
    map_digitVal false (show 10 ≤ 16 by decide) hds.lt, hds.value]

/-- The widths of a format are `int`s. -/
def Width : Type := {w : ℕ // w < 2 ^ 31}

/-- `%u`. -/
def decFormat : NumberFormat := ⟨false, false, 0, .int, .u, by decide⟩

/-- `%x` or `%X`, or the same with zeros to a width. -/
def hexFormat (caps : Bool) : Option Width → NumberFormat
  | none => ⟨false, false, 0, .int, if caps then .X else .x, by decide⟩
  | some w => ⟨false, true, w.1, .int, if caps then .X else .x, w.2⟩

theorem length_body_le (s : DigitCursor) : s.body.length ≤ prBuflen := by
  have hle := (List.takeWhile_sublist (l :=
    (List.range' s.pos (prBuflen - s.pos)).map s.buf) (· != 0)).length_le
  rw [List.length_map, List.length_range'] at hle
  exact hle.trans (Nat.sub_le _ _)

theorem hexFormat_conv (caps : Bool) (pad : Option Width) :
    (hexFormat caps pad).conv.caps = caps ∧ (hexFormat caps pad).conv.base = 16 ∧
      (hexFormat caps pad).left = false ∧
      ∀ v, (hexFormat caps pad).value v = v.toNat := by
  cases caps <;> cases pad <;> exact ⟨rfl, rfl, rfl, fun _ => rfl⟩

/-- The text of a hexadecimal number: zeros and digits. -/
theorem hexFormat_text {caps : Bool} {pad : Option Width} {v : UInt32}
    {digits out : List UInt8}
    (hrenders : (hexFormat caps pad).Renders v digits out)
    (hlen : digits.length ≤ prBuflen) :
    ∃ ds, out = ds.map (digit caps) ∧ (∀ d ∈ ds, d < 16) ∧
      valueOf 16 ds = v.toNat ∧ ds.length < 2 ^ 31 := by
  obtain ⟨hcaps, hbase, hleft, hvalue⟩ := hexFormat_conv caps pad
  obtain ⟨ds, htext, hds⟩ := hrenders.minimal
  obtain ⟨n, hout⟩ := hrenders.padded
  have hlength := hrenders.length
  have hsign : signOf (decide ((hexFormat caps pad).value v < 0)) = [] := by
    rw [hvalue]
    simp [signOf]
  rw [hcaps] at htext
  rw [hbase, hvalue, Int.natAbs_natCast] at hds
  rw [hsign, hleft, if_neg (by decide)] at hout
  rw [hsign, List.length_nil, Nat.zero_add] at hlength
  have hplaces : ds.length = digits.length := by rw [htext, List.length_map]
  simp only [prBuflen] at hlen
  cases pad with
  | none =>
      rw [if_neg (by exact Bool.false_ne_true)] at hout
      have hzero : (hexFormat caps none).width = 0 := rfl
      rw [hout, hzero] at hlength
      simp only [List.length_append, List.length_replicate, List.length_nil] at hlength
      obtain rfl : n = 0 := by omega
      refine ⟨ds, ?_, hds.lt, hds.value, by omega⟩
      rw [hout, htext]
      rfl
  | some w =>
      rw [if_pos (by rfl)] at hout
      have hdigit : '0'.toUInt8 = digit caps 0 := by cases caps <;> rfl
      have hwidth : (hexFormat caps (some w)).width < 2 ^ 31 := w.2
      refine ⟨List.replicate n 0 ++ ds, ?_, ?_, ?_, ?_⟩
      · rw [hout, htext, hdigit, List.map_append, List.map_replicate]
        rfl
      · intro d hd
        rcases List.mem_append.mp hd with hd | hd
        · rw [List.eq_of_mem_replicate hd]
          decide
        · exact hds.lt d hd
      · rw [valueOf_replicate_zero, hds.value]
      · rw [hout] at hlength
        simp only [List.length_append, List.length_replicate,
          List.length_nil] at hlength ⊢
        omega

theorem decFormat_text (a : Arg) :
    decFormat.directive.text a = numeral false 10 a.word.toNat := by
  have hvalue : decFormat.value a.word = a.word.toNat := rfl
  have hsign : signOf (decide (decFormat.value a.word < 0)) = [] := by
    rw [hvalue]
    simp [signOf]
  rw [decFormat.text_directive a, decFormat.body_eq a, hsign, hvalue,
    Int.natAbs_natCast]
  simp [field, decFormat, NumConv.caps, NumConv.base]

/-- `atoi` reads back what `vsnprintf` prints of a number. -/
theorem atoi_vsnprintf (size : ℕ) (args : ℕ → Arg) (val : UInt32) :
    (∃ r, vsnprintf size (decFormat.text ++ [0]) args = .ok r ∧
        atoi r.out val.toNat = (args 0).word.toNat) ∧
      ∀ caps pad, ∃ r,
        vsnprintf size ((hexFormat caps pad).text ++ [0]) args = .ok r ∧
          atoi ('0'.toUInt8 :: 'x'.toUInt8 :: r.out) val.toNat =
            (args 0).word.toNat := by
  have hword : (args 0).word.toNat % 2 ^ 32 = (args 0).word.toNat :=
    Nat.mod_eq_of_lt (args 0).word.toNat_lt
  constructor
  · obtain ⟨r, hrun, hout⟩ := decFormat.vsnprintf_out size args
    refine ⟨r, hrun, ?_⟩
    rw [hout, decFormat_text, atoi_numeral, hword]
  · intro caps pad
    obtain ⟨r, hrun, hout⟩ := (hexFormat caps pad).vsnprintf_out size args
    obtain ⟨s, _, hbody⟩ := (hexFormat caps pad).digits_in_buf (args 0) fun _ => 0
    have hlen := length_body_le s
    rw [hbody] at hlen
    obtain ⟨ds, htext, hlt, hvalue, hshort⟩ :=
      hexFormat_text ((hexFormat caps pad).renders (args 0)) hlen
    refine ⟨r, hrun, ?_⟩
    rw [hout, htext, atoi_hexDigits hlt hshort, hvalue, hword]

end Atoi
end Janus86
