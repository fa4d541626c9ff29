import Janus86.StepMachine
import Janus86.StringModel

/-!
# A string cut in place

The shell and both drivers cut a string in the same way.  They copy it into a
static buffer, keep in a table where its pieces begin, and store NULs over what
stands behind a piece.  They differ in how far a piece goes, in what is cleared
behind it and in the sizes of their arrays; the number of pieces is checked, and
the length of the string is not.
-/

namespace Janus86

open StepMachine ZeroTerminated

/-- `sc` and `argtable`, which keep what was left there before.  A pointer into `sc`
is an offset, and `NULL` is none. -/
structure ArgArrays where
  sc : Buffer
  argtable : ℕ → Option ℕ

structure CutState extends ArgArrays where
  args : ℕ
  ccp : ℕ

/-- `sc` has room for `len` characters and `argtable` for `num` pieces, both with one
element more.  `scan` takes `ccp` over a piece, with so many bytes left in `sc`, and
`blank` tells what becomes NULs behind it. -/
structure Cutter where
  len : ℕ
  num : ℕ
  scan : Buffer → ℕ → ℕ → Except Fault ℕ
  blank : UInt8 → Bool

/-- `ccp` over the characters that become NULs. -/
def clearWhile (blank : UInt8 → Bool) : ℕ → Buffer → ℕ → Except Fault (Buffer × ℕ)
  | 0, _, _ => .error .outOfBounds
  | left + 1, sc, ccp =>
      if blank (sc ccp) then clearWhile blank left (Function.update sc ccp 0) (ccp + 1)
      else .ok (sc, ccp)

namespace Cutter

variable (k : Cutter)

def storeArg (argtable : ℕ → Option ℕ) (i : ℕ) (p : Option ℕ) :
    Except Fault (ℕ → Option ℕ) :=
  if i < k.num + 1 then .ok (Function.update argtable i p) else .error .outOfBounds

def takePiece (s : CutState) : Except Fault CutState := do
  let argtable ← k.storeArg s.argtable s.args (some s.ccp)
  let ccp ← k.scan s.sc (k.len + 1 - s.ccp) s.ccp
  let (sc, ccp) ← clearWhile k.blank (k.len + 1 - ccp) s.sc ccp
  pure ⟨⟨sc, argtable⟩, s.args + 1, ccp⟩

/-- The result is the number of pieces; there is none when they are too many. -/
def turn (s : CutState) : Turn CutState (Except Fault (Option ℕ × ArgArrays)) :=
  if s.sc s.ccp = 0 then
    .stop do
      let argtable ← k.storeArg s.argtable s.args none
      pure (some s.args, ⟨s.sc, argtable⟩)
  else if k.num ≤ s.args then .stop (.ok (none, s.toArgArrays))
  else
    match k.takePiece s with
    | .error e => .stop (.error e)
    | .ok s => .next s

def cut (a : ArgArrays) (c : List UInt8) : Except Fault (Option ℕ × ArgArrays) := do
  let sc ← strcpy (k.len + 1) a.sc 0 c
  (runFuel k.turn (k.len + 2) ⟨⟨sc, a.argtable⟩, 0, 0⟩).getD (.error .outOfFuel)

end Cutter

/-! ## The pieces of a text -/

/-- The pieces of a text, with room for so many. -/
def pieces (take : List UInt8 → List UInt8 × List UInt8) (blank : UInt8 → Bool) :
    ℕ → List UInt8 → Option (List (List UInt8))
  | _, [] => some []
  | 0, _ :: _ => none
  | n + 1, c :: text =>
      (pieces take blank n ((take (c :: text)).2.dropWhile blank)).map
        ((take (c :: text)).1 :: ·)

/-- `scan` goes over what `take` takes of a text, for the texts that come up. -/
structure Cutter.Reads (k : Cutter) (take : List UInt8 → List UInt8 × List UInt8)
    (good : List UInt8 → Prop) : Prop where
  scan_eq : ∀ {sc : Buffer} {o left : ℕ} {text : List UInt8}, good text →
    StringAt sc o text → text.length < left →
    k.scan sc left o = .ok (o + (take text).1.length)
  append : ∀ text, (take text).1 ++ (take text).2 = text
  behind : ∀ text, ∀ c ∈ (take text).2.head?, k.blank c = true
  shortens : ∀ {text}, good text → text ≠ [] →
    ((take text).2.dropWhile k.blank).length < text.length
  good_behind : ∀ text, good ((take text).2.dropWhile k.blank)
  blank_zero : k.blank 0 = false

/-! ## One piece -/

theorem clearWhile_ok {blank : UInt8 → Bool} (hzero : blank 0 = false) {sc : Buffer}
    {o : ℕ} {text : List UInt8} (htext : StringAt sc o text) {left : ℕ}
    (hleft : text.length < left) :
    ∃ sc' o', clearWhile blank left sc o = .ok (sc', o') ∧
      o' + (text.dropWhile blank).length = o + text.length ∧
      StringAt sc' o' (text.dropWhile blank) ∧ (∀ i < o, sc' i = sc i) ∧
      ((∀ c ∈ text.head?, blank c = true) → sc' o = 0) := by
  induction text generalizing sc o left with
  | nil =>
      obtain ⟨left, rfl⟩ : ∃ n, left = n + 1 := ⟨left - 1, by omega⟩
      have hstop := stringAt_nil_iff.mp htext
      refine ⟨sc, o, ?_, rfl, htext, fun _ _ => rfl, fun _ => hstop⟩
      rw [clearWhile, hstop, hzero, if_neg Bool.false_ne_true]
  | cons c text ih =>
      rw [List.length_cons] at hleft
      obtain ⟨left, rfl⟩ : ∃ n, left = n + 1 := ⟨left - 1, by omega⟩
      obtain ⟨_, hhere, hrest⟩ := stringAt_cons_iff.mp htext
      by_cases hblank : blank c = true
      · have hrest' : StringAt (Function.update sc o 0) (o + 1) text :=
          hrest.congr fun i hle _ => Function.update_of_ne (by omega) 0 sc
        obtain ⟨sc', o', hclear, hplace, htext', hframe, _⟩ :=
          @ih (Function.update sc o 0) (o + 1) hrest' left (by omega)
        rw [List.dropWhile_cons_of_pos hblank]
        refine ⟨sc', o', ?_, ?_, htext', fun i hi => ?_, fun _ => ?_⟩
        · rw [clearWhile, hhere, if_pos hblank]
          exact hclear
        · rw [hplace, List.length_cons]
          omega
        · rw [hframe i (by omega), Function.update_of_ne (by omega)]
        · rw [hframe o (by omega), Function.update_self]
      · rw [List.dropWhile_cons_of_neg hblank]
        refine ⟨sc, o, ?_, rfl, htext, fun _ _ => rfl, fun h => absurd (h c rfl) hblank⟩
        rw [clearWhile, hhere, if_neg hblank]

/-- The strings that the pieces so far are, with their offsets in `sc`. -/
structure CutInto (len : ℕ) (a : ArgArrays) (strings : List (ℕ × List UInt8)) :
    Prop where
  pointers : ∀ i p, strings[i]? = some p → a.argtable i = some p.1
  string_at : ∀ p ∈ strings, StringAt a.sc p.1 p.2
  inside : ∀ p ∈ strings, p.1 + p.2.length ≤ len
  ordered : strings.Pairwise fun p q => p.1 + p.2.length < q.1

theorem CutInto.push {len : ℕ} {a a' : ArgArrays} {strings : List (ℕ × List UInt8)}
    {q : ℕ × List UInt8} (h : CutInto len a strings)
    (hbehind : ∀ p ∈ strings, p.1 + p.2.length < q.1)
    (htable : a'.argtable = Function.update a.argtable strings.length (some q.1))
    (hsame : ∀ i < q.1, a'.sc i = a.sc i) (hstring : StringAt a'.sc q.1 q.2)
    (hinside : q.1 + q.2.length ≤ len) : CutInto len a' (strings ++ [q]) := by
  refine ⟨fun i p hi => ?_, ?_, ?_, ?_⟩
  · rw [htable]
    by_cases hlast : i = strings.length
    · subst hlast
      rw [List.getElem?_concat_length] at hi
      rw [Function.update_self, Option.some.inj hi]
    · have hlt : i < strings.length := by
        obtain ⟨hi', _⟩ := List.getElem?_eq_some_iff.mp hi
        rw [List.length_append, List.length_singleton] at hi'
        omega
      rw [List.getElem?_append_left hlt] at hi
      rw [Function.update_of_ne hlast]
      exact h.pointers i p hi
  · intro p hp
    rcases List.mem_append.mp hp with hp | hp
    · have hlt := hbehind p hp
      exact (h.string_at p hp).congr fun i _ hle => hsame i (by omega)
    · rw [List.mem_singleton.mp hp]
      exact hstring
  · intro p hp
    rcases List.mem_append.mp hp with hp | hp
    · exact h.inside p hp
    · rw [List.mem_singleton.mp hp]
      exact hinside
  · rw [List.pairwise_append]
    refine ⟨h.ordered, List.pairwise_singleton _ _, fun p hp q' hq' => ?_⟩
    rw [List.mem_singleton.mp hq']
    exact hbehind p hp

/-- Each piece ends in front of the next one. -/
theorem CutInto.apart {len : ℕ} {a : ArgArrays} {strings : List (ℕ × List UInt8)}
    (h : CutInto len a strings) {i j : ℕ} {p q : ℕ × List UInt8} (hij : i < j)
    (hi : strings[i]? = some p) (hj : strings[j]? = some q) :
    p.1 + p.2.length < q.1 := by
  obtain ⟨hilt, rfl⟩ := List.getElem?_eq_some_iff.mp hi
  obtain ⟨hjlt, rfl⟩ := List.getElem?_eq_some_iff.mp hj
  exact List.pairwise_iff_getElem.mp h.ordered i j hilt hjlt hij

/-! ## The loop -/

/-- In front of a turn: the text that is left stands at `ccp`, behind the NUL of the
last piece. -/
structure Cutting (len : ℕ) (good : List UInt8 → Prop) (s : CutState)
    (strings : List (ℕ × List UInt8)) (text : List UInt8) : Prop
    extends CutInto len s.toArgArrays strings where
  count : strings.length = s.args
  text_at : StringAt s.sc s.ccp text
  text_inside : s.ccp + text.length ≤ len
  text_good : good text
  behind : text ≠ [] → ∀ p ∈ strings, p.1 + p.2.length < s.ccp

section Loop

variable {k : Cutter} {take : List UInt8 → List UInt8 × List UInt8}
  {good : List UInt8 → Prop} {s : CutState} {strings : List (ℕ × List UInt8)}
  {text : List UInt8}

theorem Cutter.storeArg_of_le {argtable : ℕ → Option ℕ} {i : ℕ} (hi : i ≤ k.num)
    (p : Option ℕ) : k.storeArg argtable i p = .ok (Function.update argtable i p) :=
  if_pos (Nat.lt_succ_of_le hi)

/-- The next piece is what stands at `ccp`. -/
theorem Cutting.takePiece (hreads : k.Reads take good)
    (h : Cutting k.len good s strings text) (hne : text ≠ []) (hroom : s.args < k.num) :
    ∃ s', k.takePiece s = .ok s' ∧ s'.args = s.args + 1 ∧
      Cutting k.len good s' (strings ++ [(s.ccp, (take text).1)])
        ((take text).2.dropWhile k.blank) := by
  have hinside := h.text_inside
  have happend := hreads.append text
  have hbehind := hreads.behind text
  have hgood := hreads.good_behind text
  have hscan := hreads.scan_eq h.text_good h.text_at
    (show text.length < k.len + 1 - s.ccp by omega)
  generalize (take text).1 = arg at happend hscan ⊢
  generalize (take text).2 = rest at happend hbehind hgood ⊢
  have hlength := congrArg List.length happend
  rw [List.length_append] at hlength
  have hsplit := h.text_at
  rw [← happend] at hsplit
  have hleft : rest.length < k.len + 1 - (s.ccp + arg.length) := by omega
  obtain ⟨sc', ccp', hclear, hplace, hrest, hframe, hzero⟩ :=
    clearWhile_ok hreads.blank_zero hsplit.drop hleft
  have harg : StringAt sc' s.ccp arg :=
    hsplit.cut (fun i _ hlt => hframe i hlt) (hzero hbehind)
  have hskip := List.length_dropWhile_le k.blank rest
  refine ⟨⟨⟨sc', Function.update s.argtable s.args (some s.ccp)⟩, s.args + 1, ccp'⟩,
    ?_, rfl, ?_, ?_, hrest, ?_, hgood, ?_⟩
  · unfold Cutter.takePiece
    rw [Cutter.storeArg_of_le hroom.le, ok_bind, hscan, ok_bind, hclear]
    rfl
  · refine h.push (h.behind hne) ?_ (fun i hi => hframe i ?_) harg ?_
    · rw [h.count]
    · dsimp only at hi
      omega
    · dsimp only
      omega
  · rw [List.length_append, List.length_singleton, h.count]
  · dsimp only
    omega
  · -- the first character behind the piece has become its NUL
    intro hmore p hp
    have hshort : (rest.dropWhile k.blank).length < rest.length := by
      cases rest with
      | nil => exact absurd rfl hmore
      | cons d rest =>
          have hle := List.length_dropWhile_le k.blank rest
          rw [List.dropWhile_cons_of_pos (hbehind d rfl), List.length_cons]
          omega
    dsimp only
    rcases List.mem_append.mp hp with hp | hp
    · have hlt := h.behind hne p hp
      omega
    · rw [List.mem_singleton.mp hp]
      dsimp only
      omega

/-- What the loop leaves: the pieces of the text behind those before, and `NULL`, when
there is room for them. -/
def CutResult (k : Cutter) (strings : List (ℕ × List UInt8))
    (args : Option (List (List UInt8))) (r : Option ℕ × ArgArrays) : Prop :=
  match args with
  | none => r.1 = none
  | some args => ∃ more : List (ℕ × List UInt8), more.map Prod.snd = args ∧
      r.1 = some (strings.length + args.length) ∧ CutInto k.len r.2 (strings ++ more) ∧
      r.2.argtable (strings.length + args.length) = none

theorem Cutting.run (hreads : k.Reads take good)
    (h : Cutting k.len good s strings text) (hroom : s.args ≤ k.num) {fuel : ℕ}
    (hfuel : text.length < fuel) :
    ∃ r, runFuel k.turn fuel s = some (.ok r) ∧
      CutResult k strings (pieces take k.blank (k.num - s.args) text) r := by
  induction fuel generalizing s strings text with
  | zero => omega
  | succ fuel ih =>
      by_cases hne : text = []
      · subst hne
        have hturn : k.turn s = .stop (.ok
            (some s.args, ⟨s.sc, Function.update s.argtable s.args none⟩)) := by
          unfold Cutter.turn
          rw [if_pos (stringAt_nil_iff.mp h.text_at), Cutter.storeArg_of_le hroom]
          rfl
        refine ⟨_, runFuel_succ_of_stop hturn fuel, ?_⟩
        have hnil : pieces take k.blank (k.num - s.args) [] = some [] := by
          cases k.num - s.args <;> rfl
        rw [hnil]
        refine ⟨[], rfl, by rw [h.count]; rfl, ?_, ?_⟩
        · rw [List.append_nil]
          refine ⟨fun i p hi => ?_, h.string_at, h.inside, h.ordered⟩
          obtain ⟨hlt, _⟩ := List.getElem?_eq_some_iff.mp hi
          rw [h.count] at hlt
          dsimp only
          rw [Function.update_of_ne hlt.ne]
          exact h.pointers i p hi
        · rw [h.count]
          exact Function.update_self s.args none s.argtable
      · obtain ⟨c, rest, rfl⟩ := List.exists_cons_of_ne_nil hne
        obtain ⟨hc, hhere, _⟩ := stringAt_cons_iff.mp h.text_at
        by_cases hfull : k.num ≤ s.args
        · have hturn : k.turn s = .stop (.ok (none, s.toArgArrays)) := by
            unfold Cutter.turn
            rw [hhere, if_neg hc, if_pos hfull]
          refine ⟨_, runFuel_succ_of_stop hturn fuel, ?_⟩
          rw [Nat.sub_eq_zero_of_le hfull]
          rfl
        · obtain ⟨s', hpiece, hcount, hnext⟩ := h.takePiece hreads hne (by omega)
          have hturn : k.turn s = .next s' := by
            unfold Cutter.turn
            rw [hhere, if_neg hc, if_neg hfull, hpiece]
          have hshort := hreads.shortens h.text_good hne
          obtain ⟨r, hrun, hresult⟩ := ih hnext (by omega) (by omega)
          refine ⟨r, ?_, ?_⟩
          · rw [runFuel_succ_of_next hturn]
            exact hrun
          · have hleft : k.num - s.args = k.num - s'.args + 1 := by omega
            rw [hleft, pieces]
            cases hpieces : pieces take k.blank (k.num - s'.args)
                ((take (c :: rest)).2.dropWhile k.blank) with
            | none =>
                rw [hpieces] at hresult
                exact hresult
            | some args =>
                rw [hpieces] at hresult
                obtain ⟨more, hmore, hargs, hcut, hnull⟩ := hresult
                have htotal : (strings ++ [(s.ccp, (take (c :: rest)).1)]).length +
                    args.length = strings.length + (args.length + 1) := by
                  simp only [List.length_append, List.length_singleton]
                  omega
                rw [htotal] at hargs hnull
                refine ⟨(s.ccp, (take (c :: rest)).1) :: more, ?_, hargs, ?_, hnull⟩
                · exact congrArg ((take (c :: rest)).1 :: ·) hmore
                · rwa [List.append_assoc] at hcut

/-- A string that fits into `sc` is cut into its pieces, and a longer one runs over
the end of `sc`. -/
theorem Cutter.Reads.cut (hreads : k.Reads take good) (a : ArgArrays) {c : List UInt8}
    (hgood : good (cString c)) :
    if (cString c).length ≤ k.len then
      ∃ r, k.cut a c = .ok r ∧ CutResult k [] (pieces take k.blank k.num (cString c)) r
    else k.cut a c = .error .outOfBounds := by
  split
  · next hfit =>
      obtain ⟨sc, hcopy, hstring, _⟩ := @strcpy_ok (k.len + 1) a.sc 0 c (by omega)
      have hstart : Cutting k.len good ⟨⟨sc, a.argtable⟩, 0, 0⟩ [] (cString c) :=
        ⟨⟨by simp, by simp, by simp, .nil⟩, rfl, hstring, by rwa [Nat.zero_add], hgood,
          by simp⟩
      have hfuel : (cString c).length < k.len + 2 := by omega
      obtain ⟨r, hrun, hresult⟩ := hstart.run hreads (Nat.zero_le _) hfuel
      refine ⟨r, ?_, hresult⟩
      unfold Cutter.cut
      rw [hcopy, ok_bind, hrun]
      rfl
  · next hlong =>
      unfold Cutter.cut
      rw [strcpy_overflows (by omega)]
      rfl

end Loop

end Janus86
