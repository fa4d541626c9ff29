import Janus86.StepMachine
import Janus86.Fat32Names

/-!
# Arguments of the shell

`shell_gen_args` cuts a line at blanks.  A space is no blank when the character
before it is a backslash, and the directory readers put a backslash before each
space of a name, so that a name which is typed as it is listed stays in one
piece.  The tokenizer looks at one character to the left only: what makes the
two conventions agree is that in an escaped name every space has the backslash
that was put there, whatever the name has before it.
-/

namespace Janus86
namespace Shell

open StepMachine

def argNum : ℕ := 255

def cmdLen : ℕ := 256

/-- The characters that end an argument, for the character before them. -/
def isStop (prev c : UInt8) : Bool := (c == 32 && prev != 92) || c == 9

/-- `ccp` over one argument: the argument, and the text from `ccp` on. -/
def takeArg (prev : UInt8) : List UInt8 → List UInt8 × List UInt8
  | [] => ([], [])
  | c :: text =>
      if isStop prev c then ([], c :: text)
      else (c :: (takeArg c text).1, (takeArg c text).2)

/-- `ccp` over the blanks behind it, which become NULs. -/
def skipBlanks (text : List UInt8) : List UInt8 :=
  text.dropWhile fun c => c == 32 || c == 9

/-- The arguments found so far, the character before `ccp`, and the text from
`ccp` on. -/
structure ArgState where
  argtable : List (List UInt8)
  prev : UInt8
  text : List UInt8

def argTurn (s : ArgState) : Turn ArgState (Option (List (List UInt8))) :=
  if s.text = [] then .stop (some s.argtable)
  else if argNum ≤ s.argtable.length then .stop none
  else
    let arg := takeArg s.prev s.text
    -- the character before the next argument is a blank that was cleared
    .next ⟨s.argtable ++ [arg.1], 0, skipBlanks arg.2⟩

/-- `shell_gen_args`; `before` is the byte in front of the buffer `sc`, which
the first test may read.  The result is `argv`, and `none` for `FAILURE`. -/
def shellGenArgs (before : UInt8) (line : List UInt8) :
    Except Fault (Option (List (List UInt8))) :=
  let text := cString line
  if cmdLen < text.length then .error .outOfBounds
  else
    match runFuel argTurn (text.length + 1) ⟨[], before, text⟩ with
    | none => .error .outOfFuel
    | some argv => .ok argv

/-- A byte as a `char`. -/
def toChar (c : UInt8) : ℤ := (c.toNat : ℤ).bmod 256

/-- `strcmp` on two buffers; a buffer that is used up is a string that ends
there. -/
def strcmp : List UInt8 → List UInt8 → ℤ
  | [], [] => 0
  | [], c :: _ => -toChar c
  | c :: _, [] => toChar c
  | c :: s1, d :: s2 =>
      if toChar c - toChar d ≠ 0 ∨ c = 0 ∨ d = 0 then toChar c - toChar d
      else strcmp s1 s2

/-! ## The loop is left -/

theorem length_takeArg (prev : UInt8) (text : List UInt8) :
    (takeArg prev text).1.length + (takeArg prev text).2.length =
      text.length := by
  induction text generalizing prev with
  | nil => rfl
  | cons c text ih =>
      simp only [takeArg]
      split
      · simp
      · have hrest := ih c
        simp only [List.length_cons]
        omega

theorem length_skipBlanks_le (text : List UInt8) :
    (skipBlanks text).length ≤ text.length :=
  List.length_dropWhile_le _ text

/-- Each turn reads a character at least: of an argument, or the blank that
stands in its place. -/
theorem argTurn_shortens {s s' : ArgState} (hturn : argTurn s = .next s') :
    s'.text.length < s.text.length := by
  obtain ⟨argtable, prev, text⟩ := s
  unfold argTurn at hturn
  simp only at hturn
  split at hturn
  · contradiction
  · split at hturn
    · contradiction
    · next hne _ =>
      obtain rfl := Turn.next.inj hturn
      obtain ⟨c, text, rfl⟩ := List.exists_cons_of_ne_nil hne
      simp only [takeArg]
      by_cases hstop : isStop prev c = true
      · have hblank : (c == 32 || c == 9) = true := by
          simp only [isStop, Bool.or_eq_true, Bool.and_eq_true] at hstop ⊢
          tauto
        have hle := length_skipBlanks_le text
        simp only [hstop, if_true, skipBlanks, List.dropWhile_cons, hblank,
          List.length_cons] at hle ⊢
        omega
      · have hlen := length_takeArg c text
        have hle := length_skipBlanks_le (takeArg c text).2
        simp only [hstop, if_false, List.length_cons, Bool.false_eq_true]
        omega

theorem shellGenArgs_of_halts {before : UInt8} {line : List UInt8}
    {argv : Option (List (List UInt8))} (hfit : (cString line).length ≤ cmdLen)
    (hhalts : Halts argTurn ⟨[], before, cString line⟩ argv) :
    shellGenArgs before line = .ok argv := by
  have hrun := hhalts.runFuel_of_measure (fun s => s.text.length)
    (fun _ _ => argTurn_shortens) ((cString line).length + 1) (by simp)
  unfold shellGenArgs
  simp only [hrun, if_neg (Nat.not_lt.mpr hfit)]

theorem shellGenArgs_returns (before : UInt8) {line : List UInt8}
    (hfit : (cString line).length ≤ cmdLen) :
    ∃ argv, shellGenArgs before line = .ok argv := by
  let start : ArgState := ⟨[], before, cString line⟩
  have hstart : (fun _ : ArgState => True) start := trivial
  obtain ⟨argv, hhalts⟩ : ∃ argv, Halts argTurn start argv :=
    exists_halts_of_measure (fun s => s.text.length) hstart
      fun s s' _ hturn => ⟨trivial, argTurn_shortens hturn⟩
  exact ⟨argv, shellGenArgs_of_halts hfit hhalts⟩

/-! ## Escaped names -/

theorem escapeName_cons (c : UInt8) (name : List UInt8) :
    escapeName (c :: name) =
      (if c = 32 then [92, 32] else [c]) ++ escapeName name :=
  rfl

theorem escapeName_ne_nil {name : List UInt8} (hne : name ≠ []) :
    escapeName name ≠ [] := by
  obtain ⟨c, name, rfl⟩ := List.exists_cons_of_ne_nil hne
  rw [escapeName_cons]
  split <;> simp

/-- The reader of the FAT driver, which puts one character at a time, stores
the same name. -/
theorem flatMap_checkLong (name : List UInt8) :
    name.flatMap Fat32.checkLong = escapeName name :=
  rfl

theorem escapeName_ne_space_cons (name rest : List UInt8) :
    escapeName name ≠ 32 :: rest := by
  cases name with
  | nil => simp [escapeName]
  | cons c name =>
      rw [escapeName_cons]
      split
      · simp
      · next hc => simp [hc]

theorem escapeName_injective : Function.Injective escapeName := by
  intro name
  induction name with
  | nil =>
      intro other hsame
      by_contra hne
      exact escapeName_ne_nil (Ne.symm hne) hsame.symm
  | cons c name ih =>
      intro other hsame
      cases other with
      | nil => exact absurd hsame (escapeName_ne_nil (by simp))
      | cons d other =>
          rw [escapeName_cons, escapeName_cons] at hsame
          by_cases hc : c = 32 <;> by_cases hd : d = 32 <;>
            simp only [hc, hd, if_true, if_false, List.cons_append,
              List.nil_append, List.cons.injEq, true_and] at hsame
          · rw [hc, hd, ih hsame]
          -- an unescaped backslash is not followed by a space
          · exact absurd hsame.2.symm (escapeName_ne_space_cons other _)
          · exact absurd hsame.2 (escapeName_ne_space_cons name _)
          · rw [hsame.1, ih hsame.2]

/-- What may stand behind an argument: nothing, or the space before the next
one. -/
def EndsArg (rest : List UInt8) : Prop := ∀ c ∈ rest.head?, c = 32

theorem takeArg_of_endsArg {prev : UInt8} {rest : List UInt8}
    (hprev : prev ≠ 92) (hrest : EndsArg rest) :
    takeArg prev rest = ([], rest) := by
  cases rest with
  | nil => rfl
  | cons c rest =>
      obtain rfl : c = 32 := hrest c rfl
      simp [takeArg, isStop, hprev]

/-- An escaped name is read to its end and no further. -/
theorem takeArg_escapeName {prev : UInt8} {name rest : List UInt8}
    (htab : 9 ∉ name) (hlast : name.getLastD prev ≠ 92) (hrest : EndsArg rest) :
    takeArg prev (escapeName name ++ rest) = (escapeName name, rest) := by
  induction name generalizing prev with
  | nil => exact takeArg_of_endsArg hlast hrest
  | cons c name ih =>
      rw [List.mem_cons, not_or] at htab
      rw [List.getLastD_cons] at hlast
      have hread := ih htab.2 hlast
      have hc : c ≠ 9 := Ne.symm htab.1
      rw [escapeName_cons]
      by_cases hspace : c = 32
      · subst hspace
        simp [takeArg, isStop, hread]
      · simp [takeArg, isStop, hspace, hc, hread]

/-! ## The line of escaped names -/

/-- A name that can be typed: `shell_gen_args` has no way to write the other
ones. -/
structure Typable (name : List UInt8) : Prop where
  nonempty : name ≠ []
  no_nul : 0 ∉ name
  no_tab : 9 ∉ name
  last : name.getLast? ≠ some 92

def typedLine (names : List (List UInt8)) : List UInt8 :=
  List.intercalate [32] (names.map escapeName)

theorem typedLine_singleton (name : List UInt8) :
    typedLine [name] = escapeName name := by
  simp [typedLine, List.intercalate_singleton]

theorem typedLine_cons_cons (name next : List UInt8)
    (names : List (List UInt8)) :
    typedLine (name :: next :: names) =
      escapeName name ++ 32 :: typedLine (next :: names) := by
  simp [typedLine, List.intercalate_cons_cons]

theorem Typable.getLastD_ne {name : List UInt8} (h : Typable name)
    (prev : UInt8) : name.getLastD prev ≠ 92 := by
  intro hlast
  obtain ⟨c, name, rfl⟩ := List.exists_cons_of_ne_nil h.nonempty
  refine h.last ?_
  rw [List.getLastD_cons, List.getLastD_eq_getLast?] at hlast
  rw [List.getLast?_cons, hlast]

theorem skipBlanks_typedLine {names : List (List UInt8)}
    (hnames : ∀ name ∈ names, Typable name) :
    skipBlanks (typedLine names) = typedLine names := by
  cases names with
  | nil => rfl
  | cons name names =>
      have hname := hnames name List.mem_cons_self
      obtain ⟨c, name, rfl⟩ := List.exists_cons_of_ne_nil hname.nonempty
      have htab : c ≠ 9 := fun hc => hname.no_tab (hc ▸ List.mem_cons_self)
      obtain ⟨text, htext⟩ : ∃ text, typedLine ((c :: name) :: names) =
          escapeName (c :: name) ++ text := by
        cases names with
        | nil => exact ⟨[], by rw [typedLine_singleton, List.append_nil]⟩
        | cons next names => exact ⟨_, typedLine_cons_cons _ _ _⟩
      rw [htext, escapeName_cons, skipBlanks]
      by_cases hspace : c = 32 <;> simp [hspace, htab]

/-- Room for one character and one blank is needed for each name. -/
theorem two_mul_length_le {names : List (List UInt8)}
    (hnames : ∀ name ∈ names, Typable name) :
    2 * names.length ≤ (typedLine names).length + 1 := by
  induction names with
  | nil => simp
  | cons name names ih =>
      have hone : 0 < (escapeName name).length :=
        List.length_pos_iff.mpr
          (escapeName_ne_nil (hnames name List.mem_cons_self).nonempty)
      cases names with
      | nil =>
          rw [typedLine_singleton]
          simp only [List.length_cons, List.length_nil]
          omega
      | cons next names =>
          have hrest := ih fun n hn => hnames n (List.mem_cons_of_mem _ hn)
          rw [typedLine_cons_cons]
          simp only [List.length_cons, List.length_append] at hrest ⊢
          omega

theorem argTurn_typedLine {done : List (List UInt8)} (prev : UInt8)
    {name : List UInt8} {names : List (List UInt8)}
    (hname : Typable name) (hnames : ∀ n ∈ names, Typable n)
    (hroom : done.length < argNum) :
    argTurn ⟨done, prev, typedLine (name :: names)⟩ =
      .next ⟨done ++ [escapeName name], 0, typedLine names⟩ := by
  have hread : ∀ rest, EndsArg rest → takeArg prev (escapeName name ++ rest) =
      (escapeName name, rest) := fun rest =>
    takeArg_escapeName hname.no_tab (hname.getLastD_ne prev)
  have hne := escapeName_ne_nil hname.nonempty
  cases names with
  | nil =>
      have hlast := hread [] (by simp [EndsArg])
      rw [List.append_nil] at hlast
      simp [argTurn, hne, Nat.not_le.mpr hroom, hlast, skipBlanks, typedLine]
  | cons next names =>
      have hlast := hread (32 :: typedLine (next :: names)) (by simp [EndsArg])
      have hskip : skipBlanks (32 :: typedLine (next :: names)) =
          typedLine (next :: names) := by
        have hfirst := skipBlanks_typedLine hnames
        rw [skipBlanks] at hfirst ⊢
        simpa using hfirst
      rw [typedLine_cons_cons]
      simp [argTurn, hne, Nat.not_le.mpr hroom, hlast, hskip]

theorem halts_typedLine {done : List (List UInt8)} {prev : UInt8}
    {names : List (List UInt8)} (hnames : ∀ name ∈ names, Typable name)
    (hroom : done.length + names.length ≤ argNum) :
    Halts argTurn ⟨done, prev, typedLine names⟩
      (some (done ++ names.map escapeName)) := by
  induction names generalizing done prev with
  | nil => exact Halts.of_stop (by simp [argTurn, typedLine])
  | cons name names ih =>
      have hrest : ∀ n ∈ names, Typable n :=
        fun n hn => hnames n (List.mem_cons_of_mem _ hn)
      rw [List.length_cons] at hroom
      have hstep := argTurn_typedLine prev (hnames name List.mem_cons_self)
        hrest (show done.length < argNum by omega)
      have hgo : Halts argTurn ⟨done ++ [escapeName name], 0, typedLine names⟩
          (some (done ++ [escapeName name] ++ names.map escapeName)) :=
        ih hrest (by rw [List.length_append, List.length_singleton]; omega)
      rw [List.append_assoc, List.singleton_append] at hgo
      exact Halts.of_next hstep hgo

theorem Typable.zero_free_escapeName {name : List UInt8} (h : Typable name) :
    ∀ c ∈ escapeName name, c ≠ 0 := by
  have hfree : cString name = name :=
    (cString_eq_self_iff name).mpr fun c hc hzero => h.no_nul (hzero ▸ hc)
  rw [← cString_eq_self_iff, Fat32.cString_escapeName, hfree]

theorem zero_free_typedLine {names : List (List UInt8)}
    (hnames : ∀ name ∈ names, Typable name) :
    ∀ c ∈ typedLine names, c ≠ 0 := by
  induction names with
  | nil => simp [typedLine]
  | cons name names ih =>
      have hname := (hnames name List.mem_cons_self).zero_free_escapeName
      cases names with
      | nil =>
          rw [typedLine_singleton]
          exact hname
      | cons next names =>
          have hrest := ih fun n hn => hnames n (List.mem_cons_of_mem _ hn)
          rw [typedLine_cons_cons]
          simp only [List.mem_append, List.mem_cons]
          rintro c (hc | rfl | hc)
          · exact hname c hc
          · decide
          · exact hrest c hc

theorem shellGenArgs_typedLine (before : UInt8) {names : List (List UInt8)}
    (hnames : ∀ name ∈ names, Typable name)
    (hfit : (typedLine names).length ≤ cmdLen) :
    shellGenArgs before (typedLine names) =
      .ok (some (names.map escapeName)) := by
  have htext : cString (typedLine names) = typedLine names :=
    (cString_eq_self_iff _).mpr (zero_free_typedLine hnames)
  have hcount : ([] : List (List UInt8)).length + names.length ≤ argNum := by
    have hroom := two_mul_length_le hnames
    simp only [cmdLen, argNum, List.length_nil] at hfit ⊢
    omega
  have hhalts : Halts argTurn ⟨[], before, typedLine names⟩
      (some ([] ++ names.map escapeName)) := halts_typedLine hnames hcount
  exact shellGenArgs_of_halts (by rwa [htext]) (by rwa [htext])

/-! ## Comparing an argument -/

theorem toChar_injective : Function.Injective toChar := by
  intro c d hsame
  unfold toChar at hsame
  have hc := c.toNat_lt
  have hd := d.toNat_lt
  rw [← UInt8.toNat_inj]
  simp only [Int.bmod] at hsame
  split at hsame <;> split at hsame <;> omega

theorem toChar_eq_zero_iff (c : UInt8) : toChar c = 0 ↔ c = 0 :=
  toChar_injective.eq_iff' (by decide)

/-- Two buffers compare equal when they hold the same C string. -/
theorem strcmp_eq_zero_iff (s1 s2 : List UInt8) :
    strcmp s1 s2 = 0 ↔ cString s1 = cString s2 := by
  induction s1 generalizing s2 with
  | nil =>
      cases s2 with
      | nil => simp [strcmp]
      | cons d s2 =>
          by_cases hd : d = 0 <;> simp [strcmp, toChar_eq_zero_iff, cString, hd]
  | cons c s1 ih =>
      cases s2 with
      | nil =>
          by_cases hc : c = 0 <;> simp [strcmp, toChar_eq_zero_iff, cString, hc]
      | cons d s2 =>
          by_cases hsame : c = d
          · subst hsame
            by_cases hc : c = 0
            · simp [strcmp, cString, hc]
            · have htail := ih s2
              simp only [cString] at htail
              simp [strcmp, cString, hc, htail]
          · have hdiff : toChar c - toChar d ≠ 0 := by
              rw [sub_ne_zero]
              exact fun heq => hsame (toChar_injective heq)
            have hother : ¬cString (c :: s1) = cString (d :: s2) := by
              by_cases hc : c = 0 <;> by_cases hd : d = 0 <;>
                simp_all [cString]
            simp only [strcmp, hdiff, hother, ne_eq, not_false_eq_true, true_or,
              if_true]

/-- A typed argument compares equal to what a listing shows of a file exactly
when the file has the name that was typed. -/
theorem strcmp_escapeName_iff {typed listed : List UInt8} (stale : List UInt8)
    (htyped : 0 ∉ typed) (hlisted : 0 ∉ listed) :
    strcmp (escapeName typed) (escapeName listed ++ 0 :: stale) = 0 ↔
      typed = listed := by
  have hfree : ∀ name : List UInt8, 0 ∉ name → cString name = name :=
    fun name hzero => (cString_eq_self_iff name).mpr fun c hc h => hzero (h ▸ hc)
  rw [strcmp_eq_zero_iff, cString_append_zero, Fat32.cString_escapeName,
    Fat32.cString_escapeName, hfree typed htyped, hfree listed hlisted,
    escapeName_injective.eq_iff]

/-- A line of escaped names is cut into exactly these names, and an argument
compares equal to the listed name of the file that was typed and of no other. -/
theorem shellGenArgs_escaped_names (before : UInt8) {names : List (List UInt8)}
    (hnames : ∀ name ∈ names, Typable name)
    (hfit : (List.intercalate [32] (names.map escapeName)).length ≤ cmdLen) :
    shellGenArgs before (List.intercalate [32] (names.map escapeName)) =
        .ok (some (names.map escapeName)) ∧
      Function.Injective escapeName ∧
      (∀ name : List UInt8, name.flatMap Fat32.checkLong = escapeName name) ∧
      ∀ typed ∈ names, ∀ listed stale : List UInt8, 0 ∉ listed →
        (strcmp (escapeName typed) (escapeName listed ++ 0 :: stale) = 0 ↔
          typed = listed) := by
  refine ⟨shellGenArgs_typedLine before hnames hfit, escapeName_injective,
    flatMap_checkLong, ?_⟩
  intro typed htyped listed stale hlisted
  exact strcmp_escapeName_iff stale (hnames typed htyped).no_nul hlisted

theorem shellGenArgs_two_names :
    shellGenArgs 0 [109, 121, 92, 32, 102, 32, 92, 32, 97, 92, 92, 32] =
        .ok (some [[109, 121, 92, 32, 102], [92, 32, 97, 92, 92, 32]]) ∧
      strcmp [109, 121, 92, 32, 102] [109, 121, 92, 32, 102, 0, 32] = 0 := by
  have htypable : ∀ name ∈ [[109, 121, 32, 102], [32, 97, 92, 32]],
      Typable name := by
    intro name hname
    simp only [List.mem_cons, List.not_mem_nil, or_false] at hname
    rcases hname with rfl | rfl <;>
      exact ⟨by decide, by decide, by decide, by decide⟩
  obtain ⟨hargs, _, _, hcompare⟩ :=
    shellGenArgs_escaped_names 0 htypable (by decide)
  refine ⟨hargs, ?_⟩
  exact (hcompare [109, 121, 32, 102] (by decide) [109, 121, 32, 102] [32]
    (by decide)).mpr rfl

end Shell
end Janus86
