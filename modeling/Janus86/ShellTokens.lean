import Janus86.ShellArguments
import Janus86.CutStrings

/-!
# The buffers of the tokenizer

`shell_gen_args` copies its line into `sc` and cuts it there: the arguments are
addresses in `sc`, and the blanks behind them become NULs.  The loop looks one
character back, where a NUL may stand by now; but it does so at no character
that begins an argument, so that the cut is the one of the line as it was typed.
-/

namespace Janus86
namespace Shell

open StepMachine ZeroTerminated

/-! ## The grammar -/

/-- The maximal runs of characters that do not end an argument. -/
def tokensFrom (prev : UInt8) (text : List UInt8) : List (List UInt8) :=
  ((((prev :: text).zip text).splitOnP fun p => isStop p.1 p.2).map
    (List.map Prod.snd)).filter (· ≠ [])

/-- The tokens of a line; no character stands in front of the first one. -/
def tokens (line : List UInt8) : List (List UInt8) := tokensFrom 0 line

/-! ## The arrays -/

/-- `ccp` over one argument, with so many bytes of `sc` left.  The byte in front of
`sc` belongs to no array. -/
def scanArg (sc : Buffer) : ℕ → ℕ → Except Fault ℕ
  | 0, _ => .error .outOfBounds
  | left + 1, ccp =>
      if sc ccp = 0 then .ok ccp
      else if sc ccp = 32 then
        if ccp = 0 then .error .outOfBounds
        else if sc (ccp - 1) ≠ 92 then .ok ccp
        else scanArg sc left (ccp + 1)
      else if sc ccp = 9 then .ok ccp
      else scanArg sc left (ccp + 1)

def argCutter : Cutter := ⟨cmdLen, argNum, scanArg, fun c => c == 32 || c == 9⟩

/-- `shell_gen_args` on its arrays: `argc`, or nothing for `FAILURE`. -/
def genArgs (a : ArgArrays) (c : List UInt8) : Except Fault (Option ℕ × ArgArrays) :=
  argCutter.cut a c

/-! ## The runs of a line -/

theorem tokensFrom_nil (prev : UInt8) : tokensFrom prev [] = [] := by
  simp [tokensFrom]

theorem tokensFrom_of_stop {prev c : UInt8} (hstop : isStop prev c = true)
    (text : List UInt8) : tokensFrom prev (c :: text) = tokensFrom c text := by
  have hzip : (prev :: c :: text).zip (c :: text) =
      (prev, c) :: (c :: text).zip text := rfl
  rw [tokensFrom, hzip, List.splitOnP_cons_eq_if_modifyHead, if_pos hstop,
    List.map_cons, List.map_nil, List.filter_cons_of_neg (by simp), tokensFrom]

/-- The characters of an argument and those behind it, each with the one before. -/
theorem zip_takeArg (prev : UInt8) (text : List UInt8) :
    ∃ pairs, pairs.map Prod.snd = (takeArg prev text).1 ∧
      (∀ p ∈ pairs, ¬ isStop p.1 p.2 = true) ∧
      ((takeArg prev text).2 = [] ∧ (prev :: text).zip text = pairs ∨
        ∃ last c rest, (takeArg prev text).2 = c :: rest ∧ isStop last c = true ∧
          (prev :: text).zip text = pairs ++ (last, c) :: (c :: rest).zip rest) := by
  induction text generalizing prev with
  | nil => exact ⟨[], rfl, by simp, Or.inl ⟨rfl, rfl⟩⟩
  | cons c text ih =>
      by_cases hstop : isStop prev c = true
      · refine ⟨[], ?_, by simp, Or.inr ⟨prev, c, text, ?_, hstop, rfl⟩⟩
        · rw [takeArg, if_pos hstop]
          rfl
        · rw [takeArg, if_pos hstop]
      · obtain ⟨pairs, hpairs, hplain, hrest⟩ := ih c
        rw [takeArg, if_neg hstop]
        refine ⟨(prev, c) :: pairs, congrArg (c :: ·) hpairs, ?_, ?_⟩
        · intro p hp
          rcases List.mem_cons.mp hp with rfl | hp
          · exact hstop
          · exact hplain p hp
        · rcases hrest with ⟨hnil, hzip⟩ | ⟨last, d, rest, hcons, hlast, hzip⟩
          · exact Or.inl ⟨hnil, congrArg ((prev, c) :: ·) hzip⟩
          · exact Or.inr ⟨last, d, rest, hcons, hlast, congrArg ((prev, c) :: ·) hzip⟩

/-- The first run, if the text does not begin with a blank. -/
theorem tokensFrom_takeArg {prev : UInt8} {text : List UInt8}
    (hne : (takeArg prev text).1 ≠ []) :
    ((takeArg prev text).2 = [] ∧ tokensFrom prev text = [(takeArg prev text).1]) ∨
      ∃ last c rest, (takeArg prev text).2 = c :: rest ∧ isStop last c = true ∧
        tokensFrom prev text = (takeArg prev text).1 :: tokensFrom c rest := by
  obtain ⟨pairs, hpairs, hplain, hrest⟩ := zip_takeArg prev text
  have hkeep : ∀ xs : List (List UInt8), ((takeArg prev text).1 :: xs).filter (· ≠ []) =
      (takeArg prev text).1 :: xs.filter (· ≠ []) :=
    fun xs => List.filter_cons_of_pos (by simpa using hne)
  rcases hrest with ⟨hnil, hzip⟩ | ⟨last, c, rest, hcons, hlast, hzip⟩
  · refine Or.inl ⟨hnil, ?_⟩
    rw [tokensFrom, hzip, List.splitOnP_eq_singleton (by simpa using hplain),
      List.map_singleton, hpairs, hkeep]
    rfl
  · refine Or.inr ⟨last, c, rest, hcons, hlast, ?_⟩
    rw [tokensFrom, hzip, List.splitOnP_append_cons_of_forall_mem
      (by simpa using hplain) (last, c) hlast, List.map_cons, hpairs, hkeep]
    rfl

/-- Without a blank in front of it, a text has the same runs wherever it stands. -/
theorem tokensFrom_prev {prev prev' c : UInt8} {text : List UInt8}
    (hplain : isStop prev c = false) (hplain' : isStop prev' c = false) :
    tokensFrom prev (c :: text) = tokensFrom prev' (c :: text) := by
  have hzip : ∀ before : UInt8, (before :: c :: text).zip (c :: text) =
      (before, c) :: (c :: text).zip text := fun _ => rfl
  have hhead : ∀ xss : List (List (UInt8 × UInt8)),
      (xss.modifyHead (List.cons (prev, c))).map (List.map Prod.snd) =
        (xss.modifyHead (List.cons (prev', c))).map (List.map Prod.snd) := by
    intro xss
    cases xss <;> rfl
  rw [tokensFrom, tokensFrom, hzip, hzip, List.splitOnP_cons_eq_if_modifyHead,
    List.splitOnP_cons_eq_if_modifyHead, if_neg (by simp [hplain]),
    if_neg (by simp [hplain']), hhead]

/-- A character that is no blank. -/
def Visible (c : UInt8) : Prop := c ≠ 32 ∧ c ≠ 9

instance (c : UInt8) : Decidable (Visible c) := inferInstanceAs (Decidable (_ ∧ _))

theorem Visible.isStop {c : UInt8} (hc : Visible c) (prev : UInt8) :
    isStop prev c = false := by
  simp [Shell.isStop, hc.1, hc.2]

theorem cases_of_not_visible {c : UInt8} (hc : ¬ Visible c) : c = 32 ∨ c = 9 := by
  unfold Visible at hc
  tauto

theorem skipBlanks_of_visible {c : UInt8} (hc : Visible c) (text : List UInt8) :
    skipBlanks (c :: text) = c :: text := by
  simp [skipBlanks, hc.1, hc.2]

theorem skipBlanks_of_not_visible {c : UInt8} (hc : ¬ Visible c) (text : List UInt8) :
    skipBlanks (c :: text) = skipBlanks text := by
  rcases cases_of_not_visible hc with rfl | rfl <;> rfl

theorem tokensFrom_skipBlanks {c : UInt8} (hc : c ≠ 92) (text : List UInt8) :
    tokensFrom c text = tokensFrom 0 (skipBlanks text) := by
  induction text generalizing c with
  | nil => rw [skipBlanks, List.dropWhile_nil, tokensFrom_nil, tokensFrom_nil]
  | cons d text ih =>
      by_cases hd : Visible d
      · rw [skipBlanks_of_visible hd]
        exact tokensFrom_prev (hd.isStop c) (hd.isStop 0)
      · have hstop : isStop c d = true := by
          rcases cases_of_not_visible hd with rfl | rfl <;> simp [Shell.isStop, hc]
        have hne : d ≠ 92 := by
          rcases cases_of_not_visible hd with rfl | rfl <;> decide
        rw [skipBlanks_of_not_visible hd, tokensFrom_of_stop hstop, ih hne]

theorem takeArg_of_visible {prev c : UInt8} (hc : Visible c) (text : List UInt8) :
    takeArg prev (c :: text) = (c :: (takeArg c text).1, (takeArg c text).2) := by
  rw [takeArg, if_neg (by simp [hc.isStop])]

/-- The run in front, and those behind the blanks. -/
theorem tokensFrom_cons {prev c : UInt8} {text : List UInt8} (hc : Visible c) :
    tokensFrom prev (c :: text) = (takeArg prev (c :: text)).1 ::
      tokensFrom 0 (skipBlanks (takeArg prev (c :: text)).2) := by
  have hne : (takeArg prev (c :: text)).1 ≠ [] := by
    rw [takeArg_of_visible hc]
    exact List.cons_ne_nil _ _
  rcases tokensFrom_takeArg hne with ⟨hnil, htokens⟩ |
    ⟨last, d, rest, hcons, hstop, htokens⟩
  · rw [htokens, hnil, skipBlanks, List.dropWhile_nil, tokensFrom_nil]
  · have hd : ¬ Visible d := by
      intro hd
      rw [hd.isStop] at hstop
      cases hstop
    have hne : d ≠ 92 := by
      rcases cases_of_not_visible hd with rfl | rfl <;> decide
    rw [htokens, hcons, skipBlanks_of_not_visible hd, tokensFrom_skipBlanks hne]

theorem visible_of_skipBlanks {text : List UInt8} {c : UInt8} {rest : List UInt8}
    (hskip : skipBlanks text = c :: rest) : Visible c := by
  have hhead := List.head?_dropWhile_not (fun c => c == 32 || c == 9) text
  rw [show text.dropWhile (fun c => c == 32 || c == 9) = c :: rest from hskip] at hhead
  simpa [Visible] using hhead

theorem takeArg_append (prev : UInt8) (text : List UInt8) :
    (takeArg prev text).1 ++ (takeArg prev text).2 = text := by
  induction text generalizing prev with
  | nil => rfl
  | cons c text ih =>
      by_cases hstop : isStop prev c = true
      · rw [takeArg, if_pos hstop]
        rfl
      · rw [takeArg, if_neg hstop]
        exact congrArg (c :: ·) (ih c)

/-- What stands behind an argument begins with a blank. -/
theorem takeArg_behind (prev : UInt8) (text : List UInt8) :
    ∀ c ∈ (takeArg prev text).2.head?, ¬ Visible c := by
  induction text generalizing prev with
  | nil => simp [takeArg]
  | cons c text ih =>
      by_cases hstop : isStop prev c = true
      · rw [takeArg, if_pos hstop]
        intro d hd hvisible
        obtain rfl : c = d := Option.some.inj hd
        rw [hvisible.isStop] at hstop
        cases hstop
      · rw [takeArg, if_neg hstop]
        exact ih c

theorem length_tokensFrom_le {text : List UInt8}
    (hvisible : ∀ c ∈ text.head?, Visible c) :
    2 * (tokensFrom 0 text).length ≤ text.length + 1 := by
  induction hlen : text.length using Nat.strong_induction_on generalizing text with
  | _ n ih =>
      subst hlen
      cases text with
      | nil =>
          rw [tokensFrom_nil]
          simp
      | cons c text =>
          have hc := hvisible c rfl
          have hlength := length_takeArg 0 (c :: text)
          have hskip := length_skipBlanks_le (takeArg 0 (c :: text)).2
          have hbehind := takeArg_behind 0 (c :: text)
          rw [tokensFrom_cons hc, List.length_cons]
          rw [takeArg_of_visible hc] at hlength hskip hbehind ⊢
          simp only [List.length_cons] at hlength ⊢
          cases hrest : (takeArg c text).2 with
          | nil =>
              rw [skipBlanks, List.dropWhile_nil, tokensFrom_nil, List.length_nil]
              omega
          | cons d rest =>
              rw [hrest] at hlength hskip hbehind
              have hshort := length_skipBlanks_le rest
              rw [List.length_cons] at hlength
              rw [skipBlanks_of_not_visible (hbehind d rfl)]
              have hfew := ih (skipBlanks rest).length (by simp only [List.length_cons]; omega)
                (fun e he => ?_) rfl
              · omega
              · obtain ⟨more, hmore⟩ := List.head?_eq_some_iff.mp he
                exact visible_of_skipBlanks hmore

/-! ## One argument -/

theorem scanArg_ok {sc : Buffer} {o : ℕ} {text : List UInt8} (htext : StringAt sc o text)
    {prev : UInt8} (hprev : 0 < o → sc (o - 1) = prev)
    (hfirst : o = 0 → ∀ c ∈ text.head?, Visible c) {left : ℕ}
    (hleft : text.length < left) :
    scanArg sc left o = .ok (o + (takeArg prev text).1.length) := by
  induction text generalizing o prev left with
  | nil =>
      obtain ⟨left, rfl⟩ : ∃ n, left = n + 1 := ⟨left - 1, by omega⟩
      rw [scanArg, if_pos (stringAt_nil_iff.mp htext)]
      rfl
  | cons c text ih =>
      rw [List.length_cons] at hleft
      obtain ⟨left, rfl⟩ : ∃ n, left = n + 1 := ⟨left - 1, by omega⟩
      obtain ⟨hc, hhere, hrest⟩ := stringAt_cons_iff.mp htext
      have hgo : ¬ isStop prev c = true →
          scanArg sc left (o + 1) = .ok (o + (takeArg prev (c :: text)).1.length) := by
        intro hstop
        have hread := @ih (o + 1) hrest c (fun _ => hhere) (by simp) left (by omega)
        rw [takeArg, if_neg hstop, hread, List.length_cons]
        congr 1
        omega
      have hend : isStop prev c = true →
          (.ok o : Except Fault ℕ) = .ok (o + (takeArg prev (c :: text)).1.length) := by
        intro hstop
        rw [takeArg, if_pos hstop]
        rfl
      rw [scanArg, hhere, if_neg hc]
      by_cases hspace : c = 32
      · subst hspace
        have ho : o ≠ 0 := fun ho => (hfirst ho 32 rfl).1 rfl
        rw [if_pos rfl, if_neg ho, hprev (by omega)]
        by_cases hescape : prev = 92
        · rw [if_neg (by simp [hescape])]
          exact hgo (by simp [Shell.isStop, hescape])
        · rw [if_pos hescape]
          exact hend (by simp [Shell.isStop, hescape])
      · rw [if_neg hspace]
        by_cases htab : c = 9
        · rw [if_pos htab]
          exact hend (by simp [Shell.isStop, htab])
        · rw [if_neg htab]
          exact hgo (by simp [Shell.isStop, hspace, htab])

/-- The text in front of a turn of the loop. -/
def StartsVisible (text : List UInt8) : Prop := ∀ c ∈ text.head?, Visible c

theorem startsVisible_skipBlanks (text : List UInt8) : StartsVisible (skipBlanks text) := by
  intro c hc
  obtain ⟨rest, hrest⟩ := List.head?_eq_some_iff.mp hc
  exact visible_of_skipBlanks hrest

theorem takeArg_prev {text : List UInt8} (hvisible : StartsVisible text)
    (prev prev' : UInt8) : takeArg prev text = takeArg prev' text := by
  cases text with
  | nil => rfl
  | cons c text =>
      rw [takeArg_of_visible (hvisible c rfl), takeArg_of_visible (hvisible c rfl)]

theorem argCutter_reads : argCutter.Reads (takeArg 0) StartsVisible where
  scan_eq {sc o left text} hvisible htext hleft := by
    have hscan := @scanArg_ok sc o text htext (sc (o - 1)) (fun _ => rfl)
      (fun _ => hvisible) left hleft
    rwa [takeArg_prev hvisible _ 0] at hscan
  append := takeArg_append 0
  behind text c hc := by
    rcases cases_of_not_visible (takeArg_behind 0 text c hc) with rfl | rfl <;> rfl
  shortens {text} hvisible hne := by
    obtain ⟨c, text, rfl⟩ := List.exists_cons_of_ne_nil hne
    have hlength := length_takeArg 0 (c :: text)
    have hskip := length_skipBlanks_le (takeArg 0 (c :: text)).2
    rw [takeArg_of_visible (hvisible c rfl)] at hlength hskip ⊢
    simp only [List.length_cons] at hlength hskip ⊢
    exact lt_of_le_of_lt hskip (by omega)
  good_behind text := startsVisible_skipBlanks _
  blank_zero := rfl

/-- The pieces of a text that does not begin with a blank are its runs. -/
theorem pieces_eq_tokensFrom {n : ℕ} {text : List UInt8}
    (hvisible : StartsVisible text) (hroom : (tokensFrom 0 text).length ≤ n) :
    pieces (takeArg 0) argCutter.blank n text = some (tokensFrom 0 text) := by
  induction n generalizing text with
  | zero =>
      cases text with
      | nil => rw [tokensFrom_nil, pieces]
      | cons c text =>
          rw [tokensFrom_cons (hvisible c rfl), List.length_cons] at hroom
          omega
  | succ n ih =>
      cases text with
      | nil => rw [tokensFrom_nil, pieces]
      | cons c text =>
          rw [tokensFrom_cons (hvisible c rfl), List.length_cons] at hroom
          have hrest := @ih (skipBlanks (takeArg 0 (c :: text)).2)
            (startsVisible_skipBlanks _) (by omega)
          rw [tokensFrom_cons (hvisible c rfl), pieces]
          exact congrArg (Option.map _) hrest

theorem ne_nil_of_mem_tokens {line token : List UInt8} (hmem : token ∈ tokens line) :
    token ≠ [] := by
  have hne := List.of_mem_filter hmem
  simpa using hne

theorem genArgs_cutInto (a : ArgArrays) {line : List UInt8}
    (hfit : (cString line).length ≤ cmdLen) (hvisible : StartsVisible (cString line)) :
    ∃ a' strings, genArgs a line = .ok (some (tokens (cString line)).length, a') ∧
      strings.map Prod.snd = tokens (cString line) ∧ CutInto cmdLen a' strings ∧
      a'.argtable (tokens (cString line)).length = none := by
  have hfew := length_tokensFrom_le hvisible
  have hroom : (tokensFrom 0 (cString line)).length ≤ argCutter.num := by
    simp only [cmdLen, argCutter, argNum] at hfit ⊢
    omega
  have hcut := argCutter_reads.cut a hvisible
  rw [if_pos (show _ ≤ argCutter.len from hfit), pieces_eq_tokensFrom hvisible hroom]
    at hcut
  obtain ⟨⟨argc, a'⟩, hrun, strings, hstrings, hargc, hcut, hnull⟩ := hcut
  simp only [List.length_nil, Nat.zero_add, List.nil_append] at hargc hcut hnull
  subst hargc
  exact ⟨a', strings, hrun, hstrings, hcut, hnull⟩

/-- The arguments of a line that does not begin with a blank are its tokens: each
one stands in `sc` with its NUL, and `NULL` is behind the last one. -/
theorem shellGenArgs_tokens (a : ArgArrays) {line : List UInt8}
    (hfit : (cString line).length ≤ cmdLen)
    (hvisible : ∀ c ∈ (cString line).head?, Visible c) :
    ∃ a', genArgs a line = .ok (some (tokens (cString line)).length, a') ∧
      a'.argtable (tokens (cString line)).length = none ∧
      ∀ k token, (tokens (cString line))[k]? = some token → token ≠ [] ∧
        ∃ o, a'.argtable k = some o ∧ o + token.length ≤ cmdLen ∧
          StringAt a'.sc o token := by
  obtain ⟨a', strings, hrun, hstrings, hcut, hnull⟩ := genArgs_cutInto a hfit hvisible
  refine ⟨a', hrun, hnull, fun k token hk => ?_⟩
  rw [← hstrings, List.getElem?_map, Option.map_eq_some_iff] at hk
  obtain ⟨p, hp, rfl⟩ := hk
  have hmem := List.mem_of_getElem? hp
  have htoken : p.2 ∈ tokens (cString line) := by
    rw [← hstrings]
    exact List.mem_map_of_mem hmem
  exact ⟨ne_nil_of_mem_tokens htoken, p.1, hcut.pointers k p hp, hcut.inside p hmem,
    hcut.string_at p hmem⟩

/-- Arrays that nothing was put into. -/
def emptyArrays : ArgArrays := ⟨fun _ => 0, fun _ => none⟩

/-- `a\ ` with a tab and a space behind it, and `\  b` with two spaces. -/
theorem shellGenArgs_tokens_escaped :
    ∃ a', genArgs emptyArrays [97, 92, 32, 9, 32, 92, 32, 32, 98] =
        .ok (some 3, a') ∧
      a'.argtable 3 = none ∧
      ∀ k token, [[97, 92, 32], [92, 32], [98]][k]? = some token → token ≠ [] ∧
        ∃ o, a'.argtable k = some o ∧ o + token.length ≤ cmdLen ∧
          StringAt a'.sc o token := by
  have htokens : tokens (cString [97, 92, 32, 9, 32, 92, 32, 32, 98]) =
      [[97, 92, 32], [92, 32], [98]] := by decide
  have hline := @shellGenArgs_tokens emptyArrays [97, 92, 32, 9, 32, 92, 32, 32, 98]
    (by decide) (by decide +kernel)
  rwa [htokens] at hline

/-! ## The text as a list -/

theorem halts_tokens {done : List (List UInt8)} {prev : UInt8} {text : List UInt8}
    (hvisible : ∀ c ∈ text.head?, Visible c)
    (hroom : done.length + (tokensFrom 0 text).length ≤ argNum) :
    Halts argTurn ⟨done, prev, text⟩ (some (done ++ tokensFrom 0 text)) := by
  induction hlen : text.length using Nat.strong_induction_on
    generalizing done prev text with
  | _ n ih =>
      subst hlen
      cases text with
      | nil =>
          rw [tokensFrom_nil, List.append_nil]
          exact Halts.of_stop (if_pos rfl)
      | cons c text =>
          have hc := hvisible c rfl
          have hsame : takeArg prev (c :: text) = takeArg 0 (c :: text) := by
            rw [takeArg_of_visible hc, takeArg_of_visible hc]
          rw [tokensFrom_cons hc, List.length_cons] at hroom
          have hturn : argTurn ⟨done, prev, c :: text⟩ =
              .next ⟨done ++ [(takeArg 0 (c :: text)).1], 0,
                skipBlanks (takeArg 0 (c :: text)).2⟩ := by
            unfold argTurn
            dsimp only
            rw [if_neg (List.cons_ne_nil c text), if_neg (by omega), hsame]
          have hshort := argTurn_shortens hturn
          have hrest := @ih _ hshort (done ++ [(takeArg 0 (c :: text)).1]) 0
            (skipBlanks (takeArg 0 (c :: text)).2) ?_ ?_ rfl
          · rw [List.append_assoc, List.singleton_append] at hrest
            rw [tokensFrom_cons hc]
            exact Halts.of_next hturn hrest
          · intro d hd
            obtain ⟨more, hmore⟩ := List.head?_eq_some_iff.mp hd
            exact visible_of_skipBlanks hmore
          · rw [List.length_append, List.length_singleton]
            omega

/-- The arguments as lists are the tokens, too. -/
theorem shellGenArgs_eq_tokens (before : UInt8) {line : List UInt8}
    (hfit : (cString line).length ≤ cmdLen)
    (hvisible : ∀ c ∈ (cString line).head?, Visible c) :
    shellGenArgs before line = .ok (some (tokens (cString line))) := by
  have hfew := length_tokensFrom_le hvisible
  refine shellGenArgs_of_halts hfit (halts_tokens hvisible ?_)
  simp only [cmdLen, argNum, List.length_nil] at hfit ⊢
  omega

end Shell
end Janus86
