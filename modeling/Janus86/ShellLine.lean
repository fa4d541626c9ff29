import Janus86.ScreenSession
import Janus86.ShellTokens

/-!
# The line editor

`getline` stores what is typed into a buffer that it does not clear.  The blanks in
front of the line are stripped before the NUL is stored behind it, and a line of
blanks does not stop them: the search goes on in what the lines before have left.
The NUL comes behind the line all the same, in front of the string that is
returned.
-/

namespace Janus86
namespace Shell

open ZeroTerminated
open Video (backspace)

/-! ## What is typed -/

def editKey (line : List UInt8) (ch : UInt8) : List UInt8 :=
  if ch = backspace then line.dropLast else line ++ [ch]

/-- The keys in front of the one that ends the line; a backspace takes back the last
character that is left. -/
def editedLine (keys : List UInt8) : List UInt8 := keys.foldl editKey []

/-- The character that was typed last in a place of the line. -/
def lastTyped (i : ℕ) : List UInt8 → List UInt8 → Option UInt8
  | _, [] => none
  | line, ch :: keys =>
      (lastTyped i (editKey line ch) keys).or
        (if ch ≠ backspace ∧ i = line.length then some ch else none)

/-- What the places hold that the line does not reach. -/
def leftBehind (mem : Buffer) (keys : List UInt8) (i : ℕ) : UInt8 :=
  (lastTyped i [] keys).getD (mem i)

/-! ## shell.c -/

/-- The buffer, of which `buf` is the offset. -/
structure LineState where
  mem : Buffer
  buf : ℕ
  bufIndex : ℤ

/-- A key in the loop of `getline`. -/
def lineKey (size : ℕ) (s : LineState) (ch : UInt8) : Except Fault LineState :=
  if ch = backspace then
    if 0 < s.bufIndex then .ok { s with buf := s.buf - 1, bufIndex := s.bufIndex - 1 }
    else .ok s
  else do
    let mem ← storeByte size s.mem s.buf ch
    pure ⟨mem, s.buf + 1, s.bufIndex + 1⟩

/-- `strip_leading_whitespace`, with so many bytes left in the buffer. -/
def stripLeadingWhitespace (mem : Buffer) : ℕ → ℕ → ℤ → Except Fault (ℕ × ℤ)
  | 0, _, _ => .error .outOfBounds
  | left + 1, s, index =>
      if mem s = 32 ∨ mem s = 9 then
        stripLeadingWhitespace mem left (s + 1) (index - 1)
      else .ok (s, index)

/-- `getline` with the keys in front of the one that ends the line: the buffer, and
the offset of the string in it. -/
def getline (size : ℕ) (mem : Buffer) (keys : List UInt8) :
    Except Fault (Buffer × ℕ) := do
  let s ← keys.foldlM (lineKey size) ⟨mem, 0, 0⟩
  let (c, bufIndex) ← stripLeadingWhitespace s.mem size 0 s.bufIndex
  let mem ← storeByte size s.mem (c + bufIndex).toNat 0
  pure (mem, c)

/-- The string that is returned is the line without the blanks in front of it. -/
def ReturnsEditedLine (size : ℕ) (mem : Buffer) (keys : List UInt8) : Prop :=
  ∃ mem' c, getline size mem keys = .ok (mem', c) ∧
    StringAt mem' c (skipBlanks (editedLine keys))

/-- Behind a line of blanks the first byte that is no blank is the one next to it, or
a NUL. -/
def CleanBehind (size : ℕ) (mem : Buffer) (keys : List UInt8) : Prop :=
  ∃ j, (editedLine keys).length + j < size ∧
    (∀ i < j, ¬ Visible (leftBehind mem keys ((editedLine keys).length + i))) ∧
    Visible (leftBehind mem keys ((editedLine keys).length + j)) ∧
    (j = 0 ∨ leftBehind mem keys ((editedLine keys).length + j) = 0)

/-! ## The loop -/

theorem lineKey_ok {size : ℕ} {mem : Buffer} {line : List UInt8}
    (hline : CellsAt mem 0 line) (ch : UInt8) (hroom : line.length < size) :
    ∃ mem', lineKey size ⟨mem, line.length, line.length⟩ ch =
        .ok ⟨mem', (editKey line ch).length, (editKey line ch).length⟩ ∧
      CellsAt mem' 0 (editKey line ch) ∧
      ∀ i, mem' i =
        (if ch ≠ backspace ∧ i = line.length then some ch else none).getD (mem i) := by
  unfold lineKey editKey
  by_cases hch : ch = backspace
  · simp only [hch, ne_eq, not_true_eq_false, false_and, if_true, if_false,
      Option.getD_none]
    refine ⟨mem, ?_, ?_, fun _ => rfl⟩
    · cases line using List.reverseRecOn with
      | nil => rfl
      | append_singleton line c _ =>
          have hlen : (line ++ [c]).length = line.length + 1 := by simp
          rw [List.dropLast_concat, hlen, if_pos (by omega)]
          simp
    · cases line using List.reverseRecOn with
      | nil => exact hline
      | append_singleton line c _ =>
          rw [List.dropLast_concat]
          exact (cellsAt_append.mp hline).1
  · rw [if_neg hch, if_neg hch, storeByte_of_lt hroom, ok_bind]
    refine ⟨Function.update mem line.length ch, ?_, ?_, fun i => ?_⟩
    · rw [List.length_append, List.length_singleton]
      rfl
    · refine cellsAt_append.mpr ⟨hline.congr fun i _ hlt => ?_, ?_, trivial⟩
      · exact Function.update_of_ne (show i ≠ line.length by omega) ch mem
      · rw [Nat.zero_add, Function.update_self]
    · by_cases hi : i = line.length
      · rw [hi, Function.update_self, if_pos ⟨hch, rfl⟩]
        rfl
      · rw [Function.update_of_ne hi, if_neg fun h => hi h.2]
        rfl

theorem length_editKey_le (line : List UInt8) (ch : UInt8) :
    (editKey line ch).length ≤ line.length + 1 := by
  unfold editKey
  split
  · rw [List.length_dropLast]
    omega
  · rw [List.length_append, List.length_singleton]

theorem length_foldl_editKey_le (line keys : List UInt8) :
    (keys.foldl editKey line).length ≤ line.length + keys.length := by
  induction keys generalizing line with
  | nil => exact le_rfl
  | cons ch keys ih =>
      have hrest := ih (editKey line ch)
      have hkey := length_editKey_le line ch
      rw [List.foldl_cons, List.length_cons]
      omega

/-- In the buffer stands the line, and behind it what was typed there last. -/
theorem lineKeys_ok {size : ℕ} {mem : Buffer} {line : List UInt8}
    (hline : CellsAt mem 0 line) {keys : List UInt8}
    (hroom : line.length + keys.length < size) :
    ∃ mem', keys.foldlM (lineKey size) ⟨mem, line.length, line.length⟩ =
        .ok ⟨mem', (keys.foldl editKey line).length, (keys.foldl editKey line).length⟩ ∧
      CellsAt mem' 0 (keys.foldl editKey line) ∧
      ∀ i, mem' i = (lastTyped i line keys).getD (mem i) := by
  induction keys generalizing mem line with
  | nil => exact ⟨mem, rfl, hline, fun _ => rfl⟩
  | cons ch keys ih =>
      rw [List.length_cons] at hroom
      have hlength := length_editKey_le line ch
      obtain ⟨mem₁, hkey, hline₁, hmem₁⟩ := @lineKey_ok size mem line hline ch (by omega)
      obtain ⟨mem₂, hkeys, hline₂, hmem₂⟩ := ih hline₁ (by omega)
      refine ⟨mem₂, ?_, hline₂, fun i => ?_⟩
      · rw [List.foldlM_cons, hkey]
        exact hkeys
      · rw [hmem₂, hmem₁, lastTyped, Option.getD_or]

theorem stripLeadingWhitespace_eq_ok_iff {mem : Buffer} {left s c : ℕ}
    {index index' : ℤ} :
    stripLeadingWhitespace mem left s index = .ok (c, index') ↔
      ∃ j < left, c = s + j ∧ index' = index - j ∧
        (∀ i < j, ¬ Visible (mem (s + i))) ∧ Visible (mem (s + j)) := by
  induction left generalizing s index with
  | zero => simp [stripLeadingWhitespace]
  | succ left ih =>
      rw [stripLeadingWhitespace]
      by_cases hhere : Visible (mem s)
      · rw [if_neg fun h => h.elim hhere.1 hhere.2]
        constructor
        · intro h
          cases h
          exact ⟨0, Nat.succ_pos left, rfl, by simp, by simp, hhere⟩
        · rintro ⟨j, _, rfl, rfl, hblank, _⟩
          cases j with
          | zero => simp
          | succ j => exact absurd hhere (hblank 0 (Nat.succ_pos j))
      · rw [if_pos (cases_of_not_visible hhere), ih]
        constructor
        · rintro ⟨j, hj, rfl, rfl, hblank, hvisible⟩
          refine ⟨j + 1, by omega, by omega, by push_cast; ring, fun i hi => ?_, ?_⟩
          · cases i with
            | zero => exact hhere
            | succ i =>
                rw [← Nat.add_assoc, Nat.add_right_comm]
                exact hblank i (by omega)
          · rw [← Nat.add_assoc, Nat.add_right_comm]
            exact hvisible
        · rintro ⟨j, hj, rfl, rfl, hblank, hvisible⟩
          cases j with
          | zero => exact absurd hvisible hhere
          | succ j =>
              refine ⟨j, by omega, by omega, by push_cast; ring, fun i hi => ?_, ?_⟩
              · rw [Nat.add_right_comm, Nat.add_assoc]
                exact hblank (i + 1) (by omega)
              · rw [Nat.add_right_comm, Nat.add_assoc]
                exact hvisible

/-! ## The string that is returned -/

theorem skipBlanks_of_blank {line : List UInt8} (hblank : ∀ c ∈ line, ¬ Visible c) :
    skipBlanks line = [] := by
  induction line with
  | nil => rfl
  | cons c line ih =>
      rw [skipBlanks_of_not_visible (hblank c List.mem_cons_self)]
      exact ih fun d hd => hblank d (List.mem_cons_of_mem c hd)

/-- The blanks in front of the first character that is none. -/
theorem exists_visible_split {line : List UInt8} (hvisible : ∃ c ∈ line, Visible c) :
    ∃ blanks c rest, line = blanks ++ c :: rest ∧ (∀ b ∈ blanks, ¬ Visible b) ∧
      Visible c := by
  induction line with
  | nil => simp at hvisible
  | cons c line ih =>
      by_cases hc : Visible c
      · exact ⟨[], c, line, rfl, by simp, hc⟩
      · obtain ⟨d, hd, hdvisible⟩ := hvisible
        rcases List.mem_cons.mp hd with rfl | hd
        · exact absurd hdvisible hc
        · obtain ⟨blanks, e, rest, rfl, hblanks, he⟩ := ih ⟨d, hd, hdvisible⟩
          refine ⟨c :: blanks, e, rest, rfl, fun b hb => ?_, he⟩
          rcases List.mem_cons.mp hb with rfl | hb
          · exact hc
          · exact hblanks b hb

theorem skipBlanks_append {blanks : List UInt8} {c : UInt8} {rest : List UInt8}
    (hblanks : ∀ b ∈ blanks, ¬ Visible b) (hc : Visible c) :
    skipBlanks (blanks ++ c :: rest) = c :: rest := by
  induction blanks with
  | nil => exact skipBlanks_of_visible hc rest
  | cons b blanks ih =>
      rw [List.cons_append, skipBlanks_of_not_visible (hblanks b List.mem_cons_self)]
      exact ih fun d hd => hblanks d (List.mem_cons_of_mem b hd)

theorem not_mem_of_blank {line : List UInt8} (hblank : ∀ c ∈ line, ¬ Visible c) :
    0 ∉ line :=
  fun h => hblank 0 h (by decide)

theorem length_editedLine_lt {size : ℕ} {keys : List UInt8}
    (hlarge : keys.length < size) : (editedLine keys).length < size := by
  have hle := length_foldl_editKey_le [] keys
  rw [List.length_nil, Nat.zero_add] at hle
  exact lt_of_le_of_lt hle hlarge

/-- What is in the buffer when the line is ended. -/
theorem getline_typed {size : ℕ} (mem : Buffer) {keys : List UInt8}
    (hlarge : keys.length < size) :
    keys.foldlM (lineKey size) ⟨mem, 0, 0⟩ = .ok ⟨leftBehind mem keys,
        (editedLine keys).length, (editedLine keys).length⟩ ∧
      CellsAt (leftBehind mem keys) 0 (editedLine keys) := by
  obtain ⟨typed, hkeys, hline, htyped⟩ :=
    @lineKeys_ok size mem [] trivial keys (by rwa [List.length_nil, Nat.zero_add])
  obtain rfl : typed = leftBehind mem keys := funext htyped
  exact ⟨hkeys, hline⟩

/-- How far the blanks are stripped, and where the NUL is stored. -/
theorem getline_eq_ok_iff {size : ℕ} {mem mem' : Buffer} {keys : List UInt8} {c : ℕ}
    (hlarge : keys.length < size) :
    getline size mem keys = .ok (mem', c) ↔
      mem' = Function.update (leftBehind mem keys) (editedLine keys).length 0 ∧
        c < size ∧ (∀ i < c, ¬ Visible (leftBehind mem keys i)) ∧
        Visible (leftBehind mem keys c) := by
  have hshort := length_editedLine_lt hlarge
  have hback : ∀ j : ℕ, ((j : ℤ) + ((editedLine keys).length - j)).toNat =
      (editedLine keys).length := fun j => by omega
  unfold getline
  rw [(getline_typed mem hlarge).1, ok_bind]
  constructor
  · intro h
    obtain ⟨⟨c', index⟩, hstrip, h⟩ := bind_eq_ok_iff.mp h
    obtain ⟨j, hj, rfl, rfl, hblank, hvisible⟩ :=
      stripLeadingWhitespace_eq_ok_iff.mp hstrip
    simp only [Nat.zero_add] at hblank hvisible h
    rw [hback, storeByte_of_lt hshort, ok_bind] at h
    cases h
    exact ⟨rfl, hj, hblank, hvisible⟩
  · rintro ⟨rfl, hc, hblank, hvisible⟩
    have hstrip : stripLeadingWhitespace (leftBehind mem keys) size 0
        (editedLine keys).length = .ok (c, (editedLine keys).length - c) := by
      refine stripLeadingWhitespace_eq_ok_iff.mpr ⟨c, hc, (Nat.zero_add c).symm, rfl, ?_⟩
      simpa only [Nat.zero_add] using ⟨hblank, hvisible⟩
    rw [hstrip, ok_bind]
    dsimp only
    rw [hback, storeByte_of_lt hshort]
    rfl

/-! ## When it is the line -/

section Returned

variable {size : ℕ} {mem : Buffer} {keys : List UInt8}

theorem returnsEditedLine_of_visible (hlarge : keys.length < size)
    (hzero : 0 ∉ editedLine keys) (hvisible : ∃ c ∈ editedLine keys, Visible c) :
    ReturnsEditedLine size mem keys := by
  obtain ⟨blanks, d, rest, hsplit, hblanks, hd⟩ := exists_visible_split hvisible
  have hshort := length_editedLine_lt hlarge
  have hline := (getline_typed mem hlarge).2
  rw [hsplit] at hline hzero hshort
  obtain ⟨hfirst, hcells⟩ := cellsAt_append.mp hline
  rw [Nat.zero_add] at hcells
  rw [List.length_append, List.length_cons] at hshort
  refine ⟨_, blanks.length, (getline_eq_ok_iff hlarge).mpr ⟨rfl, by omega, ?_, ?_⟩, ?_⟩
  · intro i hi
    have hcell := cellsAt_iff.mp hfirst i blanks[i] (List.getElem?_eq_getElem hi)
    rw [Nat.zero_add] at hcell
    rw [hcell]
    exact hblanks _ (List.getElem_mem hi)
  · rw [hcells.1]
    exact hd
  · rw [hsplit, skipBlanks_append hblanks hd, List.length_append]
    refine ⟨hcells.congr fun i _ hlt => Function.update_of_ne (by omega) 0 _,
      Function.update_self _ 0 _, fun h => hzero (List.mem_append_right blanks h)⟩

theorem returnsEditedLine_of_cleanBehind (hlarge : keys.length < size)
    (hblank : ∀ c ∈ editedLine keys, ¬ Visible c)
    (hclean : CleanBehind size mem keys) : ReturnsEditedLine size mem keys := by
  obtain ⟨j, hj, hbehind, hvisible, hstop⟩ := hclean
  have hline := (getline_typed mem hlarge).2
  refine ⟨_, (editedLine keys).length + j,
    (getline_eq_ok_iff hlarge).mpr ⟨rfl, hj, fun i hi => ?_, hvisible⟩, ?_⟩
  · by_cases hin : i < (editedLine keys).length
    · have hcell := cellsAt_iff.mp hline i (editedLine keys)[i]
        (List.getElem?_eq_getElem hin)
      rw [Nat.zero_add] at hcell
      rw [hcell]
      exact hblank _ (List.getElem_mem hin)
    · have hstale := hbehind (i - (editedLine keys).length) (by omega)
      rwa [Nat.add_sub_cancel' (Nat.not_lt.mp hin)] at hstale
  · rw [skipBlanks_of_blank hblank, stringAt_nil_iff]
    rcases hstop with rfl | hstop
    · exact Function.update_self _ 0 _
    · rw [Function.update_apply]
      split
      · rfl
      · exact hstop

theorem cleanBehind_of_returns (hlarge : keys.length < size)
    (hblank : ∀ c ∈ editedLine keys, ¬ Visible c)
    (hreturns : ReturnsEditedLine size mem keys) : CleanBehind size mem keys := by
  obtain ⟨mem', c, hrun, hstring⟩ := hreturns
  obtain ⟨rfl, hc, hbefore, hvisible⟩ := (getline_eq_ok_iff hlarge).mp hrun
  have hline := (getline_typed mem hlarge).2
  have hbeyond : (editedLine keys).length ≤ c := by
    by_contra hlt
    have hin : c < (editedLine keys).length := by omega
    have hcell := cellsAt_iff.mp hline c (editedLine keys)[c]
      (List.getElem?_eq_getElem hin)
    rw [Nat.zero_add] at hcell
    rw [hcell] at hvisible
    exact hblank _ (List.getElem_mem hin) hvisible
  obtain ⟨j, rfl⟩ := Nat.exists_eq_add_of_le hbeyond
  rw [skipBlanks_of_blank hblank, stringAt_nil_iff, Function.update_apply] at hstring
  refine ⟨j, hc, fun i hi => hbefore _ (by omega), hvisible, ?_⟩
  by_cases hj : j = 0
  · exact Or.inl hj
  · rw [if_neg (by omega)] at hstring
    exact Or.inr hstring

/-- The string is the line exactly when nothing in the line is a NUL and the line has
a character that is no blank, or what is left behind it does no harm. -/
theorem returnsEditedLine_iff (hlarge : keys.length < size) :
    ReturnsEditedLine size mem keys ↔
      0 ∉ editedLine keys ∧
        ((∃ c ∈ editedLine keys, Visible c) ∨ CleanBehind size mem keys) := by
  by_cases hvisible : ∃ c ∈ editedLine keys, Visible c
  · constructor
    · rintro ⟨mem', c, _, hstring⟩
      obtain ⟨blanks, d, rest, hsplit, hblanks, hd⟩ := exists_visible_split hvisible
      rw [hsplit, skipBlanks_append hblanks hd] at hstring
      refine ⟨?_, Or.inl hvisible⟩
      rw [hsplit, List.mem_append, not_or]
      exact ⟨not_mem_of_blank hblanks, hstring.zero_free⟩
    · rintro ⟨hzero, _⟩
      exact returnsEditedLine_of_visible hlarge hzero hvisible
  · have hblank : ∀ c ∈ editedLine keys, ¬ Visible c :=
      fun c hc h => hvisible ⟨c, hc, h⟩
    constructor
    · exact fun hreturns =>
        ⟨not_mem_of_blank hblank, Or.inr (cleanBehind_of_returns hlarge hblank hreturns)⟩
    · rintro ⟨_, hmore | hclean⟩
      · exact absurd hmore hvisible
      · exact returnsEditedLine_of_cleanBehind hlarge hblank hclean

end Returned

/-- What the line `ab ls` leaves: `shell_main` has cleared its first character. -/
def executedLine : Buffer := fun i => [0, 98, 32, 108, 115, 0].getD i 0

theorem returnsEditedLine_iff_blank :
    ReturnsEditedLine 8 executedLine [32] ↔
      0 ∉ editedLine [32] ∧
        ((∃ c ∈ editedLine [32], Visible c) ∨ CleanBehind 8 executedLine [32]) :=
  returnsEditedLine_iff (by decide)

/-- Behind two spaces `ls` is returned. -/
theorem erased_line_returned : ¬ ReturnsEditedLine 8 executedLine [32, 32] := by
  rintro ⟨mem', c, hrun, hstring⟩
  have hshown : (getline 8 executedLine [32, 32]).toOption.map (fun r => r.1 r.2) =
      some 108 := by decide
  rw [hrun] at hshown
  have hempty : skipBlanks (editedLine [32, 32]) = [] := by decide
  rw [hempty, stringAt_nil_iff] at hstring
  have hfirst : mem' c = 108 := Option.some.inj hshown
  rw [hstring] at hfirst
  exact absurd hfirst (by decide)

end Shell
end Janus86
