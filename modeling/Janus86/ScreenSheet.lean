import Mathlib.Data.List.GetD
import Janus86.ScreenModel

/-!
# The screen shows a sheet

The reference is a page without end: a character goes to the pen's cell and the
pen moves on, to the next row behind the last column or with a newline.  The
rows that were scrolled off, followed by the 25 rows in text memory, are the
rows of the page, as long as no newline comes while a scroll is due.  Such a
newline makes `kprintf` scroll and does nothing else, so that a row of the page
is left out.
-/

namespace Janus86
namespace Video

open StepMachine

/-! ## The sheet -/

structure Sheet where
  rows : ℕ → Row
  row : ℕ
  col : ℕ

/-- An empty page, the pen where `kclear_screen` leaves the cursor. -/
def Sheet.empty : Sheet := ⟨fun _ => blankRow, 0, 10⟩

/-- The row with a character in a cell. -/
def Row.set (row : Row) (x : ℕ) (c : UInt8) : Row :=
  fun x' => if x'.val = x then c else row x'

def Sheet.put (p : Sheet) (c : UInt8) : Sheet :=
  if c = newline then { p with row := p.row + 1, col := 0 }
  else
    { rows := Function.update p.rows p.row ((p.rows p.row).set p.col c)
      row := if p.col + 1 = textmodeCol then p.row + 1 else p.row
      col := if p.col + 1 = textmodeCol then 0 else p.col + 1 }

def Sheet.write (p : Sheet) (text : List UInt8) : Sheet :=
  text.foldl Sheet.put p

/-! ## Rows of the screen -/

/-- The rows scrolled off and those in text memory, blank rows behind them. -/
def Screen.page (s : Screen) (r : ℕ) : Row :=
  (s.scrolled ++ s.rows).getD r blankRow

theorem page_eq (s : Screen) (r : ℕ) :
    s.page r =
      if r < s.scrolled.length then s.scrolled.getD r blankRow
      else if r - s.scrolled.length < textmodeRow then
        s.row (r - s.scrolled.length)
      else blankRow := by
  unfold Screen.page
  by_cases hold : r < s.scrolled.length
  · rw [if_pos hold, List.getD_append _ _ _ _ hold]
  · rw [if_neg hold, List.getD_append_right _ _ _ _ (Nat.le_of_not_lt hold)]
    by_cases hrow : r - s.scrolled.length < textmodeRow
    · rw [if_pos hrow, Screen.rows, List.getD_eq_getElem?_getD,
        List.getElem?_map, List.getElem?_range hrow]
      rfl
    · rw [if_neg hrow, Screen.rows, List.getD_eq_default]
      rw [List.length_map, List.length_range]
      exact Nat.le_of_not_lt hrow

theorem row_store_odd (s : Screen) (k : ℕ) (b : UInt8) (y : ℕ) :
    (s.store (2 * k + 1) b).row y = s.row y := by
  funext x
  have hne : 2 * (textmodeCol * y + x.val) ≠ 2 * k + 1 := by omega
  exact Function.update_of_ne hne _ _

theorem row_store_even (s : Screen) {x y : ℕ} (hx : x < textmodeCol)
    (c : UInt8) (y' : ℕ) :
    (s.store (2 * (textmodeCol * y + x)) c).row y' =
      if y' = y then (s.row y).set x c else s.row y' := by
  funext x'
  have hx' := x'.isLt
  simp only [textmodeCol] at hx hx'
  by_cases hy : y' = y
  · rw [if_pos hy]
    subst hy
    by_cases hcol : x'.val = x
    · simp [Screen.row, Screen.store, Row.set, hcol]
    · have hne : 2 * (textmodeCol * y' + x'.val) ≠
          2 * (textmodeCol * y' + x) := by omega
      simp only [Row.set, if_neg hcol]
      exact Function.update_of_ne hne _ _
  · rw [if_neg hy]
    have hne : 2 * (textmodeCol * y' + x'.val) ≠
        2 * (textmodeCol * y + x) := by
      simp only [textmodeCol]
      omega
    exact Function.update_of_ne hne _ _

theorem page_moveTo (s : Screen) (x y r : ℕ) :
    (s.moveTo x y).page r = s.page r := by
  have hrow : ∀ y', (s.moveTo x y).row y' = s.row y' :=
    row_store_odd { s with cursorX := x, cursorY := y } (y * textmodeCol + x)
      white
  rw [page_eq, page_eq, hrow]
  rfl

theorem row_of_scroll {s moved : Screen}
    (hmem : ∀ o, moved.vidmem o =
      if o < 3840 then s.vidmem (o + 160)
      else if o < 4000 then if o % 2 = 0 then space else black
      else s.vidmem o) {y : ℕ} (hy : y < textmodeRow) :
    moved.row y = if y + 1 < textmodeRow then s.row (y + 1) else blankRow := by
  funext x
  have hx := x.isLt
  simp only [textmodeRow] at hy ⊢
  by_cases hnext : y + 1 < 25
  · rw [if_pos hnext]
    have hlow : 2 * (80 * y + x.val) < 3840 := by omega
    have hfrom : 2 * (80 * y + x.val) + 160 = 2 * (80 * (y + 1) + x.val) := by
      ring
    change moved.vidmem (2 * (80 * y + x.val)) = s.vidmem (2 * (80 * (y + 1) + x.val))
    rw [hmem, if_pos hlow, hfrom]
  · rw [if_neg hnext]
    have hlow : ¬2 * (80 * y + x.val) < 3840 := by omega
    have hlast : 2 * (80 * y + x.val) < 4000 := by omega
    have heven : 2 * (80 * y + x.val) % 2 = 0 := by omega
    change moved.vidmem (2 * (80 * y + x.val)) = space
    rw [hmem, if_neg hlow, if_pos hlast, if_pos heven]

/-- A scroll moves a row from one list to the other one. -/
theorem page_kscrollDisplay {s : Screen} (hy : s.cursorY = textmodeRow)
    (r : ℕ) : s.kscrollDisplay.page r = s.page r := by
  obtain ⟨moved, hscroll, _, hscrolled, hmem⟩ :=
    kscrollDisplay_eq s hy (by decide)
  rw [hscroll, page_moveTo, page_eq, page_eq, hscrolled, List.length_append,
    List.length_singleton]
  rcases Nat.lt_trichotomy r s.scrolled.length with hlt | heq | hgt
  · rw [if_pos (by omega), if_pos hlt, List.getD_append _ _ _ _ hlt]
  · have hfirst : r - s.scrolled.length < textmodeRow := by
      rw [heq, Nat.sub_self]
      decide
    rw [if_pos (by omega), if_neg (by omega), if_pos hfirst,
      List.getD_append_right _ _ _ _ heq.ge, heq, Nat.sub_self]
    rfl
  · obtain ⟨k, rfl⟩ : ∃ k, r = s.scrolled.length + 1 + k :=
      ⟨r - (s.scrolled.length + 1), by omega⟩
    have hbelow : s.scrolled.length + 1 + k - (s.scrolled.length + 1) = k := by
      omega
    have habove : s.scrolled.length + 1 + k - s.scrolled.length = k + 1 := by
      omega
    rw [if_neg (Nat.not_lt.mpr (Nat.le_add_right _ k)), if_neg hgt.asymm, hbelow,
      habove]
    by_cases hk : k < textmodeRow
    · rw [if_pos hk, row_of_scroll hmem hk]
    · rw [if_neg hk, if_neg fun h => hk (Nat.lt_of_succ_lt h)]

/-! ## One character -/

/-- The screen shows the page, and the cursor is at the pen. -/
structure Shows (s : Screen) (p : Sheet) : Prop where
  cursor : CursorIn s.cursor
  col : s.cursorX = p.col
  row : s.scrolled.length + s.cursorY = p.row
  page : ∀ r, s.page r = p.rows r

theorem shows_kclearScreen (vidmem : ℕ → UInt8) :
    Shows (kclearScreen vidmem) Sheet.empty := by
  have hcursor : CursorIn (10, 0) := ⟨by decide, Or.inl (by decide)⟩
  refine ⟨hcursor, rfl, rfl, ?_⟩
  intro r
  rw [page_eq]
  have hnone : ¬r < (kclearScreen vidmem).scrolled.length := Nat.not_lt_zero r
  rw [if_neg hnone]
  split
  · next hr =>
      funext x
      have hr' : r < 25 := hr
      have hcell : 2 * (80 * r + x.val) < 2 * (textmodeCol * textmodeRow) := by
        simp only [textmodeCol, textmodeRow]
        omega
      have heven : 2 * (80 * r + x.val) % 2 = 0 := by omega
      change (if 2 * (80 * r + x.val) < 2 * (textmodeCol * textmodeRow) then
        if 2 * (80 * r + x.val) % 2 = 0 then space else black
        else vidmem (2 * (80 * r + x.val))) = space
      rw [if_pos hcell, if_pos heven]
  · rfl

variable {s : Screen} {p : Sheet}

theorem Shows.kscrollDisplay (h : Shows s p) (hy : s.cursorY = textmodeRow) :
    Shows s.kscrollDisplay p := by
  obtain ⟨hx', hy'⟩ := kscrollDisplay_fields hy
  obtain ⟨moved, hscroll, _, hscrolled, _⟩ :=
    kscrollDisplay_eq s hy (by decide)
  have hcount : s.kscrollDisplay.scrolled.length = s.scrolled.length + 1 := by
    rw [hscroll, show (moved.moveTo 0 24).scrolled = moved.scrolled from rfl,
      hscrolled, List.length_append, List.length_singleton]
  have hx : s.cursorX = 0 := by
    rcases h.cursor.due_or_lt with hdue | hlt
    · exact hdue.1
    · exact absurd hy hlt.2.ne
  refine ⟨?_, ?_, ?_, fun r => ?_⟩
  · rw [kscrollDisplay_cursor hy]
    exact ⟨by decide, Or.inl (by decide)⟩
  · rw [hx', ← h.col, hx]
  · rw [hcount, hy', ← h.row, hy]
    simp only [textmodeRow]
  · rw [page_kscrollDisplay hy, h.page]

theorem Shows.put_newline (h : Shows s p) (hy : s.cursorY < textmodeRow) :
    Shows (s.put newline) (p.put newline) := by
  refine ⟨put_in h.cursor newline, ?_, ?_, fun r => ?_⟩
  · rw [put_newline_of_lt hy]
    rfl
  · rw [put_newline_of_lt hy]
    change s.scrolled.length + (s.cursorY + 1) = p.row + 1
    rw [← h.row]
    ring
  · rw [put_newline_of_lt hy, page_moveTo, h.page]
    rfl

theorem Shows.put_char (h : Shows s p) {c : UInt8} (hc : c ≠ newline)
    (hy : s.cursorY < textmodeRow) : Shows (s.put c) (p.put c) := by
  have hx : s.cursorX < textmodeCol := h.cursor.1
  have hput := put_of_lt hc hx hy
  have hsheet : p.put c = _ := if_neg hc
  have hpage : s.page p.row = s.row s.cursorY := by
    rw [page_eq, ← h.row, if_neg (by omega), Nat.add_sub_cancel_left, if_pos hy]
  refine ⟨put_in h.cursor c, ?_, ?_, fun r => ?_⟩
  · rw [hput, hsheet, ← h.col]
    change (nextCell s.cursorX s.cursorY).1 = _
    unfold nextCell
    split <;> rfl
  · rw [hput, hsheet, ← h.col, ← h.row]
    change s.scrolled.length + (nextCell s.cursorX s.cursorY).2 = _
    unfold nextCell
    split <;> rfl
  · have hindex : s.index = 2 * (textmodeCol * s.cursorY + s.cursorX) := by
      rw [Screen.index]
      ring
    rw [hput, hsheet, page_moveTo, page_eq, hindex, row_store_odd,
      row_store_even s hx]
    change (if r < s.scrolled.length then s.scrolled.getD r blankRow else
        if r - s.scrolled.length < textmodeRow then
          if r - s.scrolled.length = s.cursorY then
            (s.row s.cursorY).set s.cursorX c
          else s.row (r - s.scrolled.length)
        else blankRow) =
      Function.update p.rows p.row ((p.rows p.row).set p.col c) r
    rw [Function.update_apply, ← h.page p.row, hpage, ← h.col, ← h.page r,
      page_eq, ← h.row]
    by_cases hr : r = s.scrolled.length + s.cursorY
    · have hold : ¬r < s.scrolled.length := by omega
      have hsub : r - s.scrolled.length = s.cursorY := by omega
      rw [if_neg hold, if_pos hr, hsub, if_pos hy, if_pos rfl]
    · rw [if_neg hr]
      by_cases hold : r < s.scrolled.length
      · rw [if_pos hold, if_pos hold]
      · have hother : ¬r - s.scrolled.length = s.cursorY := by omega
        rw [if_neg hold, if_neg hold, if_neg hother]

/-! ## Lost newlines -/

/-- A newline that finds a scroll due. -/
def LostNewline (cursor : ℕ × ℕ) (c : UInt8) : Prop :=
  cursor.2 = textmodeRow ∧ c = newline

instance (cursor : ℕ × ℕ) (c : UInt8) : Decidable (LostNewline cursor c) :=
  inferInstanceAs (Decidable (_ ∧ _))

theorem Shows.put (h : Shows s p) (c : UInt8) :
    Shows (s.put c) (if LostNewline s.cursor c then p else p.put c) := by
  rcases h.cursor.due_or_lt with ⟨_, hy⟩ | ⟨_, hy⟩
  · by_cases hc : c = newline
    · rw [if_pos ⟨hy, hc⟩, hc, put_newline_of_due hy]
      exact h.kscrollDisplay hy
    · have hy' := (kscrollDisplay_fields hy).2
      rw [if_neg fun hlost => hc hlost.2, put_of_due hc hy]
      exact (h.kscrollDisplay hy).put_char hc (by rw [hy']; decide)
  · rw [if_neg fun hlost => hy.ne hlost.1]
    by_cases hc : c = newline
    · rw [hc]
      exact h.put_newline hy
    · exact h.put_char hc hy

/-- The text without its lost newlines, from a place of the cursor on. -/
def kept : ℕ × ℕ → List UInt8 → List UInt8
  | _, [] => []
  | cursor, c :: text =>
      if LostNewline cursor c then kept (cursorAfter cursor c) text
      else c :: kept (cursorAfter cursor c) text

/-- The screen shows what a page shows that is not told of the newlines that
were lost. -/
theorem Shows.putText (h : Shows s p) (text : List UInt8) :
    Shows (s.putText s.index text) (p.write (kept s.cursor text)) := by
  rw [putText_eq_foldl h.cursor]
  induction text generalizing s p with
  | nil => exact h
  | cons c text ih =>
      have hnext := ih (h.put c)
      rw [put_cursor h.cursor] at hnext
      rw [List.foldl_cons, kept]
      by_cases hlost : LostNewline s.cursor c
      · rw [if_pos hlost] at hnext ⊢
        exact hnext
      · rw [if_neg hlost] at hnext ⊢
        exact hnext

theorem kept_of_avoids {cursor : ℕ × ℕ} {text : List UInt8}
    (havoids : Avoids LostNewline cursor text) : kept cursor text = text := by
  induction text generalizing cursor with
  | nil => rfl
  | cons c text ih => rw [kept, if_neg havoids.1, ih havoids.2]

/-! ## Runs -/

/-- A call on the screen, and its text on the page. -/
def printStep (q : Screen × Sheet) (call : Call) (q' : Screen × Sheet) : Prop :=
  q.1.kprintf call.fmt call.args = .ok q'.1 ∧
    ∃ text, formatted call.fmt call.args = .ok text ∧ q'.2 = q.2.write text

/-- The call prints no newline while a scroll is due. -/
def Call.KeepsNewlines (call : Call) (s : Screen) : Prop :=
  ∀ text, formatted call.fmt call.args = .ok text →
    Avoids LostNewline s.cursor text

theorem shows_of_printStep {q q' : Screen × Sheet} {call : Call}
    (h : Shows q.1 q.2) (hstep : printStep q call q')
    (hkeeps : call.KeepsNewlines q.1) : Shows q'.1 q'.2 := by
  obtain ⟨hscreen, text, htext, hsheet⟩ := hstep
  obtain ⟨text', htext', hq'⟩ := kprintf_eq_ok_iff.mp hscreen
  obtain rfl : text = text' := Except.ok.inj (htext.symm.trans htext')
  have hput := h.putText text
  rw [kept_of_avoids (hkeeps text htext)] at hput
  rw [hq', hsheet]
  exact hput

/-- The rows scrolled off and the rows in text memory are the rows of the page
after each call, when no call has printed a newline while a scroll was due. -/
theorem rows_eq_sheet {vidmem : ℕ → UInt8}
    {calls : List (Transition (Screen × Sheet) Call)}
    (hpath : StepPath printStep (kclearScreen vidmem, Sheet.empty) calls)
    (hkeeps : ∀ t ∈ calls, t.label.KeepsNewlines t.before.1) :
    ∀ t ∈ calls, ∀ r,
      (t.after.1.scrolled ++ t.after.1.rows).getD r blankRow =
        t.after.2.rows r := by
  have hshows : ∀ t ∈ calls, Shows t.after.1 t.after.2 :=
    hpath.forall_after (shows_kclearScreen vidmem)
      (fun _ _ _ => shows_of_printStep) hkeeps
  intro t ht r
  exact (hshows t ht).page r

/-- A text of `n` newlines and an `A`. -/
def newlinesThenA (n : ℕ) : List UInt8 := List.replicate n newline ++ [65]

/-- The call that prints it. -/
def printNewlinesThenA (n : ℕ) : Call := ⟨newlinesThenA n ++ [0], fun _ => ⟨0, []⟩⟩

theorem rows_eq_sheet_newlines :
    ∃ s, (kclearScreen fun _ => 0).kprintf (printNewlinesThenA 25).fmt
        (printNewlinesThenA 25).args = .ok s ∧
      ∀ r, (s.scrolled ++ s.rows).getD r blankRow =
        (Sheet.empty.write (newlinesThenA 25)).rows r := by
  obtain ⟨start, hstart⟩ : ∃ s, s = kclearScreen fun _ => 0 := ⟨_, rfl⟩
  have htext : formatted (printNewlinesThenA 25).fmt
      (printNewlinesThenA 25).args = .ok (newlinesThenA 25) :=
    formatted_eq_ok_of_toOption (by decide +kernel)
  rw [← hstart]
  refine ⟨_, kprintf_eq_ok_iff.mpr ⟨_, htext, rfl⟩, ?_⟩
  obtain ⟨last, hlast⟩ : ∃ s, s = start.putText start.index (newlinesThenA 25) :=
    ⟨_, rfl⟩
  rw [← hlast]
  have hcall : printStep (start, Sheet.empty) (printNewlinesThenA 25)
      (last, Sheet.empty.write (newlinesThenA 25)) :=
    ⟨kprintf_eq_ok_iff.mpr ⟨_, htext, hlast⟩, _, htext, rfl⟩
  have hkeeps : (printNewlinesThenA 25).KeepsNewlines start := by
    intro text htext'
    obtain rfl := Except.ok.inj (htext.symm.trans htext')
    rw [hstart]
    change Avoids LostNewline (10, 0) (newlinesThenA 25)
    decide +kernel
  rw [hstart] at hcall hkeeps
  have hpath : StepPath printStep (kclearScreen fun _ => 0, Sheet.empty)
      [⟨_, _, _⟩] := ⟨rfl, hcall, trivial⟩
  exact rows_eq_sheet hpath (List.forall_mem_singleton.mpr hkeeps) _
    List.mem_cons_self

/-- Of 26 newlines on a cleared screen the last one is lost, and the `A` behind
it comes one row too high. -/
theorem newline_lost_on_full_screen :
    ∃ calls : List (Transition (Screen × Sheet) Call),
      StepPath printStep (kclearScreen fun _ => 0, Sheet.empty) calls ∧
        ¬ ∀ t ∈ calls, ∀ r,
          (t.after.1.scrolled ++ t.after.1.rows).getD r blankRow =
            t.after.2.rows r := by
  obtain ⟨start, hstart⟩ : ∃ s, s = kclearScreen fun _ => 0 := ⟨_, rfl⟩
  obtain ⟨last, hlast⟩ : ∃ s, s = start.putText start.index (newlinesThenA 26) :=
    ⟨_, rfl⟩
  have htext : formatted (printNewlinesThenA 26).fmt
      (printNewlinesThenA 26).args = .ok (newlinesThenA 26) :=
    formatted_eq_ok_of_toOption (by decide +kernel)
  have hcall : printStep (start, Sheet.empty) (printNewlinesThenA 26)
      (last, Sheet.empty.write (newlinesThenA 26)) :=
    ⟨kprintf_eq_ok_iff.mpr ⟨_, htext, hlast⟩, _, htext, rfl⟩
  have hshows : Shows last (Sheet.empty.write (kept (10, 0) (newlinesThenA 26))) := by
    rw [hlast, hstart]
    exact (shows_kclearScreen _).putText _
  rw [← hstart]
  refine ⟨[⟨_, _, _⟩], ⟨rfl, hcall, trivial⟩, fun hall => ?_⟩
  have hpage : last.page 26 = (Sheet.empty.write (newlinesThenA 26)).rows 26 :=
    hall _ List.mem_cons_self 26
  have hcell := congrFun (hpage.symm.trans (hshows.page 26)) 0
  revert hcell
  decide +kernel

end Video
end Janus86
