import Janus86.AtoiNumbers
import Janus86.FileSession
import Janus86.ScreenPieces
import Janus86.SessionSheet

/-!
# What `dump` prints

`dump -x` prints 512 bytes of the memory, two hexadecimal digits each, in rows of 32
bytes.  A row is shorter than the screen is wide and ends with a newline of its own, so
between the rows no newline is lost, however often the screen scrolls meanwhile; only the
one in front of them can be.  Many calls of `kprintf` leave what one call for all their
texts would leave, and the bytes can be read off the rows again.
-/

namespace Janus86
namespace Video

open StepMachine
open Printf (digit)
open Atoi (digitVal)

/-! ## Many calls -/

def Screen.kprintfs (s : Screen) (calls : List Call) : Except Fault Screen :=
  calls.foldlM (fun s call => s.kprintf call.fmt call.args) s

/-- On every screen the calls leave what a single one for this text would leave. -/
def PrintAll (calls : List Call) (text : List UInt8) : Prop :=
  ∀ s : Screen, CursorIn s.cursor →
    s.kprintfs calls = .ok (s.putText s.index text)

theorem printAll_singleton {call : Call} {text : List UInt8}
    (htext : formatted call.fmt call.args = .ok text) : PrintAll [call] text := by
  intro s _
  rw [Screen.kprintfs, List.foldlM_cons, kprintf_eq_ok_iff.mpr ⟨text, htext, rfl⟩]
  rfl

theorem PrintAll.append {calls more : List Call} {text rest : List UInt8}
    (hfirst : PrintAll calls text) (hsecond : PrintAll more rest) :
    PrintAll (calls ++ more) (text ++ rest) := by
  intro s hok
  have hcalls := hfirst s hok
  have hmore := hsecond _ (putText_in hok text)
  rw [Screen.kprintfs] at hcalls hmore ⊢
  rw [List.foldlM_append, hcalls, ok_bind, hmore, putText_append hok]

theorem PrintAll.ite {calls : List Call} {text : List UInt8} (c : Prop) [Decidable c]
    (hprint : PrintAll calls text) :
    PrintAll (if c then calls else []) (if c then text else []) := by
  by_cases hc : c
  · rwa [if_pos hc, if_pos hc]
  · rw [if_neg hc, if_neg hc]
    exact fun _ _ => rfl

/-- The turns of a loop that prints. -/
theorem PrintAll.flatMap {ι : Type} {calls : ι → List Call} {texts : ι → List UInt8}
    (hprint : ∀ i, PrintAll (calls i) (texts i)) (is : List ι) :
    PrintAll (is.flatMap calls) (is.flatMap texts) := by
  induction is with
  | nil => exact fun _ _ => rfl
  | cons i is ih =>
      rw [List.flatMap_cons, List.flatMap_cons]
      exact (hprint i).append ih

/-! ## Lines -/

/-- A text that is printed with a newline behind it and leaves a part of its row blank. -/
structure IsLine (line : List UInt8) : Prop where
  ne_nil : line ≠ []
  no_newline : newline ∉ line
  fits : line.length < textmodeCol

def Sheet.addLine (p : Sheet) (line : List UInt8) : Sheet :=
  ⟨Function.update p.rows p.row (lineRow line), p.row + 1, 0⟩

section Lines

variable {s : Screen} {p : Sheet}

theorem Shows.line (h : Shows s p) (hcol : p.col = 0) (hblank : p.rows p.row = blankRow)
    {line : List UInt8} (hline : IsLine line) :
    Shows (s.putText s.index (line ++ [newline])) (p.addLine line) := by
  have hput := h.putText line
  have hwrite : p.write line =
      ⟨Function.update p.rows p.row (lineRow ([] ++ line)), p.row, ([] ++ line).length⟩ :=
    Sheet.write_short hline.no_newline (hblank.trans lineRow_nil.symm) hcol
      (by simpa using hline.fits)
  rw [kept_of_no_newline hline.no_newline, hwrite, List.nil_append] at hput
  -- behind a character of the row no scroll is due
  have hy : (s.putText s.index line).cursorY < textmodeRow := by
    have hpos : 0 < (s.putText s.index line).cursorX := by
      rw [hput.col]
      exact List.length_pos_iff.mpr hline.ne_nil
    rcases hput.cursor.due_or_lt with ⟨hx, _⟩ | ⟨_, hlt⟩
    · omega
    · exact hlt
  have hend := hput.put_newline hy
  rw [← putText_append h.cursor, putText_eq_foldl hput.cursor]
  exact hend

theorem Shows.lines (h : Shows s p) (hcol : p.col = 0)
    (hblank : ∀ r, p.row ≤ r → p.rows r = blankRow) {lines : List (List UInt8)}
    (hlines : ∀ line ∈ lines, IsLine line) :
    Shows (s.putText s.index (lines.flatMap (· ++ [newline])))
      (lines.foldl Sheet.addLine p) := by
  induction lines generalizing s p with
  | nil => exact h
  | cons line lines ih =>
      rw [List.forall_mem_cons] at hlines
      have hfirst := h.line hcol (hblank _ le_rfl) hlines.1
      rw [List.flatMap_cons, ← putText_append h.cursor, List.foldl_cons]
      refine ih hfirst rfl (fun r hr => ?_) hlines.2
      have hlt : p.row < r := hr
      exact (Function.update_of_ne hlt.ne' _ _).trans (hblank r hlt.le)

theorem rows_addLines_above (lines : List (List UInt8)) {r : ℕ} (hr : r < p.row) :
    (lines.foldl Sheet.addLine p).rows r = p.rows r := by
  induction lines generalizing p with
  | nil => rfl
  | cons line lines ih =>
      have hbelow : r < (p.addLine line).row := Nat.lt_succ_of_lt hr
      rw [List.foldl_cons, ih hbelow]
      exact Function.update_of_ne hr.ne _ _

theorem rows_addLines (lines : List (List UInt8)) {k : ℕ} (hk : k < lines.length) :
    (lines.foldl Sheet.addLine p).rows (p.row + k) = lineRow (lines.getD k []) := by
  induction lines generalizing p k with
  | nil => exact absurd hk (Nat.not_lt_zero k)
  | cons line lines ih =>
      cases k with
      | zero =>
          rw [List.foldl_cons, rows_addLines_above lines (Nat.lt_succ_self p.row)]
          exact Function.update_self _ _ _
      | succ k =>
          have hrest := ih (p := p.addLine line) (Nat.lt_of_succ_lt_succ hk)
          rw [show (p.addLine line).row + k = p.row + (k + 1) by
            simp only [Sheet.addLine]; omega] at hrest
          exact hrest

/-- The row behind a newline, which may be lost. -/
def Screen.nextRow (s : Screen) : ℕ :=
  s.scrolled.length + if s.cursorY < textmodeRow then s.cursorY + 1 else s.cursorY

/-- A newline leaves all rows, whether it is lost or not. -/
theorem Shows.anyNewline (h : Shows s p) :
    Shows (s.put newline) ⟨p.rows, s.nextRow, 0⟩ := by
  have hput := h.put newline
  obtain ⟨rows, row, col⟩ := p
  obtain rfl : s.scrolled.length + s.cursorY = row := h.row
  rcases h.cursor.due_or_lt with ⟨hx, hy⟩ | ⟨_, hy⟩
  · obtain rfl : col = 0 := h.col.symm.trans hx
    rw [if_pos ⟨hy, rfl⟩] at hput
    rwa [Screen.nextRow, if_neg hy.not_lt]
  · rw [if_neg fun hlost => hy.ne hlost.1] at hput
    rw [Screen.nextRow, if_pos hy]
    exact hput

end Lines

/-! ## Blank rows -/

/-- All rows behind that of the cursor are blank. -/
structure BlankBehind (s : Screen) : Prop where
  cursor : CursorIn s.cursor
  blank : ∀ r, s.scrolled.length + s.cursorY < r → s.page r = blankRow

theorem blankBehind_kclearScreen (vidmem : ℕ → UInt8) :
    BlankBehind (kclearScreen vidmem) where
  cursor := (shows_kclearScreen vidmem).cursor
  blank := fun r _ => (shows_kclearScreen vidmem).page r

theorem Sheet.blank_write {p : Sheet} (hblank : ∀ r, p.row < r → p.rows r = blankRow)
    (text : List UInt8) :
    ∀ r, (p.write text).row < r → (p.write text).rows r = blankRow := by
  induction text generalizing p with
  | nil => exact hblank
  | cons c text ih =>
      refine ih (p := p.put c) fun r hr => ?_
      by_cases hc : c = newline
      · rw [Sheet.put, if_pos hc] at hr ⊢
        exact hblank r (Nat.lt_of_succ_lt hr)
      · rw [Sheet.put, if_neg hc] at hr ⊢
        have hlt : p.row < r := by
          dsimp only at hr
          split at hr
          · exact Nat.lt_of_succ_lt hr
          · exact hr
        dsimp only
        rw [Function.update_of_ne hlt.ne', hblank r hlt]

section Session

variable {s s' : Screen}

theorem Shows.blankBehind {p : Sheet} (h : Shows s p)
    (hblank : ∀ r, p.row < r → p.rows r = blankRow) : BlankBehind s := by
  refine ⟨h.cursor, fun r hr => ?_⟩
  rw [h.row] at hr
  rw [h.page]
  exact hblank r hr

theorem BlankBehind.putText (h : BlankBehind s) (text : List UInt8) :
    BlankBehind (s.putText s.index text) :=
  ((shows_page h.cursor).putText text).blankBehind (Sheet.blank_write h.blank _)

/-- A key that edits or ends a line comes while no scroll is due. -/
def Event.KeysInRows (s : Screen) (event : Event) : Prop :=
  ∀ ch, event = .key ch → ch = newline ∨ ch = backspace → s.cursorY < textmodeRow

/-- Whatever is printed or typed, the rows behind it stay blank. -/
theorem BlankBehind.event (h : BlankBehind s) {event : Event}
    (hstep : sessionStep s event s') (hkeys : event.KeysInRows s) : BlankBehind s' := by
  have hshows := shows_page h.cursor
  have hprinted : ∀ {call : Call}, s.kprintf call.fmt call.args = .ok s' →
      BlankBehind s' := by
    intro call hcall
    obtain ⟨text, _, rfl⟩ := kprintf_eq_ok_iff.mp hcall
    exact h.putText text
  cases event with
  | prompt => exact (hshows.printPrompt hstep).blankBehind (Sheet.blank_write h.blank prompt)
  | print call => exact hprinted hstep
  | key ch =>
      simp only [sessionStep, Screen.event, Screen.getline] at hstep
      by_cases hnew : ch = newline
      · rw [if_pos hnew] at hstep
        obtain rfl := Except.ok.inj hstep
        have hend := hshows.endLine (hkeys ch rfl (Or.inl hnew))
        exact hend.blankBehind fun r hr => h.blank r (Nat.lt_of_succ_lt hr)
      rw [if_neg hnew] at hstep
      by_cases hback : ch = backspace
      · rw [if_pos hback] at hstep
        have herased := hshows.eraseChar (hkeys ch rfl (Or.inr hback)) hstep
        refine herased.blankBehind fun r hr => ?_
        have hlt : s.scrolled.length + s.cursorY < r := hr
        exact (Function.update_of_ne hlt.ne' _ _).trans (h.blank r hlt)
      rw [if_neg hback] at hstep
      exact hprinted hstep

theorem session_blankBehind {vidmem : ℕ → UInt8} {events : List (Transition Screen Event)}
    (hpath : StepPath sessionStep (kclearScreen vidmem) events)
    (hkeys : ∀ t ∈ events, t.label.KeysInRows t.before) :
    ∀ t ∈ events, BlankBehind t.after :=
  hpath.forall_after (blankBehind_kclearScreen vidmem)
    (fun _ _ _ h hstep hkey => h.event hstep hkey) hkeys

end Session

/-! ## A dump -/

/-- `kprintf("%02x", b)` with a `UCHAR`. -/
def hexCall (b : UInt8) : Call :=
  ⟨[37, 48, 50, 120, 0], fun _ => ⟨UInt32.ofNat b.toNat, []⟩⟩

/-- `kprintf("%c", b)` with a `UCHAR`. -/
def byteCall (b : UInt8) : Call :=
  ⟨[37, 99, 0], fun _ => ⟨UInt32.ofNat b.toNat, []⟩⟩

/-- Turn `i` of the loop that prints digits. -/
def dumpTurn (mem : Buffer) (dumpMem i : ℕ) : List Call :=
  [hexCall (mem (dumpMem + (i - 1)))] ++
    ((if i % 4 = 0 then [textCall [space]] else []) ++
      if i % 32 = 0 then [textCall [newline]] else [])

/-- The branch `x`. -/
def dumpHex (mem : Buffer) (dumpMem : ℕ) : List Call :=
  [textCall [newline]] ++
    ((List.range' 1 512).flatMap (dumpTurn mem dumpMem) ++ [textCall [newline]])

/-- The branch `c`. -/
def dumpChars (mem : Buffer) (dumpMem : ℕ) : List Call :=
  [textCall [newline]] ++
    ((List.range' 1 512).map (fun i => byteCall (mem (dumpMem + (i - 1)))) ++
      [textCall [newline]])

def hexDigits (b : UInt8) : List UInt8 :=
  [digit false (b.toNat / 16), digit false (b.toNat % 16)]

theorem formatted_hexCall (b : UInt8) :
    formatted (hexCall b).fmt (hexCall b).args = .ok (hexDigits b) := by
  refine formatted_eq_ok_of_toOption ?_
  revert b
  exact forall_byte (by decide +kernel)

/-- A NUL prints nothing. -/
theorem formatted_byteCall (b : UInt8) :
    formatted (byteCall b).fmt (byteCall b).args = .ok (cString [b]) := by
  refine formatted_eq_ok_of_toOption ?_
  revert b
  exact forall_byte (by decide +kernel)

/-- The digits of one byte, and the blank behind every fourth one. -/
def dumpCell (mem : Buffer) (start j : ℕ) : List UInt8 :=
  hexDigits (mem (start + j)) ++ if (j + 1) % 4 = 0 then [space] else []

def dumpLine (mem : Buffer) (start : ℕ) : List UInt8 :=
  (List.range 32).flatMap (dumpCell mem start)

def dumpLines (mem : Buffer) (dumpMem : ℕ) : List (List UInt8) :=
  (List.range 16).map fun k => dumpLine mem (dumpMem + 32 * k)

section Line

variable (mem : Buffer) (start : ℕ)

theorem length_dumpCells (n : ℕ) :
    ((List.range n).flatMap (dumpCell mem start)).length = 2 * n + n / 4 := by
  induction n with
  | zero => rfl
  | succ n ih =>
      rw [List.range_succ, List.flatMap_append, List.length_append, ih,
        List.flatMap_singleton, dumpCell, List.length_append]
      have htwo : (hexDigits (mem (start + n))).length = 2 := rfl
      rw [htwo]
      by_cases hfour : (n + 1) % 4 = 0
      · rw [if_pos hfour, List.length_singleton]
        omega
      · rw [if_neg hfour, List.length_nil]
        omega

theorem newline_not_mem_hexDigits (b : UInt8) : newline ∉ hexDigits b := by
  have hall : ∀ d < 16, digit false d ≠ newline := by decide
  have hb := b.toNat_lt
  simp only [hexDigits, List.mem_cons, List.not_mem_nil, or_false, not_or]
  exact ⟨(hall _ (by omega)).symm, (hall _ (by omega)).symm⟩

theorem isLine_dumpLine : IsLine (dumpLine mem start) := by
  have hlength : (dumpLine mem start).length = 72 := length_dumpCells mem start 32
  refine ⟨fun hnil => ?_, fun hmem => ?_, ?_⟩
  · rw [hnil] at hlength
    cases hlength
  · obtain ⟨j, _, hcell⟩ := List.mem_flatMap.mp hmem
    rcases List.mem_append.mp hcell with hdigit | hspace
    · exact newline_not_mem_hexDigits _ hdigit
    · split at hspace
      · exact absurd hspace (by decide)
      · cases hspace
  · rw [hlength]
    decide

/-- The digits of byte `j` stand behind those of the bytes in front of it. -/
theorem dumpLine_getD {j : ℕ} (hj : j < 32) {i : ℕ} (hi : i < 2) :
    (dumpLine mem start).getD (2 * j + j / 4 + i) space =
      (hexDigits (mem (start + j))).getD i space := by
  obtain ⟨n, hn⟩ : ∃ n, 32 = j + 1 + n := ⟨31 - j, by omega⟩
  have hfront := length_dumpCells mem start j
  have htwo : (hexDigits (mem (start + j))).length = 2 := rfl
  rw [dumpLine, hn, List.range_add, List.flatMap_append, List.range_succ,
    List.flatMap_append, List.flatMap_singleton, List.append_assoc,
    List.getD_append_right _ _ _ _ (by omega), hfront, Nat.add_sub_cancel_left,
    dumpCell, List.append_assoc, List.getD_append _ _ _ _ (by omega)]

end Line

/-- What is printed for byte `i`. -/
def dumpText (mem : Buffer) (dumpMem i : ℕ) : List UInt8 :=
  hexDigits (mem (dumpMem + (i - 1))) ++
    ((if i % 4 = 0 then [space] else []) ++ if i % 32 = 0 then [newline] else [])

theorem printAll_textCall {text : List UInt8} (hzero : 0 ∉ text)
    (hplain : '%'.toUInt8 ∉ text) (hfit : text.length < Printf.bufferSize) :
    PrintAll [textCall text] text :=
  printAll_singleton (formatted_textCall hzero hplain hfit)

theorem printAll_newline : PrintAll [textCall [newline]] [newline] :=
  printAll_textCall (by decide) (by decide) (by decide)

theorem printAll_dumpTurn (mem : Buffer) (dumpMem i : ℕ) :
    PrintAll (dumpTurn mem dumpMem i) (dumpText mem dumpMem i) := by
  have hspace : PrintAll [textCall [space]] [space] :=
    printAll_textCall (by decide) (by decide) (by decide)
  exact (printAll_singleton (formatted_hexCall _)).append
    ((hspace.ite _).append (printAll_newline.ite _))

theorem flatMap_range_mul {α : Type} (f : ℕ → List α) (m n : ℕ) :
    (List.range (m * n)).flatMap f =
      (List.range n).flatMap fun k => (List.range m).flatMap fun j => f (m * k + j) := by
  induction n with
  | zero => rfl
  | succ n ih =>
      rw [Nat.mul_succ, List.range_add, List.flatMap_append, ih, List.range_succ,
        List.flatMap_append, List.flatMap_singleton, List.flatMap_map]

/-- The texts of 32 turns are a line. -/
theorem flatMap_dumpText (mem : Buffer) (dumpMem k : ℕ) :
    (List.range 32).flatMap (fun j => dumpText mem dumpMem (1 + (32 * k + j))) =
      dumpLine mem (dumpMem + 32 * k) ++ [newline] := by
  have hturn : ∀ j, dumpText mem dumpMem (1 + (32 * k + j)) =
      dumpCell mem (dumpMem + 32 * k) j ++ if j % 32 = 31 then [newline] else [] := by
    intro j
    have hbyte : dumpMem + (1 + (32 * k + j) - 1) = dumpMem + 32 * k + j := by omega
    have hfour : (1 + (32 * k + j)) % 4 = 0 ↔ (j + 1) % 4 = 0 := by omega
    have hlast : (1 + (32 * k + j)) % 32 = 0 ↔ j % 32 = 31 := by omega
    simp only [dumpText, dumpCell, hbyte, hfour, hlast, List.append_assoc]
  have hfront : (List.range 31).flatMap
      (fun j => dumpText mem dumpMem (1 + (32 * k + j))) =
        (List.range 31).flatMap (dumpCell mem (dumpMem + 32 * k)) := by
    refine List.flatMap_congr fun j hj => ?_
    have hlt := List.mem_range.mp hj
    rw [hturn, if_neg (by omega), List.append_nil]
  have hsplit : List.range 32 = List.range 31 ++ [31] := List.range_succ
  rw [dumpLine, hsplit, List.flatMap_append, List.flatMap_append, List.flatMap_singleton,
    List.flatMap_singleton, hfront, hturn, if_pos rfl, List.append_assoc]

theorem printAll_dumpHex (mem : Buffer) (dumpMem : ℕ) :
    PrintAll (dumpHex mem dumpMem)
      ([newline] ++ ((dumpLines mem dumpMem).flatMap (· ++ [newline]) ++ [newline])) := by
  have hrows : (List.range' 1 512).flatMap (dumpText mem dumpMem) =
      (dumpLines mem dumpMem).flatMap (· ++ [newline]) := by
    have hlines := flatMap_range_mul (fun i => dumpText mem dumpMem (1 + i)) 32 16
    simp only [flatMap_dumpText] at hlines
    rw [List.range'_eq_map_range, List.flatMap_map, dumpLines, List.flatMap_map]
    exact hlines
  rw [← hrows]
  exact printAll_newline.append
    ((PrintAll.flatMap (printAll_dumpTurn mem dumpMem) _).append printAll_newline)

theorem printAll_dumpChars (mem : Buffer) (dumpMem : ℕ) :
    PrintAll (dumpChars mem dumpMem) ([newline] ++
      ((List.range' 1 512).flatMap (fun i => cString [mem (dumpMem + (i - 1))]) ++
        [newline])) := by
  have hbytes := PrintAll.flatMap
    (fun i => printAll_singleton (formatted_byteCall (mem (dumpMem + (i - 1)))))
    (List.range' 1 512)
  rw [← List.map_eq_flatMap] at hbytes
  exact printAll_newline.append (hbytes.append printAll_newline)

/-! ## Reading it -/

/-- The byte whose digits stand at a place of a row. -/
def Row.dumped (row : Row) (j : Fin 32) : ℕ :=
  16 * digitVal (row ⟨2 * j + j / 4, by omega⟩) +
    digitVal (row ⟨2 * j + j / 4 + 1, by omega⟩)

theorem dumped_lineRow (mem : Buffer) (start : ℕ) (j : Fin 32) :
    Row.dumped (lineRow (dumpLine mem start)) j = (mem (start + j)).toNat := by
  have hb := (mem (start + j)).toNat_lt
  have hhigh := dumpLine_getD mem start j.isLt (show 0 < 2 by decide)
  have hlow := dumpLine_getD mem start j.isLt (show 1 < 2 by decide)
  simp only [Row.dumped, lineRow]
  rw [Nat.add_zero] at hhigh
  rw [hhigh, hlow]
  simp only [hexDigits, List.getD_cons_zero, List.getD_cons_succ]
  rw [(Atoi.digit_isHexDigit false (by omega)).2, (Atoi.digit_isHexDigit false (by omega)).2]
  omega

/-- Lines between two newlines, printed in one go. -/
theorem BlankBehind.rows_lines {s : Screen} (h : BlankBehind s)
    {lines : List (List UInt8)} (hlines : ∀ line ∈ lines, IsLine line) {k : ℕ}
    (hk : k < lines.length) :
    (s.putText s.index ([newline] ++ (lines.flatMap (· ++ [newline]) ++ [newline]))).page
      (s.nextRow + k) = lineRow (lines.getD k []) := by
  have hfirst := (shows_page h.cursor).anyNewline
  have hnext : ∀ r, s.nextRow ≤ r → s.page r = blankRow := by
    intro r hr
    rw [Screen.nextRow] at hr
    by_cases hy : s.cursorY < textmodeRow
    · rw [if_pos hy] at hr
      exact h.blank r (by omega)
    · -- the row behind text memory
      rw [if_neg hy] at hr
      rw [page_eq, if_neg (by omega), if_neg (by omega)]
  have hall := hfirst.lines rfl hnext hlines
  have hscreen : s.putText s.index ([newline] ++ (lines.flatMap (· ++ [newline]) ++
      [newline])) = ((s.put newline).putText (s.put newline).index
        (lines.flatMap (· ++ [newline]))).put newline := by
    rw [putText_eq_foldl h.cursor, putText_eq_foldl hfirst.cursor, List.foldl_append,
      List.foldl_append, List.foldl_cons, List.foldl_nil, List.foldl_cons, List.foldl_nil]
  rw [hscreen, hall.anyNewline.page]
  exact rows_addLines (p := ⟨s.page, s.nextRow, 0⟩) lines hk

/-- The rows behind the cursor show the memory. -/
theorem BlankBehind.dumpHex {s : Screen} (h : BlankBehind s) (mem : Buffer)
    (dumpMem : ℕ) :
    ∃ s', s.kprintfs (dumpHex mem dumpMem) = .ok s' ∧
      ∀ (k : Fin 16) (j : Fin 32), Row.dumped (s'.page (s.nextRow + k)) j =
        (mem (dumpMem + (32 * k + j))).toNat := by
  refine ⟨_, printAll_dumpHex mem dumpMem s h.cursor, fun k j => ?_⟩
  have hlines : ∀ line ∈ dumpLines mem dumpMem, IsLine line := by
    intro line hline
    obtain ⟨k, _, rfl⟩ := List.mem_map.mp hline
    exact isLine_dumpLine mem _
  have hk : k.val < (dumpLines mem dumpMem).length := by
    rw [dumpLines, List.length_map, List.length_range]
    exact k.isLt
  have hget : (dumpLines mem dumpMem).getD k [] = dumpLine mem (dumpMem + 32 * k) := by
    rw [dumpLines, List.getD_eq_getElem?_getD, List.getElem?_map,
      List.getElem?_range k.isLt]
    rfl
  rw [h.rows_lines hlines hk, hget, dumped_lineRow, Nat.add_assoc]

end Video

namespace Shell

open StepMachine Video Janus86.Partition

variable {e : Surroundings} {a : ArgArrays} {w : World}

/-- `cmd_dump`, as the calls of `kprintf` that it makes. -/
def Surroundings.cmdDump (e : Surroundings) (a : ArgArrays) (w : World) :
    Except Fault (List Call) := do
  let a ← joinArgs a
  let c ← argString a 1
  if c.head? = some 45 then
    let c := c.drop 1
    if c.head? = some 120 then pure (dumpHex w.mem (e.atoi (c.drop 1)))
    else if c.head? = some 99 then pure (dumpChars w.mem (e.atoi (c.drop 1)))
    else pure [textCall (ascii "Wrong usage of command : See help dump" ++ [newline])]
  else pure []

def dumpWord : List UInt8 := [100, 117, 109, 112]

/-- No call of `cmd_dump` overflows the buffer of `kprintf`, whatever the memory holds. -/
theorem Surroundings.cmdDump_prints {calls : List Call}
    (hdump : e.cmdDump a w = .ok calls) : ∃ text, PrintAll calls text := by
  obtain ⟨a', _, hjoined⟩ := bind_eq_ok_iff.mp hdump
  obtain ⟨c, _, hbranch⟩ := bind_eq_ok_iff.mp hjoined
  dsimp only at hbranch
  split at hbranch
  · split at hbranch
    · obtain rfl := Except.ok.inj hbranch
      exact ⟨_, printAll_dumpHex _ _⟩
    split at hbranch
    · obtain rfl := Except.ok.inj hbranch
      exact ⟨_, printAll_dumpChars _ _⟩
    · obtain rfl := Except.ok.inj hbranch
      exact ⟨_, printAll_textCall (by decide +kernel) (by decide +kernel)
        (by decide +kernel)⟩
  · obtain rfl := Except.ok.inj hbranch
    exact ⟨[], fun _ _ => rfl⟩

/-- After whatever has been printed and typed in a session, `dump -x` and a number print 16
rows, from the next one on, that show the 512 bytes of the memory from this address: each
of them can be read off again.  The bytes are taken to be mapped, to end below `2 ^ 32`, and
to lie outside text memory and the variables that printing changes. -/
theorem dump_shows_memory {vidmem : ℕ → UInt8} {events : List (Transition Screen Event)}
    (hpath : StepPath sessionStep (kclearScreen vidmem) events)
    (hkeys : ∀ t ∈ events, t.label.KeysInRows t.before) {number : List UInt8}
    (hwords : WordsIn a [dumpWord, [45, 120], number]) :
    ∀ t ∈ events, ∃ calls s', e.cmdDump a w = .ok calls ∧
      t.after.kprintfs calls = .ok s' ∧
      ∀ (k : Fin 16) (j : Fin 32), Row.dumped (s'.page (t.after.nextRow + k)) j =
        (w.mem (e.atoi number + (32 * k + j))).toNat := by
  intro t ht
  obtain ⟨a', hjoin, hjoined, _⟩ := hwords.join le_rfl
  have hcalls : e.cmdDump a w = .ok (dumpHex w.mem (e.atoi number)) := by
    rw [Surroundings.cmdDump, hjoin, ok_bind, hjoined]
    rfl
  obtain ⟨s', hrun, hrows⟩ := (session_blankBehind hpath hkeys t ht).dumpHex w.mem
    (e.atoi number)
  exact ⟨_, s', hcalls, hrun, hrows⟩

/-- `dump -x 9`. -/
def dumpKeys : List UInt8 := [100, 117, 109, 112, 32, 45, 120, 32, 57]

/-- Behind a line with a backspace, behind what its command prints, and so on. -/
theorem dump_shows_memory_small :
    ∃ a, ∃ events : List (Transition Screen Event), events.map (·.label) = lineEvents ∧
      ∀ t ∈ events, ∃ calls s',
        fileSurroundings.cmdDump a
          ⟨Fs.treeStarted, fun p => UInt8.ofNat p, kernelInUse⟩ = .ok calls ∧
        t.after.kprintfs calls = .ok s' ∧
        ∀ (k : Fin 16) (j : Fin 32), Row.dumped (s'.page (t.after.nextRow + k)) j =
          (UInt8.ofNat (fileSurroundings.atoi [57] + (32 * k + j))).toNat := by
  have hplain : Plain 80 dumpKeys :=
    plain_of_fits .dump (by decide +kernel) (by decide +kernel) (show 3 ≤ _ by decide +kernel)
  obtain ⟨a, _, hwords⟩ := hplain.words_in emptyArrays
  rw [show words dumpKeys = [dumpWord, [45, 120], [57]] by decide +kernel] at hwords
  obtain ⟨events, hpath, hlabels, hline⟩ := exists_lineSession
  have hkeys : ∀ t ∈ events, t.label.KeysInRows t.before := by
    intro t ht ch hlabel _
    have hat := hline t ht
    rw [hlabel] at hat
    exact of_decide_eq_true hat
  exact ⟨a, events, hlabels, dump_shows_memory hpath hkeys hwords⟩

end Shell
end Janus86
