import Janus86.ScreenSheet
import Janus86.ShellLine

/-!
# What a session shows

The sheet that `kprintf` writes on is extended to the whole session: the
prompt goes to the left edge of the pen's row, a backspace blanks the cell in
front of the pen but never the prompt, and the key that ends a line moves the
pen to the next row.  As long as no newline and no editing key comes while a
scroll is due, the screen shows that sheet.  On it the row of a prompt shows
the line as it has been edited, which is the line that `getline` returns.
-/

namespace Janus86
namespace Video

open StepMachine
open Shell (editedLine editKey)

/-! ## The sheet of a session -/

def prompt : List UInt8 := [106, 97, 110, 117, 115, 56, 54, 62]

/-- A backspace. -/
def Sheet.erase (p : Sheet) : Sheet :=
  let x := max promptLen (p.col - 1)
  { p with
    rows := Function.update p.rows p.row ((p.rows p.row).set x space)
    col := x }

/-- An event of the session; `text` is what a call of `kprintf` prints. -/
def Sheet.event (p : Sheet) (text : List UInt8) : Event → Sheet
  | .prompt => { p with col := 0 }.write prompt
  | .key ch =>
      if ch = newline then { p with row := p.row + 1, col := 0 }
      else if ch = backspace then p.erase
      else p.write (cString [ch])
  | .print _ => p.write text

/-- Events on the screen and on the sheet. -/
def sheetStep (q : Screen × Sheet) (e : Event) (q' : Screen × Sheet) : Prop :=
  q.1.event e = .ok q'.1 ∧
    ∃ text, (∀ call, e = .print call → formatted call.fmt call.args = .ok text) ∧
      q'.2 = q.2.event text e

/-- Keys that edit or end the line come while no scroll is due, and so do the
newlines that are printed. -/
def Event.Shown (s : Screen) : Event → Prop
  | .prompt => True
  | .key ch => ch = newline ∨ ch = backspace → s.cursorY < textmodeRow
  | .print call => call.KeepsNewlines s

/-! ## The screen shows the sheet -/

section Shown

variable {s s' : Screen} {p : Sheet}

/-- The cursor goes to another cell of the screen, and the pen with it. -/
theorem Shows.moveTo (h : Shows s p) {x y : ℕ} (hcursor : CursorIn (x, y)) :
    Shows (s.moveTo x y)
      { p with row := s.scrolled.length + y, col := x } := by
  refine ⟨hcursor, rfl, rfl, fun r => ?_⟩
  rw [page_moveTo]
  exact h.page r

theorem Shows.kprintf (h : Shows s p) {call : Call} {text : List UInt8}
    (hcall : s.kprintf call.fmt call.args = .ok s')
    (htext : formatted call.fmt call.args = .ok text)
    (hkept : kept s.cursor text = text) : Shows s' (p.write text) := by
  obtain ⟨text', htext', rfl⟩ := kprintf_eq_ok_iff.mp hcall
  obtain rfl := Except.ok.inj (htext.symm.trans htext')
  have hput := h.putText text
  rwa [hkept] at hput

/-- A text without newlines loses none. -/
theorem kept_of_no_newline {cursor : ℕ × ℕ} {text : List UInt8}
    (hnew : newline ∉ text) : kept cursor text = text := by
  induction text generalizing cursor with
  | nil => rfl
  | cons c text ih =>
      rw [List.mem_cons, not_or] at hnew
      rw [kept, if_neg fun hlost => hnew.1 hlost.2.symm, ih hnew.2]

theorem Shows.cursorY_le (h : Shows s p) : s.cursorY ≤ textmodeRow := by
  rcases h.cursor.due_or_lt with ⟨_, hy⟩ | ⟨_, hy⟩
  · exact hy.le
  · exact hy.le

theorem Shows.printPrompt (h : Shows s p) (hprompt : s.printPrompt = .ok s') :
    Shows s' ({ p with col := 0 }.write prompt) := by
  have hmove : ({ s with cursorX := 0 } : Screen).setCursorPosition 0 s.cursorY =
      s.moveTo 0 s.cursorY :=
    setCursorPosition_eq _ (x := 0) (by decide) h.cursorY_le
  have hcursor : CursorIn (0, s.cursorY) := by
    refine ⟨show 0 < textmodeCol by decide, ?_⟩
    exact (Nat.lt_or_eq_of_le h.cursorY_le).imp id fun hy => ⟨rfl, hy⟩
  unfold Screen.printPrompt at hprompt
  simp only [hmove] at hprompt
  have hmoved := h.moveTo hcursor
  rw [h.row] at hmoved
  exact hmoved.kprintf hprompt formatted_promptCall
    (kept_of_no_newline (by decide))

theorem Shows.eraseChar (h : Shows s p) (hy : s.cursorY < textmodeRow)
    (herase : s.eraseChar = .ok s') : Shows s' p.erase := by
  obtain ⟨k, hk⟩ : ∃ k, k = max promptLen (s.cursorX - 1) := ⟨_, rfl⟩
  have hx : s.cursorX < textmodeCol := h.cursor.1
  have hroom : k + 1 < textmodeCol := by
    simp only [promptLen, textmodeCol] at hk hx ⊢
    omega
  have hcursor : CursorIn (k, s.cursorY) := ⟨by omega, Or.inl hy⟩
  unfold Screen.eraseChar at herase
  simp only [moveBack_eq hx hy.le, ← hk] at herase
  obtain ⟨mid, hmid, hlast⟩ := bind_eq_ok_iff.mp herase
  obtain rfl := Except.ok.inj hlast
  have hmoved := h.moveTo hcursor
  rw [h.row] at hmoved
  have hblank := hmoved.kprintf hmid formatted_spaceCall
    (kept_of_no_newline (by decide))
  -- the blank has moved the pen by one cell in its row
  have hpen : ({ p with col := k }.write [space] : Sheet) =
      { rows := Function.update p.rows p.row ((p.rows p.row).set k space)
        row := p.row
        col := k + 1 } := by
    have hcol : ¬k + 1 = textmodeCol := hroom.ne
    simp [Sheet.write, Sheet.put, hcol, show space ≠ newline by decide]
  rw [hpen] at hblank
  have hmidX : mid.cursorX = k + 1 := hblank.col
  have hmidY : mid.cursorY < textmodeRow := by
    rcases hblank.cursor.due_or_lt with ⟨hzero, _⟩ | ⟨_, hlt⟩
    · omega
    · exact hlt
  have hback : max promptLen (mid.cursorX - 1) = k := by
    rw [hmidX]
    simp only [promptLen] at hk ⊢
    omega
  rw [moveBack_eq hblank.cursor.1 hmidY.le, hback]
  have hdone := hblank.moveTo (x := k) (y := mid.cursorY) ⟨by omega, Or.inl hmidY⟩
  rw [hblank.row] at hdone
  have hcol : max promptLen (p.col - 1) = k := by rw [← h.col, hk]
  rw [Sheet.erase, hcol]
  exact hdone

theorem Shows.endLine (h : Shows s p) (hy : s.cursorY < textmodeRow) :
    Shows s.endLine { p with row := p.row + 1, col := 0 } := by
  have hcursor : CursorIn (0, s.cursorY + 1) := by
    refine ⟨show 0 < textmodeCol by decide, ?_⟩
    rcases Nat.lt_or_ge (s.cursorY + 1) textmodeRow with hlt | hge
    · exact Or.inl hlt
    · exact Or.inr ⟨rfl, le_antisymm hy hge⟩
  refine ⟨hcursor, rfl, ?_, h.page⟩
  show s.scrolled.length + (s.cursorY + 1) = p.row + 1
  rw [← h.row, Nat.add_assoc]

/-- One event. -/
theorem shows_of_sheetStep {q q' : Screen × Sheet} {e : Event}
    (h : Shows q.1 q.2) (hstep : sheetStep q e q') (hshown : e.Shown q.1) :
    Shows q'.1 q'.2 := by
  obtain ⟨hscreen, text, htext, hsheet⟩ := hstep
  rw [hsheet]
  cases e with
  | prompt => exact h.printPrompt hscreen
  | print call =>
      have hformatted := htext call rfl
      exact h.kprintf hscreen hformatted (kept_of_avoids (hshown text hformatted))
  | key ch =>
      simp only [Screen.event, Screen.getline] at hscreen
      simp only [Sheet.event]
      by_cases hnew : ch = newline
      · rw [if_pos hnew] at hscreen ⊢
        rw [← Except.ok.inj hscreen]
        exact h.endLine (hshown (Or.inl hnew))
      rw [if_neg hnew] at hscreen ⊢
      by_cases hback : ch = backspace
      · rw [if_pos hback] at hscreen ⊢
        exact h.eraseChar (hshown (Or.inr hback)) hscreen
      rw [if_neg hback] at hscreen ⊢
      refine h.kprintf hscreen (formatted_charCall ch) (kept_of_no_newline ?_)
      intro hmem
      have hself := (List.takeWhile_prefix _).subset hmem
      exact hnew (List.mem_singleton.mp hself).symm

end Shown

theorem exists_kprintf {call : Call} {text : List UInt8}
    (htext : formatted call.fmt call.args = .ok text) (s : Screen) :
    ∃ s', s.kprintf call.fmt call.args = .ok s' :=
  ⟨_, kprintf_eq_ok_iff.mpr ⟨text, htext, rfl⟩⟩

/-- After each event of a session the rows scrolled off and the rows in text memory are
those of the sheet, and the cursor is at the pen. -/
theorem session_rows_eq_sheet {vidmem : ℕ → UInt8}
    {events : List (Transition (Screen × Sheet) Event)}
    (hpath : StepPath sheetStep (kclearScreen vidmem, Sheet.empty) events)
    (hshown : ∀ t ∈ events, t.label.Shown t.before.1) :
    ∀ t ∈ events, (∀ r, (t.after.1.scrolled ++ t.after.1.rows).getD r blankRow =
        t.after.2.rows r) ∧
      t.after.1.cursorX = t.after.2.col ∧
      t.after.1.scrolled.length + t.after.1.cursorY = t.after.2.row := by
  have hshows : ∀ t ∈ events, Shows t.after.1 t.after.2 :=
    hpath.forall_after (shows_kclearScreen vidmem)
      (fun _ _ _ => shows_of_sheetStep) hshown
  intro t ht
  have h := hshows t ht
  exact ⟨h.page, h.col, h.row⟩

/-- Every session goes on on a sheet. -/
theorem exists_sheetPath {s : Screen} {ts : List (Transition Screen Event)}
    (hpath : StepPath sessionStep s ts) (p : Sheet) :
    ∃ sheets : List (Transition (Screen × Sheet) Event), StepPath sheetStep (s, p) sheets ∧
      sheets.map (fun t => ⟨t.before.1, t.label, t.after.1⟩) = ts := by
  induction ts generalizing s p with
  | nil => exact ⟨[], trivial, rfl⟩
  | cons t ts ih =>
      obtain ⟨rfl, hstep, hrest⟩ := hpath
      obtain ⟨text, htext⟩ : ∃ text, ∀ call, t.label = .print call →
          formatted call.fmt call.args = .ok text := by
        have hstep' : t.before.event t.label = .ok t.after := hstep
        cases hlabel : t.label with
        | prompt => exact ⟨[], fun call hcall => by cases hcall⟩
        | key ch => exact ⟨[], fun call hcall => by cases hcall⟩
        | print call =>
            rw [hlabel] at hstep'
            obtain ⟨text, htext, _⟩ := kprintf_eq_ok_iff.mp hstep'
            refine ⟨text, fun call' hcall => ?_⟩
            cases hcall
            exact htext
      obtain ⟨sheets, hsheets, hmap⟩ := ih hrest (p.event text t.label)
      refine ⟨⟨(t.before, p), t.label, (t.after, p.event text t.label)⟩ :: sheets,
        ⟨rfl, ⟨hstep, text, htext, rfl⟩, hsheets⟩, ?_⟩
      rw [List.map_cons, hmap]

theorem formatted_lineCall : formatted lineCall.fmt lineCall.args = .ok [65, newline] :=
  formatted_eq_ok_of_toOption (by decide +kernel)

/-- A line with a backspace, what its command prints, and the next prompt. -/
theorem session_rows_eq_sheet_prompt :
    ∃ events : List (Transition (Screen × Sheet) Event),
      events.map (·.label) = lineEvents ∧
      ∀ t ∈ events, (∀ r, (t.after.1.scrolled ++ t.after.1.rows).getD r blankRow =
          t.after.2.rows r) ∧
        t.after.1.cursorX = t.after.2.col ∧
        t.after.1.scrolled.length + t.after.1.cursorY = t.after.2.row := by
  obtain ⟨ts, hpath, hlabels, hline⟩ := exists_lineSession
  obtain ⟨events, hsheets, hmap⟩ := exists_sheetPath hpath Sheet.empty
  have hevents : events.map (·.label) = lineEvents := by
    rw [← hlabels, ← hmap, List.map_map]
    rfl
  refine ⟨events, hevents, session_rows_eq_sheet hsheets fun t ht => ?_⟩
  have hat : t.label.atLine t.before.1 = true := by
    refine hline ⟨t.before.1, t.label, t.after.1⟩ ?_
    rw [← hmap]
    exact List.mem_map.mpr ⟨t, ht, rfl⟩
  cases hlabel : t.label with
  | prompt => trivial
  | key ch =>
      rw [hlabel] at hat
      exact fun _ => of_decide_eq_true hat
  | print call =>
      have hmem : Event.print call ∈ lineEvents :=
        hevents ▸ List.mem_map.mpr ⟨t, ht, hlabel⟩
      obtain rfl : call = lineCall := by simpa [lineEvents] using hmem
      rw [hlabel] at hat
      have hcursor : t.before.1.cursor = (0, 1) := of_decide_eq_true hat
      intro text htext
      obtain rfl := Except.ok.inj (formatted_lineCall.symm.trans htext)
      rw [hcursor]
      decide

/-! ## The row of a prompt -/

/-- A row that begins with a text. -/
def lineRow (text : List UInt8) : Row := fun x => text.getD x space

theorem lineRow_nil : lineRow [] = blankRow := rfl

theorem lineRow_set (text : List UInt8) (c : UInt8) :
    (lineRow text).set text.length c = lineRow (text ++ [c]) := by
  funext x
  simp only [Row.set, lineRow]
  rcases Nat.lt_trichotomy x.val text.length with hlt | heq | hgt
  · rw [if_neg hlt.ne, List.getD_append _ _ _ _ hlt]
  · rw [if_pos heq, heq, List.getD_append_right _ _ _ _ le_rfl, Nat.sub_self]
    rfl
  · rw [if_neg hgt.ne', List.getD_eq_default _ _ hgt.le, List.getD_eq_default]
    rw [List.length_append, List.length_singleton]
    exact hgt

theorem lineRow_set_space (text more : List UInt8) (hmore : more.length ≤ 1) :
    (lineRow (text ++ more)).set text.length space = lineRow text := by
  funext x
  simp only [Row.set, lineRow]
  rcases Nat.lt_trichotomy x.val text.length with hlt | heq | hgt
  · rw [if_neg hlt.ne, List.getD_append _ _ _ _ hlt]
  · rw [if_pos heq, heq, List.getD_eq_default _ _ le_rfl]
  · rw [if_neg hgt.ne', List.getD_eq_default _ _ hgt.le, List.getD_eq_default]
    rw [List.length_append]
    omega

/-- A text that fits into the pen's row, behind another one. -/
theorem Sheet.write_short {p : Sheet} {text before : List UInt8}
    (hnew : newline ∉ text) (hrow : p.rows p.row = lineRow before)
    (hcol : p.col = before.length)
    (hroom : before.length + text.length < textmodeCol) :
    p.write text =
      ⟨Function.update p.rows p.row (lineRow (before ++ text)), p.row,
        (before ++ text).length⟩ := by
  induction text generalizing p before with
  | nil =>
      rw [List.append_nil, ← hrow, Function.update_eq_self, ← hcol]
      rfl
  | cons c text ih =>
      rw [List.mem_cons, not_or] at hnew
      rw [List.length_cons] at hroom
      have hlast : ¬before.length + 1 = textmodeCol := by omega
      have hput : p.put c =
          ⟨Function.update p.rows p.row (lineRow (before ++ [c])), p.row,
            before.length + 1⟩ := by
        rw [Sheet.put, if_neg (Ne.symm hnew.1), hcol, hrow, lineRow_set,
          if_neg hlast, if_neg hlast]
      rw [Sheet.write, List.foldl_cons, hput]
      have hlength : before.length + 1 = (before ++ [c]).length := by
        rw [List.length_append, List.length_singleton]
      have hrest := ih (p := ⟨Function.update p.rows p.row (lineRow (before ++ [c])),
          p.row, before.length + 1⟩) hnew.2 (Function.update_self _ _ _) hlength
        (by omega)
      rw [Sheet.write] at hrest
      rw [hrest, Function.update_idem, List.append_assoc]
      rfl

/-- The pen behind the prompt and the line that has been typed. -/
def lineSheet (rows : ℕ → Row) (r : ℕ) (line : List UInt8) : Sheet :=
  ⟨Function.update rows r (lineRow (prompt ++ line)), r, (prompt ++ line).length⟩

theorem prompt_lineSheet {p : Sheet} (hblank : p.rows p.row = blankRow) :
    ({ p with col := 0 } : Sheet).write prompt = lineSheet p.rows p.row [] := by
  have hwrite : ({ p with col := 0 } : Sheet).write prompt =
      ⟨Function.update p.rows p.row (lineRow ([] ++ prompt)), p.row,
        ([] ++ prompt).length⟩ :=
    Sheet.write_short (by decide) (show p.rows p.row = lineRow [] from hblank) rfl
      (show ([] : List UInt8).length + prompt.length < textmodeCol by decide)
  rw [hwrite, List.nil_append, lineSheet, List.append_nil]

theorem lineSheet_key {rows : ℕ → Row} {r : ℕ} {line : List UInt8} {ch : UInt8}
    (hnew : ch ≠ newline) (hzero : ch ≠ 0)
    (hroom : (editKey line ch).length < textmodeCol - promptLen) (text : List UInt8) :
    (lineSheet rows r line).event text (.key ch) =
      lineSheet rows r (editKey line ch) := by
  simp only [Sheet.event, if_neg hnew]
  have hprompt : prompt.length = promptLen := rfl
  by_cases hback : ch = backspace
  · rw [if_pos hback, editKey, if_pos hback]
    rcases List.eq_nil_or_concat line with rfl | ⟨front, c, rfl⟩
    · -- the prompt is not taken back
      have hrow := lineRow_set_space prompt [] (by decide)
      simp only [Sheet.erase, lineSheet, Function.update_self, Function.update_idem,
        List.append_nil, List.dropLast_nil] at hrow ⊢
      rw [hprompt] at hrow ⊢
      rw [Nat.max_eq_left (Nat.sub_le _ _), hrow]
    · have hrow := lineRow_set_space (prompt ++ front) [c] le_rfl
      have hlen : max promptLen ((prompt ++ (front ++ [c])).length - 1) =
          (prompt ++ front).length := by
        simp only [List.length_append, List.length_singleton, hprompt]
        omega
      simp only [Sheet.erase, lineSheet, Function.update_self, Function.update_idem,
        List.concat_eq_append, List.dropLast_concat, hlen]
      rw [List.append_assoc] at hrow
      rw [hrow]
  · rw [editKey, if_neg hback] at hroom ⊢
    rw [if_neg hback]
    have hself : cString [ch] = [ch] :=
      (cString_eq_self_iff _).mpr fun c hc => by
        rw [List.mem_singleton.mp hc]
        exact hzero
    have hfits : (prompt ++ line).length + [ch].length < textmodeCol := by
      simp only [List.length_append, List.length_singleton, hprompt] at hroom ⊢
      omega
    have hwrite := Sheet.write_short (p := lineSheet rows r line)
      (show newline ∉ [ch] by simpa using Ne.symm hnew)
      (Function.update_self _ _ _) rfl hfits
    rw [hself, hwrite]
    simp only [lineSheet, Function.update_idem, List.append_assoc]

/-! ## A line on the screen -/

section Line

variable {s : Screen} {p : Sheet}

/-- Every screen shows a sheet. -/
theorem shows_page (hcursor : CursorIn s.cursor) :
    Shows s ⟨s.page, s.scrolled.length + s.cursorY, s.cursorX⟩ :=
  ⟨hcursor, rfl, rfl, fun _ => rfl⟩

theorem exists_key (s : Screen) (ch : UInt8) : ∃ s', s.event (.key ch) = .ok s' := by
  simp only [Screen.event, Screen.getline]
  split
  · exact ⟨_, rfl⟩
  split
  · obtain ⟨mid, hmid⟩ := exists_kprintf formatted_spaceCall
      (s.setCursorPosition s.columnBack s.cursorY)
    exact ⟨_, bind_eq_ok_iff.mpr ⟨mid, hmid, rfl⟩⟩
  · exact exists_kprintf (formatted_charCall ch) s

/-- A key on the screen and on the sheet. -/
theorem Shows.key (h : Shows s p) {ch : UInt8}
    (hshown : (Event.key ch).Shown s) :
    ∃ s', s.event (.key ch) = .ok s' ∧ Shows s' (p.event [] (.key ch)) := by
  obtain ⟨s', hkey⟩ := exists_key s ch
  refine ⟨s', hkey, ?_⟩
  have hstep : sheetStep (s, p) (.key ch) (s', p.event [] (.key ch)) :=
    ⟨hkey, [], fun call hcall => (by cases hcall), rfl⟩
  exact shows_of_sheetStep h hstep hshown

/-- Behind the prompt no scroll is due. -/
theorem Shows.not_due {rows : ℕ → Row} {r : ℕ} {line : List UInt8}
    (h : Shows s (lineSheet rows r line)) : s.cursorY < textmodeRow := by
  have hcol : 0 < s.cursorX := by
    rw [h.col, lineSheet, List.length_append]
    exact Nat.lt_of_lt_of_le (by decide) (Nat.le_add_right prompt.length _)
  rcases h.cursor.due_or_lt with ⟨hx, _⟩ | ⟨_, hlt⟩
  · omega
  · exact hlt

theorem Shows.keys {rows : ℕ → Row} {r : ℕ} {line keys : List UInt8}
    (h : Shows s (lineSheet rows r line)) (hnew : newline ∉ keys) (hzero : 0 ∉ keys)
    (hroom : ∀ n, ((keys.take n).foldl editKey line).length <
      textmodeCol - promptLen) :
    ∃ s', (keys.map Event.key).foldlM Screen.event s = .ok s' ∧
      Shows s' (lineSheet rows r (keys.foldl editKey line)) := by
  induction keys generalizing s line with
  | nil => exact ⟨s, rfl, h⟩
  | cons ch keys ih =>
      rw [List.mem_cons, not_or] at hnew hzero
      have hshown : (Event.key ch).Shown s := fun _ => h.not_due
      obtain ⟨mid, hmid, hshows⟩ := h.key hshown
      rw [lineSheet_key (Ne.symm hnew.1) (Ne.symm hzero.1)
        (by simpa using hroom 1)] at hshows
      obtain ⟨s', hrest, hlast⟩ := ih hshows hnew.2 hzero.2 fun n => hroom (n + 1)
      refine ⟨s', ?_, hlast⟩
      rw [List.map_cons, List.foldlM_cons, hmid, ok_bind]
      exact hrest

/-- Once a line has been typed behind a prompt in a blank row and ended, that row shows the
prompt and the line as it was edited, all other rows are as before, and the cursor is at
the left edge of the next row. -/
theorem row_shows_line (hcursor : CursorIn s.cursor)
    (hblank : s.page (s.scrolled.length + s.cursorY) = blankRow) {keys : List UInt8}
    (hnew : newline ∉ keys) (hzero : 0 ∉ keys)
    (hroom : ∀ n, (editedLine (keys.take n)).length < textmodeCol - promptLen) :
    ∃ s', (Event.prompt :: (keys.map Event.key ++ [.key newline])).foldlM
        Screen.event s = .ok s' ∧
      (∀ r, s'.page r = if r = s.scrolled.length + s.cursorY then
        lineRow (prompt ++ editedLine keys) else s.page r) ∧
      s'.cursorX = 0 ∧
      s'.scrolled.length + s'.cursorY = s.scrolled.length + s.cursorY + 1 := by
  obtain ⟨first, hfirst⟩ := exists_kprintf formatted_promptCall
    (({ s with cursorX := 0 } : Screen).setCursorPosition 0 s.cursorY)
  have hprompt := (shows_page hcursor).printPrompt hfirst
  rw [prompt_lineSheet (p := ⟨s.page, _, _⟩) hblank] at hprompt
  obtain ⟨mid, hkeys, hshows⟩ := hprompt.keys hnew hzero hroom
  have hend := hshows.endLine hshows.not_due
  refine ⟨mid.endLine, ?_, fun r => ?_, hend.col, hend.row⟩
  · have hstart : s.event .prompt = .ok first := hfirst
    rw [List.foldlM_cons, hstart, ok_bind, List.foldlM_append, hkeys, ok_bind]
    rfl
  · rw [hend.page]
    simp only [lineSheet, Function.update_apply]
    rfl

/-- `ab`, a backspace and `c` behind the prompt of a cleared screen. -/
theorem row_shows_line_cleared :
    ∃ s', (Event.prompt :: ([97, 98, backspace, 99].map Event.key ++
        [.key newline])).foldlM Screen.event (kclearScreen fun _ => 7) = .ok s' ∧
      s'.page 0 = lineRow (prompt ++ [97, 99]) := by
  have hcursor : CursorIn (kclearScreen fun _ => 7).cursor :=
    ⟨by decide, Or.inl (by decide)⟩
  have hblank : (kclearScreen fun _ => 7).page 0 = blankRow :=
    (shows_kclearScreen fun _ => 7).page 0
  have hroom : ∀ n, (editedLine ([97, 98, backspace, 99].take n)).length <
      textmodeCol - promptLen := by
    intro n
    rcases Nat.lt_or_ge n 4 with hlt | hge
    · interval_cases n <;> decide
    · rw [List.take_of_length_le (by simpa using hge)]
      decide
  obtain ⟨s', hrun, hpage, _⟩ := row_shows_line hcursor hblank (by decide) (by decide)
    hroom
  exact ⟨s', hrun, (hpage 0).trans (if_pos rfl)⟩

end Line

end Video
end Janus86
