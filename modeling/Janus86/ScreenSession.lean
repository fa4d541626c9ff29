import Janus86.ScreenModel
import Janus86.ShellArguments
import Janus86.VsnprintfRefinement

/-!
# The cursor in a shell session

The prompt and the line editor move the cursor themselves: a backspace goes to
the cell on the left, and the key that ends a line counts the row up without a
look at the end of the screen.  Only `kprintf` takes row 25 for a scroll that
is due.  A session keeps the cursor on the screen and all stores in text memory
exactly as long as `kprintf` does not leave the last row and the keys and the
prompt do not come while a scroll is due.
-/

namespace Janus86
namespace Video

open StepMachine

/-! ## shell.c -/

def promptLen : ℕ := 8

def backspace : UInt8 := 8

/-- The column that a backspace goes to. -/
def Screen.columnBack (s : Screen) : ℤ :=
  if (s.cursorX : ℤ) - 1 < promptLen then promptLen else s.cursorX - 1

def spaceCall : Call := ⟨[32, 0], fun _ => ⟨0, []⟩⟩

/-- `kprintf("%c", ch)`. -/
def charCall (ch : UInt8) : Call :=
  ⟨[37, 99, 0], fun _ => ⟨UInt32.ofInt (Shell.toChar ch), []⟩⟩

def promptCall : Call :=
  ⟨[106, 97, 110, 117, 115, 56, 54, 62, 0], fun _ => ⟨0, []⟩⟩

def Screen.eraseChar (s : Screen) : Except Fault Screen := do
  let s := s.setCursorPosition s.columnBack s.cursorY
  let s ← s.kprintf spaceCall.fmt spaceCall.args
  pure (s.setCursorPosition s.columnBack s.cursorY)

/-- What follows the loop of `getline`. -/
def Screen.endLine (s : Screen) : Screen :=
  { s with cursorY := s.cursorY + 1, cursorX := 0 }

/-- A key in `getline`. -/
def Screen.getline (s : Screen) (ch : UInt8) : Except Fault Screen :=
  if ch = newline then pure s.endLine
  else if ch = backspace then s.eraseChar
  else s.kprintf (charCall ch).fmt (charCall ch).args

def Screen.printPrompt (s : Screen) : Except Fault Screen :=
  let s := { s with cursorX := 0 }
  (s.setCursorPosition 0 s.cursorY).kprintf promptCall.fmt promptCall.args

/-! ## Sessions -/

inductive Event where
  | prompt
  | key (ch : UInt8)
  | print (call : Call)

def Screen.event (s : Screen) : Event → Except Fault Screen
  | .prompt => s.printPrompt
  | .key ch => s.getline ch
  | .print call => s.kprintf call.fmt call.args

def sessionStep (s : Screen) (e : Event) (s' : Screen) : Prop :=
  s.event e = .ok s'

/-- The stores so far went into text memory. -/
def Screen.Inside (s : Screen) : Prop :=
  ∀ st ∈ s.stores, st.1 < 2 * textmodeCol * textmodeRow

/-- The cursor and the stores are where they belong. -/
structure OnScreen (s : Screen) : Prop where
  cursor : CursorIn s.cursor
  stores : s.Inside

/-- A character that moves the cursor out of the last row. -/
def LeavesLastRow (cursor : ℕ × ℕ) (c : UInt8) : Prop :=
  cursor.2 + 1 = textmodeRow ∧ (c = newline ∨ cursor.1 + 1 = textmodeCol)

instance (cursor : ℕ × ℕ) (c : UInt8) : Decidable (LeavesLastRow cursor c) :=
  inferInstanceAs (Decidable (_ ∧ _))

/-- What an event may be, given the cursor: a key that edits and the prompt
come while no scroll is due, and nothing that is printed leaves the last
row. -/
def Event.Fits (s : Screen) : Event → Prop
  | .prompt => s.cursorY < textmodeRow
  | .key ch =>
      if ch = newline ∨ ch = backspace then s.cursorY < textmodeRow
      else Avoids LeavesLastRow s.cursor (cString [ch])
  | .print call =>
      ∀ text, formatted call.fmt call.args = .ok text →
        Avoids LeavesLastRow s.cursor text

/-! ## Stores -/

theorem inside_store (s : Screen) (o : ℕ) (b : UInt8) :
    (s.store o b).Inside ↔ s.Inside ∧ o < 2 * textmodeCol * textmodeRow := by
  simp only [Screen.Inside, Screen.store, List.forall_mem_append,
    List.forall_mem_singleton]

theorem inside_moveTo (s : Screen) (x y : ℕ) :
    (s.moveTo x y).Inside ↔
      s.Inside ∧ 2 * (y * textmodeCol + x) + 1 < 2 * textmodeCol * textmodeRow :=
  inside_store { s with cursorX := x, cursorY := y } _ white

theorem inside_kscrollDisplay {s : Screen} (hy : s.cursorY = textmodeRow) :
    s.kscrollDisplay.Inside ↔ s.Inside := by
  obtain ⟨moved, hscroll, ⟨made, hmade, hstores⟩, _⟩ :=
    kscrollDisplay_eq s hy (by decide)
  rw [hscroll, inside_moveTo]
  simp only [Screen.Inside, hstores, List.forall_mem_append]
  constructor
  · exact fun h => h.1.1
  · exact fun h => ⟨⟨h, hmade⟩, by decide⟩

theorem inside_put_of_lt {s : Screen} {c : UInt8} (hc : c ≠ newline)
    (hx : s.cursorX < textmodeCol) (hy : s.cursorY < textmodeRow) :
    (s.put c).Inside ↔ s.Inside ∧ ¬LeavesLastRow s.cursor c := by
  rw [put_of_lt hc hx hy, inside_moveTo, inside_store, inside_store]
  have hleaves : LeavesLastRow s.cursor c ↔
      s.cursorY + 1 = textmodeRow ∧ s.cursorX + 1 = textmodeCol := by
    simp only [LeavesLastRow, hc, false_or]
    rfl
  rw [hleaves]
  simp only [Screen.index, nextCell, textmodeCol, textmodeRow] at hx hy ⊢
  by_cases hwrap : s.cursorX + 1 = 80
  · simp only [hwrap, if_true, and_true]
    constructor
    · rintro ⟨⟨⟨h, _⟩, _⟩, hlt⟩
      exact ⟨h, by omega⟩
    · rintro ⟨h, hlast⟩
      exact ⟨⟨⟨h, by omega⟩, by omega⟩, by omega⟩
  · simp only [hwrap, if_false, and_false, not_false_eq_true, and_true]
    constructor
    · exact fun h => h.1.1.1
    · exact fun h => ⟨⟨⟨h, by omega⟩, by omega⟩, by omega⟩

theorem inside_put {s : Screen} (hok : CursorIn s.cursor) (c : UInt8) :
    (s.put c).Inside ↔ s.Inside ∧ ¬LeavesLastRow s.cursor c := by
  rcases hok.due_or_lt with ⟨_, hy⟩ | ⟨hx, hy⟩
  · have hstays : ¬LeavesLastRow s.cursor c := by
      rintro ⟨hlast, _⟩
      rw [show s.cursor.2 = textmodeRow from hy] at hlast
      simp at hlast
    rw [and_iff_left hstays]
    by_cases hc : c = newline
    · rw [hc, put_newline_of_due hy, inside_kscrollDisplay hy]
    · obtain ⟨hx', hy'⟩ := kscrollDisplay_fields hy
      have hfirst : ¬LeavesLastRow s.kscrollDisplay.cursor c := by
        rintro ⟨_, hnew | hlast⟩
        · exact hc hnew
        · rw [kscrollDisplay_cursor hy] at hlast
          simp at hlast
      rw [put_of_due hc hy, inside_put_of_lt hc (by rw [hx']; decide)
        (by rw [hy']; decide), inside_kscrollDisplay hy, and_iff_left hfirst]
  · by_cases hc : c = newline
    · have hleaves : LeavesLastRow s.cursor c ↔ s.cursorY + 1 = textmodeRow := by
        simp only [LeavesLastRow, hc, true_or, and_true]
        rfl
      rw [hleaves, hc, put_newline_of_lt hy, inside_moveTo]
      simp only [textmodeCol, textmodeRow] at hy ⊢
      exact and_congr_right fun _ => by omega
    · exact inside_put_of_lt hc hx hy

theorem inside_putText {s : Screen} (hok : CursorIn s.cursor)
    (text : List UInt8) :
    (s.putText s.index text).Inside ↔
      s.Inside ∧ Avoids LeavesLastRow s.cursor text := by
  rw [putText_eq_foldl hok]
  induction text generalizing s with
  | nil => simp [Avoids]
  | cons c text ih =>
      rw [List.foldl_cons, ih (put_in hok c), inside_put hok, put_cursor hok,
        and_assoc]
      rfl

theorem putText_in {s : Screen} (hok : CursorIn s.cursor) (text : List UInt8) :
    CursorIn (s.putText s.index text).cursor := by
  rw [putText_eq_foldl hok]
  induction text generalizing s with
  | nil => exact hok
  | cons c text ih => exact ih (put_in hok c)

/-! ## Events -/

theorem formatted_spaceCall :
    formatted spaceCall.fmt spaceCall.args = .ok [space] :=
  formatted_eq_ok_of_toOption (by decide +kernel)

theorem formatted_promptCall :
    formatted promptCall.fmt promptCall.args =
      .ok [106, 97, 110, 117, 115, 56, 54, 62] :=
  formatted_eq_ok_of_toOption (by decide +kernel)

theorem forall_byte {P : UInt8 → Prop} (hall : ∀ n : Fin 256, P (UInt8.ofNat n.val))
    (b : UInt8) : P b := by
  have hb := hall ⟨b.toNat, b.toNat_lt⟩
  rwa [UInt8.ofNat_toNat] at hb

theorem toChar_word (ch : UInt8) :
    (UInt32.ofInt (Shell.toChar ch)).toUInt8 = ch := by
  revert ch
  exact forall_byte (by decide +kernel)

theorem formatted_of_parse {call : Call} {ps : List Printf.Piece} {text : List UInt8}
    (hparse : Printf.parse call.fmt = some ps)
    (htext : Printf.textOf call.args ps 0 = text)
    (hfit : text.length < Printf.bufferSize) :
    formatted call.fmt call.args = .ok (cString text) := by
  have hrun := Printf.vsnprintf_eq call.args Printf.bufferSize call.fmt
  rw [hparse] at hrun
  simp only [htext] at hrun
  have hcall : Printf.kprintf call.fmt call.args = _ := hrun
  rw [formatted, hcall, ok_bind, if_pos hfit]
  rfl

theorem formatted_charCall (ch : UInt8) :
    formatted (charCall ch).fmt (charCall ch).args = .ok (cString [ch]) := by
  have hparse : Printf.parse [37, 99, 0] =
      some [.directive ⟨false, false, 0, false, false, .char⟩] := by decide
  have htext : Printf.textOf (charCall ch).args
      [.directive ⟨false, false, 0, false, false, .char⟩] 0 = cString [ch] := by
    simp [Printf.textOf, Printf.Piece.text, Printf.Directive.text,
      Printf.field, Printf.Directive.sign, Printf.Directive.negative,
      Printf.Directive.body, charCall, toChar_word]
  have hout : cString (cString [ch]) = cString [ch] := by
    by_cases hch : ch = 0 <;> simp [cString, hch]
  have hfit : (cString [ch]).length < Printf.bufferSize := by
    by_cases hch : ch = 0 <;> simp [cString, hch, Printf.bufferSize]
  have hcall : formatted (charCall ch).fmt (charCall ch).args =
      .ok (cString (cString [ch])) := formatted_of_parse hparse htext hfit
  rwa [hout] at hcall

theorem avoids_of_short {x y : ℕ} {text : List UInt8} (hnew : newline ∉ text)
    (hroom : x + text.length < textmodeCol) (hy : y < textmodeRow) :
    Avoids LeavesLastRow (x, y) text := by
  induction text generalizing x with
  | nil => trivial
  | cons c text ih =>
      rw [List.mem_cons, not_or] at hnew
      rw [List.length_cons] at hroom
      have hc : ¬c = newline := Ne.symm hnew.1
      have hcol : ¬x + 1 = textmodeCol := by omega
      have hnext : cursorAfter (x, y) c = (x + 1, y) := by
        rw [cursorAfter, if_neg hc, if_neg hy.ne, nextCell, if_neg hcol]
      refine ⟨?_, ?_⟩
      · rintro ⟨_, h | h⟩
        · exact hc h
        · exact hcol h
      · rw [hnext]
        exact ih hnew.2 (by omega)

/-- A call keeps the cursor on the screen, and its stores inside when its text
does not leave the last row. -/
theorem onScreen_kprintf_iff {s s' : Screen} {call : Call} {text : List UInt8}
    (hok : CursorIn s.cursor) (htext : formatted call.fmt call.args = .ok text)
    (hcall : s.kprintf call.fmt call.args = .ok s') :
    OnScreen s' ↔ s.Inside ∧ Avoids LeavesLastRow s.cursor text := by
  obtain ⟨text', htext', rfl⟩ := kprintf_eq_ok_iff.mp hcall
  obtain rfl := Except.ok.inj (htext.symm.trans htext')
  rw [← inside_putText hok]
  exact ⟨fun h => h.stores, fun h => ⟨putText_in hok text, h⟩⟩

theorem onScreen_print_iff {s s' : Screen} {call : Call} (h : OnScreen s)
    (hcall : s.kprintf call.fmt call.args = .ok s') :
    OnScreen s' ↔ (Event.print call).Fits s := by
  obtain ⟨text, htext, _⟩ := kprintf_eq_ok_iff.mp hcall
  rw [onScreen_kprintf_iff h.cursor htext hcall, and_iff_right h.stores]
  constructor
  · intro havoids text' htext'
    obtain rfl := Except.ok.inj (htext.symm.trans htext')
    exact havoids
  · exact fun hfits => hfits text htext

theorem onScreen_endLine_iff {s : Screen} (h : OnScreen s) :
    OnScreen s.endLine ↔ s.cursorY < textmodeRow := by
  constructor
  · intro hend
    have hy : s.cursorY + 1 < textmodeRow ∨
        0 = 0 ∧ s.cursorY + 1 = textmodeRow := hend.cursor.2
    omega
  · intro hy
    have hcursor : CursorIn (0, s.cursorY + 1) := by
      refine ⟨show 0 < textmodeCol by decide, ?_⟩
      rcases Nat.lt_or_ge (s.cursorY + 1) textmodeRow with hlt | hge
      · exact Or.inl hlt
      · exact Or.inr ⟨rfl, le_antisymm hy hge⟩
    exact ⟨hcursor, h.stores⟩

theorem onScreen_printPrompt_iff {s s' : Screen} (h : OnScreen s)
    (hprompt : s.printPrompt = .ok s') :
    OnScreen s' ↔ s.cursorY < textmodeRow := by
  have hle : s.cursorY ≤ textmodeRow := by
    rcases h.cursor.due_or_lt with ⟨_, hy⟩ | ⟨_, hy⟩
    · exact hy.le
    · exact hy.le
  have hmove : ({ s with cursorX := 0 } : Screen).setCursorPosition 0 s.cursorY =
      s.moveTo 0 s.cursorY := setCursorPosition_eq _ (x := 0) (by decide) hle
  have hcursor : CursorIn (0, s.cursorY) := by
    refine ⟨show 0 < textmodeCol by decide, ?_⟩
    exact (Nat.lt_or_eq_of_le hle).imp id fun hy => ⟨rfl, hy⟩
  unfold Screen.printPrompt at hprompt
  simp only [hmove] at hprompt
  have hiff := onScreen_kprintf_iff (s := s.moveTo 0 s.cursorY) hcursor
    formatted_promptCall hprompt
  rw [hiff, inside_moveTo, and_iff_right h.stores, moveTo_cursor]
  constructor
  · rintro ⟨hlt, _⟩
    simp only [textmodeCol, textmodeRow] at hlt ⊢
    omega
  · intro hy
    refine ⟨?_, avoids_of_short (by decide) (by decide) hy⟩
    simp only [textmodeCol, textmodeRow] at hy ⊢
    omega

theorem columnBack_eq (s : Screen) :
    s.columnBack = (max promptLen (s.cursorX - 1) : ℕ) := by
  unfold Screen.columnBack
  by_cases hlt : (s.cursorX : ℤ) - 1 < promptLen
  · rw [if_pos hlt]
    omega
  · rw [if_neg hlt]
    omega

theorem moveBack_eq {s : Screen} (hx : s.cursorX < textmodeCol)
    (hy : s.cursorY ≤ textmodeRow) :
    s.setCursorPosition s.columnBack s.cursorY =
      s.moveTo (max promptLen (s.cursorX - 1)) s.cursorY := by
  rw [columnBack_eq]
  refine setCursorPosition_eq s ?_ hy
  simp only [promptLen, textmodeCol] at hx ⊢
  omega

/-- In row 25 the blank of a backspace is stored behind the screen. -/
theorem cursor_of_space_behind {s s' : Screen}
    (hcall : (s.moveTo (max promptLen (0 - 1)) textmodeRow).kprintf spaceCall.fmt
      spaceCall.args = .ok s') : s'.cursor = (9, textmodeRow) := by
  obtain ⟨text, htext, rfl⟩ := kprintf_eq_ok_iff.mp hcall
  obtain rfl := Except.ok.inj (formatted_spaceCall.symm.trans htext)
  have hindex : (s.moveTo (max promptLen (0 - 1)) textmodeRow).index = 4016 := by
    change (25 * 80 + 8) * 2 = 4016
    norm_num
  rw [hindex, Screen.putText, if_neg (by decide), Screen.makeRoom,
    if_neg (by decide)]
  exact congrArg Screen.cursor
    (setCursorPosition_eq _ (x := 9) (y := textmodeRow) (by decide) le_rfl)

theorem onScreen_eraseChar_iff {s s' : Screen} (h : OnScreen s)
    (herase : s.eraseChar = .ok s') : OnScreen s' ↔ s.cursorY < textmodeRow := by
  have hle : s.cursorY ≤ textmodeRow := by
    rcases h.cursor.due_or_lt with ⟨_, hy⟩ | ⟨_, hy⟩
    · exact hy.le
    · exact hy.le
  unfold Screen.eraseChar at herase
  simp only [moveBack_eq h.cursor.1 hle] at herase
  obtain ⟨mid, hmid, hlast⟩ := bind_eq_ok_iff.mp herase
  obtain rfl := Except.ok.inj hlast
  rcases h.cursor.due_or_lt with ⟨hx, hy⟩ | ⟨hx, hy⟩
  · -- row 25 has no column 8
    refine iff_of_false (fun hgood => ?_) (by omega)
    rw [hx, hy] at hmid
    have hcursor := cursor_of_space_behind hmid
    have hmidX : mid.cursorX = 9 := (Prod.mk.inj hcursor).1
    have hmidY : mid.cursorY = textmodeRow := (Prod.mk.inj hcursor).2
    rw [moveBack_eq (by rw [hmidX]; decide) hmidY.le, hmidX, hmidY] at hgood
    rcases hgood.cursor.2 with hlt | hzero
    · exact absurd hlt (lt_irrefl textmodeRow)
    · have hcol : max promptLen (9 - 1) = 0 := hzero.1
      exact absurd hcol (by decide)
  · refine iff_of_true ?_ hy
    obtain ⟨k, hk⟩ : ∃ k, k = max promptLen (s.cursorX - 1) := ⟨_, rfl⟩
    rw [← hk] at hmid
    have hcol : k + 1 < textmodeCol := by
      simp only [promptLen, textmodeCol] at hk hx ⊢
      omega
    have hcursor : CursorIn (k, s.cursorY) := ⟨by omega, Or.inl hy⟩
    have hiff := onScreen_kprintf_iff (s := s.moveTo k s.cursorY) hcursor
      formatted_spaceCall hmid
    have hblank : Avoids LeavesLastRow (k, s.cursorY) [space] :=
      avoids_of_short (by decide) hcol hy
    have hinside : (s.moveTo k s.cursorY).Inside := by
      rw [inside_moveTo]
      refine ⟨h.stores, ?_⟩
      simp only [textmodeCol, textmodeRow] at hcol hy ⊢
      omega
    have hgood : OnScreen mid := hiff.mpr ⟨hinside, hblank⟩
    obtain ⟨text, htext, hshow⟩ := kprintf_eq_ok_iff.mp hmid
    obtain rfl := Except.ok.inj (formatted_spaceCall.symm.trans htext)
    have hafter : mid.cursor = (k + 1, s.cursorY) := by
      rw [hshow, putText_eq_foldl (s := s.moveTo k s.cursorY) hcursor]
      refine (put_cursor (s := s.moveTo k s.cursorY) hcursor space).trans ?_
      change cursorAfter (k, s.cursorY) space = _
      rw [cursorAfter, if_neg (by decide), if_neg hy.ne, nextCell,
        if_neg hcol.ne]
    have hmidX : mid.cursorX = k + 1 := (Prod.mk.inj hafter).1
    have hmidY : mid.cursorY = s.cursorY := (Prod.mk.inj hafter).2
    have hback : max promptLen (k + 1 - 1) < textmodeCol := by
      simp only [promptLen, textmodeCol] at hcol ⊢
      omega
    rw [moveBack_eq hgood.cursor.1 (by omega), hmidX, hmidY]
    refine ⟨⟨hback, Or.inl hy⟩, ?_⟩
    rw [inside_moveTo]
    refine ⟨hgood.stores, ?_⟩
    simp only [textmodeCol, textmodeRow] at hback hy ⊢
    omega

theorem onScreen_event_iff {s s' : Screen} {e : Event} (h : OnScreen s)
    (hstep : sessionStep s e s') : OnScreen s' ↔ e.Fits s := by
  cases e with
  | prompt => exact onScreen_printPrompt_iff h hstep
  | print call => exact onScreen_print_iff h hstep
  | key ch =>
      simp only [sessionStep, Screen.event, Screen.getline] at hstep
      unfold Event.Fits
      by_cases hnew : ch = newline
      · rw [if_pos hnew] at hstep
        obtain rfl := Except.ok.inj hstep
        simp only [hnew, true_or, if_true]
        exact onScreen_endLine_iff h
      · rw [if_neg hnew] at hstep
        by_cases hback : ch = backspace
        · rw [if_pos hback] at hstep
          simp only [hback, or_true, if_true]
          exact onScreen_eraseChar_iff h hstep
        · rw [if_neg hback] at hstep
          simp only [hnew, hback, or_self, if_false]
          rw [onScreen_kprintf_iff h.cursor (formatted_charCall ch) hstep,
            and_iff_right h.stores]

/-! ## Sessions from a cleared screen -/

theorem onScreen_kclearScreen (vidmem : ℕ → UInt8) :
    OnScreen (kclearScreen vidmem) := by
  have hcursor : CursorIn (10, 0) := ⟨by decide, Or.inl (by decide)⟩
  exact ⟨hcursor, fun st hst => by cases hst⟩

theorem onScreen_iff (s : Screen) :
    OnScreen s ↔ (s.cursorX < 80 ∧ (s.cursorY ≤ 24 ∨
      (s.cursorX, s.cursorY) = (0, 25))) ∧
      ∀ st ∈ s.stores, st.1 < 2 * 80 * 25 := by
  rw [← Nat.lt_succ_iff, Prod.mk.injEq]
  exact ⟨fun h => ⟨h.cursor, h.stores⟩, fun h => ⟨h.1, h.2⟩⟩

/-- A session keeps the cursor on the screen and its stores in text memory
exactly as long as each event fits where it comes. -/
theorem session_onScreen_iff {vidmem : ℕ → UInt8}
    {events : List (Transition Screen Event)}
    (hpath : StepPath sessionStep (kclearScreen vidmem) events) :
    (∀ t ∈ events,
      (t.after.cursorX < 80 ∧ (t.after.cursorY ≤ 24 ∨
        (t.after.cursorX, t.after.cursorY) = (0, 25))) ∧
      ∀ st ∈ t.after.stores, st.1 < 2 * 80 * 25) ↔
      ∀ t ∈ events, t.label.Fits t.before := by
  have hiff : (∀ t ∈ events, OnScreen t.after) ↔
      ∀ t ∈ events, t.label.Fits t.before :=
    hpath.forall_after_iff (onScreen_kclearScreen vidmem)
      fun _ _ _ => onScreen_event_iff
  simp only [← onScreen_iff]
  exact hiff

/-- The session of these events. -/
def sessionOf (s : Screen) : List Event → Except Fault (List (Transition Screen Event))
  | [] => .ok []
  | e :: es => do
      let s' ← s.event e
      let ts ← sessionOf s' es
      pure (⟨s, e, s'⟩ :: ts)

theorem stepPath_sessionOf {s : Screen} {es : List Event}
    {ts : List (Transition Screen Event)} (hrun : sessionOf s es = .ok ts) :
    StepPath sessionStep s ts ∧ ts.map (·.label) = es := by
  induction es generalizing s ts with
  | nil =>
      cases hrun
      exact ⟨trivial, rfl⟩
  | cons e es ih =>
      obtain ⟨s', hstep, hrest⟩ := bind_eq_ok_iff.mp hrun
      obtain ⟨more, hmore, hlast⟩ := bind_eq_ok_iff.mp hrest
      cases hlast
      obtain ⟨hpath, hlabels⟩ := ih hmore
      exact ⟨⟨rfl, hstep, hpath⟩, congrArg (e :: ·) hlabels⟩

/-- `A` and a newline. -/
def lineCall : Call := ⟨[65, newline, 0], fun _ => ⟨0, []⟩⟩

/-- The prompt, `la`, a backspace, `s` and the key that ends the line, what the command
prints, and the next prompt. -/
def lineEvents : List Event :=
  [.prompt, .key 108, .key 97, .key backspace, .key 115, .key newline, .print lineCall,
    .prompt]

/-- The print comes at the left edge of the second row. -/
def Event.atLine (s : Screen) : Event → Bool
  | .print _ => s.cursor = (0, 1)
  | _ => s.cursorY < textmodeRow

theorem exists_lineSession : ∃ ts, StepPath sessionStep (kclearScreen fun _ => 7) ts ∧
    ts.map (·.label) = lineEvents ∧ ∀ t ∈ ts, t.label.atLine t.before = true := by
  have hany : (sessionOf (kclearScreen fun _ => 7) lineEvents).toOption.any
      (fun ts => ts.all fun t => t.label.atLine t.before) = true := by
    decide +kernel
  obtain ⟨ts, hrun, hall⟩ := exists_ok_of_any hany
  obtain ⟨hpath, hlabels⟩ := stepPath_sessionOf hrun
  exact ⟨ts, hpath, hlabels, List.all_eq_true.mp hall⟩

/-- A line with a backspace, and what its command prints. -/
theorem session_onScreen_endLine :
    ∃ events : List (Transition Screen Event), events.map (·.label) = lineEvents ∧
      ((∀ t ∈ events,
        (t.after.cursorX < 80 ∧ (t.after.cursorY ≤ 24 ∨
          (t.after.cursorX, t.after.cursorY) = (0, 25))) ∧
        ∀ st ∈ t.after.stores, st.1 < 2 * 80 * 25) ↔
        ∀ t ∈ events, t.label.Fits t.before) := by
  obtain ⟨events, hpath, hlabels, _⟩ := exists_lineSession
  exact ⟨events, hlabels, session_onScreen_iff hpath⟩

def newlinesCall : Call := ⟨List.replicate 25 newline ++ [0], fun _ => ⟨0, []⟩⟩

/-- The last of 25 newlines on a cleared screen leaves the last row, and
`set_cursor_position` stores the attribute of a cell that is not there. -/
theorem newlines_store_outside :
    ∃ events : List (Transition Screen Event),
      StepPath sessionStep (kclearScreen fun _ => 0) events ∧
        ¬ ∀ t ∈ events,
          (t.after.cursorX < 80 ∧ (t.after.cursorY ≤ 24 ∨
            (t.after.cursorX, t.after.cursorY) = (0, 25))) ∧
          ∀ st ∈ t.after.stores, st.1 < 2 * 80 * 25 := by
  have htext : formatted newlinesCall.fmt newlinesCall.args =
      .ok (List.replicate 25 newline) :=
    formatted_eq_ok_of_toOption (by decide +kernel)
  obtain ⟨start, hstart⟩ : ∃ s, s = kclearScreen fun _ => 0 := ⟨_, rfl⟩
  obtain ⟨last, hlast⟩ :
      ∃ s, s = start.putText start.index (List.replicate 25 newline) := ⟨_, rfl⟩
  have hcall : sessionStep start (.print newlinesCall) last :=
    kprintf_eq_ok_iff.mpr ⟨_, htext, hlast⟩
  have hleaves : ¬Avoids LeavesLastRow (10, 0) (List.replicate 25 newline) := by
    decide +kernel
  have hfits : ¬(Event.print newlinesCall).Fits start := by
    intro hfits
    rw [hstart] at hfits
    exact hleaves (hfits _ htext)
  rw [← hstart]
  refine ⟨[⟨_, _, _⟩], ⟨rfl, hcall, trivial⟩, fun hall => hfits ?_⟩
  have hclear : OnScreen start := hstart ▸ onScreen_kclearScreen _
  exact (onScreen_event_iff hclear hcall).mp
    ((onScreen_iff _).mpr (hall _ List.mem_cons_self))

end Video
end Janus86
