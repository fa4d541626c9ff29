import Janus86.ChunkStores
import Janus86.VsnprintfModel

/-!
# The text screen

Text memory has two bytes for each of the 25 rows of 80 cells, a character and
its attribute.  The cursor is a pair of globals that everything reads and
writes; row 25 stands for a scroll that is due.  `kprintf` walks through text
memory with an index of its own and moves the cursor along.

Two fields of the screen are no variables of the source: the stores made so
far, and the rows that were scrolled off the top.
-/

namespace Janus86
namespace Video

open ChunkStores

abbrev textmodeCol : ℕ := 80

abbrev textmodeRow : ℕ := 25

def black : UInt8 := 0

def white : UInt8 := 0x0F

def space : UInt8 := 32

def newline : UInt8 := 10

/-- The characters of a row. -/
abbrev Row := Fin 80 → UInt8

def blankRow : Row := fun _ => space

structure Screen where
  cursorX : ℕ
  cursorY : ℕ
  vidmem : ℕ → UInt8
  stores : List Store
  scrolled : List Row

/-- `*(vidmem + o) = b`. -/
def Screen.store (s : Screen) (o : ℕ) (b : UInt8) : Screen :=
  { s with
    vidmem := Function.update s.vidmem o b
    stores := s.stores ++ [(o, b)] }

def Screen.row (s : Screen) (y : ℕ) : Row :=
  fun x => s.vidmem (2 * (textmodeCol * y + x))

/-- The rows in text memory. -/
def Screen.rows (s : Screen) : List Row :=
  (List.range textmodeRow).map s.row

/-! ## video.c -/

/-- `kclear_screen`, in a machine whose text memory holds `vidmem`.  Only later
stores are recorded. -/
def kclearScreen (vidmem : ℕ → UInt8) : Screen where
  cursorX := 10
  cursorY := 0
  vidmem := fun o =>
    if o < 2 * (textmodeCol * textmodeRow) then
      if o % 2 = 0 then space else black
    else vidmem o
  stores := []
  scrolled := []

/-- `set_cursor_position`, up to the display registers. -/
def Screen.setCursorPosition (s : Screen) (x y : ℤ) : Screen :=
  let y := if x = textmodeCol then y + 1 else y
  let cursorX := if x < 0 ∨ x = textmodeCol then 0 else x.toNat
  let cursorY := if y < 0 ∨ textmodeRow < y then 0 else y.toNat
  let s := { s with cursorX := cursorX, cursorY := cursorY }
  s.store (2 * (cursorY * textmodeCol + cursorX) + 1) white

/-- The first loop of `kscroll_display` moves one byte more than the rows
have; the second one writes over it. -/
def Screen.moveRows (s : Screen) : Screen :=
  (List.range (textmodeCol * (textmodeRow - 1) * 2 + 1)).foldl
    (fun s i => s.store i (s.vidmem (i + 2 * textmodeCol))) s

def Screen.blankLast (s : Screen) : Screen :=
  (List.range textmodeCol).foldl (fun s k =>
    let i := (textmodeRow - 1) * textmodeCol * 2 + 2 * k
    (s.store i space).store (i + 1) black) s

def Screen.kscrollDisplay (s : Screen) : Screen :=
  let moved := s.moveRows.blankLast
  { moved with scrolled := s.scrolled ++ [s.row 0] }.setCursorPosition
    0 (s.cursorY - 1)

/-! ## kprintf.c -/

/-- The newline of the inner loop. -/
def Screen.putNewline (s : Screen) : Screen :=
  if s.cursorY = textmodeRow then s.kscrollDisplay
  else s.setCursorPosition 0 (s.cursorY + 1)

/-- The test of `i` for the end of the screen, and what follows from it. -/
def Screen.makeRoom (s : Screen) (i : ℕ) : ℕ × Screen :=
  if i = textmodeRow * textmodeCol * 2 then
    ((textmodeRow - 1) * textmodeCol * 2, s.kscrollDisplay)
  else (i, s)

/-- A character and its attribute at `i`. -/
def Screen.putChar (s : Screen) (i : ℕ) (c : UInt8) : Screen :=
  let s := (s.store i c).store (i + 1) white
  s.setCursorPosition (s.cursorX + 1) s.cursorY

/-- The loops of `kprintf` over its buffer.  A newline is taken by the inner
loop wherever it stands, so both loops are one pass. -/
def Screen.putText (s : Screen) (i : ℕ) : List UInt8 → Screen
  | [] => s
  | c :: text =>
      if c = newline then
        let s := s.putNewline
        s.putText (s.cursorY * textmodeCol * 2) text
      else
        let (i, s) := s.makeRoom i
        (s.putChar i c).putText (i + 2) text

/-- The index of the cursor's cell. -/
def Screen.index (s : Screen) : ℕ :=
  (s.cursorY * textmodeCol + s.cursorX) * 2

/-- The text in the buffer of `kprintf`, which has to hold it with its NUL. -/
def formatted (fmt : List UInt8) (args : ℕ → Printf.Arg) :
    Except Fault (List UInt8) := do
  let r ← Printf.kprintf fmt args
  if r.out.length < Printf.bufferSize then pure (cString r.out)
  else throw .outOfBounds

def Screen.kprintf (s : Screen) (fmt : List UInt8) (args : ℕ → Printf.Arg) :
    Except Fault Screen := do
  let text ← formatted fmt args
  pure (s.putText s.index text)

/-! ## What the operations do -/

/-- The cursor to a cell, which gets the attribute. -/
def Screen.moveTo (s : Screen) (x y : ℕ) : Screen :=
  { s with cursorX := x, cursorY := y }.store
    (2 * (y * textmodeCol + x) + 1) white

theorem setCursorPosition_eq (s : Screen) {x y : ℕ} (hx : x < textmodeCol)
    (hy : y ≤ textmodeRow) : s.setCursorPosition x y = s.moveTo x y := by
  have hx' : ¬((x : ℤ) < 0 ∨ (x : ℤ) = textmodeCol) := by omega
  have hx'' : ¬(x : ℤ) = textmodeCol := by omega
  have hy' : ¬((y : ℤ) < 0 ∨ (textmodeRow : ℤ) < y) := by omega
  simp only [Screen.setCursorPosition, Screen.moveTo, if_neg hx', if_neg hx'',
    if_neg hy', Int.toNat_natCast]

theorem setCursorPosition_wrap (s : Screen) {y : ℕ} (hy : y < textmodeRow) :
    s.setCursorPosition textmodeCol y = s.moveTo 0 (y + 1) := by
  have hy' : ¬((y : ℤ) + 1 < 0 ∨ (textmodeRow : ℤ) < (y : ℤ) + 1) := by omega
  simp only [Screen.setCursorPosition, Screen.moveTo, or_true, if_true,
    if_neg hy', Int.toNat_natCast_add_one]

section Loops

variable (s : Screen)

theorem moveRows_turns (n : ℕ) :
    ∃ made, (∀ st ∈ made, st.1 < n) ∧
      (List.range n).foldl
        (fun s i => s.store i (s.vidmem (i + 2 * textmodeCol))) s =
      { s with
        vidmem := fun o =>
          if o < n then s.vidmem (o + 2 * textmodeCol) else s.vidmem o
        stores := s.stores ++ made } := by
  induction n with
  | zero => exact ⟨[], by simp, by simp⟩
  | succ n ih =>
      obtain ⟨made, hmade, hloop⟩ := ih
      refine ⟨made ++ [(n, s.vidmem (n + 2 * textmodeCol))], ?_, ?_⟩
      · intro st hst
        rcases List.mem_append.mp hst with hst | hst
        · exact (hmade st hst).trans (Nat.lt_succ_self n)
        · obtain rfl := List.mem_singleton.mp hst
          exact Nat.lt_succ_self n
      · rw [List.range_succ, List.foldl_append, hloop]
        have hread : ¬ n + 2 * textmodeCol < n := by omega
        simp only [List.foldl_cons, List.foldl_nil, Screen.store, if_neg hread,
          List.append_assoc, Screen.mk.injEq, and_true, true_and]
        funext o
        by_cases ho : o = n
        · simp [ho]
        · simp only [Function.update_of_ne ho]
          have hsplit : o < n + 1 ↔ o < n := by omega
          simp only [hsplit]

theorem blankLast_turns (n : ℕ) :
    ∃ made : List Store, (∀ st ∈ made, st.1 < 3840 + 2 * n) ∧
      (List.range n).foldl (fun s k =>
        let i := (textmodeRow - 1) * textmodeCol * 2 + 2 * k
        (s.store i space).store (i + 1) black) s =
      { s with
        vidmem := fun o =>
          if 3840 ≤ o ∧ o < 3840 + 2 * n then
            if o % 2 = 0 then space else black
          else s.vidmem o
        stores := s.stores ++ made } := by
  induction n with
  | zero =>
      refine ⟨[], by simp, ?_⟩
      have hnone : ∀ o : ℕ, ¬(3840 ≤ o ∧ o < 3840 + 2 * 0) := by omega
      simp only [List.range_zero, List.foldl_nil, List.append_nil, hnone,
        if_false]
  | succ n ih =>
      obtain ⟨made, hmade, hloop⟩ := ih
      refine ⟨made ++ [(3840 + 2 * n, space), (3840 + 2 * n + 1, black)], ?_, ?_⟩
      · intro st hst
        simp only [List.mem_append, List.mem_cons, List.not_mem_nil,
          or_false] at hst
        rcases hst with hst | rfl | rfl
        · exact (hmade st hst).trans (by omega)
        · simp only
          omega
        · simp only
          omega
      · rw [List.range_succ, List.foldl_append, hloop]
        have hbase : (textmodeRow - 1) * textmodeCol * 2 = 3840 := rfl
        simp only [List.foldl_cons, List.foldl_nil, Screen.store, hbase,
          List.append_assoc, List.cons_append, List.nil_append,
          Screen.mk.injEq, and_true, true_and]
        funext o
        simp only [Function.update_apply]
        by_cases hodd : o = 3840 + 2 * n + 1
        · have hin : 3840 ≤ o ∧ o < 3840 + 2 * (n + 1) := by omega
          have hmod : ¬ o % 2 = 0 := by omega
          rw [if_pos hodd, if_pos hin, if_neg hmod]
        · by_cases heven : o = 3840 + 2 * n
          · have hin : 3840 ≤ o ∧ o < 3840 + 2 * (n + 1) := by omega
            have hmod : o % 2 = 0 := by omega
            rw [if_neg hodd, if_pos heven, if_pos hin, if_pos hmod]
          · have hsplit : (3840 ≤ o ∧ o < 3840 + 2 * (n + 1)) ↔
                (3840 ≤ o ∧ o < 3840 + 2 * n) := by omega
            simp only [if_neg hodd, if_neg heven, hsplit]

/-- Every row but the last takes the text of the one below it, the last one is
blank, and the cursor goes up. -/
theorem kscrollDisplay_eq {y : ℕ} (hy : s.cursorY = y + 1)
    (hle : y ≤ textmodeRow) :
    ∃ moved : Screen, s.kscrollDisplay = moved.moveTo 0 y ∧
      (∃ made, (∀ st ∈ made, st.1 < 4000) ∧ moved.stores = s.stores ++ made) ∧
      moved.scrolled = s.scrolled ++ [s.row 0] ∧
      ∀ o, moved.vidmem o =
        if o < 3840 then s.vidmem (o + 160)
        else if o < 4000 then if o % 2 = 0 then space else black
        else s.vidmem o := by
  obtain ⟨made, hmade, hmove⟩ := moveRows_turns s 3841
  obtain ⟨made', hmade', hblank⟩ := blankLast_turns s.moveRows 80
  have hmove' : s.moveRows = _ := hmove
  have hblank' : s.moveRows.blankLast = _ := hblank
  refine ⟨{ s.moveRows.blankLast with scrolled := s.scrolled ++ [s.row 0] },
    ?_, ⟨made ++ made', ?_, ?_⟩, rfl, ?_⟩
  · have hcursor : ((s.cursorY : ℤ) - 1) = (y : ℤ) := by omega
    rw [Screen.kscrollDisplay, hcursor]
    exact setCursorPosition_eq _ (by decide) hle
  · intro st hst
    rcases List.mem_append.mp hst with hst | hst
    · exact (hmade st hst).trans (by omega)
    · exact hmade' st hst
  · rw [hblank', hmove', List.append_assoc]
  · intro o
    rw [hblank', hmove']
    simp only [textmodeCol]
    by_cases hlow : o < 3840
    · have hout : ¬(3840 ≤ o ∧ o < 3840 + 2 * 80) := by omega
      rw [if_neg hout, if_pos (by omega), if_pos hlow]
    · by_cases hlast : o < 4000
      · rw [if_pos (by omega), if_neg hlow, if_pos hlast]
      · have hout : ¬(3840 ≤ o ∧ o < 3840 + 2 * 80) := by omega
        rw [if_neg hout, if_neg (by omega), if_neg hlow, if_neg hlast]

end Loops

/-! ## One character at a time -/

/-- A cell, or the place in front of the row that a scroll will make. -/
def CursorIn (p : ℕ × ℕ) : Prop :=
  p.1 < textmodeCol ∧
    (p.2 < textmodeRow ∨ p.1 = 0 ∧ p.2 = textmodeRow)

/-- A character at the cursor. -/
def Screen.put (s : Screen) (c : UInt8) : Screen :=
  if c = newline then s.putNewline
  else
    let s := if s.cursorY = textmodeRow then s.kscrollDisplay else s
    s.putChar s.index c

/-- The cell behind a cell. -/
def nextCell (x y : ℕ) : ℕ × ℕ :=
  if x + 1 = textmodeCol then (0, y + 1) else (x + 1, y)

/-- Where the cursor goes with a character. -/
def cursorAfter (p : ℕ × ℕ) (c : UInt8) : ℕ × ℕ :=
  if c = newline then
    if p.2 = textmodeRow then (0, textmodeRow - 1) else (0, p.2 + 1)
  else if p.2 = textmodeRow then nextCell p.1 (textmodeRow - 1)
  else nextCell p.1 p.2

def Screen.cursor (s : Screen) : ℕ × ℕ := (s.cursorX, s.cursorY)

theorem nextCell_in {x y : ℕ} (hx : x < textmodeCol) (hy : y < textmodeRow) :
    CursorIn (nextCell x y) := by
  unfold nextCell
  by_cases hwrap : x + 1 = textmodeCol
  · rw [if_pos hwrap]
    refine ⟨show 0 < textmodeCol by decide, ?_⟩
    rcases Nat.lt_or_ge (y + 1) textmodeRow with h | h
    · exact Or.inl h
    · exact Or.inr ⟨rfl, le_antisymm hy h⟩
  · rw [if_neg hwrap]
    exact ⟨lt_of_le_of_ne hx hwrap, Or.inl hy⟩

theorem cursorAfter_in {p : ℕ × ℕ} (hp : CursorIn p) (c : UInt8) :
    CursorIn (cursorAfter p c) := by
  obtain ⟨hx, hy⟩ := hp
  unfold cursorAfter
  by_cases hdue : p.2 = textmodeRow
  · rw [if_pos hdue, if_pos hdue]
    split
    · exact ⟨by decide, Or.inl (by decide)⟩
    · exact nextCell_in hx (by decide)
  · have hlt : p.2 < textmodeRow := hy.resolve_right fun h => hdue h.2
    rw [if_neg hdue, if_neg hdue]
    split
    · refine ⟨show 0 < textmodeCol by decide, ?_⟩
      rcases Nat.lt_or_ge (p.2 + 1) textmodeRow with h | h
      · exact Or.inl h
      · exact Or.inr ⟨rfl, le_antisymm hlt h⟩
    · exact nextCell_in hx hlt

theorem CursorIn.due_or_lt {s : Screen} (hok : CursorIn s.cursor) :
    s.cursorX = 0 ∧ s.cursorY = textmodeRow ∨
      s.cursorX < textmodeCol ∧ s.cursorY < textmodeRow := by
  rcases hok.2 with h | h
  · exact Or.inr ⟨hok.1, h⟩
  · exact Or.inl h

@[simp] theorem moveTo_cursor (s : Screen) (x y : ℕ) :
    (s.moveTo x y).cursor = (x, y) :=
  rfl

theorem kscrollDisplay_cursor {s : Screen} (hy : s.cursorY = textmodeRow) :
    s.kscrollDisplay.cursor = (0, textmodeRow - 1) := by
  obtain ⟨moved, hscroll, _⟩ := kscrollDisplay_eq s hy (by decide)
  rw [hscroll, moveTo_cursor]
  rfl

theorem put_newline_of_due {s : Screen} (hy : s.cursorY = textmodeRow) :
    s.put newline = s.kscrollDisplay := by
  rw [Screen.put, if_pos rfl, Screen.putNewline, if_pos hy]

theorem put_newline_of_lt {s : Screen} (hy : s.cursorY < textmodeRow) :
    s.put newline = s.moveTo 0 (s.cursorY + 1) := by
  rw [Screen.put, if_pos rfl, Screen.putNewline, if_neg hy.ne]
  exact setCursorPosition_eq s (x := 0) (by decide) hy

theorem putChar_eq {s : Screen} (i : ℕ) (c : UInt8)
    (hx : s.cursorX < textmodeCol) (hy : s.cursorY < textmodeRow) :
    s.putChar i c = ((s.store i c).store (i + 1) white).moveTo
      (nextCell s.cursorX s.cursorY).1 (nextCell s.cursorX s.cursorY).2 := by
  unfold Screen.putChar nextCell
  by_cases hwrap : s.cursorX + 1 = textmodeCol
  · rw [if_pos hwrap, ← setCursorPosition_wrap _ hy, ← hwrap]
    rfl
  · rw [if_neg hwrap,
      ← setCursorPosition_eq _ (show s.cursorX + 1 < textmodeCol by omega) hy.le]
    rfl

theorem put_of_lt {s : Screen} {c : UInt8} (hc : c ≠ newline)
    (hx : s.cursorX < textmodeCol) (hy : s.cursorY < textmodeRow) :
    s.put c = ((s.store s.index c).store (s.index + 1) white).moveTo
      (nextCell s.cursorX s.cursorY).1 (nextCell s.cursorX s.cursorY).2 := by
  rw [Screen.put, if_neg hc]
  simp only [if_neg hy.ne]
  exact putChar_eq s.index c hx hy

/-- A character when a scroll is due comes into the row that is made. -/
theorem put_of_due {s : Screen} {c : UInt8} (hc : c ≠ newline)
    (hy : s.cursorY = textmodeRow) : s.put c = s.kscrollDisplay.put c := by
  have hcursor := kscrollDisplay_cursor hy
  simp only [Screen.cursor, Prod.mk.injEq] at hcursor
  have hne : ¬s.kscrollDisplay.cursorY = textmodeRow := by
    rw [hcursor.2]
    decide
  simp only [Screen.put, if_neg hc, if_pos hy, if_neg hne]

theorem kscrollDisplay_fields {s : Screen} (hy : s.cursorY = textmodeRow) :
    s.kscrollDisplay.cursorX = 0 ∧
      s.kscrollDisplay.cursorY = textmodeRow - 1 :=
  Prod.mk.inj (kscrollDisplay_cursor hy)

theorem put_cursor {s : Screen} (hok : CursorIn s.cursor) (c : UInt8) :
    (s.put c).cursor = cursorAfter s.cursor c := by
  unfold cursorAfter
  rcases hok.due_or_lt with ⟨hx, hy⟩ | ⟨hx, hy⟩
  · have hdue : s.cursor.2 = textmodeRow := hy
    rw [if_pos hdue, if_pos hdue]
    by_cases hc : c = newline
    · rw [if_pos hc, hc, put_newline_of_due hy, kscrollDisplay_cursor hy]
    · obtain ⟨hx', hy'⟩ := kscrollDisplay_fields hy
      rw [if_neg hc, put_of_due hc hy,
        put_of_lt hc (by rw [hx']; decide) (by rw [hy']; decide),
        moveTo_cursor, hx', hy', show s.cursor.1 = 0 from hx]
  · have hlt : ¬s.cursor.2 = textmodeRow := hy.ne
    rw [if_neg hlt, if_neg hlt]
    by_cases hc : c = newline
    · rw [if_pos hc, hc, put_newline_of_lt hy, moveTo_cursor]
      rfl
    · rw [if_neg hc, put_of_lt hc hx hy, moveTo_cursor]
      rfl

theorem put_in {s : Screen} (hok : CursorIn s.cursor) (c : UInt8) :
    CursorIn (s.put c).cursor := by
  rw [put_cursor hok c]
  exact cursorAfter_in hok c

theorem index_of_nextCell {s : Screen} {x y : ℕ}
    (hcursor : s.cursor = nextCell x y) :
    s.index = (y * textmodeCol + x) * 2 + 2 := by
  simp only [Screen.cursor, nextCell] at hcursor
  split at hcursor
  · next hx =>
      obtain ⟨hx', hy'⟩ := Prod.mk.inj hcursor
      rw [Screen.index, hx', hy', ← hx]
      ring
  · obtain ⟨hx', hy'⟩ := Prod.mk.inj hcursor
    rw [Screen.index, hx', hy']
    ring

/-- The index that `kprintf` carries along stays that of the cursor's cell. -/
theorem putText_cons {s : Screen} (hok : CursorIn s.cursor) (c : UInt8)
    (text : List UInt8) :
    s.putText s.index (c :: text) = (s.put c).putText (s.put c).index text := by
  have hcursor := put_cursor hok c
  unfold cursorAfter at hcursor
  rw [Screen.putText]
  by_cases hc : c = newline
  · have hput : s.put c = s.putNewline := if_pos hc
    have hzero : (s.put c).cursorX = 0 := by
      rw [if_pos hc] at hcursor
      split at hcursor <;> exact (Prod.mk.inj hcursor).1
    rw [if_pos hc, Screen.index, hzero, hput]
    rfl
  · rw [if_neg hc] at hcursor ⊢
    rcases hok.due_or_lt with ⟨hx, hy⟩ | ⟨hx, hy⟩
    · obtain ⟨hx', hy'⟩ := kscrollDisplay_fields hy
      have hend : s.index = textmodeRow * textmodeCol * 2 := by
        rw [Screen.index, hx, hy]
        rfl
      have hput : s.put c = s.kscrollDisplay.putChar
          ((textmodeRow - 1) * textmodeCol * 2) c := by
        rw [Screen.put, if_neg hc, if_pos hy]
        simp only [Screen.index, hx', hy', Nat.add_zero]
      rw [if_pos (show s.cursor.2 = textmodeRow from hy)] at hcursor
      rw [Screen.makeRoom, if_pos hend, index_of_nextCell hcursor, hput,
        show s.cursor.1 = 0 from hx]
      rfl
    · have hend : ¬s.index = textmodeRow * textmodeCol * 2 := by
        simp only [Screen.index, textmodeCol, textmodeRow] at hx hy ⊢
        omega
      have hput : s.put c = s.putChar s.index c := by
        rw [Screen.put, if_neg hc, if_neg hy.ne]
      rw [if_neg (show ¬s.cursor.2 = textmodeRow from hy.ne)] at hcursor
      rw [Screen.makeRoom, if_neg hend, index_of_nextCell hcursor, hput]
      rfl

/-- `kprintf` puts one character after the other at the cursor. -/
theorem putText_eq_foldl {s : Screen} (hok : CursorIn s.cursor)
    (text : List UInt8) :
    s.putText s.index text = text.foldl Screen.put s := by
  induction text generalizing s with
  | nil => rfl
  | cons c text ih => rw [putText_cons hok, ih (put_in hok c), List.foldl_cons]

/-- From its place on the cursor meets no character that is bad there. -/
def Avoids (bad : ℕ × ℕ → UInt8 → Prop) : ℕ × ℕ → List UInt8 → Prop
  | _, [] => True
  | cursor, c :: text => ¬bad cursor c ∧ Avoids bad (cursorAfter cursor c) text

instance decidableAvoids {bad : ℕ × ℕ → UInt8 → Prop}
    [∀ cursor c, Decidable (bad cursor c)] :
    ∀ cursor text, Decidable (Avoids bad cursor text)
  | _, [] => isTrue trivial
  | cursor, c :: text =>
      have := @decidableAvoids bad _ (cursorAfter cursor c) text
      inferInstanceAs (Decidable (_ ∧ _))

/-- A call of `kprintf`. -/
structure Call where
  fmt : List UInt8
  args : ℕ → Printf.Arg

theorem formatted_eq_ok_of_toOption {call : Call} {text : List UInt8}
    (hshown : (formatted call.fmt call.args).toOption = some text) :
    formatted call.fmt call.args = .ok text := by
  cases hrun : formatted call.fmt call.args with
  | error e =>
      rw [hrun] at hshown
      cases hshown
  | ok text' =>
      rw [hrun] at hshown
      rw [Option.some.inj hshown]

theorem kprintf_eq_ok_iff {s s' : Screen} {call : Call} :
    s.kprintf call.fmt call.args = .ok s' ↔
      ∃ text, formatted call.fmt call.args = .ok text ∧
        s' = s.putText s.index text := by
  unfold Screen.kprintf
  cases formatted call.fmt call.args with
  | error e => simp [bind, Except.bind]
  | ok text => simp [bind, Except.bind, pure, Except.pure, eq_comm]

end Video
end Janus86
