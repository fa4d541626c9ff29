import Janus86.ScreenSession
import Janus86.VsnprintfLaws

/-!
# A text printed in pieces

Within a call `kprintf` carries its index into text memory along by itself, and
the next call computes it from the cursor again.  Wherever a text is cut, behind
a newline, at the end of a row or in front of a scroll, the two agree, so that
the pieces leave the screen that the whole text leaves.
-/

namespace Janus86
namespace Video

/-! ## Calls that print a text -/

/-- `kprintf("%s", text)`. -/
def stringCall (text : List UInt8) : Call :=
  ⟨[37, 115, 0], fun _ => ⟨0, text ++ [0]⟩⟩

/-- `kprintf(text)`. -/
def textCall (text : List UInt8) : Call :=
  ⟨text ++ [0], fun _ => ⟨0, []⟩⟩

/-- The ways to print a text.  As a format it prints itself if it has no percent
sign. -/
inductive Prints : Call → List UInt8 → Prop
  | argument (text : List UInt8) : Prints (stringCall text) text
  | format {text : List UInt8} (plain : '%'.toUInt8 ∉ text) :
      Prints (textCall text) text

theorem formatted_stringCall {text : List UInt8} (hzero : 0 ∉ text)
    (hfit : text.length < Printf.bufferSize) :
    formatted (stringCall text).fmt (stringCall text).args = .ok text := by
  have hstring : cString text = text :=
    (cString_eq_self_iff text).mpr fun c hc h => hzero (h ▸ hc)
  have hparse : Printf.parse [37, 115, 0] =
      some [.directive ⟨false, false, 0, false, false, .string⟩] := by decide
  have htext : Printf.textOf (stringCall text).args
      [.directive ⟨false, false, 0, false, false, .string⟩] 0 = text := by
    simp [Printf.textOf, Printf.Piece.text, Printf.Directive.text,
      Printf.field, Printf.Directive.sign, Printf.Directive.negative,
      Printf.Directive.body, stringCall, cString_append_zero, hstring]
  have hcall : formatted (stringCall text).fmt (stringCall text).args =
      .ok (cString text) := formatted_of_parse hparse htext hfit
  rwa [hstring] at hcall

/-- The characters of a text, as the parts of a format. -/
def literals : (text : List UInt8) → 0 ∉ text → '%'.toUInt8 ∉ text →
    List Printf.Item
  | [], _, _ => []
  | c :: text, hzero, hplain =>
      .literal c (fun h => hzero (h ▸ List.mem_cons_self))
          (fun h => hplain (h ▸ List.mem_cons_self)) ::
        literals text (fun h => hzero (List.mem_cons_of_mem c h))
          (fun h => hplain (List.mem_cons_of_mem c h))

theorem textOf_literals (args : ℕ → Printf.Arg) {text : List UInt8} (hzero : 0 ∉ text)
    (hplain : '%'.toUInt8 ∉ text) (used : ℕ) :
    (literals text hzero hplain).flatMap Printf.Item.text = text ∧
      Printf.textOf args ((literals text hzero hplain).map Printf.Item.piece) used =
        text := by
  induction text with
  | nil => exact ⟨rfl, rfl⟩
  | cons c text ih =>
      obtain ⟨hwritten, hprinted⟩ := ih (fun h => hzero (List.mem_cons_of_mem c h))
        (fun h => hplain (List.mem_cons_of_mem c h))
      refine ⟨?_, ?_⟩
      · rw [literals, List.flatMap_cons, hwritten]
        rfl
      · rw [literals, List.map_cons, Printf.textOf]
        exact congrArg (c :: ·) hprinted

theorem formatted_textCall {text : List UInt8} (hzero : 0 ∉ text)
    (hplain : '%'.toUInt8 ∉ text) (hfit : text.length < Printf.bufferSize) :
    formatted (textCall text).fmt (textCall text).args = .ok text := by
  obtain ⟨hwritten, hprinted⟩ := textOf_literals (textCall text).args hzero hplain 0
  have hparse := Printf.parse_items (literals text hzero hplain) []
  rw [hwritten] at hparse
  have hcall : formatted (textCall text).fmt (textCall text).args =
      .ok (cString text) := formatted_of_parse hparse hprinted hfit
  rwa [(cString_eq_self_iff text).mpr fun c hc h => hzero (h ▸ hc)] at hcall

theorem Prints.formatted {call : Call} {text : List UInt8} (hprints : Prints call text)
    (hzero : 0 ∉ text) (hfit : text.length < Printf.bufferSize) :
    formatted call.fmt call.args = .ok text := by
  cases hprints with
  | argument => exact formatted_stringCall hzero hfit
  | format hplain => exact formatted_textCall hzero hplain hfit

/-! ## Two calls -/

/-- The index that the second call begins with is the one with which a single call
goes on. -/
theorem putText_append {s : Screen} (hok : CursorIn s.cursor) (text more : List UInt8) :
    (s.putText s.index text).putText (s.putText s.index text).index more =
      s.putText s.index (text ++ more) := by
  rw [putText_eq_foldl (putText_in hok text), putText_eq_foldl hok,
    putText_eq_foldl hok, List.foldl_append]

/-- Two texts that are printed one after the other leave the screen, with its
cursor, that their concatenation leaves. -/
theorem kprintf_append {s : Screen} (hok : CursorIn s.cursor)
    {text more : List UInt8} (hzero : 0 ∉ text ++ more)
    (hfit : (text ++ more).length < Printf.bufferSize) {first second whole : Call}
    (hfirst : Prints first text) (hsecond : Prints second more)
    (hwhole : Prints whole (text ++ more)) :
    ∃ s₁ s₂, s.kprintf first.fmt first.args = .ok s₁ ∧
      s₁.kprintf second.fmt second.args = .ok s₂ ∧
      s.kprintf whole.fmt whole.args = .ok s₂ := by
  have hlength := hfit
  rw [List.length_append] at hlength
  rw [List.mem_append, not_or] at hzero
  have htext := hfirst.formatted hzero.1 (by omega)
  have hmore := hsecond.formatted hzero.2 (by omega)
  have hboth := hwhole.formatted (by simp [hzero.1, hzero.2]) hfit
  refine ⟨_, _, kprintf_eq_ok_iff.mpr ⟨text, htext, rfl⟩,
    kprintf_eq_ok_iff.mpr ⟨more, hmore, rfl⟩,
    kprintf_eq_ok_iff.mpr ⟨text ++ more, hboth, ?_⟩⟩
  exact putText_append hok text more

/-- The cursor in the last cell. -/
def lastCell : Screen := ⟨79, 24, fun _ => space, [], []⟩

/-- `A` with a newline, then another newline and `B`. -/
theorem kprintf_append_lastCell :
    ∃ s₁ s₂,
      lastCell.kprintf (stringCall [65, newline]).fmt
          (stringCall [65, newline]).args = .ok s₁ ∧
        s₁.kprintf (textCall [newline, 66]).fmt (textCall [newline, 66]).args =
          .ok s₂ ∧
        lastCell.kprintf (stringCall [65, newline, newline, 66]).fmt
          (stringCall [65, newline, newline, 66]).args = .ok s₂ := by
  have hcursor : CursorIn lastCell.cursor := ⟨by decide, Or.inl (by decide)⟩
  exact kprintf_append hcursor (by decide) (by decide) (.argument [65, newline])
    (.format (by decide)) (.argument ([65, newline] ++ [newline, 66]))

end Video
end Janus86
