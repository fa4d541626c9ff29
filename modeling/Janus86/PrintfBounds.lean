import Janus86.PrintfNumbers
import Janus86.ScreenSession

/-!
# How long a printed text gets

`kprintf` has its text formatted into a buffer of 100 bytes, without a look at the length.
The text of a number has at most 11 characters, so only the strings among the arguments,
and the widths, can make a call overflow.
-/

namespace Janus86
namespace Printf

theorem length_numeral_le {caps : Bool} {radix n k : ℕ} (hradix : 1 < radix) (hk : 0 < k)
    (hn : n < radix ^ k) : (numeral caps radix n).length ≤ k := by
  unfold numeral
  split
  · exact hk
  · rw [List.length_reverse, List.length_map]
    exact (Nat.digits_length_le_iff hradix n).mpr hn

/-- At most so many characters are printed of an argument. -/
def Directive.bound (d : Directive) (a : Arg) : ℕ :=
  max d.width (match d.conv with
    | .char => 1
    | .string => (cString a.bytes).length
    | _ => 11)

def Piece.bound : Piece → Arg → ℕ
  | .directive d, a => d.bound a
  | _, _ => 1

def lengthBound (args : ℕ → Arg) : List Piece → ℕ → ℕ
  | [], _ => 0
  | p :: ps, used => p.bound (args used) + lengthBound args ps (used + p.arity)

theorem length_number_le {d : Directive} (hchar : d.conv ≠ .char) (hstring : d.conv ≠ .string)
    (a : Arg) : (d.sign a).length + (d.body a).length ≤ 11 := by
  have hbits := bits_lt d a
  by_cases hsigned : d.conv = .signed
  · have hmagnitude : d.magnitude a < 10 ^ 10 := by
      unfold Directive.magnitude
      split <;> omega
    have hbody : (d.body a).length ≤ 10 := by
      simp only [Directive.body, hsigned]
      exact length_numeral_le (by decide) (by decide) hmagnitude
    have hsign : (d.sign a).length ≤ 1 := by
      unfold Directive.sign
      split <;> simp
    omega
  · have hnegative : d.negative a = false := by simp [Directive.negative, hsigned]
    have hsign : d.sign a = [] := by simp [Directive.sign, hnegative]
    have hmagnitude : d.magnitude a = d.bits a := by simp [Directive.magnitude, hnegative]
    have hnumeral : ∀ {caps : Bool} {radix : ℕ}, 1 < radix → 2 ^ 32 ≤ radix ^ 11 →
        (numeral caps radix (d.bits a)).length ≤ 11 := fun hradix hpow =>
      length_numeral_le hradix (by decide) (lt_of_lt_of_le hbits hpow)
    rw [hsign, List.length_nil, Nat.zero_add, Directive.body, hmagnitude]
    cases hconv : d.conv with
    | char => exact absurd hconv hchar
    | string => exact absurd hconv hstring
    | signed => exact absurd hconv hsigned
    | hexCaps | hex | unsigned | octal => exact hnumeral (by decide) (by decide)

theorem length_text_le (d : Directive) (a : Arg) : (d.text a).length ≤ d.bound a := by
  unfold Directive.bound
  by_cases hchar : d.conv = .char
  · have hsign : d.sign a = [] := by simp [Directive.sign, Directive.negative, hchar]
    have hbody : (d.body a).length ≤ 1 := by
      simp only [Directive.body, hchar]
      exact (List.takeWhile_sublist _).length_le
    have hwidth : d.actualWidth a = 1 := if_pos hchar
    rw [Directive.text, hwidth, hsign, hchar, field]
    split_ifs <;>
      simp only [List.length_append, List.length_replicate, List.length_nil] <;>
      omega
  · have hwidth : d.actualWidth a = (d.sign a).length + (d.body a).length := if_neg hchar
    rw [Directive.text, hwidth, length_field]
    by_cases hstring : d.conv = .string
    · have hsign : d.sign a = [] := by simp [Directive.sign, Directive.negative, hstring]
      have hbody : d.body a = cString a.bytes := by simp only [Directive.body, hstring]
      rw [hsign, hbody, hstring]
      simp only [List.length_nil]
      omega
    · have hnumber := length_number_le hchar hstring a
      cases hconv : d.conv with
      | char => exact absurd hconv hchar
      | string => exact absurd hconv hstring
      | signed | hexCaps | hex | unsigned | octal =>
          dsimp only
          omega

theorem length_textOf_le (args : ℕ → Arg) (ps : List Piece) (used : ℕ) :
    (textOf args ps used).length ≤ lengthBound args ps used := by
  induction ps generalizing used with
  | nil => exact le_rfl
  | cons p ps ih =>
      have hpiece : (p.text (args used)).length ≤ p.bound (args used) := by
        cases p with
        | literal c => exact le_rfl
        | percent => exact le_rfl
        | directive d => exact length_text_le d _
        | dropped => exact Nat.zero_le 1
      rw [textOf, List.length_append]
      exact Nat.add_le_add hpiece (ih _)

end Printf

namespace Video

/-- A call that cannot overflow the buffer returns. -/
theorem exists_formatted {call : Call} {ps : List Printf.Piece}
    (hparse : Printf.parse call.fmt = some ps)
    (hbound : Printf.lengthBound call.args ps 0 < Printf.bufferSize) :
    ∃ text, formatted call.fmt call.args = .ok text :=
  ⟨_, formatted_of_parse hparse rfl
    (lt_of_le_of_lt (Printf.length_textOf_le call.args ps 0) hbound)⟩

end Video
end Janus86
