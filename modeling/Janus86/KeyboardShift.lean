import Janus86.KeyboardModel

/-!
# The shift keys

What is held down is read off the bytes of the stream, where 0xE0 and 0xE1 announce the
code of an extended key.  The flag of the driver follows the last shift code, extended
or not.  The two agree at every key of a stream whose shift codes come one key at a time
and whose extended shift codes say what the flag says already.
-/

namespace Janus86
namespace Keyboard

/-- The shift keys that are held, and whether the next byte belongs to an extended key. -/
structure Keys where
  extended : Bool
  left : Bool
  right : Bool
  deriving DecidableEq, Repr

def LEFT_UP : UInt8 := KRLEFT_SHIFT ||| KEYPRESS
def RIGHT_UP : UInt8 := KRRIGHT_SHIFT ||| KEYPRESS

def Keys.next (k : Keys) (b : UInt8) : Keys :=
  if b = 0xE0 ∨ b = 0xE1 then { k with extended := true }
  else if k.extended then { k with extended := false }
  else if b = KRLEFT_SHIFT then { k with left := true }
  else if b = LEFT_UP then { k with left := false }
  else if b = KRRIGHT_SHIFT then { k with right := true }
  else if b = RIGHT_UP then { k with right := false }
  else k

def Keys.held (k : Keys) : Bool := k.left || k.right

/-- No key is held when the stream begins. -/
def keysAfter (bytes : List UInt8) : Keys := bytes.foldl Keys.next ⟨false, false, false⟩

/-- Every character that `getch` returns comes out of the shifted table exactly when a
shift key is held at that point of the stream, and every code is inside its table. -/
def Faithful (bytes : List UInt8) : Prop :=
  ∀ r, Returns ⟨false, bytes⟩ r → ∀ delivered, bytes = delivered ++ r.after.port →
    r.shifted = (keysAfter delivered).held ∧ r.char.isSome = true

/-- A byte that the driver takes for what it is. -/
structure Keys.Fits (k : Keys) (b : UInt8) : Prop where
  left_up : k.extended = false → b = LEFT_UP → k.right = false
  right_up : k.extended = false → b = RIGHT_UP → k.left = false
  extended_down : k.extended = true → b = KRLEFT_SHIFT ∨ b = KRRIGHT_SHIFT →
    k.held = true
  extended_up : k.extended = true → b = LEFT_UP ∨ b = RIGHT_UP → k.held = false
  inside : b < KEYPRESS → b < 0x59

/-- Every byte fits the keys that are held before it. -/
def Fits (bytes : List UInt8) : Prop :=
  ∀ before b, before ++ [b] <+: bytes → (keysAfter before).Fits b

/-! ## What the driver does with one byte -/

/-- The press of a key other than a shift key. -/
def IsKey (b : UInt8) : Prop := b < KEYPRESS ∧ b ≠ KRLEFT_SHIFT ∧ b ≠ KRRIGHT_SHIFT

instance (b : UInt8) : Decidable (IsKey b) := by unfold IsKey; infer_instance

def follow (shift : Bool) (b : UInt8) : Bool :=
  if b = LEFT_UP ∨ b = RIGHT_UP then false
  else if b = KRLEFT_SHIFT ∨ b = KRRIGHT_SHIFT then true
  else shift

/-- The flag after the bytes. -/
def flag (bytes : List UInt8) : Bool := bytes.foldl follow false

def callAt (shift : Bool) (b : UInt8) (rest : List UInt8) : Returned :=
  ⟨b, shift, (if shift then asciiShift else asciiNonSh)[b.toNat]?, ⟨shift, rest⟩⟩

theorem length_asciiShift : asciiShift.length = 0x59 := by decide +kernel

theorem length_asciiNonSh : asciiNonSh.length = 0x59 := by decide +kernel

variable {shift : Bool} {b : UInt8} {port : List UInt8}

theorem callAt_char (shift : Bool) (b : UInt8) (rest : List UInt8) :
    (callAt shift b rest).char.isSome = true ↔ b < 0x59 := by
  cases shift <;>
    simp [callAt, length_asciiShift, length_asciiNonSh, UInt8.lt_iff_toNat_lt]

theorem keypress_iff (b : UInt8) : b &&& KEYPRESS ≠ 0 ↔ ¬ b < KEYPRESS := by
  have hall : ∀ n < 256, UInt8.ofNat n &&& KEYPRESS ≠ 0 ↔ ¬ UInt8.ofNat n < KEYPRESS := by
    decide +kernel
  have hb := hall b.toNat b.toNat_lt
  rwa [UInt8.ofNat_toNat] at hb

theorem released_iff (b : UInt8) (hup : ¬ b < KEYPRESS) :
    (b &&& 0x7F = KRLEFT_SHIFT ∨ b &&& 0x7F = KRRIGHT_SHIFT) ↔
      b = LEFT_UP ∨ b = RIGHT_UP := by
  have hall : ∀ n < 256, ¬ UInt8.ofNat n < KEYPRESS →
      ((UInt8.ofNat n &&& 0x7F = KRLEFT_SHIFT ∨ UInt8.ofNat n &&& 0x7F = KRRIGHT_SHIFT) ↔
        UInt8.ofNat n = LEFT_UP ∨ UInt8.ofNat n = RIGHT_UP) := by
    decide +kernel
  have hb := hall b.toNat b.toNat_lt
  rw [UInt8.ofNat_toNat] at hb
  exact hb hup

theorem follow_of_isKey (hkey : IsKey b) : follow shift b = shift := by
  obtain ⟨hdown, hleft, hright⟩ := hkey
  have hups : ¬ (b = LEFT_UP ∨ b = RIGHT_UP) := by
    rintro (rfl | rfl)
    · exact absurd hdown (by decide)
    · exact absurd hdown (by decide)
  simp [follow, hups, hleft, hright]

theorem getRawKey_key (hkey : IsKey b) :
    getRawKey shift (b :: port) = some (b, ⟨shift, port⟩) := by
  obtain ⟨hdown, hleft, hright⟩ := hkey
  have hbit : b &&& KEYPRESS = 0 := not_not.mp fun h => (keypress_iff b).mp h hdown
  simp [getRawKey, hbit, hleft, hright]

theorem getRawKey_other (hkey : ¬ IsKey b) :
    getRawKey shift (b :: port) = getRawKey (follow shift b) port := by
  by_cases hdown : b < KEYPRESS
  · have hshift : b = KRLEFT_SHIFT ∨ b = KRRIGHT_SHIFT := by
      by_contra h
      rw [not_or] at h
      exact hkey ⟨hdown, h⟩
    have hbit : b &&& KEYPRESS = 0 := not_not.mp fun h => (keypress_iff b).mp h hdown
    have hups : ¬ (b = LEFT_UP ∨ b = RIGHT_UP) := by
      rintro (rfl | rfl)
      · exact absurd hdown (by decide)
      · exact absurd hdown (by decide)
    simp [getRawKey, follow, hbit, hshift, hups]
  · have hbit : b &&& KEYPRESS ≠ 0 := (keypress_iff b).mpr hdown
    have hdowns : ¬ (b = KRLEFT_SHIFT ∨ b = KRRIGHT_SHIFT) := by
      rintro (rfl | rfl)
      · exact hdown (by decide)
      · exact hdown (by decide)
    rw [getRawKey, if_pos hbit]
    simp only [released_iff b hdown, follow, if_neg hdowns]
    split <;> rfl

theorem getch_key (hkey : IsKey b) :
    getch ⟨shift, b :: port⟩ = some (callAt shift b port) := by
  simp [getch, getRawKey_key hkey, callAt]

theorem getch_other (hkey : ¬ IsKey b) :
    getch ⟨shift, b :: port⟩ = getch ⟨follow shift b, port⟩ := by
  simp [getch, getRawKey_other hkey]

/-! ## The calls of a stream -/

theorem not_returns_nil {r : Returned} : ¬ Returns ⟨shift, []⟩ r := by
  intro hreturns
  cases hreturns <;> contradiction

theorem returns_key_iff {r : Returned} (hkey : IsKey b) :
    Returns ⟨shift, b :: port⟩ r ↔
      r = callAt shift b port ∨ Returns ⟨shift, port⟩ r := by
  have hcall := @getch_key shift b port hkey
  constructor
  · intro hreturns
    cases hreturns with
    | here call =>
        rw [hcall] at call
        exact Or.inl (Option.some.inj call).symm
    | later call rest =>
        rw [hcall, Option.some.injEq] at call
        subst call
        exact Or.inr rest
  · rintro (rfl | hrest)
    · exact .here hcall
    · exact .later hcall hrest

theorem returns_other_iff {r : Returned} (hkey : ¬ IsKey b) :
    Returns ⟨shift, b :: port⟩ r ↔ Returns ⟨follow shift b, port⟩ r := by
  have hcall := @getch_other shift b port hkey
  constructor
  · intro hreturns
    cases hreturns with
    | here call => exact .here (hcall ▸ call)
    | later call rest => exact .later (hcall ▸ call) rest
  · intro hreturns
    cases hreturns with
    | here call => exact .here (hcall.symm ▸ call)
    | later call rest => exact .later (hcall.symm ▸ call) rest

/-- There is one call for each key of the stream, with the flag that the bytes before
it leave. -/
theorem returns_iff {r : Returned} :
    Returns ⟨shift, port⟩ r ↔
      ∃ before b rest, port = before ++ b :: rest ∧ IsKey b ∧
        r = callAt (before.foldl follow shift) b rest := by
  induction port generalizing shift with
  | nil =>
      refine iff_of_false not_returns_nil ?_
      rintro ⟨before, b, rest, hport, _⟩
      simp at hport
  | cons x port ih =>
      have hsplit : (∃ before b rest, x :: port = before ++ b :: rest ∧ IsKey b ∧
            r = callAt (before.foldl follow shift) b rest) ↔
          (IsKey x ∧ r = callAt shift x port) ∨
            ∃ before b rest, port = before ++ b :: rest ∧ IsKey b ∧
              r = callAt (before.foldl follow (follow shift x)) b rest := by
        constructor
        · rintro ⟨before, b, rest, hport, hkey, rfl⟩
          rcases List.cons_eq_append_iff.mp hport with ⟨rfl, hrest⟩ | ⟨before', rfl, rfl⟩
          · obtain ⟨rfl, rfl⟩ := List.cons.inj hrest
            exact Or.inl ⟨hkey, rfl⟩
          · exact Or.inr ⟨before', b, rest, rfl, hkey, rfl⟩
        · rintro (⟨hkey, rfl⟩ | ⟨before, b, rest, rfl, hkey, rfl⟩)
          · exact ⟨[], x, port, rfl, hkey, rfl⟩
          · exact ⟨x :: before, b, rest, rfl, hkey, rfl⟩
      rw [hsplit]
      by_cases hkey : IsKey x
      · rw [returns_key_iff hkey, ih, follow_of_isKey hkey, and_iff_right hkey]
      · rw [returns_other_iff hkey, ih]
        simp [hkey]

theorem faithful_iff {bytes : List UInt8} :
    Faithful bytes ↔
      ∀ before b, before ++ [b] <+: bytes → IsKey b →
        flag before = (keysAfter (before ++ [b])).held ∧ b < 0x59 := by
  simp only [Faithful, returns_iff]
  constructor
  · rintro hfaithful before b ⟨rest, rfl⟩ hkey
    have hcall := hfaithful _ ⟨before, b, rest, by simp, hkey, rfl⟩ (before ++ [b]) rfl
    exact ⟨hcall.1, (callAt_char _ _ _).mp hcall.2⟩
  · rintro hkeys r ⟨before, b, rest, rfl, hkey, rfl⟩ delivered hdelivered
    have hbefore : delivered = before ++ [b] := by
      have hsame : before ++ [b] ++ rest = delivered ++ rest := by
        rw [List.append_cons] at hdelivered
        exact hdelivered
      exact (List.append_cancel_right hsame).symm
    obtain ⟨hheld, hinside⟩ := hkeys before b ⟨rest, by simp⟩ hkey
    exact ⟨hbefore ▸ hheld, (callAt_char _ _ _).mpr hinside⟩

/-! ## The flag and the keys -/

theorem flag_snoc (bytes : List UInt8) (b : UInt8) :
    flag (bytes ++ [b]) = follow (flag bytes) b := by
  simp [flag]

theorem keysAfter_snoc (bytes : List UInt8) (b : UInt8) :
    keysAfter (bytes ++ [b]) = (keysAfter bytes).next b := by
  simp [keysAfter]

theorem Keys.next_held_of_isKey (k : Keys) (hkey : IsKey b) : (k.next b).held = k.held := by
  obtain ⟨hdown, hleft, hright⟩ := hkey
  have hup : b ≠ LEFT_UP ∧ b ≠ RIGHT_UP := by
    constructor
    · rintro rfl
      exact absurd hdown (by decide)
    · rintro rfl
      exact absurd hdown (by decide)
  unfold Keys.next
  simp only [hleft, hright, hup.1, hup.2, if_false]
  split_ifs <;> rfl

theorem Keys.fits_def (k : Keys) (b : UInt8) :
    k.Fits b ↔
      (k.extended = false → b = LEFT_UP → k.right = false) ∧
      (k.extended = false → b = RIGHT_UP → k.left = false) ∧
      (k.extended = true → b = KRLEFT_SHIFT ∨ b = KRRIGHT_SHIFT → k.held = true) ∧
      (k.extended = true → b = LEFT_UP ∨ b = RIGHT_UP → k.held = false) ∧
      (b < KEYPRESS → b < 0x59) := by
  constructor
  · rintro ⟨hleft, hright, hdown, hup, hinside⟩
    exact ⟨hleft, hright, hdown, hup, hinside⟩
  · rintro ⟨hleft, hright, hdown, hup, hinside⟩
    exact ⟨hleft, hright, hdown, hup, hinside⟩

instance (k : Keys) (b : UInt8) : Decidable (k.Fits b) :=
  decidable_of_iff _ (k.fits_def b).symm

/-- As long as the flag says what is held, the next byte fits exactly when the flag
still says so and a code that is looked up is inside the table. -/
theorem Keys.fits_iff (k : Keys) (b : UInt8) :
    k.Fits b ↔ follow k.held b = (k.next b).held ∧ (b < KEYPRESS → b < 0x59) := by
  by_cases hspecial : b ∈ [0xE0, 0xE1, KRLEFT_SHIFT, KRRIGHT_SHIFT, LEFT_UP, RIGHT_UP]
  · obtain ⟨extended, left, right⟩ := k
    simp only [List.mem_cons, List.not_mem_nil, or_false] at hspecial
    rcases hspecial with rfl | rfl | rfl | rfl | rfl | rfl <;>
      revert extended left right <;> decide
  · simp only [List.mem_cons, List.not_mem_nil, or_false, not_or] at hspecial
    obtain ⟨hE0, hE1, hleft, hright, hleftUp, hrightUp⟩ := hspecial
    have hheld : (k.next b).held = k.held := by
      simp only [Keys.next, hE0, hE1, hleft, hright, hleftUp, hrightUp, or_self, if_false]
      split <;> rfl
    rw [k.fits_def, hheld]
    simp [follow, hleft, hright, hleftUp, hrightUp]

/-- The flag says what is held after every part of a stream that fits. -/
theorem flag_eq_held {bytes : List UInt8} (hfits : Fits bytes) {before : List UInt8}
    (hbefore : before <+: bytes) : flag before = (keysAfter before).held := by
  induction before using List.reverseRecOn with
  | nil => rfl
  | append_singleton before b ih =>
      have hprev := ih ((List.prefix_append before [b]).trans hbefore)
      have hstep := ((keysAfter before).fits_iff b).mp (hfits before b hbefore)
      rw [flag_snoc, keysAfter_snoc, hprev]
      exact hstep.1

theorem Fits.faithful {bytes : List UInt8} (hfits : Fits bytes) : Faithful bytes := by
  rw [faithful_iff]
  intro before b hbefore hkey
  have hstep := ((keysAfter before).fits_iff b).mp (hfits before b hbefore)
  have hflag := flag_eq_held hfits ((List.prefix_append before [b]).trans hbefore)
  rw [keysAfter_snoc, Keys.next_held_of_isKey _ hkey]
  exact ⟨hflag, hstep.2 hkey.1⟩

/-- The scancode of the key A. -/
def KEY_A : UInt8 := 0x1E

/-- A character that is typed tells what the flag is. -/
theorem Faithful.flag_eq_held {bytes : List UInt8} (hfaithful : Faithful (bytes ++ [KEY_A])) :
    flag bytes = (keysAfter bytes).held := by
  have hkey : IsKey KEY_A := by decide
  have hcall := faithful_iff.mp hfaithful bytes KEY_A (List.prefix_refl _) hkey
  rw [keysAfter_snoc, Keys.next_held_of_isKey _ hkey] at hcall
  exact hcall.1

theorem fits_of_faithful {bytes : List UInt8}
    (hfaithful : ∀ before, before <+: bytes → Faithful (before ++ [KEY_A])) : Fits bytes := by
  intro before b hbefore
  have hflag := (hfaithful before
    ((List.prefix_append before [b]).trans hbefore)).flag_eq_held
  have hnext := (hfaithful (before ++ [b]) hbefore).flag_eq_held
  rw [Keys.fits_iff, ← hflag]
  rw [flag_snoc, keysAfter_snoc] at hnext
  refine ⟨hnext, fun hdown => ?_⟩
  by_cases hkey : IsKey b
  · have hprefix : before ++ [b] <+: before ++ [b] ++ [KEY_A] := List.prefix_append _ _
    exact (faithful_iff.mp (hfaithful _ hbefore) before b hprefix hkey).2
  · have hshift : b = KRLEFT_SHIFT ∨ b = KRRIGHT_SHIFT := by
      by_contra h
      exact hkey ⟨hdown, not_or.mp h⟩
    rcases hshift with rfl | rfl <;> decide

theorem Fits.snoc {bytes : List UInt8} (hfits : Fits bytes)
    (hlast : (keysAfter bytes).Fits b) : Fits (bytes ++ [b]) := by
  intro before c hbefore
  rcases List.prefix_concat_iff.mp hbefore with hwhole | hpart
  · obtain ⟨rfl, hsame⟩ := List.append_inj' hwhole rfl
    rw [List.singleton_inj] at hsame
    rwa [hsame]
  · exact hfits before c hpart

theorem fits_nil : Fits [] := by
  intro before b hbefore
  simp at hbefore

theorem Fits.of_prefix {bytes before : List UInt8} (hfits : Fits bytes)
    (hbefore : before <+: bytes) : Fits before :=
  fun start b hstart => hfits start b (hstart.trans hbefore)

theorem Keys.fits_key_a (k : Keys) : k.Fits KEY_A := by
  obtain ⟨extended, left, right⟩ := k
  revert extended left right
  decide

/-- A stream whose bytes all fit the keys held before them is read faithfully, and the
streams that fit are those of which every part is read faithfully up to one more key. -/
theorem faithful_of_fits (bytes : List UInt8) :
    (Fits bytes → Faithful bytes) ∧
      (Fits bytes ↔ ∀ before, before <+: bytes → Faithful (before ++ [KEY_A])) := by
  refine ⟨Fits.faithful, ?_, fits_of_faithful⟩
  intro hfits before hbefore
  exact ((hfits.of_prefix hbefore).snoc (Keys.fits_key_a _)).faithful

/-- A capital letter, and the small one after the shift key is up. -/
theorem faithful_capital : Faithful [KRRIGHT_SHIFT, KEY_A, RIGHT_UP, KEY_A] := by
  refine (faithful_of_fits _).1 ?_
  exact (((fits_nil.snoc (by decide)).snoc (by decide)).snoc (by decide)).snoc (by decide)

/-- Left shift down, right shift down, left shift up, A: the right shift key is held, and
the character is the lower case one. -/
theorem held_shift_lost : ¬ ∀ bytes, Faithful bytes := by
  intro hclaim
  have hkeys := faithful_iff.mp (hclaim [KRLEFT_SHIFT, KRRIGHT_SHIFT, LEFT_UP, KEY_A])
    [KRLEFT_SHIFT, KRRIGHT_SHIFT, LEFT_UP] KEY_A (List.prefix_refl _) (by decide)
  exact absurd hkeys.1 (by decide)

end Keyboard
end Janus86
