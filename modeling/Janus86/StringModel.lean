import Janus86.FileListing
import Janus86.ZeroTerminated

/-!
# Strings in arrays

The definitions follow `string.c`.  The functions do not know how long the arrays
are that they store into: a store behind the end of one is the fault here.
-/

namespace Janus86

open ZeroTerminated

/-- A store into an array of `size` bytes. -/
def storeByte (size : ℕ) (mem : Buffer) (o : ℕ) (b : UInt8) : Except Fault Buffer :=
  if o < size then .ok (Function.update mem o b) else .error .outOfBounds

/-- `strcpy` from another array. -/
def strcpy (size : ℕ) (mem : Buffer) (dest : ℕ) : List UInt8 → Except Fault Buffer
  | [] => storeByte size mem dest 0
  | c :: src =>
      if c = 0 then storeByte size mem dest 0
      else do
        let mem ← storeByte size mem dest c
        strcpy size mem (dest + 1) src

/-- `while (*s1) s1++;` with so many bytes left in the array. -/
def stringEnd (mem : Buffer) : ℕ → ℕ → Except Fault ℕ
  | 0, _ => .error .outOfBounds
  | left + 1, s1 => if mem s1 = 0 then .ok s1 else stringEnd mem left (s1 + 1)

/-- The second loop of `strcat`, and the NUL behind it; so many bytes of the array
are left from `s2` on. -/
def copyString (size : ℕ) : ℕ → Buffer → ℕ → ℕ → Except Fault Buffer
  | 0, _, _, _ => .error .outOfBounds
  | left + 1, mem, s1, s2 =>
      if mem s2 = 0 then storeByte size mem s1 0
      else do
        let mem ← storeByte size mem s1 (mem s2)
        copyString size left mem (s1 + 1) (s2 + 1)

/-- `strcat` of two strings in one array. -/
def strcat (size : ℕ) (mem : Buffer) (s1 s2 : ℕ) : Except Fault Buffer := do
  let s1 ← stringEnd mem (size - s1) s1
  copyString size (size - s2) mem s1 s2

/-- The string at an offset, with so many bytes left in the array. -/
def readString (mem : Buffer) : ℕ → ℕ → Except Fault (List UInt8)
  | 0, _ => .error .outOfBounds
  | left + 1, o =>
      if mem o = 0 then .ok []
      else do
        let rest ← readString mem left (o + 1)
        pure (mem o :: rest)

variable {size : ℕ} {mem mem' : Buffer}

theorem readString_ok {o : ℕ} {s : List UInt8} (hstring : StringAt mem o s) {left : ℕ}
    (hleft : s.length < left) : readString mem left o = .ok s := by
  induction s generalizing o left with
  | nil =>
      obtain ⟨left, rfl⟩ := Nat.exists_eq_add_of_lt hleft
      rw [readString, if_pos (stringAt_nil_iff.mp hstring)]
  | cons c s ih =>
      obtain ⟨hc, hfirst, hrest⟩ := stringAt_cons_iff.mp hstring
      rw [List.length_cons] at hleft
      obtain ⟨left, rfl⟩ : ∃ n, left = n + 1 := ⟨left - 1, by omega⟩
      rw [readString, hfirst, if_neg hc, ih hrest (by omega), ok_bind]
      rfl

theorem storeByte_of_lt {o : ℕ} (ho : o < size) (b : UInt8) :
    storeByte size mem o b = .ok (Function.update mem o b) :=
  if_pos ho

theorem storeByte_of_ge {o : ℕ} (ho : size ≤ o) (b : UInt8) :
    storeByte size mem o b = .error .outOfBounds :=
  if_neg (Nat.not_lt.mpr ho)

/-! ## strcpy -/

theorem strcpy_ok {dest : ℕ} {src : List UInt8}
    (hfit : dest + (cString src).length < size) :
    ∃ mem', strcpy size mem dest src = .ok mem' ∧ StringAt mem' dest (cString src) ∧
      ∀ i, i < dest ∨ dest + (cString src).length < i → mem' i = mem i := by
  have hstop : ∀ (mem : Buffer) (dest : ℕ), dest < size →
      ∃ mem', storeByte size mem dest 0 = .ok mem' ∧ StringAt mem' dest [] ∧
        ∀ i, i < dest ∨ dest < i → mem' i = mem i := by
    intro mem dest hdest
    refine ⟨_, storeByte_of_lt hdest 0, stringAt_nil_iff.mpr ?_, fun i hi => ?_⟩
    · exact Function.update_self dest 0 mem
    · exact Function.update_of_ne (by omega) 0 mem
  induction src generalizing mem dest with
  | nil => exact hstop mem dest hfit
  | cons c src ih =>
      by_cases hc : c = 0
      · have hnil : cString (c :: src) = [] := by simp [cString, hc]
        rw [hnil] at hfit ⊢
        rw [strcpy, if_pos hc]
        exact hstop mem dest hfit
      · have hcons : cString (c :: src) = c :: cString src := by simp [cString, hc]
        rw [hcons, List.length_cons] at hfit
        obtain ⟨mem', hcopy, hstring, hframe⟩ :=
          @ih (Function.update mem dest c) (dest + 1) (by omega)
        refine ⟨mem', ?_, ?_, fun i hi => ?_⟩
        · rw [strcpy, if_neg hc, storeByte_of_lt (by omega), ok_bind]
          exact hcopy
        · rw [hcons]
          refine stringAt_cons_iff.mpr ⟨hc, ?_, hstring⟩
          rw [hframe dest (by omega), Function.update_self]
        · rw [hcons, List.length_cons] at hi
          rw [hframe i (by omega), Function.update_of_ne (by omega)]

theorem strcpy_overflows {dest : ℕ} {src : List UInt8}
    (hlong : size ≤ dest + (cString src).length) :
    strcpy size mem dest src = .error .outOfBounds := by
  induction src generalizing mem dest with
  | nil => exact storeByte_of_ge hlong 0
  | cons c src ih =>
      by_cases hc : c = 0
      · rw [strcpy, if_pos hc]
        refine storeByte_of_ge ?_ 0
        simpa [cString, hc] using hlong
      · have hcons : cString (c :: src) = c :: cString src := by simp [cString, hc]
        rw [hcons, List.length_cons] at hlong
        rw [strcpy, if_neg hc]
        by_cases hdest : dest < size
        · rw [storeByte_of_lt hdest, ok_bind]
          exact ih (by omega)
        · rw [storeByte_of_ge (by omega)]
          rfl

/-! ## strcat -/

theorem stringEnd_eq {o : ℕ} {s : List UInt8} (hstring : StringAt mem o s) {left : ℕ}
    (hleft : s.length < left) : stringEnd mem left o = .ok (o + s.length) := by
  induction s generalizing o left with
  | nil =>
      obtain ⟨left, rfl⟩ := Nat.exists_eq_add_of_lt hleft
      rw [stringEnd, if_pos (stringAt_nil_iff.mp hstring)]
      rfl
  | cons c s ih =>
      obtain ⟨hc, hfirst, hrest⟩ := stringAt_cons_iff.mp hstring
      rw [List.length_cons] at hleft
      obtain ⟨left, rfl⟩ : ∃ n, left = n + 1 := ⟨left - 1, by omega⟩
      have hlen : o + 1 + s.length = o + (s.length + 1) := by omega
      rw [stringEnd, hfirst, if_neg hc, ih hrest (by omega), List.length_cons, hlen]

/-- The copy goes down, so that what it stores over has been read already. -/
theorem copyString_ok {s1 s2 : ℕ} {s : List UInt8} (hstring : StringAt mem s2 s)
    (hdown : s1 < s2) (hfit : s2 + s.length < size) {left : ℕ} (hleft : s.length < left) :
    ∃ mem', copyString size left mem s1 s2 = .ok mem' ∧ StringAt mem' s1 s ∧
      ∀ i, i < s1 ∨ s1 + s.length < i → mem' i = mem i := by
  induction s generalizing mem s1 s2 left with
  | nil =>
      obtain ⟨left, rfl⟩ : ∃ n, left = n + 1 := ⟨left - 1, by omega⟩
      refine ⟨Function.update mem s1 0, ?_, stringAt_nil_iff.mpr ?_, fun i hi => ?_⟩
      · rw [copyString, if_pos (stringAt_nil_iff.mp hstring), storeByte_of_lt]
        omega
      · exact Function.update_self s1 0 mem
      · rw [List.length_nil] at hi
        exact Function.update_of_ne (by omega) 0 mem
  | cons c s ih =>
      rw [List.length_cons] at hfit hleft
      obtain ⟨left, rfl⟩ : ∃ n, left = n + 1 := ⟨left - 1, by omega⟩
      obtain ⟨hc, hfirst, hrest⟩ := stringAt_cons_iff.mp hstring
      have hrest' : StringAt (Function.update mem s1 c) (s2 + 1) s :=
        hrest.congr fun i hle _ => Function.update_of_ne (by omega) c mem
      obtain ⟨mem', hcopy, hcopied, hframe⟩ :=
        @ih (Function.update mem s1 c) (s1 + 1) (s2 + 1) hrest' (by omega) (by omega)
          left (by omega)
      refine ⟨mem', ?_, ?_, fun i hi => ?_⟩
      · rw [copyString, hfirst, if_neg hc, storeByte_of_lt (by omega), ok_bind]
        exact hcopy
      · refine stringAt_cons_iff.mpr ⟨hc, ?_, hcopied⟩
        rw [hframe s1 (by omega), Function.update_self]
      · rw [List.length_cons] at hi
        rw [hframe i (by omega), Function.update_of_ne (by omega)]

/-- The second string comes behind the first one; nothing in front of the first
string and behind the joined one is stored to. -/
theorem strcat_ok {s1 s2 : ℕ} {s t : List UInt8} (hfirst : StringAt mem s1 s)
    (hsecond : StringAt mem s2 t) (hbehind : s1 + s.length < s2)
    (hfit : s2 + t.length < size) :
    ∃ mem', strcat size mem s1 s2 = .ok mem' ∧ StringAt mem' s1 (s ++ t) ∧
      ∀ i, i < s1 ∨ s1 + (s ++ t).length < i → mem' i = mem i := by
  have hleft : t.length < size - s2 := by omega
  obtain ⟨mem', hcopy, hcopied, hframe⟩ := copyString_ok hsecond hbehind hfit hleft
  refine ⟨mem', ?_, ?_, fun i hi => ?_⟩
  · unfold strcat
    rw [stringEnd_eq hfirst (by omega), ok_bind]
    exact hcopy
  · refine StringAt.prepend ?_ hfirst.zero_free hcopied
    exact hfirst.cells.congr fun i _ hlt => hframe i (Or.inl hlt)
  · rw [List.length_append] at hi
    exact hframe i (by omega)

end Janus86
