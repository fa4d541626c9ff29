import Janus86.VsnprintfRefinement

/-!
# Where the format ends

The loop of `vsnprintf` looks for the NUL in front of each turn, but a turn that
finds `%`, and one that finds the flag `0`, takes the character behind it as
well.  A string that ends there has its NUL taken for a conversion character,
and the scan goes on behind the string.
-/

namespace Janus86
namespace Printf

open StepMachine

/-- What has been read last of a format: text, `%`, `%-`, the flag `0`, a digit
of the width, or a modifier. -/
inductive LastRead where
  | text
  | percent
  | minus
  | zero
  | width
  | modifier
  deriving DecidableEq

def LastRead.afterWidth (c : UInt8) : LastRead :=
  if isDigit c then .width else if isModifier c then .modifier else .text

def LastRead.next (c : UInt8) : LastRead → LastRead
  | .text => if c = '%'.toUInt8 then .percent else .text
  | .percent =>
      if c = '%'.toUInt8 then .text
      else if c = '-'.toUInt8 then .minus
      else if c = '0'.toUInt8 then .zero
      else afterWidth c
  | .minus =>
      if c = '%'.toUInt8 then .text
      else if c = '-'.toUInt8 then .text
      else if c = '0'.toUInt8 then .zero
      else afterWidth c
  | .zero => afterWidth c
  | .width => afterWidth c
  | .modifier => if isModifier c then .modifier else .text

def lastReadFrom (last : LastRead) (s : List UInt8) : LastRead :=
  s.foldl (fun last c => last.next c) last

/-- Nothing follows a `%` that begins a directive, or its flag `0`. -/
def CutFrom (last : LastRead) (s : List UInt8) : Prop :=
  lastReadFrom last s = .percent ∨ lastReadFrom last s = .zero

def CutShort (s : List UInt8) : Prop := CutFrom .text s

instance (s : List UInt8) : Decidable (CutShort s) :=
  inferInstanceAs (Decidable (_ ∨ _))

/-- Whatever the arguments are, the call comes back, with the bytes of the string
and its NUL only. -/
def StaysInFormat (s : List UInt8) : Prop :=
  ∀ size args, ∃ r, vsnprintf size (s ++ [0]) args = .ok r

/-! ## The state of a scan -/

/-- The scan is in front of a turn, and this has been read last. -/
def Stands (p : PrintState) : LastRead → Prop
  | .text => p.state = .literal ∧ p.flags.ljfy = false
  | .minus => p.state = .flag ∧ p.flags.ljfy = true
  | .width => p.state = .width
  | .modifier => p.state = .modifier
  | _ => False

/-- The scan leaves the bytes given, or comes to its end. -/
def EndsIn (args : ℕ → Arg) (cut : Prop) (s : List UInt8 × PrintState) : Prop :=
  (cut → Halts (scanTurn args) s (.error .outOfBounds)) ∧
    (¬cut → ∃ q, Halts (scanTurn args) s (.ok q))

variable {args : ℕ → Arg} {p : PrintState} {c : UInt8} {last : LastRead}

theorem EndsIn.of_next {cut : Prop} {s s' : List UInt8 × PrintState}
    (hturn : scanTurn args s = .next s') (hends : EndsIn args cut s') :
    EndsIn args cut s := by
  constructor
  · intro hcut
    exact .of_next hturn (hends.1 hcut)
  · intro hcut
    obtain ⟨q, hhalts⟩ := hends.2 hcut
    exact ⟨q, .of_next hturn hhalts⟩

theorem stands_reset (p : PrintState) : Stands p.reset .text := ⟨rfl, rfl⟩

theorem stands_scanModifier (args : ℕ → Arg) (c : UInt8) (p : PrintState) :
    Stands (scanModifier args c p) (if isModifier c then .modifier else .text) := by
  by_cases hc : isModifier c = true
  · rw [if_pos hc, scanModifier_of_isModifier hc]
    rfl
  · rw [if_neg hc, scanModifier_of_not (Bool.not_eq_true _ ▸ hc)]
    exact stands_reset _

theorem stands_scanWidth (args : ℕ → Arg) (c : UInt8) (p : PrintState) :
    Stands (scanWidth args c p) (.afterWidth c) := by
  unfold scanWidth LastRead.afterWidth
  by_cases hc : isDigit c = true
  · rw [if_pos hc, if_pos hc]
    rfl
  · rw [if_neg hc, if_neg hc]
    exact stands_scanModifier args c p

/-- A turn that takes the NUL leads behind the bytes given. -/
theorem endsIn_behind (p : PrintState) : EndsIn args True ([], p) :=
  ⟨fun _ => .of_stop rfl, fun h => absurd trivial h⟩

/-- What a turn that looks for a flag leads to. -/
def TurnEnds (args : ℕ → Arg) (cut : Prop) : ScanTurn → Prop
  | .next s => EndsIn args cut s
  | .stop _ => False

theorem TurnEnds.endsIn {cut : Prop} {s : List UInt8 × PrintState}
    {turn : ScanTurn} (hturn : scanTurn args s = turn)
    (hends : TurnEnds args cut turn) : EndsIn args cut s := by
  cases turn with
  | next s' => exact .of_next hturn hends
  | stop r => exact hends.elim

theorem endsIn_flag {s : List UInt8} (hlast : last = .percent ∨ last = .minus)
    (hljfy : p.flags.ljfy = decide (last = .minus))
    (hrest : ∀ s', s'.length ≤ s.length → (∀ c ∈ s', c ∈ s) →
      ∀ p' last', Stands p' last' →
        EndsIn args (CutFrom last' s') (s' ++ [0], p')) :
    TurnEnds args (CutFrom (last.next c) s) (scanFlag args c (s ++ [0]) p) := by
  have hstep : ∀ p' last', Stands p' last' →
      EndsIn args (CutFrom last' s) (s ++ [0], p') :=
    hrest s le_rfl fun _ h => h
  have hnext : last.next c = if c = '%'.toUInt8 then .text
      else if c = '-'.toUInt8 then
        if last = .minus then .text else .minus
      else if c = '0'.toUInt8 then .zero else .afterWidth c := by
    rcases hlast with rfl | rfl
    · simp [LastRead.next]
    · simp [LastRead.next]
  rw [hnext]
  unfold scanFlag
  by_cases hpercent : c = '%'.toUInt8
  · rw [if_pos hpercent, if_pos hpercent]
    exact hstep _ _ (stands_reset _)
  rw [if_neg hpercent, if_neg hpercent]
  by_cases hminus : c = '-'.toUInt8
  · rw [if_pos hminus, if_pos hminus, hljfy]
    by_cases htwice : last = .minus
    · rw [if_pos (decide_eq_true htwice), if_pos htwice]
      exact hstep _ _ (stands_reset _)
    · rw [if_neg htwice, if_neg (by simpa using htwice)]
      exact hstep _ _ ⟨rfl, rfl⟩
  rw [if_neg hminus, if_neg hminus]
  by_cases hzero : c = '0'.toUInt8
  · rw [if_pos hzero, if_pos hzero]
    cases s with
    | nil =>
        have hcut : CutFrom .zero [] := Or.inr rfl
        rw [eq_true hcut]
        exact endsIn_behind _
    | cons c' s' =>
        exact hrest s' (by simp) (fun _ h => List.mem_cons_of_mem c' h) _ _
          (stands_scanWidth args c' _)
  · rw [if_neg hzero, if_neg hzero]
    exact hstep _ _ (stands_scanWidth args c p)

theorem endsIn_of_stands (s : List UInt8) (hs : ∀ c ∈ s, c ≠ 0)
    (hstands : Stands p last) :
    EndsIn args (CutFrom last s) (s ++ [0], p) := by
  induction hlen : s.length using Nat.strong_induction_on generalizing s p last with
  | _ n ih =>
      cases s with
      | nil =>
          have hcut : ¬CutFrom last [] := by
            rintro (rfl | rfl)
            · exact hstands
            · exact hstands
          exact ⟨fun h => absurd h hcut, fun _ => ⟨p, .of_stop rfl⟩⟩
      | cons c s =>
          have hc : c ≠ 0 := hs c List.mem_cons_self
          have hrest : ∀ s', s'.length ≤ s.length → (∀ c ∈ s', c ∈ s) →
              ∀ p' last', Stands p' last' →
                EndsIn args (CutFrom last' s') (s' ++ [0], p') := by
            intro s' hle hmem p' last' hstands'
            refine ih s'.length ?_ s' (fun c' hc' => ?_) hstands' rfl
            · rw [← hlen, List.length_cons]
              omega
            · exact hs c' (List.mem_cons_of_mem c (hmem c' hc'))
          have hstep := hrest s le_rfl fun _ h => h
          cases last with
          | text =>
              obtain ⟨hstate, hljfy⟩ := hstands
              by_cases hpercent : c = '%'.toUInt8
              · subst hpercent
                cases s with
                | nil =>
                    have hcut : CutFrom .text ['%'.toUInt8] := Or.inl rfl
                    have hturn : scanTurn args (['%'.toUInt8, 0], p) =
                        .next ([], scanWidth args 0 p) := by
                      simp only [scanTurn, hstate]
                      rfl
                    rw [eq_true hcut]
                    exact .of_next hturn (endsIn_behind _)
                | cons c' s' =>
                    have hturn : scanTurn args
                        ('%'.toUInt8 :: c' :: (s' ++ [0]), p) =
                          scanFlag args c' (s' ++ [0]) p := by
                      simp only [scanTurn, hstate]
                      rfl
                    refine TurnEnds.endsIn hturn
                      (endsIn_flag (Or.inl (Eq.refl LastRead.percent)) hljfy ?_)
                    intro s'' hle hmem
                    exact hrest s'' (hle.trans (Nat.le_succ _))
                      fun c'' h => List.mem_cons_of_mem c' (hmem c'' h)
              · have hturn : scanTurn args (c :: (s ++ [0]), p) =
                    .next (s ++ [0], p.put c) := by
                  simp only [scanTurn, if_neg hc, hstate, if_neg hpercent]
                have hnext : LastRead.next c .text = .text := if_neg hpercent
                have hends := hstep (p.put c) .text ⟨hstate, hljfy⟩
                rw [← hnext] at hends
                exact .of_next hturn hends
          | minus =>
              obtain ⟨hstate, hljfy⟩ := hstands
              have hturn : scanTurn args (c :: (s ++ [0]), p) =
                  scanFlag args c (s ++ [0]) p := by
                simp only [scanTurn, if_neg hc, hstate]
              exact TurnEnds.endsIn hturn
                (endsIn_flag (Or.inr (Eq.refl LastRead.minus)) hljfy hrest)
          | width =>
              have hturn : scanTurn args (c :: (s ++ [0]), p) =
                  .next (s ++ [0], scanWidth args c p) := by
                simp only [scanTurn, if_neg hc, show p.state = _ from hstands]
              exact .of_next hturn (hstep _ _ (stands_scanWidth args c p))
          | modifier =>
              have hturn : scanTurn args (c :: (s ++ [0]), p) =
                  .next (s ++ [0], scanModifier args c p) := by
                simp only [scanTurn, if_neg hc, show p.state = _ from hstands]
              exact .of_next hturn (hstep _ _ (stands_scanModifier args c p))
          | percent => exact hstands.elim
          | zero => exact hstands.elim

/-! ## The call -/

theorem vsnprintf_of_halts {s : List UInt8} {r : Except Fault PrintState}
    (hhalts : Halts (scanTurn args) (s, startState) r) (size : ℕ) :
    vsnprintf size s args =
      r >>= fun p => .ok { out := p.out, ret := toInt32 p.count, used := p.used } := by
  have hrun := hhalts.runFuel_of_measure (fun s => s.1.length)
    (scanTurn_shortens args) (s.length + 1) (by simp)
  rw [vsnprintf, hrun]
  rfl

/-- `vsnprintf` stays in its format exactly when the string does not end directly
behind a `%` that begins a directive or behind its flag `0`. -/
theorem staysInFormat_iff {s : List UInt8} (hs : ∀ c ∈ s, c ≠ 0) :
    StaysInFormat s ↔ ¬CutShort s := by
  constructor
  · intro hstays hcut
    obtain ⟨r, hr⟩ := hstays 0 fun _ => ⟨0, []⟩
    have hends : EndsIn (fun _ => ⟨0, []⟩) (CutFrom .text s)
        (s ++ [0], startState) :=
      endsIn_of_stands s hs (stands_reset startState)
    rw [vsnprintf_of_halts (hends.1 hcut)] at hr
    cases hr
  · intro hcut size args
    have hends : EndsIn args (CutFrom .text s) (s ++ [0], startState) :=
      endsIn_of_stands s hs (stands_reset startState)
    obtain ⟨q, hhalts⟩ := hends.2 hcut
    exact ⟨_, vsnprintf_of_halts hhalts size⟩

theorem staysInFormat_iff_percent_minus :
    StaysInFormat ['%'.toUInt8, '-'.toUInt8] ↔
      ¬CutShort ['%'.toUInt8, '-'.toUInt8] :=
  staysInFormat_iff (by decide +kernel)

/-- The NUL behind a `%` is taken for a conversion character. -/
theorem percent_leaves_format : ¬StaysInFormat ['%'.toUInt8] := by
  intro hstays
  obtain ⟨r, hr⟩ := hstays 50 fun _ => ⟨0, []⟩
  have hfault : vsnprintf 50 ['%'.toUInt8, 0] (fun _ => ⟨0, []⟩) =
      .error .outOfBounds := rfl
  exact absurd (hfault.symm.trans hr) nofun

end Printf
end Janus86
