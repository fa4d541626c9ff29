import Mathlib.Tactic

/-!
# Deterministic step machines

A loop of a program is given by what one turn of it does: the turn either
leads to the next loop state or leaves the loop with a result.  `runFuel`
executes such a loop for a bounded number of turns, `Halts` says that the
loop leaves with a given result, and `Reaches` that it passes through a given
state.  The rules at the end are the ones a proof about a loop needs: a run
is followed step by step, an invariant is carried to the exit, and a measure
that drops in every turn makes the loop leave.
-/

namespace Janus86
namespace StepMachine

/-- What one turn of a loop does. -/
inductive Turn (σ ρ : Type*) where
  | next (state : σ)
  | stop (result : ρ)
  deriving DecidableEq, Repr

variable {σ ρ : Type*}

/-- At most `fuel` turns of the loop; `none` when they did not suffice. -/
def runFuel (turn : σ → Turn σ ρ) : ℕ → σ → Option ρ
  | 0, _ => none
  | fuel + 1, state =>
      match turn state with
      | .stop result => some result
      | .next state' => runFuel turn fuel state'

/-- The loop entered in `state` is left with `result`. -/
def Halts (turn : σ → Turn σ ρ) (state : σ) (result : ρ) : Prop :=
  ∃ fuel, runFuel turn fuel state = some result

/-- The loop entered in the first state comes by the second one. -/
def Reaches (turn : σ → Turn σ ρ) : σ → σ → Prop :=
  Relation.ReflTransGen (fun state state' => turn state = .next state')

variable {turn : σ → Turn σ ρ}

theorem runFuel_succ_of_stop {state : σ} {result : ρ}
    (hturn : turn state = .stop result) (fuel : ℕ) :
    runFuel turn (fuel + 1) state = some result := by
  simp [runFuel, hturn]

theorem runFuel_succ_of_next {state state' : σ}
    (hturn : turn state = .next state') (fuel : ℕ) :
    runFuel turn (fuel + 1) state = runFuel turn fuel state' := by
  simp [runFuel, hturn]

theorem runFuel_mono {fuel more : ℕ} {state : σ} {result : ρ}
    (hrun : runFuel turn fuel state = some result) (hle : fuel ≤ more) :
    runFuel turn more state = some result := by
  induction fuel generalizing state more with
  | zero => simp [runFuel] at hrun
  | succ fuel ih =>
      obtain ⟨more, rfl⟩ : ∃ k, more = k + 1 := ⟨more - 1, by omega⟩
      cases hturn : turn state with
      | stop r =>
          rw [runFuel_succ_of_stop hturn] at hrun ⊢
          exact hrun
      | next state' =>
          rw [runFuel_succ_of_next hturn] at hrun ⊢
          exact ih hrun (by omega)

theorem Halts.of_stop {state : σ} {result : ρ}
    (hturn : turn state = .stop result) : Halts turn state result :=
  ⟨1, runFuel_succ_of_stop hturn 0⟩

theorem Halts.of_next {state state' : σ} {result : ρ}
    (hturn : turn state = .next state') (hhalts : Halts turn state' result) :
    Halts turn state result := by
  obtain ⟨fuel, hrun⟩ := hhalts
  exact ⟨fuel + 1, by rw [runFuel_succ_of_next hturn]; exact hrun⟩

theorem Halts.of_turn_eq {state state' : σ} {result : ρ}
    (hturn : turn state = turn state') (hhalts : Halts turn state' result) :
    Halts turn state result := by
  obtain ⟨fuel, hrun⟩ := hhalts
  cases fuel with
  | zero => simp [runFuel] at hrun
  | succ fuel => exact ⟨fuel + 1, by rw [runFuel, hturn]; exact hrun⟩

theorem Halts.first_turn {state : σ} {result : ρ}
    (hhalts : Halts turn state result) :
    turn state = .stop result ∨
      ∃ state', turn state = .next state' ∧ Halts turn state' result := by
  obtain ⟨fuel, hrun⟩ := hhalts
  cases fuel with
  | zero => simp [runFuel] at hrun
  | succ fuel =>
      cases hturn : turn state with
      | stop r =>
          rw [runFuel_succ_of_stop hturn, Option.some.injEq] at hrun
          exact Or.inl (by rw [hrun])
      | next state' =>
          rw [runFuel_succ_of_next hturn] at hrun
          exact Or.inr ⟨state', rfl, fuel, hrun⟩

theorem Halts.unique {state : σ} {first second : ρ}
    (hfirst : Halts turn state first) (hsecond : Halts turn state second) :
    first = second := by
  obtain ⟨fuel, hrun⟩ := hfirst
  obtain ⟨fuel', hrun'⟩ := hsecond
  have hmax := runFuel_mono hrun (le_max_left fuel fuel')
  have hmax' := runFuel_mono hrun' (le_max_right fuel fuel')
  exact Option.some.inj (hmax.symm.trans hmax')

theorem Reaches.refl (state : σ) : Reaches turn state state :=
  Relation.ReflTransGen.refl

theorem Reaches.head {state state' last : σ}
    (hturn : turn state = .next state') (hreach : Reaches turn state' last) :
    Reaches turn state last :=
  Relation.ReflTransGen.head hturn hreach

theorem Reaches.trans {first middle last : σ}
    (hfirst : Reaches turn first middle) (hsecond : Reaches turn middle last) :
    Reaches turn first last :=
  Relation.ReflTransGen.trans hfirst hsecond

/-- The result of a loop is the result from any state it comes by. -/
theorem Reaches.halts_iff {state last : σ} {result : ρ}
    (hreach : Reaches turn state last) :
    Halts turn state result ↔ Halts turn last result := by
  induction hreach using Relation.ReflTransGen.head_induction_on with
  | refl => rfl
  | head hturn _ ih =>
      rw [← ih]
      constructor
      · intro hhalts
        rcases hhalts.first_turn with hstop | ⟨state', hnext, hrest⟩
        · rw [hturn] at hstop
          contradiction
        · rw [hturn, Turn.next.injEq] at hnext
          rw [hnext]
          exact hrest
      · exact Halts.of_next hturn

/-- A loop whose every turn lowers a measure is left. -/
theorem exists_halts_of_measure (measure : σ → ℕ) {invariant : σ → Prop}
    {state : σ} (hstart : invariant state)
    (hturn : ∀ s s', invariant s → turn s = .next s' →
      invariant s' ∧ measure s' < measure s) :
    ∃ result, Halts turn state result := by
  induction hm : measure state using Nat.strong_induction_on generalizing state with
  | _ m ih =>
      cases hstep : turn state with
      | stop result => exact ⟨result, Halts.of_stop hstep⟩
      | next state' =>
          obtain ⟨hinv, hlt⟩ := hturn state state' hstart hstep
          obtain ⟨result, hhalts⟩ := ih (measure state') (by omega) hinv rfl
          exact ⟨result, Halts.of_next hstep hhalts⟩

/-- A loop that has a property which leads to another turn is not left. -/
theorem not_halts_of_invariant {invariant : σ → Prop}
    (hturn : ∀ s, invariant s → ∃ s', turn s = .next s' ∧ invariant s') {state : σ}
    (hstart : invariant state) (result : ρ) : ¬ Halts turn state result := by
  rintro ⟨fuel, hrun⟩
  induction fuel generalizing state with
  | zero => simp [runFuel] at hrun
  | succ fuel ih =>
      obtain ⟨state', hnext, hinv⟩ := hturn state hstart
      rw [runFuel_succ_of_next hnext] at hrun
      exact ih hinv hrun

/-- A loop that counts its turns up to a limit. -/
theorem runFuel_count {turn : ℕ → Turn ℕ ρ} {limit : ℕ} {result : ρ}
    (hnext : ∀ i < limit, turn i = .next (i + 1)) (hstop : turn limit = .stop result)
    {i : ℕ} (hi : i ≤ limit) {fuel : ℕ} (hfuel : limit - i < fuel) :
    runFuel turn fuel i = some result := by
  induction fuel generalizing i with
  | zero => omega
  | succ fuel ih =>
      rcases Nat.lt_or_eq_of_le hi with hlt | rfl
      · rw [runFuel_succ_of_next (hnext i hlt)]
        exact ih hlt (by omega)
      · exact runFuel_succ_of_stop hstop fuel

/-- A loop whose every turn lowers a measure leaves before the measure is
used up. -/
theorem Halts.runFuel_of_measure (measure : σ → ℕ)
    (hturn : ∀ s s', turn s = .next s' → measure s' < measure s)
    {state : σ} {result : ρ} (hhalts : Halts turn state result) (fuel : ℕ)
    (hfuel : measure state < fuel) : runFuel turn fuel state = some result := by
  induction fuel generalizing state with
  | zero => omega
  | succ fuel ih =>
      rcases hhalts.first_turn with hstop | ⟨state', hnext, hrest⟩
      · exact runFuel_succ_of_stop hstop fuel
      · have hlt := hturn state state' hnext
        rw [runFuel_succ_of_next hnext]
        exact ih hrest (by omega)

theorem Halts.result_of_stops {P : ρ → Prop} {state : σ} {result : ρ}
    (hhalts : Halts turn state result)
    (hstops : ∀ s r, turn s = .stop r → P r) : P result := by
  obtain ⟨fuel, hrun⟩ := hhalts
  induction fuel generalizing state with
  | zero => simp [runFuel] at hrun
  | succ fuel ih =>
      cases hturn : turn state with
      | stop r =>
          rw [runFuel_succ_of_stop hturn, Option.some.injEq] at hrun
          exact hrun ▸ hstops state r hturn
      | next state' =>
          rw [runFuel_succ_of_next hturn] at hrun
          exact ih hrun

/-! ## From one assertion to another -/

/-- From every state with the first property the loop comes by a state with the second. -/
def LeadsTo (turn : σ → Turn σ ρ) (P Q : σ → Prop) : Prop :=
  ∀ s, P s → ∃ s', Reaches turn s s' ∧ Q s'

section LeadsTo

variable {P Q R : σ → Prop}

theorem LeadsTo.of_imp (himp : ∀ s, P s → Q s) : LeadsTo turn P Q :=
  fun s hs => ⟨s, Reaches.refl s, himp s hs⟩

theorem LeadsTo.of_turn (hturn : ∀ s, P s → ∃ s', turn s = .next s' ∧ Q s') :
    LeadsTo turn P Q := by
  intro s hs
  obtain ⟨s', hnext, hs'⟩ := hturn s hs
  exact ⟨s', Reaches.head hnext (Reaches.refl s'), hs'⟩

theorem LeadsTo.trans (hfirst : LeadsTo turn P Q) (hsecond : LeadsTo turn Q R) :
    LeadsTo turn P R := by
  intro s hs
  obtain ⟨s', hreach, hs'⟩ := hfirst s hs
  obtain ⟨s'', hreach', hs''⟩ := hsecond s' hs'
  exact ⟨s'', hreach.trans hreach', hs''⟩

/-- A loop whose turns keep `P` and lower a measure, or lead out of it to `Q`. -/
theorem LeadsTo.of_measure (measure : σ → ℕ)
    (hturn : ∀ s, P s → ∃ s', turn s = .next s' ∧ (Q s' ∨ (P s' ∧ measure s' < measure s))) :
    LeadsTo turn P Q := by
  intro s hs
  induction hm : measure s using Nat.strong_induction_on generalizing s with
  | _ m ih =>
      obtain ⟨s', hnext, hs' | ⟨hs', hlt⟩⟩ := hturn s hs
      · exact ⟨s', Reaches.head hnext (Reaches.refl s'), hs'⟩
      · obtain ⟨last, hreach, hlast⟩ := ih (measure s') (hm ▸ hlt) s' hs' rfl
        exact ⟨last, Reaches.head hnext hreach, hlast⟩

/-- A counted loop. -/
theorem LeadsTo.count {P : ℕ → σ → Prop} (n : ℕ)
    (hturn : ∀ k < n, LeadsTo turn (P k) (P (k + 1))) : LeadsTo turn (P 0) (P n) := by
  induction n with
  | zero => exact LeadsTo.of_imp fun _ hs => hs
  | succ n ih => exact (ih fun k hk => hturn k (by omega)).trans (hturn n (by omega))

theorem LeadsTo.halts (hleads : LeadsTo turn P Q) (result : σ → ρ)
    (hstop : ∀ s, Q s → turn s = .stop (result s)) {s : σ} (hs : P s) :
    ∃ s', Q s' ∧ Halts turn s (result s') := by
  obtain ⟨s', hreach, hs'⟩ := hleads s hs
  exact ⟨s', hs', hreach.halts_iff.mpr (Halts.of_stop (hstop s' hs'))⟩

end LeadsTo

/-! ## Counted loops that can fail -/

/-- A loop over the first `n` numbers, each turn of which succeeds and takes
the invariant to the next number. -/
theorem exists_foldlM_range {ε : Type} {σ : Type} {step : σ → ℕ → Except ε σ}
    (invariant : ℕ → σ → Prop) {state : σ} (n : ℕ)
    (hstart : invariant 0 state)
    (hstep : ∀ k s, k < n → invariant k s →
      ∃ s', step s k = .ok s' ∧ invariant (k + 1) s') :
    ∃ last, (List.range n).foldlM step state = .ok last ∧ invariant n last := by
  induction n with
  | zero => exact ⟨state, rfl, hstart⟩
  | succ n ih =>
      obtain ⟨s, hrun, hinv⟩ := ih fun k s hk => hstep k s (by omega)
      obtain ⟨s', hlast, hinv'⟩ := hstep n s (by omega) hinv
      refine ⟨s', ?_, hinv'⟩
      rw [List.range_succ, List.foldlM_append, hrun]
      simp only [List.foldlM_cons, List.foldlM_nil, bind, Except.bind, hlast]
      rfl

theorem foldlM_range_succ {ε : Type} {σ : Type} {step : σ → ℕ → Except ε σ}
    {n : ℕ} {state last : σ}
    (hrun : (List.range (n + 1)).foldlM step state = .ok last) :
    ∃ middle, (List.range n).foldlM step state = .ok middle ∧
      step middle n = .ok last := by
  rw [List.range_succ, List.foldlM_append] at hrun
  cases hbefore : (List.range n).foldlM step state with
  | error e =>
      rw [hbefore] at hrun
      cases hrun
  | ok middle =>
      rw [hbefore] at hrun
      refine ⟨middle, rfl, ?_⟩
      cases hturn : step middle n with
      | error e =>
          simp only [bind, Except.bind, List.foldlM_cons, hturn] at hrun
          cases hrun
      | ok last' =>
          simp only [bind, Except.bind, List.foldlM_cons, hturn,
            List.foldlM_nil] at hrun
          exact hrun

/-- An invariant about what the loop has gone through. -/
theorem foldlM_history {ε : Type} {σ ι : Type} {step : σ → ι → Except ε σ}
    (invariant : List ι → σ → Prop)
    (hstep : ∀ before s i s', invariant before s → step s i = .ok s' →
      invariant (before ++ [i]) s')
    {before is : List ι} {state last : σ} (hstart : invariant before state)
    (hrun : is.foldlM step state = .ok last) : invariant (before ++ is) last := by
  induction is generalizing before state with
  | nil =>
      cases hrun
      rw [List.append_nil]
      exact hstart
  | cons i is ih =>
      rw [List.foldlM_cons] at hrun
      cases hfirst : step state i with
      | error e =>
          rw [hfirst] at hrun
          cases hrun
      | ok middle =>
          rw [hfirst] at hrun
          have hrest := ih (hstep before state i middle hstart hfirst) hrun
          rwa [List.append_assoc] at hrest

theorem foldlM_invariant {ε : Type} {σ ι : Type} {step : σ → ι → Except ε σ}
    (invariant : σ → Prop)
    (hstep : ∀ s i s', invariant s → step s i = .ok s' → invariant s')
    {is : List ι} {state last : σ} (hstart : invariant state)
    (hrun : is.foldlM step state = .ok last) : invariant last :=
  @foldlM_history ε σ ι step (fun _ => invariant) (fun _ => hstep) [] is state last
    hstart hrun

/-! ## Errors that do not occur -/

/-- The computation ends with none of the errors. -/
def FreeOf {ε α : Type} (bad : ε → Prop) (x : Except ε α) : Prop :=
  ∀ e, bad e → x ≠ .error e

section Errors

variable {ε α β : Type} {bad : ε → Prop}

theorem FreeOf.ok (a : α) : FreeOf bad (.ok a : Except ε α) := by
  intro e _ herror
  cases herror

theorem FreeOf.error {e : ε} (he : ¬ bad e) :
    FreeOf bad (.error e : Except ε α) := by
  intro e' hbad herror
  cases herror
  exact he hbad

theorem FreeOf.bind {x : Except ε α} {f : α → Except ε β} (hx : FreeOf bad x)
    (hf : ∀ a, x = .ok a → FreeOf bad (f a)) : FreeOf bad (x >>= f) := by
  intro e hbad herror
  cases hrun : x with
  | error e' =>
      rw [hrun] at herror
      cases herror
      exact hx e hbad hrun
  | ok a =>
      rw [hrun] at herror
      exact hf a hrun e hbad herror

theorem FreeOf.foldlM {step : α → β → Except ε α}
    (hstep : ∀ s i, FreeOf bad (step s i)) (is : List β) (s : α) :
    FreeOf bad (is.foldlM step s) := by
  induction is generalizing s with
  | nil => exact FreeOf.ok s
  | cons i is ih =>
      rw [List.foldlM_cons]
      exact (hstep s i).bind fun s' _ => ih s'

end Errors

/-! ## Runs side by side -/

/-- What the first computation returns, the second one returns too, up to the
relation. -/
def Simulates {ε α β : Type} (R : α → β → Prop) (x : Except ε α)
    (y : Except ε β) : Prop :=
  ∀ a, x = .ok a → ∃ b, y = .ok b ∧ R a b

/-- So do the turns of two loops, as long as the first one does not fail. -/
inductive TurnSimulates {ε α β σ τ : Type} (S : σ → τ → Prop) (R : α → β → Prop) :
    Turn σ (Except ε α) → Turn τ (Except ε β) → Prop
  | next {s : σ} {t : τ} (states : S s t) : TurnSimulates S R (.next s) (.next t)
  | stop {a : α} {b : β} (results : R a b) :
      TurnSimulates S R (.stop (.ok a)) (.stop (.ok b))
  | fail {e : ε} {turn : Turn τ (Except ε β)} :
      TurnSimulates S R (.stop (.error e)) turn

section SideBySide

variable {ε α β σ τ ι : Type} {R : α → β → Prop} {S : σ → τ → Prop}

theorem Simulates.ok {a : α} {b : β} (h : R a b) :
    Simulates R (.ok a : Except ε α) (.ok b) := by
  intro a' ha
  cases ha
  exact ⟨b, rfl, h⟩

theorem Simulates.error {e : ε} {y : Except ε β} :
    Simulates R (.error e) y := by
  intro a ha
  cases ha

theorem Simulates.mono {R' : α → β → Prop} {x : Except ε α} {y : Except ε β}
    (hsim : Simulates R x y) (hweak : ∀ a b, R a b → R' a b) : Simulates R' x y := by
  intro a ha
  obtain ⟨b, hb, hab⟩ := hsim a ha
  exact ⟨b, hb, hweak a b hab⟩

theorem Simulates.bind {x : Except ε α} {y : Except ε β} {f : α → Except ε σ}
    {f' : β → Except ε τ} (hsim : Simulates R x y)
    (hrest : ∀ a b, R a b → Simulates S (f a) (f' b)) :
    Simulates S (x >>= f) (y >>= f') := by
  intro s hs
  cases hx : x with
  | error e =>
      rw [hx] at hs
      cases hs
  | ok a =>
      rw [hx] at hs
      obtain ⟨b, hy, hab⟩ := hsim a hx
      rw [hy]
      exact hrest a b hab s hs

theorem Simulates.foldlM {step : σ → ι → Except ε σ} {step' : τ → ι → Except ε τ}
    {is : List ι} (hstep : ∀ i ∈ is, ∀ s t, S s t → Simulates S (step s i) (step' t i))
    {s : σ} {t : τ} (hstart : S s t) :
    Simulates S (is.foldlM step s) (is.foldlM step' t) := by
  induction is generalizing s t with
  | nil => exact Simulates.ok hstart
  | cons i is ih =>
      rw [List.foldlM_cons, List.foldlM_cons]
      exact (hstep i List.mem_cons_self s t hstart).bind fun s' t' hnext =>
        ih (fun j hj => hstep j (List.mem_cons_of_mem i hj)) hnext

/-- Two loops side by side. -/
theorem Simulates.runFuel {turn : σ → Turn σ (Except ε α)}
    {turn' : τ → Turn τ (Except ε β)}
    (hturn : ∀ s t, S s t → TurnSimulates S R (turn s) (turn' t)) {s : σ} {t : τ}
    (hstart : S s t) (fuel : ℕ) (e : ε) :
    Simulates R ((runFuel turn fuel s).getD (.error e))
      ((runFuel turn' fuel t).getD (.error e)) := by
  induction fuel generalizing s t with
  | zero => exact Simulates.error
  | succ fuel ih =>
      have hnow := hturn s t hstart
      cases hs : turn s with
      | next s' =>
          cases ht : turn' t with
          | next t' =>
              rw [hs, ht] at hnow
              rw [runFuel_succ_of_next hs, runFuel_succ_of_next ht]
              cases hnow with
              | next hnext => exact ih hnext
          | stop b =>
              rw [hs, ht] at hnow
              cases hnow
      | stop a =>
          rw [hs] at hnow
          rw [runFuel_succ_of_stop hs]
          cases hnow' : turn' t with
          | next t' =>
              rw [hnow'] at hnow
              cases hnow
              exact Simulates.error
          | stop b =>
              rw [hnow'] at hnow
              rw [runFuel_succ_of_stop hnow']
              cases hnow with
              | stop hab => exact Simulates.ok hab
              | fail => exact Simulates.error

end SideBySide

/-! ## Loops that work off a list -/

section WorksOff

variable {ε β τ κ : Type} {f : τ → β → Except ε τ} {R : τ → List β → σ → Prop}
  {done : τ → κ} {turn : σ → Turn σ (Except ε κ)}

/-- The loop takes one input in every turn, does with it what `f` does, and is left when
there is none, or when `f` fails. -/
structure WorksOff (turn : σ → Turn σ (Except ε κ)) (f : τ → β → Except ε τ)
    (done : τ → κ) (R : τ → List β → σ → Prop) : Prop where
  last : ∀ {t s}, R t [] s → turn s = .stop (.ok (done t))
  step : ∀ {t t' b bs s}, R t (b :: bs) s → f t b = .ok t' →
    ∃ s', turn s = .next s' ∧ R t' bs s'
  fail : ∀ {t b bs s e}, R t (b :: bs) s → f t b = .error e → turn s = .stop (.error e)

theorem WorksOff.halts (hloop : WorksOff turn f done R) {bs : List β} {t : τ} {s : σ}
    (hstart : R t bs s) : Halts turn s ((bs.foldlM f t).map done) := by
  induction bs generalizing t s with
  | nil => exact Halts.of_stop (hloop.last hstart)
  | cons b bs ih =>
      rw [List.foldlM_cons]
      cases hstep : f t b with
      | error e => exact Halts.of_stop (hloop.fail hstart hstep)
      | ok t' =>
          obtain ⟨s', hnext, hrest⟩ := hloop.step hstart hstep
          exact Halts.of_next hnext (ih hrest)

end WorksOff

/-! ## Runs of a labelled system -/

variable {α : Type*}

/-- The system goes from the first state to the second one by the listed
steps. -/
inductive Run (step : σ → α → σ → Prop) : σ → List α → σ → Prop
  | nil (state : σ) : Run step state [] state
  | snoc {first state last : σ} {labels : List α} {label : α}
      (run : Run step first labels state) (next : step state label last) :
      Run step first (labels ++ [label]) last

variable {step : σ → α → σ → Prop}

theorem Run.invariant {invariant : σ → Prop} {first last : σ}
    {labels : List α} (hrun : Run step first labels last)
    (hstart : invariant first)
    (hstep : ∀ s label s', invariant s → step s label s' → invariant s') :
    invariant last := by
  induction hrun with
  | nil => exact hstart
  | snoc _ hnext ih => exact hstep _ _ _ ih hnext

/-- After a nonempty run the last step was taken from a state that the run
reaches. -/
theorem Run.last_step {invariant after : σ → Prop} {first last : σ}
    {labels : List α} (hrun : Run step first labels last)
    (hne : labels ≠ []) (hstart : invariant first)
    (hstep : ∀ s label s', invariant s → step s label s' → after s')
    (hafter : ∀ s, after s → invariant s) : after last := by
  cases hrun with
  | nil => exact absurd rfl hne
  | snoc hbefore hnext =>
      refine hstep _ _ _ (hbefore.invariant hstart ?_) hnext
      intro s label s' hs hs'
      exact hafter s' (hstep s label s' hs hs')

/-- When every step is matched from related states, so is a run. -/
theorem Run.simulated {τ : Type*} {step' : τ → α → τ → Prop}
    {R : σ → τ → Prop} {first last : σ} {labels : List α}
    (hrun : Run step first labels last) {first' : τ} (hstart : R first first')
    (hstep : ∀ s t label s', R s t → step s label s' →
      ∃ t', step' t label t' ∧ R s' t') :
    ∃ last', Run step' first' labels last' ∧ R last last' := by
  induction hrun with
  | nil => exact ⟨first', Run.nil first', hstart⟩
  | snoc _ hnext ih =>
      obtain ⟨t, hrun', hR⟩ := ih
      obtain ⟨t', hnext', hR'⟩ := hstep _ _ _ _ hR hnext
      exact ⟨t', Run.snoc hrun' hnext', hR'⟩

/-! ## Runs with their states -/

/-- A step that was taken. -/
structure Transition (σ α : Type*) where
  before : σ
  label : α
  after : σ

/-- The steps were taken one after the other, the first one in `first`. -/
def StepPath (step : σ → α → σ → Prop) : σ → List (Transition σ α) → Prop
  | _, [] => True
  | first, t :: ts =>
      t.before = first ∧ step t.before t.label t.after ∧ StepPath step t.after ts

/-- What a step preserves when its condition is met holds after every step of a
path whose steps all meet theirs. -/
theorem StepPath.forall_after {invariant : σ → Prop} {meets : σ → α → Prop}
    {first : σ} {ts : List (Transition σ α)} (hpath : StepPath step first ts)
    (hstart : invariant first)
    (hstep : ∀ s label s', invariant s → step s label s' → meets s label →
      invariant s')
    (hmeets : ∀ t ∈ ts, meets t.before t.label) :
    ∀ t ∈ ts, invariant t.after := by
  induction ts generalizing first with
  | nil => simp
  | cons t ts ih =>
      obtain ⟨rfl, htaken, hrest⟩ := hpath
      have hafter := hstep _ _ _ hstart htaken (hmeets t List.mem_cons_self)
      rw [List.forall_mem_cons]
      refine ⟨hafter, ih hrest hafter fun t' ht' => ?_⟩
      exact hmeets t' (List.mem_cons_of_mem t ht')

/-- Where a step does as it should exactly when it meets its condition, and then
keeps the invariant, all steps of a path do as they should exactly when they all
meet their conditions. -/
theorem StepPath.forall_iff {invariant : σ → Prop} {meets : σ → α → Prop}
    {holds : Transition σ α → Prop} {first : σ} {ts : List (Transition σ α)}
    (hpath : StepPath step first ts) (hstart : invariant first)
    (hstep : ∀ t, invariant t.before → step t.before t.label t.after →
      (holds t ↔ meets t.before t.label))
    (hkept : ∀ t, invariant t.before → step t.before t.label t.after →
      holds t → invariant t.after) :
    (∀ t ∈ ts, holds t) ↔ ∀ t ∈ ts, meets t.before t.label := by
  induction ts generalizing first with
  | nil => simp
  | cons t ts ih =>
      obtain ⟨rfl, htaken, hrest⟩ := hpath
      rw [List.forall_mem_cons, List.forall_mem_cons, ← hstep t hstart htaken]
      exact and_congr_right fun hholds => ih hrest (hkept t hstart htaken hholds)

/-- Where each step keeps the invariant exactly when it meets its condition,
the states of a path all have the invariant exactly when its steps all meet
theirs. -/
theorem StepPath.forall_after_iff {invariant : σ → Prop} {meets : σ → α → Prop}
    {first : σ} {ts : List (Transition σ α)} (hpath : StepPath step first ts)
    (hstart : invariant first)
    (hstep : ∀ s label s', invariant s → step s label s' →
      (invariant s' ↔ meets s label)) :
    (∀ t ∈ ts, invariant t.after) ↔ ∀ t ∈ ts, meets t.before t.label :=
  hpath.forall_iff hstart (fun t => hstep t.before t.label t.after)
    fun _ _ _ hafter => hafter

end StepMachine
end Janus86
