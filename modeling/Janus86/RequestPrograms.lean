import Mathlib.Tactic

/-!
# Programs that ask

A program asks a device, one request after the other, and each request may depend on the
answers before it.  `run` takes the answers from a function; `exec` takes them from a device
with a state of its own, which may need some fuel for each.  When the device answers every
request that a program makes as the function does, whatever its state has become, the
program does not notice the difference.
-/

namespace Janus86
namespace RequestPrograms

inductive Program (ρ β α : Type) where
  | done (result : α)
  | ask (request : ρ) (rest : β → Program ρ β α)

namespace Program

variable {ρ β α γ σ ε ι : Type}

def run (answer : ρ → β) : Program ρ β α → α
  | done result => result
  | ask request rest => run answer (rest (answer request))

/-- The device, given some fuel, answers and goes to its next state. -/
def exec (serve : ℕ → ρ → σ → Option (β × σ)) (fuel : ℕ) : Program ρ β α → σ → Option (α × σ)
  | done result, state => some (result, state)
  | ask request rest, state =>
      match serve fuel request state with
      | none => none
      | some (reply, state) => exec serve fuel (rest reply) state

def bind : Program ρ β α → (α → Program ρ β γ) → Program ρ β γ
  | done result, f => f result
  | ask request rest, f => ask request fun reply => bind (rest reply) f

/-- The second program goes on with what the first one returns, unless that is an error. -/
def bindOk (p : Program ρ β (Except ε α)) (f : α → Program ρ β (Except ε γ)) :
    Program ρ β (Except ε γ) :=
  p.bind fun
    | .ok a => f a
    | .error e => done (.error e)

def foldOk (f : α → ι → Program ρ β (Except ε α)) : List ι → α → Program ρ β (Except ε α)
  | [], a => done (.ok a)
  | i :: is, a => (f a i).bindOk (foldOk f is)

/-- All requests, whatever the answers are. -/
inductive Asks (P : ρ → Prop) : Program ρ β α → Prop
  | done (result : α) : Asks P (done result)
  | ask {request : ρ} {rest : β → Program ρ β α} (now : P request)
      (later : ∀ reply, Asks P (rest reply)) : Asks P (ask request rest)

/-! ## Answers from a function -/

section Run

variable (answer : ρ → β)

theorem run_bind (p : Program ρ β α) (f : α → Program ρ β γ) :
    (p.bind f).run answer = (f (p.run answer)).run answer := by
  induction p with
  | done result => rfl
  | ask request rest ih => exact ih (answer request)

theorem run_bindOk (p : Program ρ β (Except ε α)) (f : α → Program ρ β (Except ε γ)) :
    (p.bindOk f).run answer = p.run answer >>= fun a => (f a).run answer := by
  rw [bindOk, run_bind]
  cases p.run answer <;> rfl

theorem run_foldOk (f : α → ι → Program ρ β (Except ε α)) (is : List ι) (a : α) :
    (foldOk f is a).run answer = is.foldlM (fun a i => (f a i).run answer) a := by
  induction is generalizing a with
  | nil => rfl
  | cons i is ih =>
      rw [foldOk, run_bindOk, List.foldlM_cons]
      congr 1
      funext a
      exact ih a

end Run

/-! ## Requests -/

section Asks

variable {P : ρ → Prop}

theorem Asks.bind {p : Program ρ β α} (hp : p.Asks P) {f : α → Program ρ β γ}
    (hf : ∀ a, (f a).Asks P) : (p.bind f).Asks P := by
  induction hp with
  | done result => exact hf result
  | ask now _ ih => exact .ask now ih

theorem Asks.bindOk {p : Program ρ β (Except ε α)} (hp : p.Asks P)
    {f : α → Program ρ β (Except ε γ)} (hf : ∀ a, (f a).Asks P) : (p.bindOk f).Asks P := by
  refine hp.bind fun r => ?_
  cases r with
  | ok a => exact hf a
  | error e => exact .done _

theorem Asks.foldOk {f : α → ι → Program ρ β (Except ε α)} {is : List ι}
    (hf : ∀ i ∈ is, ∀ a, (f a i).Asks P) (a : α) : (foldOk f is a).Asks P := by
  induction is generalizing a with
  | nil => exact .done _
  | cons i is ih =>
      exact (hf i List.mem_cons_self a).bindOk
        (ih fun j hj => hf j (List.mem_cons_of_mem i hj))

/-- The device answers like the function as long as its state has the invariant. -/
def Serves (serve : ℕ → ρ → σ → Option (β × σ)) (answer : ρ → β) (P : ρ → Prop)
    (invariant : σ → Prop) : Prop :=
  ∀ request state, P request → invariant state → ∃ state', invariant state' ∧
    ∃ enough, ∀ fuel, enough ≤ fuel → serve fuel request state = some (answer request, state')

/-- The program cannot tell the device from the function. -/
theorem exec_eq_run {serve : ℕ → ρ → σ → Option (β × σ)} {answer : ρ → β}
    {invariant : σ → Prop} (hserves : Serves serve answer P invariant) {p : Program ρ β α}
    (hp : p.Asks P) {state : σ} (hstate : invariant state) :
    ∃ state', invariant state' ∧
      ∃ enough, ∀ fuel, enough ≤ fuel → p.exec serve fuel state = some (p.run answer, state') := by
  induction hp generalizing state with
  | done result => exact ⟨state, hstate, 0, fun _ _ => rfl⟩
  | @ask request rest now _ ih =>
      obtain ⟨state₁, hstate₁, enough₁, hnow⟩ := hserves request state now hstate
      obtain ⟨state₂, hstate₂, enough₂, hlater⟩ := ih (answer request) hstate₁
      refine ⟨state₂, hstate₂, max enough₁ enough₂, fun fuel hfuel => ?_⟩
      rw [exec, hnow fuel (le_trans (le_max_left _ _) hfuel)]
      exact hlater fuel (le_trans (le_max_right _ _) hfuel)

end Asks

end Program

end RequestPrograms
end Janus86
