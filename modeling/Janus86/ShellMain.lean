import Janus86.ArgumentUses
import Janus86.KeyboardShift
import Janus86.ShellLine
import Janus86.ShellPrints

/-!
# The loop of the shell

`shell_main` reads a line from the keyboard, has it cut into arguments, calls the command
that the first one names, and empties the line.  The buffer of the line and the arrays of
the arguments keep what earlier lines left there.  `getline` does not initialise the
pointer to its buffer: here it points to an array that nothing else uses.  The keyboard
port delivers its bytes, and where they end the shell waits.  Of what is printed it only
counts whether `kprintf` has room for it.
-/

namespace Janus86
namespace Shell

open StepMachine ZeroTerminated Keyboard

/-- A command is given `argc` and finds its arguments in the arrays, in which it may store;
`σ` is what the commands work on. -/
abbrev Commands (σ : Type) := Builtin → ℕ → ArgArrays → σ → Except Fault (ArgArrays × σ)

structure Session (σ : Type) where
  kbd : Kbd
  line : Buffer
  args : ArgArrays
  world : σ

variable {σ : Type}

/-! ## shell.c -/

/-- The loop of `getline`: it is left with the line, or where the driver waits. -/
def lineTurn (size : ℕ) (s : LineState × Kbd) :
    Turn (LineState × Kbd) (Except Fault (Option (LineState × Kbd))) :=
  match getch s.2 with
  | none => .stop (.ok none)
  | some r =>
      match r.char with
      | none => .stop (.error .outOfBounds)
      | some ch =>
          if ch = ENTER then .stop (.ok (some (s.1, r.after)))
          else
            match lineKey size s.1 ch with
            | .error e => .stop (.error e)
            | .ok line => .next (line, r.after)

/-- `getline` behind its loop. -/
def endLine (size : ℕ) (s : LineState) : Except Fault (Buffer × ℕ) := do
  let (c, bufIndex) ← stripLeadingWhitespace s.mem size 0 s.bufIndex
  let mem ← storeByte size s.mem (c + bufIndex).toNat 0
  pure (mem, c)

/-- `getline` at the keyboard, with a buffer of `size` bytes of its own; every call of
`getch` takes a byte at least. -/
def readLine (size : ℕ) (mem : Buffer) (k : Kbd) :
    Except Fault (Option ((Buffer × ℕ) × Kbd)) :=
  match runFuel (lineTurn size) (k.port.length + 1) (⟨mem, 0, 0⟩, k) with
  | none => .error .outOfFuel
  | some (.error e) => .error e
  | some (.ok none) => .ok none
  | some (.ok (some (s, k))) => do
      let line ← endLine size s
      pure (some (line, k))

def shellExec (commands : Commands σ) (argc : ℕ) (a : ArgArrays) (w : σ) :
    Except Fault (ArgArrays × σ) := do
  let name ← argString a 0
  match findBuiltin name with
  | none => do
      kprintf (cannotExec name)
      pure (a, w)
  | some cmd => commands cmd argc a w

def parseAndExec (commands : Commands σ) (a : ArgArrays) (input : List UInt8) (w : σ) :
    Except Fault (ArgArrays × σ) := do
  let (argc, a) ← shellParse a input
  match argc with
  | none => pure (a, w)
  | some argc => shellExec commands argc a w

/-- What `shell_main` does with the line at `buffer`. -/
def runBuffer (commands : Commands σ) (size : ℕ) (mem : Buffer) (buffer : ℕ) (k : Kbd)
    (s : Session σ) : Except Fault (Session σ) := do
  let input ← readString mem (size - buffer) buffer
  let (args, world) ← parseAndExec commands s.args input s.world
  let mem ← storeByte size mem buffer 0
  pure ⟨k, mem, args, world⟩

/-- A turn of the loop of `shell_main`. -/
def shellTurn (commands : Commands σ) (size : ℕ) (s : Session σ) :
    Turn (Session σ) (Except Fault σ) :=
  match readLine size s.line s.kbd with
  | .error e => .stop (.error e)
  | .ok none => .stop (.ok s.world)
  | .ok (some ((mem, buffer), k)) =>
      match runBuffer commands size mem buffer k s with
      | .error e => .stop (.error e)
      | .ok s => .next s

/-! ## Typed lines -/

/-- The characters of the keys that are pressed, none for a key without one. -/
def typed (shift : Bool) : List UInt8 → List (Option UInt8)
  | [] => []
  | b :: port =>
      if IsKey b then
        (if shift then asciiShift else asciiNonSh)[b.toNat]? :: typed shift port
      else typed (follow shift b) port

/-- The words of the line that these keys are. -/
def words (keys : List UInt8) : List (List UInt8) := tokens (skipBlanks (editedLine keys))

def builtinOf (keys : List UInt8) : Option Builtin := (words keys).head?.bind findBuiltin

/-- What the commands mean, when they are called with these words. -/
abbrev Meaning (σ : Type) := Builtin → List (List UInt8) → σ → Except Fault σ

def runWords (run : Meaning σ) (w : σ) (ws : List (List UInt8)) : Except Fault σ :=
  match ws.head? with
  | none => .ok w
  | some name =>
      match findBuiltin name with
      | none => do
          kprintf (cannotExec name)
          pure w
      | some cmd => run cmd ws w

def runLine (run : Meaning σ) (w : σ) (keys : List UInt8) : Except Fault σ :=
  runWords run w (words keys)

/-- The words stand in the arrays as `shell_gen_args` leaves them. -/
structure WordsIn (a : ArgArrays) (ws : List (List UInt8)) : Prop where
  cut : ∃ strings, CutInto cmdLen a strings ∧ strings.map Prod.snd = ws
  null : a.argtable ws.length = none

/-- With the arguments that a command takes for granted it does what it means. -/
def Follows (commands : Commands σ) (run : Meaning σ) : Prop :=
  ∀ cmd ws a, WordsIn a ws → (invocationOf ws).Enough cmd → ∀ w,
    (commands cmd ws.length a w).map Prod.snd = run cmd ws w

/-- The keys of a line that the shell has room for: there is more than blanks in it, no
NUL, and the arguments that the command takes for granted. -/
structure Plain (size : ℕ) (keys : List UInt8) : Prop where
  fits : keys.length < size
  no_enter : ENTER ∉ keys
  zero_free : 0 ∉ editedLine keys
  visible : ∃ c ∈ editedLine keys, Visible c
  short : (skipBlanks (editedLine keys)).length ≤ cmdLen
  enough : ∀ cmd, builtinOf keys = some cmd → (invocationOf (words keys)).Enough cmd

def keysOf (lines : List (List UInt8)) (rest : List UInt8) : List UInt8 :=
  lines.flatMap (· ++ [ENTER]) ++ rest

/-! ## The keyboard -/

/-- Calls of `getch` that return these characters. -/
def Delivers (k : Kbd) : List UInt8 → Kbd → Prop
  | [], k' => k = k'
  | c :: cs, k' => ∃ r, getch k = some r ∧ r.char = some c ∧ Delivers r.after cs k'

theorem getch_none {k : Kbd} (hnone : typed k.shift k.port = []) : getch k = none := by
  obtain ⟨shift, port⟩ := k
  induction port generalizing shift with
  | nil => rfl
  | cons b port ih =>
      by_cases hkey : IsKey b
      · simp [typed, hkey] at hnone
      · rw [getch_other hkey]
        apply ih
        simpa [typed, hkey] using hnone

theorem getch_typed {k : Kbd} {c : Option UInt8} {cs : List (Option UInt8)}
    (htyped : typed k.shift k.port = c :: cs) :
    ∃ r, getch k = some r ∧ r.char = c ∧ typed r.after.shift r.after.port = cs := by
  obtain ⟨shift, port⟩ := k
  induction port generalizing shift with
  | nil => simp [typed] at htyped
  | cons b port ih =>
      by_cases hkey : IsKey b
      · simp only [typed, if_pos hkey, List.cons.injEq] at htyped
        exact ⟨callAt shift b port, getch_key hkey, htyped.1, htyped.2⟩
      · rw [getch_other hkey]
        apply ih
        simpa [typed, hkey] using htyped

theorem getch_shortens {k : Kbd} {r : Returned} (hcall : getch k = some r) :
    r.after.port.length < k.port.length := by
  obtain ⟨shift, port⟩ := k
  induction port generalizing shift with
  | nil => simp [getch, getRawKey] at hcall
  | cons b port ih =>
      by_cases hkey : IsKey b
      · rw [getch_key hkey, Option.some.injEq] at hcall
        subst hcall
        simp [callAt]
      · rw [getch_other hkey] at hcall
        have hshort := ih _ hcall
        simp only [List.length_cons] at hshort ⊢
        omega

theorem exists_delivers {k : Kbd} {cs more : List UInt8}
    (htyped : typed k.shift k.port = (cs ++ more).map some) :
    ∃ k', Delivers k cs k' ∧ typed k'.shift k'.port = more.map some := by
  induction cs generalizing k with
  | nil => exact ⟨k, rfl, htyped⟩
  | cons c cs ih =>
      rw [List.cons_append, List.map_cons] at htyped
      obtain ⟨r, hcall, hchar, hrest⟩ := getch_typed htyped
      obtain ⟨k', hdelivers, hmore⟩ := ih hrest
      exact ⟨k', ⟨r, hcall, hchar, hdelivers⟩, hmore⟩

end Shell
end Janus86
