import Janus86.ShellExec

/-!
# Which arguments a command uses

A command is called with `argc` and with a table that goes on behind the last
argument: there is a `NULL`, and then what earlier lines have left.  The commands
are followed here up to the strings that they ask `argv` for.  Some look at `argc`
first, and some do not.
-/

namespace Janus86
namespace Shell

open ZeroTerminated

/-- What a command is called with; the strings behind the last argument are those
at the addresses that stand there. -/
structure Invocation where
  argc : ℕ
  argv : ℕ → List UInt8

/-- What the commands find: whether a directory is listed, whether `shell_panic`
reports the reply of a driver, how many elements of a list are compared, and whether
`unregister_module` knows no such driver. -/
structure Replies where
  listed : Bool
  panics : Bool
  compared : ℕ
  notFound : Bool

namespace Invocation

variable (w : Replies) (v : Invocation)

/-! ## shell_builtin.c

Each command gives the indices of the elements of `argv` that it takes for strings:
it looks at their characters, or hands them to a function that takes a string. -/

/-- From the last argument down, as `foo` goes. -/
def cmdHelp : List ℕ :=
  if v.argc ≤ 1 then [] else (List.range (v.argc - 1)).reverse.map (· + 1)

def cmdLs : List ℕ := if !w.listed then [] else if v.argc = 2 then [1] else []

def cmdCd : List ℕ := if v.argc = 2 then [1] else []

/-- `argc > 2` is answered with a message, and nothing else. -/
def cmdMore : List ℕ := 1 :: if w.panics then [] else List.replicate w.compared 1

def cmdLoad : List ℕ :=
  if (v.argv 1).head? = some 112 then 1 :: List.replicate w.compared 1
  else if (v.argv 1).head? = some 45 then
    let c := (v.argv 1 ++ v.argv 2).tail
    1 :: 1 :: 2 ::
      if c.head? = some 115 then [3, 1]
      else if c.head? = some 102 then [3, 1]
      else []
  else [1]

def cmdLdmod : List ℕ := [2, 1]

def cmdRoot : List ℕ :=
  if (v.argv 1).head? = some 112 ∧ v.argc ≤ 2 then [1, 1] else [1]

def cmdRmdrv : List ℕ := if v.argc = 2 then if w.notFound then [1, 1] else [1] else []

/-- The joined string is looked at through what `strcat` returns. -/
def cmdDump : List ℕ := [1, 2, 1]

def runBuiltin : Builtin → List ℕ
  | .help => v.cmdHelp
  | .ls => v.cmdLs w
  | .cd => v.cmdCd
  | .more => cmdMore w
  | .load => v.cmdLoad w
  | .ldmod => cmdLdmod
  | .root => v.cmdRoot
  | .rmdrv => v.cmdRmdrv w
  | .dump => cmdDump
  | .reboot | .clear | .ppart | .lsdrv | .chload => []

/-- `shell_exec`, which compares and prints the name. -/
def shellExec : List ℕ :=
  match findBuiltin (v.argv 0) with
  | none => [0, 0]
  | some cmd => 0 :: v.runBuiltin w cmd

/-- The command has the arguments that it takes for granted. -/
def Enough (cmd : Builtin) : Prop :=
  match cmd with
  | .more | .root => 2 ≤ v.argc
  | .ldmod | .dump => 3 ≤ v.argc
  | .load => 2 ≤ v.argc ∧ ((v.argv 1).head? = some 45 → 3 ≤ v.argc ∧
      ((v.argv 1 ++ v.argv 2).tail.head? ∈ [some 115, some 102] → 4 ≤ v.argc))
  | _ => True

end Invocation

/-- What `shell_parse` calls `shell_exec` with. -/
def invocation (a : ArgArrays) (behind : ℕ → List UInt8) (argc : ℕ) : Invocation :=
  ⟨argc, fun k => (argString a k).toOption.getD (behind k)⟩

/-- The same for arguments that are listed. -/
def invocationOf (args : List (List UInt8)) : Invocation :=
  ⟨args.length, fun k => args.getD k []⟩

/-! ## The commands one by one -/

section Commands

variable (w : Replies) (v : Invocation)

theorem cmdHelp_within : ∀ k ∈ v.cmdHelp, k < v.argc := by
  intro k hk
  unfold Invocation.cmdHelp at hk
  split at hk
  · exact absurd hk List.not_mem_nil
  · obtain ⟨i, hi, rfl⟩ := List.mem_map.mp hk
    rw [List.mem_reverse, List.mem_range] at hi
    omega

theorem cmdLoad_within_iff :
    (∀ k ∈ v.cmdLoad w, k < v.argc) ↔ v.Enough .load := by
  unfold Invocation.cmdLoad Invocation.Enough
  dsimp only
  by_cases hpart : (v.argv 1).head? = some 112
  · have hswitch : (v.argv 1).head? ≠ some 45 := by
      rw [hpart]
      decide
    rw [if_pos hpart, and_iff_left (fun h => absurd h hswitch)]
    constructor
    · exact fun h => h 1 List.mem_cons_self
    · intro h k hk
      rcases List.mem_cons.mp hk with rfl | hk
      · exact h
      · rw [List.eq_of_mem_replicate hk]
        exact h
  · rw [if_neg hpart]
    by_cases hswitch : (v.argv 1).head? = some 45
    · rw [if_pos hswitch]
      generalize (v.argv 1 ++ v.argv 2).tail.head? = second
      by_cases hs : second = some 115
      · simp [hs, hswitch]
        omega
      · by_cases hf : second = some 102
        · simp [hf, hswitch]
          omega
        · simp [hs, hf, hswitch]
          omega
    · simp [hswitch]
      omega

/-- A command stays in front of the end exactly when it has what it needs. -/
theorem runBuiltin_within_iff (cmd : Builtin) :
    (∀ k ∈ v.runBuiltin w cmd, k < v.argc) ↔ v.Enough cmd := by
  cases cmd with
  | help => exact iff_of_true (cmdHelp_within v) trivial
  | ls =>
      refine iff_of_true ?_ trivial
      simp only [Invocation.runBuiltin, Invocation.cmdLs]
      split
      · simp
      · split
        · simp [*]
        · simp
  | cd =>
      refine iff_of_true ?_ trivial
      simp only [Invocation.runBuiltin, Invocation.cmdCd]
      split
      · simp [*]
      · simp
  | more =>
      simp only [Invocation.runBuiltin, Invocation.cmdMore, Invocation.Enough]
      constructor
      · exact fun h => h 1 List.mem_cons_self
      · intro h k hk
        rcases List.mem_cons.mp hk with rfl | hk
        · exact h
        · split at hk
          · exact absurd hk List.not_mem_nil
          · rw [List.eq_of_mem_replicate hk]
            exact h
  | load => exact cmdLoad_within_iff w v
  | ldmod =>
      simp only [Invocation.runBuiltin, Invocation.cmdLdmod, Invocation.Enough]
      simp
      omega
  | root =>
      simp only [Invocation.runBuiltin, Invocation.cmdRoot, Invocation.Enough]
      split <;> simp <;> omega
  | rmdrv =>
      refine iff_of_true ?_ trivial
      simp only [Invocation.runBuiltin, Invocation.cmdRmdrv]
      split
      · split <;> simp [*]
      · simp
  | dump =>
      simp only [Invocation.runBuiltin, Invocation.cmdDump, Invocation.Enough]
      simp
      omega
  | reboot | clear | ppart | lsdrv | chload =>
      exact iff_of_true (fun k hk => absurd hk List.not_mem_nil) trivial

/-- Only the arguments themselves count. -/
theorem enough_congr {v v' : Invocation} (hargc : v.argc = v'.argc)
    (hargv : ∀ k < v.argc, v.argv k = v'.argv k) (cmd : Builtin) :
    v.Enough cmd ↔ v'.Enough cmd := by
  cases cmd with
  | load =>
      simp only [Invocation.Enough, ← hargc]
      refine and_congr_right fun htwo => ?_
      rw [← hargv 1 htwo]
      refine imp_congr_right fun _ => and_congr_right fun hthree => ?_
      rw [← hargv 2 hthree]
  | _ => simp only [Invocation.Enough, hargc]

end Commands

/-! ## A line -/

/-- No element of `argv` behind the last argument is used as a string exactly when the
command, if there is such a one, has the arguments that it needs. -/
theorem shellExec_within_iff (w : Replies) (a : ArgArrays) (behind : ℕ → List UInt8)
    {input : List UInt8} {argc : ℕ} {a' : ArgArrays}
    (haccepted : shellParse a input = .ok (some argc, a')) :
    (∀ k ∈ (invocation a' behind argc).shellExec w, k < argc) ↔
      ∀ cmd, findBuiltin ((tokens (commandLine input)).getD 0 []) = some cmd →
        (invocationOf (tokens (commandLine input))).Enough cmd := by
  have hne : commandLine input ≠ [] := by
    intro hblank
    rw [shellParse_blank a hblank] at haccepted
    cases haccepted
  have hfit : (commandLine input).length ≤ cmdLen := by
    by_contra hlong
    rw [shellParse_long a (Nat.not_le.mp hlong)] at haccepted
    cases haccepted
  obtain ⟨a'', hparse, hargs⟩ := shellParse_args a hne hfit
  rw [hparse] at haccepted
  cases haccepted
  have hpos := List.length_pos_of_ne_nil
    (tokens_ne_nil hne (startsVisible_commandLine input))
  generalize tokens (commandLine input) = args at hargs hpos ⊢
  have hargv : ∀ k < args.length, (invocation a' behind args.length).argv k =
      (invocationOf args).argv k := by
    intro k hk
    simp only [invocation, invocationOf]
    rw [hargs.string (List.getElem?_eq_getElem hk), List.getD_eq_getElem?_getD,
      List.getElem?_eq_getElem hk]
    rfl
  unfold Invocation.shellExec
  rw [hargv 0 hpos]
  simp only [invocationOf]
  cases hfind : findBuiltin (args.getD 0 []) with
  | none =>
      refine iff_of_true ?_ (fun cmd h => by cases h)
      simpa using hpos
  | some cmd =>
      have hzero : (∀ k ∈ 0 :: (invocation a' behind args.length).runBuiltin w cmd,
          k < args.length) ↔
          ∀ k ∈ (invocation a' behind args.length).runBuiltin w cmd, k < args.length := by
        rw [List.forall_mem_cons]
        exact and_iff_right hpos
      dsimp only
      rw [hzero]
      have hargc : (invocation a' behind args.length).argc = (invocationOf args).argc := rfl
      have hcmd := (runBuiltin_within_iff w (invocation a' behind args.length) cmd).trans
        (enough_congr hargc hargv cmd)
      exact hcmd.trans ⟨fun h _ hsome => Option.some.inj hsome ▸ h, fun h => h cmd rfl⟩

/-- `more` without a name takes the `NULL` behind it for one. -/
theorem more_uses_null :
    ∃ a', shellParse emptyArrays [109, 111, 114, 101] = .ok (some 1, a') ∧
      a'.argtable 1 = none ∧
      ∀ w behind, 1 ∈ (invocation a' behind 1).shellExec w := by
  have hline : commandLine [109, 111, 114, 101] = [109, 111, 114, 101] := by decide
  have htokens : tokens [109, 111, 114, 101] = [[109, 111, 114, 101]] := by decide
  obtain ⟨a', hparse, hargs⟩ := @shellParse_args emptyArrays [109, 111, 114, 101]
    (by decide) (by decide)
  rw [hline, htokens] at hparse hargs
  refine ⟨a', hparse, hargs.null, fun w behind => ?_⟩
  have hname : (invocation a' behind 1).argv 0 = [109, 111, 114, 101] := by
    simp only [invocation]
    rw [hargs.string (i := 0) rfl]
    rfl
  have hfind : findBuiltin [109, 111, 114, 101] = some .more := by decide
  unfold Invocation.shellExec
  rw [hname, hfind]
  exact List.mem_cons_of_mem _ List.mem_cons_self

/-- `load -f F 9` -/
def loadText : List UInt8 := [108, 111, 97, 100, 32, 45, 102, 32, 70, 32, 57]

/-- `load -f F 9` behind a line that has left a word in every place. -/
theorem shellExec_within_iff_load :
    ∃ a', shellParse emptyArrays loadText = .ok (some 4, a') ∧
      ((∀ k ∈ (invocation a' (fun _ => [45]) 4).shellExec ⟨true, false, 2, false⟩, k < 4) ↔
        ∀ cmd, findBuiltin ((tokens (commandLine loadText)).getD 0 []) = some cmd →
          (invocationOf (tokens (commandLine loadText))).Enough cmd) := by
  have hcount : (tokens (commandLine loadText)).length = 4 := by decide
  obtain ⟨a', hparse, _⟩ := @shellParse_args emptyArrays loadText (by decide) (by decide)
  rw [hcount] at hparse
  exact ⟨a', hparse, shellExec_within_iff _ emptyArrays _ hparse⟩

end Shell
end Janus86
