import Janus86.ShellTokens

/-!
# From a line to a command

`shell_parse` skips the blanks in front of a line and has the rest of it cut into
arguments; `shell_exec` looks the first one of them up in `cmdtab`.
-/

namespace Janus86
namespace Shell

open ZeroTerminated

inductive Builtin where
  | help
  | ls
  | cd
  | reboot
  | clear
  | ppart
  | more
  | load
  | ldmod
  | root
  | lsdrv
  | rmdrv
  | chload
  | dump
  deriving DecidableEq

/-- `cmdtab` without the texts that `help` prints. -/
def cmdtab : List (List UInt8 × Builtin) :=
  [([104, 101, 108, 112], .help), ([108, 115], .ls), ([99, 100], .cd),
    ([114, 101, 98, 111, 111, 116], .reboot), ([99, 108, 101, 97, 114], .clear),
    ([112, 112, 97, 114, 116], .ppart), ([109, 111, 114, 101], .more),
    ([108, 111, 97, 100], .load), ([108, 100, 109, 111, 100], .ldmod),
    ([114, 111, 111, 116], .root), ([108, 115, 100, 114, 118], .lsdrv),
    ([114, 109, 100, 114, 118], .rmdrv), ([99, 104, 108, 111, 97, 100], .chload),
    ([100, 117, 109, 112], .dump)]

/-- The loop of `shell_exec`. -/
def findBuiltin (name : List UInt8) : Option Builtin :=
  (cmdtab.find? fun entry => strcmp entry.1 name = 0).map Prod.snd

/-- What `shell_parse` hands on: the line without the blanks in front of it. -/
def commandLine (input : List UInt8) : List UInt8 := skipBlanks (cString input)

/-- `shell_parse` up to its call of `shell_exec`: `argc`, or nothing for `FAILURE`. -/
def shellParse (a : ArgArrays) (input : List UInt8) :
    Except Fault (Option ℕ × ArgArrays) :=
  if commandLine input = [] then .ok (none, a) else genArgs a (commandLine input)

/-- The string `argv[i]`. -/
def argString (a : ArgArrays) (i : ℕ) : Except Fault (List UInt8) :=
  match a.argtable i with
  | none => .error .nullPointer
  | some o => readString a.sc (cmdLen + 1 - o) o

/-- The arguments are these strings, and `NULL` is behind them. -/
structure ArgsAre (a : ArgArrays) (args : List (List UInt8)) : Prop where
  string : ∀ {i arg}, args[i]? = some arg → argString a i = .ok arg
  null : a.argtable args.length = none
  zero_free : ∀ arg ∈ args, 0 ∉ arg

/-! ## shell_parse -/

theorem zero_free_commandLine (input : List UInt8) : 0 ∉ commandLine input := by
  intro hmem
  have hzero := List.mem_takeWhile_imp ((List.dropWhile_sublist _).subset hmem)
  simp at hzero

theorem cString_commandLine (input : List UInt8) :
    cString (commandLine input) = commandLine input :=
  (cString_eq_self_iff _).mpr fun _ hc h => zero_free_commandLine input (h ▸ hc)

theorem startsVisible_commandLine (input : List UInt8) :
    StartsVisible (commandLine input) := startsVisible_skipBlanks _

theorem tokens_ne_nil {line : List UInt8} (hne : line ≠ [])
    (hvisible : StartsVisible line) : tokens line ≠ [] := by
  obtain ⟨c, text, rfl⟩ := List.exists_cons_of_ne_nil hne
  unfold tokens
  rw [tokensFrom_cons (hvisible c rfl)]
  exact List.cons_ne_nil _ _

theorem CutInto.argsAre {a : ArgArrays} {strings : List (ℕ × List UInt8)}
    (hcut : CutInto cmdLen a strings) (hnull : a.argtable strings.length = none) :
    ArgsAre a (strings.map Prod.snd) := by
  refine ⟨fun {i arg} hi => ?_, by rwa [List.length_map], fun arg harg => ?_⟩
  · rw [List.getElem?_map, Option.map_eq_some_iff] at hi
    obtain ⟨p, hp, rfl⟩ := hi
    have hmem := List.mem_of_getElem? hp
    have hinside := hcut.inside p hmem
    unfold argString
    rw [hcut.pointers i p hp]
    exact readString_ok (hcut.string_at p hmem) (by omega)
  · obtain ⟨p, hp, rfl⟩ := List.mem_map.mp harg
    exact (hcut.string_at p hp).zero_free

theorem shellParse_blank (a : ArgArrays) {input : List UInt8}
    (hblank : commandLine input = []) : shellParse a input = .ok (none, a) :=
  if_pos hblank

theorem shellParse_args (a : ArgArrays) {input : List UInt8}
    (hne : commandLine input ≠ []) (hfit : (commandLine input).length ≤ cmdLen) :
    ∃ a', shellParse a input =
        .ok (some (tokens (commandLine input)).length, a') ∧
      ArgsAre a' (tokens (commandLine input)) := by
  have hvisible := startsVisible_commandLine input
  have hself := cString_commandLine input
  rw [← hself] at hfit hvisible
  obtain ⟨a', strings, hrun, hstrings, hcut, hnull⟩ := genArgs_cutInto a hfit hvisible
  rw [hself] at hrun hstrings hnull
  refine ⟨a', ?_, ?_⟩
  · unfold shellParse
    rw [if_neg hne]
    exact hrun
  · rw [← hstrings] at hnull ⊢
    rw [List.length_map] at hnull
    exact CutInto.argsAre hcut hnull

theorem shellParse_long (a : ArgArrays) {input : List UInt8}
    (hlong : cmdLen < (commandLine input).length) :
    shellParse a input = .error .outOfBounds := by
  have hne : commandLine input ≠ [] := by
    intro hnil
    rw [hnil] at hlong
    exact Nat.not_lt_zero _ hlong
  have hcut := argCutter_reads.cut a (show StartsVisible (cString (commandLine input)) by
    rw [cString_commandLine]
    exact startsVisible_commandLine input)
  rw [cString_commandLine, if_neg (show ¬ _ ≤ argCutter.len from Nat.not_le.mpr hlong)]
    at hcut
  unfold shellParse
  rw [if_neg hne]
  exact hcut

/-! ## shell_exec -/

/-- A name is looked up as it stands in the table. -/
theorem findBuiltin_eq_some_iff {name : List UInt8} (hzero : 0 ∉ name) {cmd : Builtin} :
    findBuiltin name = some cmd ↔ (name, cmd) ∈ cmdtab := by
  have hself : ∀ s : List UInt8, 0 ∉ s → cString s = s :=
    fun s h => (cString_eq_self_iff s).mpr fun c hc h0 => h (h0 ▸ hc)
  constructor
  · intro hfind
    obtain ⟨entry, hentry, rfl⟩ := Option.map_eq_some_iff.mp hfind
    have hmem := List.mem_of_find?_eq_some hentry
    have hsame := List.find?_some hentry
    rw [decide_eq_true_eq, strcmp_eq_zero_iff, hself name hzero,
      hself entry.1 ((show ∀ e ∈ cmdtab, 0 ∉ e.1 by decide) entry hmem)] at hsame
    rwa [← hsame]
  · intro hmem
    exact (show ∀ e ∈ cmdtab, findBuiltin e.1 = some e.2 by decide) (name, cmd) hmem

end Shell
end Janus86
