import Janus86.ShellMain

/-!
# Lines at the keyboard

The shell runs the commands of the lines that are typed, one after the other, each with the
words of its line: nothing that earlier lines left in the buffer or in the arrays comes into
it, as long as every line has more than blanks in it and fits.
-/

namespace Janus86
namespace Shell

open StepMachine ZeroTerminated Keyboard

variable {σ : Type} {size : ℕ}

/-! ## One line -/

section Line

variable {s : LineState} {k kEnd : Kbd} {mem : Buffer} {keys : List UInt8}

/-- The loop of `getline` with these keys still to come in front of `kEnd`. -/
def AtKeys (kEnd : Kbd) (s : LineState) (keys : List UInt8) (p : LineState × Kbd) : Prop :=
  p.1 = s ∧ ENTER ∉ keys ∧ Delivers p.2 keys kEnd

theorem lineTurn_worksOff {done : LineState → Option (LineState × Kbd)}
    (hlast : ∀ s, lineTurn size (s, kEnd) = .stop (.ok (done s))) :
    WorksOff (lineTurn size) (lineKey size) done (AtKeys kEnd) := by
  have hturn : ∀ {s ch keys k}, AtKeys kEnd s (ch :: keys) (s, k) → ∃ r : Returned,
      Delivers r.after keys kEnd ∧
      (∀ s', lineKey size s ch = .ok s' → lineTurn size (s, k) = .next (s', r.after)) ∧
      ∀ e, lineKey size s ch = .error e → lineTurn size (s, k) = .stop (.error e) := by
    rintro s ch keys k ⟨_, hnew, r, hcall, hchar, hrest⟩
    have hch : ¬ ch = ENTER := fun h => hnew (h ▸ List.mem_cons_self)
    refine ⟨r, hrest, fun s' hkey => ?_, fun e hkey => ?_⟩ <;>
      simp only [lineTurn, hcall, hchar, if_neg hch, hkey]
  constructor
  · rintro s ⟨_, k⟩ ⟨rfl, _, rfl⟩
    exact hlast _
  · rintro s s' ch keys ⟨_, k⟩ ⟨rfl, hkeys⟩ hkey
    obtain ⟨r, hrest, hnext, _⟩ := hturn ⟨rfl, hkeys⟩
    exact ⟨_, hnext s' hkey, rfl, fun h => hkeys.1 (List.mem_cons_of_mem ch h), hrest⟩
  · rintro s ch keys ⟨_, k⟩ e ⟨rfl, hkeys⟩ hkey
    obtain ⟨r, _, _, hfail⟩ := hturn ⟨rfl, hkeys⟩
    exact hfail e hkey

theorem lineTurn_shortens (p p' : LineState × Kbd) (hturn : lineTurn size p = .next p') :
    p'.2.port.length < p.2.port.length := by
  unfold lineTurn at hturn
  cases hcall : getch p.2 with
  | none =>
      rw [hcall] at hturn
      cases hturn
  | some r =>
      rw [hcall] at hturn
      dsimp only at hturn
      have hshort := getch_shortens hcall
      cases hchar : r.char with
      | none =>
          rw [hchar] at hturn
          cases hturn
      | some ch =>
          rw [hchar] at hturn
          dsimp only at hturn
          by_cases hch : ch = ENTER
          · rw [if_pos hch] at hturn
            cases hturn
          · rw [if_neg hch] at hturn
            cases hkey : lineKey size p.1 ch with
            | error e =>
                rw [hkey] at hturn
                cases hturn
            | ok line =>
                rw [hkey] at hturn
                cases hturn
                exact hshort

/-- The loop of `getline` over keys that the buffer has room for. -/
theorem runFuel_lineTurn {done : LineState → Option (LineState × Kbd)}
    (hlast : ∀ s, lineTurn size (s, kEnd) = .stop (.ok (done s)))
    (hdelivers : Delivers k keys kEnd) (hnew : ENTER ∉ keys) (hfits : keys.length < size) :
    runFuel (lineTurn size) (k.port.length + 1) (⟨mem, 0, 0⟩, k) =
      some (.ok (done ⟨leftBehind mem keys, (editedLine keys).length,
        (editedLine keys).length⟩)) := by
  have hhalts := (lineTurn_worksOff hlast).halts (s := (⟨mem, 0, 0⟩, k))
    ⟨rfl, hnew, hdelivers⟩
  rw [(getline_typed mem hfits).1] at hhalts
  exact hhalts.runFuel_of_measure (fun p => p.2.port.length) lineTurn_shortens _
    (Nat.lt_succ_self _)

theorem readLine_waits (hdelivers : Delivers k keys kEnd) (hend : getch kEnd = none)
    (hnew : ENTER ∉ keys) (hfits : keys.length < size) :
    readLine size mem k = .ok none := by
  have hrun := @runFuel_lineTurn size k kEnd mem keys (fun _ => none)
    (fun s => by simp only [lineTurn, hend]) hdelivers hnew hfits
  unfold readLine
  rw [hrun]

/-- `getline` at the keyboard is `getline` with the keys up to the one that ends the
line. -/
theorem readLine_keys (hdelivers : Delivers k keys kEnd) {r : Returned}
    (hend : getch kEnd = some r) (henter : r.char = some ENTER) (hnew : ENTER ∉ keys)
    (hfits : keys.length < size) :
    readLine size mem k = (getline size mem keys).map fun line => some (line, r.after) := by
  have hrun := @runFuel_lineTurn size k kEnd mem keys (fun s => some (s, r.after))
    (fun s => by simp only [lineTurn, hend, henter, if_true]) hdelivers hnew hfits
  have hgetline : getline size mem keys = endLine size ⟨leftBehind mem keys,
      (editedLine keys).length, (editedLine keys).length⟩ := by
    unfold getline
    rw [(getline_typed mem hfits).1]
    rfl
  unfold readLine
  rw [hrun, hgetline]
  dsimp only
  cases endLine size ⟨leftBehind mem keys, (editedLine keys).length,
    (editedLine keys).length⟩ <;> rfl

end Line

/-! ## The command of a line -/

section Parse

variable {a : ArgArrays} {keys : List UInt8}

theorem commandLine_editedLine (hzero : 0 ∉ editedLine keys) :
    commandLine (skipBlanks (editedLine keys)) = skipBlanks (editedLine keys) := by
  have hfree : 0 ∉ skipBlanks (editedLine keys) := fun h =>
    hzero ((List.dropWhile_sublist _).subset h)
  have hself : cString (skipBlanks (editedLine keys)) = skipBlanks (editedLine keys) :=
    (cString_eq_self_iff _).mpr fun _ hc h => hfree (h ▸ hc)
  rw [commandLine, hself]
  cases hline : skipBlanks (editedLine keys) with
  | nil => rfl
  | cons c text => exact skipBlanks_of_visible (visible_of_skipBlanks hline) text

theorem Plain.words_in (hplain : Plain size keys) (a : ArgArrays) :
    ∃ a', shellParse a (skipBlanks (editedLine keys)) =
        .ok (some (words keys).length, a') ∧ WordsIn a' (words keys) := by
  have hline := commandLine_editedLine hplain.zero_free
  have hself := cString_commandLine (skipBlanks (editedLine keys))
  rw [hline] at hself
  have hne : skipBlanks (editedLine keys) ≠ [] := by
    obtain ⟨blanks, d, rest, hsplit, hblanks, hd⟩ := exists_visible_split hplain.visible
    rw [hsplit, skipBlanks_append hblanks hd]
    exact List.cons_ne_nil d rest
  have hfit := hplain.short
  have hvisible := startsVisible_skipBlanks (editedLine keys)
  rw [← hself] at hfit hvisible
  obtain ⟨a', strings, hrun, hstrings, hcut, hnull⟩ := genArgs_cutInto a hfit hvisible
  rw [hself] at hrun hstrings hnull
  refine ⟨a', ?_, ⟨strings, hcut, hstrings⟩, hnull⟩
  unfold shellParse
  rw [hline, if_neg hne]
  exact hrun

theorem WordsIn.argsAre {ws : List (List UInt8)} (hwords : WordsIn a ws) : ArgsAre a ws := by
  obtain ⟨⟨strings, hcut, rfl⟩, hnull⟩ := hwords
  rw [List.length_map] at hnull
  exact CutInto.argsAre hcut hnull

theorem Plain.words_ne_nil (hplain : Plain size keys) : words keys ≠ [] := by
  obtain ⟨blanks, d, rest, hsplit, hblanks, hd⟩ := exists_visible_split hplain.visible
  apply tokens_ne_nil
  · rw [hsplit, skipBlanks_append hblanks hd]
    exact List.cons_ne_nil d rest
  · exact startsVisible_skipBlanks _

theorem parseAndExec_words {commands : Commands σ} {run : Meaning σ}
    (hfollows : Follows commands run) (hplain : Plain size keys) (a : ArgArrays) (w : σ) :
    (parseAndExec commands a (skipBlanks (editedLine keys)) w).map Prod.snd =
      runLine run w keys := by
  obtain ⟨a', hparse, hwords⟩ := hplain.words_in a
  obtain ⟨name, more, hcons⟩ := List.exists_cons_of_ne_nil hplain.words_ne_nil
  have hname : argString a' 0 = .ok name := by
    refine hwords.argsAre.string ?_
    rw [hcons]
    rfl
  have hbuiltin : builtinOf keys = findBuiltin name := by
    rw [builtinOf, hcons]
    rfl
  have hhead : (words keys).head? = some name := by
    rw [hcons]
    rfl
  rw [parseAndExec, hparse, ok_bind]
  dsimp only
  rw [shellExec, hname, ok_bind, runLine, runWords, hhead]
  dsimp only
  cases hcmd : findBuiltin name with
  | none => cases kprintf (cannotExec name) <;> rfl
  | some cmd =>
      exact hfollows cmd (words keys) a' hwords (hplain.enough cmd (hbuiltin.trans hcmd)) w

end Parse

/-! ## Sessions -/

section Session

variable {commands : Commands σ} {run : Meaning σ}

/-- The NUL behind the line is in the buffer. -/
theorem Plain.within {keys : List UInt8} (hplain : Plain size keys) {mem mem' : Buffer}
    {buffer : ℕ} (hline : getline size mem keys = .ok (mem', buffer))
    (hstring : StringAt mem' buffer (skipBlanks (editedLine keys))) :
    (skipBlanks (editedLine keys)).length < size - buffer := by
  obtain ⟨rfl, _, hbefore, _⟩ := (getline_eq_ok_iff hplain.fits).mp hline
  have hshort := length_editedLine_lt hplain.fits
  have hcells := cellsAt_iff.mp (getline_typed mem hplain.fits).2
  have hinside : buffer ≤ (editedLine keys).length := by
    by_contra hbeyond
    obtain ⟨c, hmem, hvisible⟩ := hplain.visible
    obtain ⟨i, hi, rfl⟩ := List.getElem_of_mem hmem
    have hcell := hcells i _ (List.getElem?_eq_getElem hi)
    rw [Nat.zero_add] at hcell
    exact hbefore i (by omega) (hcell ▸ hvisible)
  have hle : buffer + (skipBlanks (editedLine keys)).length ≤ (editedLine keys).length := by
    by_contra hlong
    have hat : (editedLine keys).length - buffer < (skipBlanks (editedLine keys)).length := by
      omega
    have hcell := cellsAt_iff.mp hstring.cells _ _ (List.getElem?_eq_getElem hat)
    rw [Nat.add_sub_cancel' hinside, Function.update_self] at hcell
    exact hstring.zero_free (hcell ▸ List.getElem_mem hat)
  omega

theorem runBuffer_plain (hfollows : Follows commands run) {keys : List UInt8}
    (hplain : Plain size keys) (mem : Buffer) (k : Kbd) (s : Session σ) :
    ∃ mem' buffer, getline size mem keys = .ok (mem', buffer) ∧
      (runBuffer commands size mem' buffer k s).map Session.world =
        runLine run s.world keys ∧
      ∀ s', runBuffer commands size mem' buffer k s = .ok s' → s'.kbd = k := by
  have hreturns : ReturnsEditedLine size mem keys :=
    returnsEditedLine_of_visible hplain.fits hplain.zero_free hplain.visible
  obtain ⟨mem', buffer, hline, hstring⟩ := hreturns
  have hwithin := hplain.within hline hstring
  have hread := readString_ok hstring hwithin
  refine ⟨mem', buffer, hline, ?_, ?_⟩
  · rw [← parseAndExec_words hfollows hplain s.args s.world, runBuffer, hread, ok_bind]
    cases parseAndExec commands s.args (skipBlanks (editedLine keys)) s.world with
    | error e => rfl
    | ok out =>
        rw [ok_bind]
        dsimp only
        rw [storeByte_of_lt (by omega)]
        rfl
  · intro s' hrun
    obtain ⟨_, _, hrest⟩ := bind_eq_ok_iff.mp hrun
    obtain ⟨_, _, hrest⟩ := bind_eq_ok_iff.mp hrest
    obtain ⟨_, _, hlast⟩ := bind_eq_ok_iff.mp hrest
    cases hlast
    rfl

/-- The shell in front of lines that have still to be typed. -/
structure AtLines (size : ℕ) (rest : List UInt8) (w : σ) (lines : List (List UInt8))
    (s : Session σ) : Prop where
  world : s.world = w
  typed : typed s.kbd.shift s.kbd.port = (keysOf lines rest).map some
  plain : ∀ keys ∈ lines, Plain size keys

theorem AtLines.shellTurn {rest : List UInt8} {w : σ} {keys : List UInt8}
    {lines : List (List UInt8)} {s : Session σ} (hat : AtLines size rest w (keys :: lines) s)
    (hfollows : Follows commands run) :
    (∀ w', runLine run w keys = .ok w' →
      ∃ s', shellTurn commands size s = .next s' ∧ AtLines size rest w' lines s') ∧
      ∀ e, runLine run w keys = .error e → shellTurn commands size s = .stop (.error e) := by
  obtain ⟨rfl, htyped, hlines⟩ := hat
  have hplain := hlines keys List.mem_cons_self
  have hsplit : keysOf (keys :: lines) rest = keys ++ ENTER :: keysOf lines rest := by
    simp [keysOf]
  rw [hsplit] at htyped
  obtain ⟨kEnd, hdelivers, hmore⟩ := exists_delivers htyped
  rw [List.map_cons] at hmore
  obtain ⟨r, hend, henter, hafter⟩ := getch_typed hmore
  obtain ⟨mem', buffer, hline, hworld, hkbd⟩ :=
    runBuffer_plain hfollows hplain s.line r.after s
  have hread : readLine size s.line s.kbd = .ok (some ((mem', buffer), r.after)) := by
    rw [readLine_keys hdelivers hend henter hplain.no_enter hplain.fits, hline]
    rfl
  unfold Shell.shellTurn
  rw [hread]
  dsimp only
  cases hrun : runBuffer commands size mem' buffer r.after s with
  | error e =>
      rw [hrun] at hworld
      refine ⟨fun w' hok => ?_, fun e' herror => ?_⟩
      · rw [hok] at hworld
        cases hworld
      · rw [herror] at hworld
        cases hworld
        rfl
  | ok s' =>
      rw [hrun] at hworld
      refine ⟨fun w' hok => ⟨s', rfl, ?_, ?_, fun line hmem => ?_⟩, fun e' herror => ?_⟩
      · rw [hok] at hworld
        exact Except.ok.inj hworld
      · rw [hkbd s' hrun]
        exact hafter
      · exact hlines line (List.mem_cons_of_mem keys hmem)
      · rw [herror] at hworld
        cases hworld

theorem shellTurn_worksOff (hfollows : Follows commands run) {rest : List UInt8}
    (hnew : ENTER ∉ rest) (hfits : rest.length < size) :
    WorksOff (shellTurn commands size) (runLine run) id (AtLines size rest) where
  last := by
    rintro w s ⟨rfl, htyped, _⟩
    rw [keysOf, List.flatMap_nil, List.nil_append, ← List.append_nil rest] at htyped
    obtain ⟨kEnd, hdelivers, hmore⟩ := exists_delivers htyped
    have hwaits : readLine size s.line s.kbd = .ok none :=
      readLine_waits hdelivers (getch_none hmore) hnew hfits
    unfold shellTurn
    rw [hwaits]
    rfl
  step := fun hat hline => (hat.shellTurn hfollows).1 _ hline
  fail := fun hat hline => (hat.shellTurn hfollows).2 _ hline

/-- The shell runs the typed lines one after the other, each with its own words, and then
waits at the keyboard, unless a command fails. -/
theorem session_runs_lines (hfollows : Follows commands run) {s : Session σ}
    {lines : List (List UInt8)} {rest : List UInt8}
    (htyped : typed s.kbd.shift s.kbd.port = (keysOf lines rest).map some)
    (hlines : ∀ keys ∈ lines, Plain size keys) (hnew : ENTER ∉ rest)
    (hfits : rest.length < size) :
    Halts (shellTurn commands size) s (lines.foldlM (runLine run) s.world) := by
  have hstart : AtLines size rest s.world lines s := ⟨rfl, htyped, hlines⟩
  have hhalts := (shellTurn_worksOff hfollows hnew hfits).halts hstart
  rwa [Except.map_id, id] at hhalts

end Session

end Shell
end Janus86
