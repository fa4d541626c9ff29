import Janus86.FsModel
import Janus86.StepMachine

/-!
# The three pointers and the list of drivers

`drv_root`, `drv_chdir` and `drv_loadfile` should be those of the driver that
was mounted last, and that driver should still be registered.
`unregister_module` does not look for the driver that is mounted.  At the head
of the list it leaves the pointers, and behind it it takes those of the driver
before.
-/

namespace Janus86
namespace Fs

open Janus86.Partition StepMachine
open Shell (strcmp)

variable {κ π : Type}

/-! ## Sessions of calls -/

/-- The state, and the driver that the last successful `fs_root` chose. -/
structure Tracked (κ π : Type) where
  fs : FsState κ π
  active : Option ℕ

inductive Call where
  | register (mem : Buffer) (loadAddr : ℕ)
  | unregister (drvName : List UInt8)
  | root (n : ℤ)

def chosenDriver (p : PartState) (n : ℤ) (s : FsState κ π) : Option Driver :=
  driverFor s.drvList (partitionNode p n typeByteOffset)

def runCall (root : RootRoutine κ π) (p : PartState) (k : Tracked κ π) :
    Call → Except Fault (Tracked κ π)
  | .register mem loadAddr => do
      let (_, fs) ← registerModule mem loadAddr k.fs
      pure { k with fs := fs }
  | .unregister drvName => do
      let (_, fs) ← unregisterModule drvName k.fs
      pure { k with fs := fs }
  | .root n => do
      let (code, fs) ← fsRoot root p n k.fs
      pure
        { fs := fs
          active :=
            if code = fsDrvFound then (chosenDriver p n k.fs).map Driver.serial
            else k.active }

def callStep (root : RootRoutine κ π) (p : PartState) (k : Tracked κ π)
    (call : Call) (k' : Tracked κ π) : Prop :=
  runCall root p k call = .ok k'

def started (ext2 : Symbols) (nothing : π) (world : κ) : Tracked κ π :=
  ⟨initFsModules ext2 nothing world, none⟩

/-! ## What the pointers should be -/

/-- No pointer is set, or they are those of the active driver, which is
registered. -/
def InStep (k : Tracked κ π) : Prop :=
  k.fs.symbols = Symbols.null ∨
    ∃ d ∈ k.fs.drvList, k.active = some d.serial ∧ k.fs.symbols = d.symbols

def isNamed (drvName : List UInt8) (d : Driver) : Bool :=
  strcmp d.drvName drvName == 0

def unregistered (k : Tracked κ π) : Call → Option Driver
  | .unregister drvName => k.fs.drvList.find? (isNamed drvName)
  | _ => none

/-- After the call the pointers are as they should be, and they are as before
when it has unregistered a driver that was not the active one. -/
def PointersKept (t : Transition (Tracked κ π) Call) : Prop :=
  InStep t.after ∧ ∀ d, unregistered t.before t.label = some d →
    t.before.active ≠ some d.serial → t.after.fs.symbols = t.before.fs.symbols

/-- The pointers that the call leaves fit: those before, at the head of the
list; those of the driver before, behind it. -/
def LeavesFit (k : Tracked κ π) : Call → Prop
  | .unregister drvName =>
      match k.fs.drvList with
      | [] => True
      | head :: rest =>
          if isNamed drvName head then
            k.fs.symbols = Symbols.null ∨ k.active ≠ some head.serial
          else
            match unlink drvName head rest with
            | none => True
            | some u =>
                u.prevDrv.symbols =
                  if k.active = some u.tmp.serial then Symbols.null
                  else k.fs.symbols
  | _ => True

/-! ## Registered drivers are told apart -/

structure Numbered (k : Tracked κ π) : Prop where
  nodup : (k.fs.drvList.map Driver.serial).Nodup
  lt : ∀ d ∈ k.fs.drvList, d.serial < k.fs.registered

theorem started_numbered (ext2 : Symbols) (nothing : π) (world : κ) :
    Numbered (started ext2 nothing world) := by
  constructor <;> simp [started, initFsModules]

/-- A list that is another one with a node less has its numbers. -/
theorem Numbered.of_perm {k k' : Tracked κ π} {tmp : Driver}
    (hnumbered : Numbered k)
    (hperm : k.fs.drvList.Perm (tmp :: k'.fs.drvList))
    (hcount : k'.fs.registered = k.fs.registered) :
    Numbered k' ∧ ∀ d ∈ k'.fs.drvList, d.serial ≠ tmp.serial := by
  have hnodup := (hperm.map Driver.serial).nodup_iff.mp hnumbered.nodup
  rw [List.map_cons, List.nodup_cons] at hnodup
  refine ⟨⟨hnodup.2, fun d hd => ?_⟩, fun d hd hsame => ?_⟩
  · rw [hcount]
    exact hnumbered.lt d (hperm.mem_iff.mpr (List.mem_cons_of_mem tmp hd))
  · exact hnodup.1 (hsame ▸ List.mem_map_of_mem hd)

/-! ## The calls, one by one -/

theorem registerModule_ok {mem : Buffer} {loadAddr : ℕ} {s s' : FsState κ π}
    {code : ℤ} (hok : registerModule mem loadAddr s = .ok (code, s')) :
    s' = s ∨ ∃ d : Driver, d.serial = s.registered ∧
      s' = { s with
        drvList := s.drvList ++ [d]
        registered := s.registered + 1 } := by
  unfold registerModule at hok
  split at hok
  · simp only at hok
    split at hok
    · simp only [Except.ok.injEq, Prod.mk.injEq] at hok
      exact Or.inr ⟨_, rfl, hok.2.symm⟩
    · cases hok
  · simp only [Except.ok.injEq, Prod.mk.injEq] at hok
    exact Or.inl hok.2.symm

theorem fsRoot_ok {root : RootRoutine κ π} {p : PartState} {n : ℤ}
    {s s' : FsState κ π} {code : ℤ} (hok : fsRoot root p n s = .ok (code, s')) :
    code = fsDrvNotFound ∧ s' = s ∨
      code = fsDrvFound ∧ ∃ d ∈ s.drvList, chosenDriver p n s = some d ∧
        s'.symbols = d.symbols ∧ s'.drvList = s.drvList ∧
        s'.registered = s.registered := by
  unfold fsRoot at hok
  cases hchosen : driverFor s.drvList (partitionNode p n typeByteOffset) with
  | none =>
      simp only [hchosen, Except.ok.injEq, Prod.mk.injEq] at hok
      exact Or.inl ⟨hok.1.symm, hok.2.symm⟩
  | some d =>
      simp only [hchosen] at hok
      obtain ⟨⟨listing, world⟩, _, hrest⟩ := bind_eq_ok_iff.mp hok
      cases hrest
      exact Or.inr ⟨rfl, d, List.mem_of_find?_eq_some hchosen, hchosen, rfl, rfl,
        rfl⟩

theorem unlink_spec {drvName : List UInt8} {prevDrv : Driver}
    {rest : List Driver} {u : Unlinked}
    (hunlink : unlink drvName prevDrv rest = some u) :
    rest.Perm (u.tmp :: u.rest) ∧ rest.find? (isNamed drvName) = some u.tmp := by
  induction rest generalizing prevDrv u with
  | nil => cases hunlink
  | cons tmp rest ih =>
      rw [unlink] at hunlink
      by_cases hname : strcmp tmp.drvName drvName = 0
      · rw [if_pos hname] at hunlink
        cases hunlink
        exact ⟨.refl _, List.find?_cons_of_pos (beq_iff_eq.mpr hname)⟩
      · rw [if_neg hname] at hunlink
        obtain ⟨u', hu', rfl⟩ := Option.map_eq_some_iff.mp hunlink
        obtain ⟨hperm, hfind⟩ := ih hu'
        refine ⟨(hperm.cons tmp).trans (.swap _ _ _), ?_⟩
        rw [List.find?_cons_of_neg (by simpa [isNamed] using hname)]
        exact hfind

theorem unlink_none {drvName : List UInt8} {prevDrv : Driver}
    {rest : List Driver} (hunlink : unlink drvName prevDrv rest = none) :
    rest.find? (isNamed drvName) = none := by
  induction rest generalizing prevDrv with
  | nil => rfl
  | cons tmp rest ih =>
      rw [unlink] at hunlink
      by_cases hname : strcmp tmp.drvName drvName = 0
      · rw [if_pos hname] at hunlink
        cases hunlink
      · rw [if_neg hname, Option.map_eq_none_iff] at hunlink
        rw [List.find?_cons_of_neg (by simpa [isNamed] using hname)]
        exact ih hunlink

/-! ## One step -/

variable {root : RootRoutine κ π} {p : PartState}

theorem register_kept {k k' : Tracked κ π} {mem : Buffer} {loadAddr : ℕ}
    (hnumbered : Numbered k) (hinstep : InStep k)
    (hstep : callStep root p k (.register mem loadAddr) k') :
    Numbered k' ∧ InStep k' := by
  obtain ⟨⟨code, fs⟩, hcall, hrest⟩ := bind_eq_ok_iff.mp hstep
  cases hrest
  rcases registerModule_ok hcall with rfl | ⟨d, hserial, rfl⟩
  · exact ⟨hnumbered, hinstep⟩
  · refine ⟨⟨?_, ?_⟩, ?_⟩
    · have hfresh : ∀ d' ∈ k.fs.drvList, d'.serial ≠ k.fs.registered :=
        fun d' hd' => Nat.ne_of_lt (hnumbered.lt d' hd')
      simp only [List.map_append, List.map_cons, List.map_nil, hserial]
      refine hnumbered.nodup.append (List.nodup_singleton _) ?_
      simpa using hfresh
    · intro d' hd'
      rcases List.mem_append.mp hd' with hold | hnew
      · exact Nat.lt_succ_of_lt (hnumbered.lt d' hold)
      · rw [List.mem_singleton.mp hnew, hserial]
        exact Nat.lt_succ_self _
    · rcases hinstep with hnull | ⟨d', hd', hactive, hsymbols⟩
      · exact Or.inl hnull
      · exact Or.inr ⟨d', List.mem_append_left _ hd', hactive, hsymbols⟩

theorem root_kept {k k' : Tracked κ π} {n : ℤ} (hnumbered : Numbered k)
    (hinstep : InStep k) (hstep : callStep root p k (.root n) k') :
    Numbered k' ∧ InStep k' := by
  obtain ⟨⟨code, fs⟩, hcall, hrest⟩ := bind_eq_ok_iff.mp hstep
  cases hrest
  rcases fsRoot_ok hcall with ⟨rfl, rfl⟩ |
    ⟨rfl, d, hd, hchosen, hsymbols, hlist, hcount⟩
  · exact ⟨hnumbered, hinstep⟩
  · refine ⟨⟨hlist ▸ hnumbered.nodup, ?_⟩, Or.inr ⟨d, hlist ▸ hd, ?_, hsymbols⟩⟩
    · simp only [hlist, hcount]
      exact hnumbered.lt
    · simp only [if_true, hchosen, Option.map_some]

theorem inStep_of_removed {k k' : Tracked κ π} {tmp : Driver}
    (hinstep : InStep k) (hperm : k.fs.drvList.Perm (tmp :: k'.fs.drvList))
    (hsame : k'.active = k.active)
    (hother : ∀ d ∈ k'.fs.drvList, d.serial ≠ tmp.serial) :
    InStep k' ∧ (k.active ≠ some tmp.serial →
        k'.fs.symbols = k.fs.symbols) ↔
      k'.fs.symbols =
        if k.active = some tmp.serial then Symbols.null else k.fs.symbols := by
  by_cases hactive : k.active = some tmp.serial
  · rw [if_pos hactive]
    constructor
    · rintro ⟨hnull | ⟨d, hd, hthis, _⟩, _⟩
      · exact hnull
      · rw [hsame, hactive, Option.some.injEq] at hthis
        exact absurd hthis.symm (hother d hd)
    · exact fun hnull => ⟨Or.inl hnull, fun hne => absurd hactive hne⟩
  · rw [if_neg hactive]
    constructor
    · exact fun h => h.2 hactive
    · intro hkept
      refine ⟨?_, fun _ => hkept⟩
      rcases hinstep with hnull | ⟨d, hd, hthis, hsymbols⟩
      · exact Or.inl (hkept.trans hnull)
      · have hne : d ≠ tmp := fun h => hactive (h ▸ hthis)
        refine Or.inr ⟨d, ?_, hsame.trans hthis, hkept.trans hsymbols⟩
        exact (List.mem_cons.mp (hperm.mem_iff.mp hd)).resolve_left hne

/-- The call finds no driver with the name, or takes the first one off the
list; the condition is about the pointers that it leaves then. -/
theorem unregister_spec {k k' : Tracked κ π} {drvName : List UInt8}
    (hstep : callStep root p k (.unregister drvName) k') :
    k' = k ∧ unregistered k (.unregister drvName) = none ∧
        LeavesFit k (.unregister drvName) ∨
      ∃ tmp, unregistered k (.unregister drvName) = some tmp ∧
        k.fs.drvList.Perm (tmp :: k'.fs.drvList) ∧ k'.active = k.active ∧
        k'.fs.registered = k.fs.registered ∧
        (LeavesFit k (.unregister drvName) ↔ k'.fs.symbols =
          if k.active = some tmp.serial then Symbols.null else k.fs.symbols) := by
  obtain ⟨⟨code, fs⟩, hcall, hrest⟩ := bind_eq_ok_iff.mp hstep
  cases hrest
  unfold unregisterModule at hcall
  unfold unregistered LeavesFit
  cases hlist : k.fs.drvList with
  | nil => simp [hlist] at hcall
  | cons head rest =>
      simp only [hlist] at hcall
      by_cases hname : strcmp head.drvName drvName = 0
      · have hnamed : isNamed drvName head = true := beq_iff_eq.mpr hname
        rw [if_pos hname] at hcall
        cases hcall
        refine Or.inr ⟨head, List.find?_cons_of_pos hnamed, .refl _, rfl, rfl, ?_⟩
        simp only [hnamed, if_true]
        by_cases hactive : k.active = some head.serial
        · simp only [hactive, if_true, ne_eq, not_true_eq_false, or_false]
        · simp only [hactive, if_false, ne_eq, not_false_eq_true, or_true]
      · have hnamed : isNamed drvName head = false := by
          simpa [isNamed] using hname
        rw [if_neg hname] at hcall
        simp only [List.find?_cons, hnamed, Bool.false_eq_true, if_false]
        cases hunlink : unlink drvName head rest with
        | none =>
            simp only [hunlink, Except.ok.injEq, Prod.mk.injEq] at hcall
            obtain ⟨_, rfl⟩ := hcall
            exact Or.inl ⟨rfl, unlink_none hunlink, trivial⟩
        | some u =>
            simp only [hunlink, Except.ok.injEq, Prod.mk.injEq] at hcall
            obtain ⟨_, rfl⟩ := hcall
            obtain ⟨hperm, hfind⟩ := unlink_spec hunlink
            refine Or.inr ⟨u.tmp, hfind, ?_, trivial, rfl, Iff.rfl⟩
            exact (hperm.cons head).trans (.swap _ _ _)

theorem unregister_kept_iff {k k' : Tracked κ π} {drvName : List UInt8}
    (hnumbered : Numbered k) (hinstep : InStep k)
    (hstep : callStep root p k (.unregister drvName) k') :
    Numbered k' ∧ (PointersKept ⟨k, .unregister drvName, k'⟩ ↔
      LeavesFit k (.unregister drvName)) := by
  rcases unregister_spec hstep with ⟨rfl, hnone, hfit⟩ |
    ⟨tmp, htmp, hperm, hactive, hcount, hfit⟩
  · refine ⟨hnumbered, iff_of_true ⟨hinstep, fun d hd => ?_⟩ hfit⟩
    rw [hnone] at hd
    cases hd
  · obtain ⟨hafter, hother⟩ := hnumbered.of_perm hperm hcount
    refine ⟨hafter, ?_⟩
    rw [hfit, PointersKept]
    simp only [htmp, Option.some.injEq, forall_eq']
    exact inStep_of_removed hinstep hperm hactive hother

/-- What every call of a sound session starts from. -/
def Sound (k : Tracked κ π) : Prop := Numbered k ∧ InStep k

theorem step_kept_iff {t : Transition (Tracked κ π) Call}
    (hbefore : Sound t.before)
    (hstep : callStep root p t.before t.label t.after) :
    Numbered t.after ∧ (PointersKept t ↔ LeavesFit t.before t.label) := by
  obtain ⟨k, call, k'⟩ := t
  obtain ⟨hnumbered, hinstep⟩ := hbefore
  cases call with
  | register mem loadAddr =>
      obtain ⟨hnumbered', hinstep'⟩ := register_kept hnumbered hinstep hstep
      refine ⟨hnumbered', iff_of_true ⟨hinstep', fun d hd => ?_⟩ trivial⟩
      cases hd
  | unregister drvName => exact unregister_kept_iff hnumbered hinstep hstep
  | root n =>
      obtain ⟨hnumbered', hinstep'⟩ := root_kept hnumbered hinstep hstep
      refine ⟨hnumbered', iff_of_true ⟨hinstep', fun d hd => ?_⟩ trivial⟩
      cases hd

/-- The pointers are kept through a session exactly when each call of
`unregister_module` leaves pointers that fit. -/
theorem pointersKept_iff {ext2 : Symbols} {nothing : π} {world : κ}
    {calls : List (Transition (Tracked κ π) Call)}
    (hpath : StepPath (callStep root p) (started ext2 nothing world) calls) :
    (∀ t ∈ calls, PointersKept t) ↔ ∀ t ∈ calls, LeavesFit t.before t.label := by
  have hstart : Sound (started ext2 nothing world) :=
    ⟨started_numbered ext2 nothing world, Or.inl rfl⟩
  have hkept : ∀ t, Sound t.before → callStep root p t.before t.label t.after →
      PointersKept t → Sound t.after :=
    fun t hbefore hstep hholds => ⟨(step_kept_iff hbefore hstep).1, hholds.1⟩
  exact hpath.forall_iff hstart
    (fun t hbefore hstep => (step_kept_iff hbefore hstep).2) hkept

/-! ## The mounted driver is unregistered -/

/-- One record, of an ext2 partition. -/
def linuxPartition : PartState where
  partIn := 2
  records := [fillNode 1 ⟨0x83, 63, 4096⟩ 0 fun _ => 0]
  partTemp := fun _ => 0
  fresh := fun _ _ => 0
  currentLba := 63
  bslist := ⟨fun _ => ⟨0, 0, 0⟩, 0⟩
  temp := ⟨fun _ => ⟨0, 0, 0⟩, 0⟩
  saved := []
  booted := []

def ext2Started : Tracked Unit ℕ := started ⟨1, 2, 3⟩ 0 ()

def ext2Mounted : Tracked Unit ℕ where
  fs := { ext2Started.fs with symbols := ⟨1, 2, 3⟩, fsProp := 7 }
  active := some 0

def ext2Gone : Tracked Unit ℕ :=
  { ext2Mounted with fs := { ext2Mounted.fs with drvList := [] } }

def listingSeven : RootRoutine Unit ℕ := fun _ world => .ok (7, world)

/-- `root p1` and `rmdrv ext2`. -/
def removal : List (Transition (Tracked Unit ℕ) Call) :=
  [⟨ext2Started, .root 1, ext2Mounted⟩,
    ⟨ext2Mounted, .unregister (ascii "ext2"), ext2Gone⟩]

theorem removal_path :
    StepPath (callStep listingSeven linuxPartition) (started ⟨1, 2, 3⟩ 0 ())
      removal := by
  refine ⟨rfl, ?_, rfl, ?_, trivial⟩
  · rfl
  · rfl

/-- The pointers still lead into the driver that was unregistered. -/
theorem unregistered_driver_installed :
    StepPath (callStep listingSeven linuxPartition) (started ⟨1, 2, 3⟩ 0 ())
        removal ∧
      ¬∀ t ∈ removal, PointersKept t := by
  refine ⟨removal_path, fun hkept => ?_⟩
  obtain ⟨hnull | ⟨d, hd, _⟩, _⟩ := hkept
    ⟨ext2Mounted, .unregister (ascii "ext2"), ext2Gone⟩
    (List.mem_cons_of_mem _ List.mem_cons_self)
  · revert hnull
    decide
  · cases hd

theorem pointersKept_iff_removal :
    (∀ t ∈ removal, PointersKept t) ↔
      ∀ t ∈ removal, LeavesFit t.before t.label :=
  pointersKept_iff removal_path

end Fs
end Janus86
