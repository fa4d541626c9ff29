import Janus86.FsRegistry

/-!
# Which drivers are registered

Seen from outside, `register_module` and `unregister_module` keep a record of the
modules that were accepted, in their order, and of those that were removed again.
The list that the two functions work on, with a case of its own for the head and
a pointer that runs behind in the loop, is what is left of this record.  The loop
of `unregister_module` is not reached when nothing is left: the name of the first
driver is compared before.
-/

namespace Janus86
namespace Fs

open Janus86.Partition
open Shell (strcmp)

variable {κ π : Type}

/-! ## The record -/

inductive RegistryCall where
  | register (mem : Buffer) (loadAddr : ℕ)
  | unregister (drvName : List UInt8)

/-- All the drivers that were accepted, and the numbers of the removed ones. -/
structure Registry where
  accepted : List Driver
  removed : List ℕ

/-- The bytes of an image in the place of `mod_name`, and the one behind it. -/
def moduleName (mem : Buffer) (loadAddr : ℕ) : List UInt8 :=
  (List.range 11).map fun j => mem (loadAddr + 17 + j)

/-- The driver of an image. -/
def moduleDriver (mem : Buffer) (loadAddr serial : ℕ) : Driver where
  serial := serial
  fsTypeByte := mem (loadAddr + 16)
  loadMem := le32 mem (loadAddr + 4)
  drvName := cString (moduleName mem loadAddr)
  symbols := ⟨symVal mem (le32 mem (loadAddr + 12)) 0,
    symVal mem (le32 mem (loadAddr + 12)) 1, symVal mem (le32 mem (loadAddr + 12)) 2⟩

namespace Registry

/-- In the order in which they were registered. -/
def drivers (r : Registry) : List Driver := r.accepted.filter (·.serial ∉ r.removed)

/-- The reply to a call, and the record behind it. -/
def call (r : Registry) : RegistryCall → ℤ × Registry
  | .register mem loadAddr =>
      if le16 mem loadAddr = modSignature then
        (fsModuleRegistered,
          { r with
            accepted := r.accepted ++ [moduleDriver mem loadAddr r.accepted.length] })
      else (fsBadModuleFmt, r)
  | .unregister drvName =>
      match r.drivers.find? (isNamed drvName) with
      | none => (fsModuleNotFound, r)
      | some d => (fsModuleRemoved, { r with removed := d.serial :: r.removed })

/-- The name of an accepted module ends in its place, and there is a driver left
when one is to be removed. -/
def Serves (r : Registry) : RegistryCall → Prop
  | .register mem loadAddr =>
      le16 mem loadAddr = modSignature → 0 ∈ moduleName mem loadAddr
  | .unregister _ => r.drivers ≠ []

/-- All the calls find the record so. -/
def ServesAll (r : Registry) : List RegistryCall → Prop
  | [] => True
  | c :: calls => r.Serves c ∧ (r.call c).2.ServesAll calls

/-- The record behind `init_fs_modules`. -/
def initial (ext2 : Symbols) : Registry := ⟨[⟨0, 0x83, 0, ascii "ext2", ext2⟩], []⟩

end Registry

/-! ## fs.c -/

def registryCall (s : FsState κ π) : RegistryCall → Except Fault (ℤ × FsState κ π)
  | .register mem loadAddr => registerModule mem loadAddr s
  | .unregister drvName => unregisterModule drvName s

/-- Each call replies what the record says and leaves the list that the record has;
a call that has registered and removed nothing leaves everything. -/
def FollowsRegistry (r : Registry) (s : FsState κ π) : List RegistryCall → Prop
  | [] => s.drvList = r.drivers
  | c :: calls =>
      s.drvList = r.drivers ∧
        ∃ code s', registryCall s c = .ok (code, s') ∧ code = (r.call c).1 ∧
          (code = fsBadModuleFmt ∨ code = fsModuleNotFound → s' = s) ∧
          FollowsRegistry (r.call c).2 s' calls

/-! ## The list without a driver -/

theorem unlink_of_find {drvName : List UInt8} {d : Driver} {rest : List Driver}
    (hfind : rest.find? (isNamed drvName) = some d) (prevDrv : Driver) :
    ∃ prev, unlink drvName prevDrv rest =
      some ⟨prev, d, rest.eraseP (isNamed drvName)⟩ := by
  induction rest generalizing prevDrv with
  | nil => cases hfind
  | cons tmp rest ih =>
      rw [unlink]
      by_cases hname : strcmp tmp.drvName drvName = 0
      · have hnamed : isNamed drvName tmp = true := beq_iff_eq.mpr hname
        rw [List.find?_cons_of_pos hnamed] at hfind
        rw [if_pos hname, List.eraseP_cons_of_pos hnamed, Option.some.inj hfind]
        exact ⟨prevDrv, rfl⟩
      · have hnamed : ¬ isNamed drvName tmp = true := by simpa [isNamed] using hname
        rw [List.find?_cons_of_neg hnamed] at hfind
        obtain ⟨prev, hunlink⟩ := ih hfind tmp
        rw [if_neg hname, List.eraseP_cons_of_neg hnamed, hunlink]
        exact ⟨prev, rfl⟩

theorem unregisterModule_of_find {drvName : List UInt8} {s : FsState κ π} {d : Driver}
    (hfind : s.drvList.find? (isNamed drvName) = some d) :
    ∃ symbols, unregisterModule drvName s = .ok (fsModuleRemoved,
      { s with
        drvList := s.drvList.eraseP (isNamed drvName)
        symbols := symbols }) := by
  unfold unregisterModule
  cases hlist : s.drvList with
  | nil =>
      rw [hlist] at hfind
      cases hfind
  | cons head rest =>
      rw [hlist] at hfind
      dsimp only
      by_cases hname : strcmp head.drvName drvName = 0
      · have hnamed : isNamed drvName head = true := beq_iff_eq.mpr hname
        rw [if_pos hname, List.eraseP_cons_of_pos hnamed]
        exact ⟨s.symbols, rfl⟩
      · have hnamed : ¬ isNamed drvName head = true := by simpa [isNamed] using hname
        rw [List.find?_cons_of_neg hnamed] at hfind
        obtain ⟨prev, hunlink⟩ := unlink_of_find hfind head
        rw [if_neg hname, List.eraseP_cons_of_neg hnamed, hunlink]
        exact ⟨prev.symbols, rfl⟩

theorem unregisterModule_of_not_find {drvName : List UInt8} {s : FsState κ π}
    (hne : s.drvList ≠ []) (hfind : s.drvList.find? (isNamed drvName) = none) :
    unregisterModule drvName s = .ok (fsModuleNotFound, s) := by
  obtain ⟨head, rest, hlist⟩ := List.exists_cons_of_ne_nil hne
  rw [hlist, List.find?_eq_none] at hfind
  have hname : ¬ strcmp head.drvName drvName = 0 := by
    simpa [isNamed] using hfind head List.mem_cons_self
  have hunlink : unlink drvName head rest = none := by
    by_contra hsome
    obtain ⟨u, hu⟩ := Option.ne_none_iff_exists'.mp hsome
    have hfound := (unlink_spec hu).2
    exact hfind u.tmp (List.mem_cons_of_mem _ (List.mem_of_find?_eq_some hfound))
      (List.find?_some hfound)
  unfold unregisterModule
  rw [hlist]
  dsimp only
  rw [if_neg hname, hunlink]

/-- Numbers tell the drivers apart, so that the first driver of a name is the one with
its number. -/
theorem eraseP_eq_filter {drvName : List UInt8} {drvList : List Driver} {d : Driver}
    (hnodup : (drvList.map Driver.serial).Nodup)
    (hfind : drvList.find? (isNamed drvName) = some d) :
    drvList.eraseP (isNamed drvName) = drvList.filter (·.serial ≠ d.serial) := by
  induction drvList with
  | nil => rfl
  | cons e drvList ih =>
      rw [List.map_cons, List.nodup_cons] at hnodup
      by_cases hnamed : isNamed drvName e = true
      · rw [List.find?_cons_of_pos hnamed] at hfind
        obtain rfl := Option.some.inj hfind
        rw [List.eraseP_cons_of_pos hnamed, List.filter_cons_of_neg (by simp)]
        refine (List.filter_eq_self.mpr fun e' he' => ?_).symm
        simp only [ne_eq, decide_not, Bool.not_eq_true', decide_eq_false_iff_not]
        exact fun hsame => hnodup.1 (hsame ▸ List.mem_map_of_mem he')
      · rw [List.find?_cons_of_neg hnamed] at hfind
        have hother : e.serial ≠ d.serial := fun hsame =>
          hnodup.1 (hsame ▸ List.mem_map_of_mem (List.mem_of_find?_eq_some hfind))
        rw [List.eraseP_cons_of_neg hnamed, ih hnodup.2 hfind,
          List.filter_cons_of_pos (by simpa using hother)]

/-! ## One call -/

/-- The accepted drivers are numbered from 0 on. -/
structure Registry.Counted (r : Registry) : Prop where
  serials : r.accepted.map Driver.serial = List.range r.accepted.length
  removed_lt : ∀ i ∈ r.removed, i < r.accepted.length

/-- The list is the one of the record. -/
structure Matches (r : Registry) (s : FsState κ π) : Prop extends r.Counted where
  list : s.drvList = r.drivers
  count : s.registered = r.accepted.length

theorem initial_matches (ext2 : Symbols) (nothing : π) (world : κ) :
    Matches (Registry.initial ext2) (initFsModules ext2 nothing world) := by
  constructor
  · constructor
    · rfl
    · simp [Registry.initial]
  · simp [initFsModules, Registry.drivers, Registry.initial]
  · rfl

theorem Registry.Counted.nodup {r : Registry} (h : r.Counted) :
    (r.drivers.map Driver.serial).Nodup := by
  have hall : (r.accepted.map Driver.serial).Nodup := h.serials ▸ List.nodup_range
  exact hall.sublist (List.filter_sublist.map Driver.serial)

theorem Registry.Counted.lt {r : Registry} (h : r.Counted) {d : Driver}
    (hd : d ∈ r.drivers) : d.serial < r.accepted.length := by
  have hmem : d.serial ∈ r.accepted.map Driver.serial :=
    List.mem_map_of_mem (List.mem_of_mem_filter hd)
  rw [h.serials] at hmem
  exact List.mem_range.mp hmem

theorem Registry.Counted.push {r : Registry} (h : r.Counted) {d : Driver}
    (hserial : d.serial = r.accepted.length) :
    Registry.Counted { r with accepted := r.accepted ++ [d] } ∧
      Registry.drivers { r with accepted := r.accepted ++ [d] } = r.drivers ++ [d] := by
  have hfresh : d.serial ∉ r.removed := fun hmem =>
    absurd (h.removed_lt _ hmem) (by omega)
  refine ⟨⟨?_, fun i hi => ?_⟩, ?_⟩
  · rw [List.map_append, h.serials, List.length_append, List.length_singleton,
      List.range_succ, List.map_singleton, hserial]
  · have hlt := h.removed_lt i hi
    rw [List.length_append, List.length_singleton]
    omega
  · unfold Registry.drivers
    rw [List.filter_append, List.filter_cons_of_pos (by simpa using hfresh)]
    rfl

theorem Registry.drivers_remove (r : Registry) (i : ℕ) :
    Registry.drivers { r with removed := i :: r.removed } =
      r.drivers.filter (·.serial ≠ i) := by
  unfold Registry.drivers
  rw [List.filter_filter]
  refine List.filter_congr fun d _ => ?_
  simp

/-- What a call has to do. -/
def CallFollows (r : Registry) (s : FsState κ π) (c : RegistryCall) : Prop :=
  ∃ code s', registryCall s c = .ok (code, s') ∧ code = (r.call c).1 ∧
    (code = fsBadModuleFmt ∨ code = fsModuleNotFound → s' = s) ∧ Matches (r.call c).2 s'

theorem register_follows {r : Registry} {s : FsState κ π} (h : Matches r s)
    {mem : Buffer} {loadAddr : ℕ} (hserves : r.Serves (.register mem loadAddr)) :
    CallFollows r s (.register mem loadAddr) := by
  unfold CallFollows registryCall Registry.call registerModule
  dsimp only
  by_cases hsign : le16 mem loadAddr = modSignature
  · have hname : 0 ∈ (List.range 11).map fun j => mem (loadAddr + 17 + j) :=
      hserves hsign
    rw [if_pos hsign, if_pos hsign, if_pos hname]
    obtain ⟨hcounted, hdrivers⟩ := @Registry.Counted.push r h.toCounted
      (moduleDriver mem loadAddr r.accepted.length) rfl
    refine ⟨_, _, rfl, rfl, fun hcode => ?_, hcounted, ?_, ?_⟩
    · exact absurd hcode (by decide)
    · rw [hdrivers, ← h.list, ← h.count]
      rfl
    · dsimp only
      rw [h.count, List.length_append, List.length_singleton]
  · rw [if_neg hsign, if_neg hsign]
    exact ⟨_, _, rfl, rfl, fun _ => rfl, h⟩

theorem unregister_follows {r : Registry} {s : FsState κ π} (h : Matches r s)
    {drvName : List UInt8} (hserves : r.Serves (.unregister drvName)) :
    CallFollows r s (.unregister drvName) := by
  unfold CallFollows registryCall Registry.call
  dsimp only
  cases hfind : r.drivers.find? (isNamed drvName) with
  | none =>
      rw [← h.list] at hfind
      refine ⟨_, s, unregisterModule_of_not_find ?_ hfind, rfl, fun _ => rfl, h⟩
      rw [h.list]
      exact hserves
  | some d =>
      have hfound : s.drvList.find? (isNamed drvName) = some d := h.list ▸ hfind
      obtain ⟨symbols, hrun⟩ := unregisterModule_of_find hfound
      refine ⟨_, _, hrun, rfl, fun hcode => ?_, ⟨h.serials, fun i hi => ?_⟩, ?_, h.count⟩
      · exact absurd hcode (by decide)
      · rcases List.mem_cons.mp hi with rfl | hi
        · exact h.lt (List.mem_of_find?_eq_some hfind)
        · exact h.removed_lt i hi
      · rw [Registry.drivers_remove]
        dsimp only
        rw [h.list]
        exact eraseP_eq_filter h.nodup hfind

theorem Matches.callFollows {r : Registry} {s : FsState κ π} (h : Matches r s)
    {c : RegistryCall} (hserves : r.Serves c) : CallFollows r s c := by
  cases c with
  | register mem loadAddr => exact register_follows h hserves
  | unregister drvName => exact unregister_follows h hserves

/-- The other calls fault. -/
theorem serves_of_ok {r : Registry} {s s' : FsState κ π} (h : Matches r s)
    {c : RegistryCall} {code : ℤ} (hok : registryCall s c = .ok (code, s')) :
    r.Serves c := by
  cases c with
  | register mem loadAddr =>
      intro hsign
      by_contra hname
      unfold moduleName at hname
      unfold registryCall registerModule at hok
      dsimp only at hok
      rw [if_pos hsign, if_neg hname] at hok
      cases hok
  | unregister drvName =>
      intro hnil
      rw [← h.list] at hnil
      unfold registryCall unregisterModule at hok
      dsimp only at hok
      rw [hnil] at hok
      cases hok

/-! ## All calls -/

theorem Matches.follows_iff {r : Registry} {s : FsState κ π} (h : Matches r s)
    (calls : List RegistryCall) : FollowsRegistry r s calls ↔ r.ServesAll calls := by
  induction calls generalizing r s with
  | nil => exact iff_of_true h.list trivial
  | cons c calls ih =>
      constructor
      · rintro ⟨_, code, s', hrun, rfl, hsame, hrest⟩
        have hserves := serves_of_ok h hrun
        obtain ⟨code, s'', hrun', _, _, hmatches⟩ := h.callFollows hserves
        rw [hrun] at hrun'
        cases hrun'
        exact ⟨hserves, (ih hmatches).mp hrest⟩
      · rintro ⟨hserves, hrest⟩
        obtain ⟨code, s', hrun, hcode, hsame, hmatches⟩ := h.callFollows hserves
        exact ⟨h.list, code, s', hrun, hcode, hsame, (ih hmatches).mpr hrest⟩

/-- From the first driver on, the list is the record of the calls exactly when no driver
is to be removed while there is none, and every accepted name ends in its place. -/
theorem followsRegistry_iff (ext2 : Symbols) (nothing : π) (world : κ)
    (calls : List RegistryCall) :
    FollowsRegistry (Registry.initial ext2) (initFsModules ext2 nothing world) calls ↔
      (Registry.initial ext2).ServesAll calls :=
  (initial_matches ext2 nothing world).follows_iff calls

/-- `rmdrv ext2`, twice. -/
theorem removed_twice_faults :
    ¬ FollowsRegistry (Registry.initial ⟨1, 2, 3⟩) (initFsModules ⟨1, 2, 3⟩ 0 ())
      [.unregister (ascii "ext2"), .unregister (ascii "ext2")] := by
  rintro ⟨_, code, s, hrun, _, _, _, code', s', hrun', _⟩
  have hempty : unregisterModule (ascii "ext2") (initFsModules ⟨1, 2, 3⟩ 0 ()) =
      .ok (fsModuleRemoved, { initFsModules ⟨1, 2, 3⟩ 0 () with drvList := [] }) := rfl
  obtain ⟨rfl, rfl⟩ := Prod.mk.inj (Except.ok.inj (hempty.symm.trans hrun))
  cases hrun'

end Fs
end Janus86
