import Janus86.CdFailure
import Janus86.ChunkStores
import Janus86.FsDrives
import Janus86.FsRegistry

/-!
# The current directory and the listing

The current directory is kept twice: as a number by the driver, and as a list in
`fs_prop`.  `root` sets both.  `cd` sets `fs_prop` to what the driver returns,
which is the list of the directory it is in, unless it is a code or `NULL`; and
`more` asks the driver for `.` without looking at where that leads.  `more` and
`load` store what they read at any address they are given.
-/

namespace Janus86
namespace Fs

open Janus86.Partition StepMachine ChunkStores

/-! ## Sessions of commands -/

inductive Command where
  | root (argc : ℕ) (argv : ℕ → List UInt8)
  | cd (argc : ℕ) (argv : ℕ → List UInt8)
  | more (scratch : LoadScratch) (argv : ℕ → List UInt8)
  | load (scratch : LoadScratch) (argv : ℕ → List UInt8)

def runCommand (k : Kernel) (atoi : List UInt8 → ℕ) (p : PartState)
    (m : Machine) : Command → Except Fault Machine
  | .root argc argv => cmdRoot k atoi p argc argv m
  | .cd argc argv => cmdCd k argc argv m
  | .more scratch argv => cmdMore k scratch argv m
  | .load scratch argv => cmdLoad k scratch atoi argv m

/-! ## What is stored -/

/-- The drivers store a file in units of this size. -/
def Kernel.unit (k : Kernel) (m : Machine) : ℕ :=
  if k.mounted m = some .ext2 then 4096 else 512

/-- The addresses that a call of `fs_loadfile` stores to. -/
def fileAddresses (k : Kernel) (scratch : LoadScratch) (name : List UInt8)
    (loadMem : ℕ) (m : Machine) : Set ℕ :=
  { a | ∃ load, fileStored k scratch name loadMem m = .ok load ∧
      ∃ s ∈ wrapped (chunkStores (k.unit m) load.reply load.chunks), s.1 = a }

def sectorAddresses (loadMem : ℕ) : Set ℕ :=
  { a | ∃ o < 512, (loadMem + o) % 2 ^ 32 = a }

/-- `load p` stores a boot sector, `load -s` a sector and `load -f` a file. -/
def storedAt (k : Kernel) (atoi : List UInt8 → ℕ) (m : Machine) : Command → Set ℕ
  | .more scratch argv => fileAddresses k scratch (argv 1) 0 m
  | .load scratch argv =>
      let text := cString (argv 1) ++ cString (argv 2)
      if (cString (argv 1)).head? = some 112 then sectorAddresses 0x7C00
      else if (cString (argv 1)).head? = some 45 then
        if (text.drop 1).head? = some 115 then sectorAddresses (atoi (argv 3))
        else if (text.drop 1).head? = some 102 then
          fileAddresses k scratch (text.drop 2) (atoi (argv 3)) m
        else ∅
      else ∅
  | _ => ∅

/-- Nothing is stored at an address in use. -/
def StoresApart (used : Set ℕ) (k : Kernel) (atoi : List UInt8 → ℕ) (m : Machine)
    (command : Command) : Prop :=
  ∀ a ∈ storedAt k atoi m command, a ∉ used

/-- A command that comes back; one that has stored into what the kernel and the drivers
use may have left anything. -/
def commandStep (used : Set ℕ) (k : Kernel) (atoi : List UInt8 → ℕ) (p : PartState)
    (m : Machine) (command : Command) (m' : Machine) : Prop :=
  StoresApart used k atoi m command → runCommand k atoi p m command = .ok m'

/-! ## What should hold, and when it is kept -/

/-- While a partition is mounted, `fs_prop` is the listing of the directory in
which its driver will look up the next name. -/
def ListsCurrent (k : Kernel) (m : Machine) : Prop :=
  ∀ kind, k.mounted m = some kind →
    ∃ listing, m.fsProp = .list listing ∧ listing.kind = kind ∧
      listing.place = m.world.place kind

/-- In the tree below the partition the name `.` is that of the directory itself, if it
is the name of a directory. -/
def DotStays (k : Kernel) (m : Machine) : Prop :=
  ∃ t d, InDirectory k .ext2 t d m ∧ ∀ d', t.Sub d [46] d' → d' = d

/-- In the tree below the partition the components in front of one that is missing, or no
directory, lead back to the directory itself; with one component there is none. -/
def LeadsBack (k : Kernel) (m : Machine) (path : List UInt8) : Prop :=
  ∀ args, cString path ≠ [46] → splitPath directoryNum (cString path) = some args →
    (components args).length ≤ 1 ∨
      ∃ t d, InDirectory k .vfat t d m ∧ ∀ last, t.StopsAt d (components args) last → last = d

/-- For `cd`: an ext2 path does not have too many components, and a FAT32 path leads back
where it cannot be resolved.  For `more`, when it has loaded a file of an ext2 partition:
`.` is the current directory. -/
def KeepsDirectory (k : Kernel) (m : Machine) : Command → Prop
  | .cd argc argv =>
      argc = 2 →
        match k.mounted m with
        | none => True
        | some .ext2 => splitPath directoryNum (cString (argv 1)) ≠ none
        | some .vfat => LeadsBack k m (argv 1)
  | .more scratch argv =>
      k.mounted m = some .ext2 →
        ∀ reply m₁, fsLoadfile k scratch (argv 1) 0 m = .ok (reply, m₁) →
          shellPanic reply = false → DotStays k m
  | _ => True

/-- Moreover, nothing is stored at an address in use. -/
structure KeepsListing (used : Set ℕ) (k : Kernel) (atoi : List UInt8 → ℕ) (m : Machine)
    (command : Command) : Prop where
  apart : StoresApart used k atoi m command
  directory : KeepsDirectory k m command

/-- The mounted driver is in a directory of a tree that it shows. -/
def InSomeTree (k : Kernel) (m : Machine) : Prop :=
  ∀ kind, k.mounted m = some kind → ∃ t d, InDirectory k kind t d m

variable {k : Kernel}

theorem mounted_congr {m m' : Machine} (hsame : m'.symbols = m.symbols) :
    k.mounted m' = k.mounted m := by
  rw [Kernel.mounted, Kernel.mounted, hsame]

theorem listsCurrent_of_unmounted {m : Machine} (hnone : k.mounted m = none) :
    ListsCurrent k m := by
  intro kind hkind
  exact absurd (hkind.symm.trans hnone) nofun

/-- Whether `fs_prop` still fits, for a command that leaves it and the pointers
as they were. -/
theorem listsCurrent_iff_stays {m m' : Machine} {kind : FsKind}
    (hmounted : k.mounted m = some kind) (hlists : ListsCurrent k m)
    (hsymbols : m'.symbols = m.symbols) (hfsProp : m'.fsProp = m.fsProp) :
    ListsCurrent k m' ↔ m'.world.place kind = m.world.place kind := by
  obtain ⟨listing, hlist, hkind, hplace⟩ := hlists kind hmounted
  have hmounted' : k.mounted m' = some kind :=
    (mounted_congr hsymbols).trans hmounted
  constructor
  · intro hlists'
    obtain ⟨listing', hlist', _, hplace'⟩ := hlists' kind hmounted'
    rw [hfsProp, hlist, Reply.list.injEq] at hlist'
    rw [← hplace', ← hlist', hplace]
  · intro hstays other hother
    obtain rfl := Option.some.inj (hmounted'.symm.trans hother)
    exact ⟨listing, hfsProp.trans hlist, hkind, hplace.trans hstays.symm⟩

theorem listsCurrent_of_list {m : Machine} {kind : FsKind} {listing : Listing}
    (hmounted : k.mounted m = some kind) (hfsProp : m.fsProp = .list listing)
    (hkind : listing.kind = kind) (hplace : listing.place = m.world.place kind) :
    ListsCurrent k m := by
  intro other hother
  obtain rfl := Option.some.inj (hmounted.symm.trans hother)
  exact ⟨listing, hfsProp, hkind, hplace⟩

theorem StaysPut.listsCurrent {m m' : Machine} (hstays : StaysPut m m')
    (hlists : ListsCurrent k m) : ListsCurrent k m' := by
  intro kind hmounted
  have hmounted₀ : k.mounted m = some kind :=
    (mounted_congr hstays.symbols).symm.trans hmounted
  exact (listsCurrent_iff_stays hmounted₀ hlists hstays.symbols
    hstays.fsProp).mpr (hstays.place kind) kind hmounted

/-! ## `root` -/

theorem cmdRoot_lists {atoi : List UInt8 → ℕ} {p : PartState} {argc : ℕ}
    {argv : ℕ → List UInt8} {m m' : Machine} (hlists : ListsCurrent k m)
    (hok : cmdRoot k atoi p argc argv m = .ok m') : ListsCurrent k m' := by
  unfold cmdRoot at hok
  split at hok
  · obtain ⟨⟨code, m₁⟩, hroot, hrest⟩ := bind_eq_ok_iff.mp hok
    cases hrest
    cases hdriver : driverFor m.drvList (partitionNode p
        (toInt32 (atoi ((cString (argv 1)).drop 1))) typeByteOffset) with
    | none =>
        simp only [fsRoot, hdriver] at hroot
        cases hroot
        exact hlists
    | some d =>
        intro kind hmounted
        have hsymbols := Kernel.mounted_eq_some hmounted
        have hinstalled : m'.symbols = d.symbols := by
          simp only [fsRoot, hdriver] at hroot
          obtain ⟨⟨reply, drivers⟩, _, hrest⟩ := bind_eq_ok_iff.mp hroot
          cases hrest
          rfl
        obtain ⟨_, _, listing, hfsProp, hkind, hplace, hworld, _⟩ :=
          fsRoot_of_driver hdriver (hinstalled.symm.trans hsymbols) hroot
        exact ⟨listing, hfsProp, hkind, hplace.trans hworld.symm⟩
  · cases hok
    exact hlists

/-! ## `cd` -/

theorem cmdCd_unmounted {argv : ℕ → List UInt8} {m m' : Machine}
    (hnone : k.mounted m = none) (hok : cmdCd k 2 argv m = .ok m') :
    m'.symbols = m.symbols := by
  unfold cmdCd at hok
  rw [if_pos rfl] at hok
  obtain ⟨⟨reply, m₁⟩, hchdir, hrest⟩ := bind_eq_ok_iff.mp hok
  obtain ⟨rfl, rfl⟩ := fsChdir_unmounted hnone hchdir
  cases hrest
  rfl

theorem cmdCd_ext2_lists_iff {argv : ℕ → List UInt8} {m m' : Machine}
    (hmounted : k.mounted m = some .ext2) (hok : cmdCd k 2 argv m = .ok m') :
    ListsCurrent k m' ↔ splitPath directoryNum (cString (argv 1)) ≠ none := by
  obtain ⟨hsymbols, hcase⟩ := cmdCd_ext2 hmounted hok
  have hmounted' : k.mounted m' = some .ext2 :=
    (mounted_congr hsymbols).trans hmounted
  rcases hcase with ⟨hsplit, hfsProp, _⟩ |
    ⟨args, c, listing, hsplit, _, hfsProp, hlisted, _⟩
  · refine iff_of_false (fun hlists => ?_) (not_not_intro hsplit)
    obtain ⟨listing, hlist, _⟩ := hlists .ext2 hmounted'
    rw [hfsProp] at hlist
    cases hlist
  · refine iff_of_true ?_ (by rw [hsplit]; exact nofun)
    exact listsCurrent_of_list hmounted' hfsProp hlisted.kind hlisted.place

theorem LeadsBack.place {path : List UInt8} {m : Machine} (hback : LeadsBack k m path)
    {args : List (List UInt8)} {c : Cursor Fat32.Globals Fat32.Stack}
    (hdot : cString path ≠ [46])
    (hsplit : splitPath directoryNum (cString path) = some args)
    (hstops : Stops (walkPath (Fat32.reader k.disk) args m.world.vfat) c) :
    c.state.place = m.world.vfat.place := by
  rcases hback args hdot hsplit with hone | ⟨t, d, hin, hleads⟩
  · exact place_of_stops hone hstops
  · obtain ⟨last, hstop, hat⟩ :=
      FileTree.Listed.stopsAt hin.lists hin.mem_dirs hin.place_eq hstops
    rw [hat.place, hleads last hstop]
    exact hin.place_eq.symm

theorem cmdCd_vfat_lists {argv : ℕ → List UInt8} {m m' : Machine}
    (hmounted : k.mounted m = some .vfat) (hlists : ListsCurrent k m)
    (hok : cmdCd k 2 argv m = .ok m') (hback : LeadsBack k m (argv 1)) :
    ListsCurrent k m' := by
  obtain ⟨hsymbols, hcase⟩ := cmdCd_vfat hmounted hok
  have hmounted' : k.mounted m' = some .vfat :=
    (mounted_congr hsymbols).trans hmounted
  rcases hcase with ⟨_, hfsProp, hplace⟩ | ⟨_, ⟨listing, hfsProp, hlisted⟩, _⟩ |
    ⟨args, c, hsplit, hdot, hplace, ⟨_, listing, hfsProp, hlisted⟩ | ⟨hstops, hfsProp⟩⟩
  · exact (listsCurrent_iff_stays hmounted hlists hsymbols hfsProp).mpr hplace
  · exact listsCurrent_of_list hmounted' hfsProp hlisted.kind hlisted.place
  · exact listsCurrent_of_list hmounted' hfsProp hlisted.kind hlisted.place
  · exact (listsCurrent_iff_stays hmounted hlists hsymbols hfsProp).mpr
      (hplace.trans (hback.place hdot hsplit hstops))

/-- In a tree there is no other way. -/
theorem InDirectory.leadsBack {argv : ℕ → List UInt8} {m m' : Machine} {t : FileTree}
    {d : ℕ} (hin : InDirectory k .vfat t d m) (hlists : ListsCurrent k m)
    (hok : cmdCd k 2 argv m = .ok m') (hlists' : ListsCurrent k m') :
    LeadsBack k m (argv 1) := by
  intro args hdot hsplit
  refine Or.inr ⟨t, d, hin, fun last hstop => ?_⟩
  have hstopped := hin.cmdCd_stops hok
    (show PathStops t d .vfat (argv 1) last from ⟨fun h => hdot h.2, args, hsplit, hstop⟩)
  have hstays := (listsCurrent_iff_stays hin.mounted hlists
    (cmdCd_vfat hin.mounted hok).1 (hstopped.kept rfl)).mp hlists'
  exact (congrArg Place.dir (hstopped.place.symm.trans hstays)).trans hin.dir

theorem cmdCd_lists {argc : ℕ} {argv : ℕ → List UInt8} {m m' : Machine}
    (hlists : ListsCurrent k m) (hok : cmdCd k argc argv m = .ok m')
    (hkeeps : KeepsDirectory k m (.cd argc argv)) : ListsCurrent k m' := by
  by_cases hargc : argc = 2
  · subst hargc
    have hkept := hkeeps rfl
    cases hmounted : k.mounted m with
    | none =>
        have hsymbols := cmdCd_unmounted hmounted hok
        exact listsCurrent_of_unmounted ((mounted_congr hsymbols).trans hmounted)
    | some kind =>
        rw [hmounted] at hkept
        cases kind with
        | ext2 => exact (cmdCd_ext2_lists_iff hmounted hok).mpr hkept
        | vfat => exact cmdCd_vfat_lists hmounted hlists hok hkept
  · unfold cmdCd at hok
    rw [if_neg hargc] at hok
    cases hok
    exact hlists

theorem cmdCd_keeps {argc : ℕ} {argv : ℕ → List UInt8} {m m' : Machine}
    (htree : InSomeTree k m) (hlists : ListsCurrent k m)
    (hok : cmdCd k argc argv m = .ok m') (hlists' : ListsCurrent k m') :
    KeepsDirectory k m (.cd argc argv) := by
  rintro rfl
  cases hmounted : k.mounted m with
  | none => trivial
  | some kind =>
      cases kind with
      | ext2 => exact (cmdCd_ext2_lists_iff hmounted hok).mp hlists'
      | vfat =>
          obtain ⟨t, d, hin⟩ := htree .vfat hmounted
          exact hin.leadsBack hlists hok hlists'

/-! ## `more` and `load` -/

theorem cmdLoad_lists {scratch : LoadScratch} {atoi : List UInt8 → ℕ}
    {argv : ℕ → List UInt8} {m m' : Machine} (hlists : ListsCurrent k m)
    (hok : cmdLoad k scratch atoi argv m = .ok m') : ListsCurrent k m' := by
  unfold cmdLoad at hok
  simp only at hok
  split at hok
  · obtain ⟨⟨reply, m₁⟩, hload, hrest⟩ := bind_eq_ok_iff.mp hok
    cases hrest
    exact (fsLoadfile_staysPut hload).listsCurrent hlists
  · cases hok
    exact hlists

/-- In a tree the name `.` leads where its directory is, and nowhere else. -/
theorem InDirectory.dot_place {m m₁ : Machine} {t : FileTree} {d : ℕ}
    (hin : InDirectory k .ext2 t d m)
    (hplace : m₁.world.ext2.place = m.world.ext2.place)
    {c : Cursor Ext2.Globals Ext2.Stack}
    (harrives : Arrives (walkPath (Ext2.reader k.disk) [[46]] m₁.world.ext2) c) :
    c.state.place = m₁.world.ext2.place ↔ ∀ d', t.Sub d [46] d' → d' = d := by
  have hplace₁ := hplace.trans hin.place_eq
  obtain ⟨last, hat, hway⟩ :=
    FileTree.Listed.walkPath hin.lists hin.mem_dirs hplace₁ harrives
  rw [hat.place, hplace₁, Place.mk.injEq]
  simp only [true_and]
  rcases hway with ⟨_, hleads⟩ | ⟨_, hstops⟩
  · cases hleads with
    | sub hsub hrest =>
        cases hrest
        exact ⟨fun hsame d' hsub' => (hsub'.unique hsub).trans hsame, fun h => h _ hsub⟩
  · cases hstops with
    | here hmissing => exact iff_of_true rfl fun d' hsub => absurd hsub (hmissing d')
    | sub _ hrest => cases hrest

/-- A `more` on an ext2 partition that has loaded its file asks for `.`. -/
theorem cmdMore_dot {scratch : LoadScratch} {argv : ℕ → List UInt8} {m m' m₁ : Machine}
    {reply : ℕ} (hmounted : k.mounted m = some .ext2)
    (hok : cmdMore k scratch argv m = .ok m')
    (hload : fsLoadfile k scratch (argv 1) 0 m = .ok (reply, m₁))
    (hpanics : shellPanic reply = false) :
    m'.symbols = m₁.symbols ∧ m'.fsProp = m₁.fsProp ∧
      ∃ c, Arrives (walkPath (Ext2.reader k.disk) [[46]] m₁.world.ext2) c ∧
        m'.world.ext2.place = c.state.place := by
  unfold cmdMore at hok
  rw [hload, ok_bind] at hok
  simp only [hpanics, Bool.false_eq_true, if_false] at hok
  obtain ⟨⟨reply', m₂⟩, hdot, hlast⟩ := bind_eq_ok_iff.mp hok
  cases hlast
  exact fsChdir_dot_ext2
    ((mounted_congr (fsLoadfile_staysPut hload).symbols).trans hmounted) hdot

/-- Any other `more` leaves the listing and the directory. -/
theorem cmdMore_stays {scratch : LoadScratch} {argv : ℕ → List UInt8} {m m' m₁ : Machine}
    {reply : ℕ} (hlists : ListsCurrent k m) (hok : cmdMore k scratch argv m = .ok m')
    (hload : fsLoadfile k scratch (argv 1) 0 m = .ok (reply, m₁))
    (hother : k.mounted m = some .ext2 → shellPanic reply = true) :
    ListsCurrent k m' := by
  have hstays := fsLoadfile_staysPut hload
  have hlists₁ : ListsCurrent k m₁ := hstays.listsCurrent hlists
  have hmounted₁ : k.mounted m₁ = k.mounted m := mounted_congr hstays.symbols
  unfold cmdMore at hok
  rw [hload, ok_bind] at hok
  cases hpanics : shellPanic reply with
  | true =>
      simp only [hpanics, if_true] at hok
      cases hok
      exact hlists₁
  | false =>
      simp only [hpanics, Bool.false_eq_true, if_false] at hok
      obtain ⟨⟨reply', m₂⟩, hdot, hlast⟩ := bind_eq_ok_iff.mp hok
      cases hlast
      cases hmounted : k.mounted m with
      | none =>
          obtain ⟨_, rfl⟩ := fsChdir_unmounted (hmounted₁.trans hmounted) hdot
          exact hlists₁
      | some kind =>
          cases kind with
          | ext2 =>
              rw [hother hmounted] at hpanics
              cases hpanics
          | vfat =>
              exact (fsChdir_dot_vfat (hmounted₁.trans hmounted) hdot).listsCurrent hlists₁

theorem cmdMore_lists {scratch : LoadScratch} {argv : ℕ → List UInt8} {m m' : Machine}
    (hlists : ListsCurrent k m) (hok : cmdMore k scratch argv m = .ok m')
    (hkeeps : KeepsDirectory k m (.more scratch argv)) : ListsCurrent k m' := by
  obtain ⟨⟨reply, m₁⟩, hload, _⟩ := bind_eq_ok_iff.mp hok
  by_cases hasks : k.mounted m = some .ext2 ∧ shellPanic reply = false
  · obtain ⟨hmounted, hpanics⟩ := hasks
    have hstays := fsLoadfile_staysPut hload
    obtain ⟨hsymbols, hfsProp, c, harrives, hplace⟩ := cmdMore_dot hmounted hok hload hpanics
    obtain ⟨t, d, hin, hdot⟩ := hkeeps hmounted reply m₁ hload hpanics
    rw [listsCurrent_iff_stays ((mounted_congr hstays.symbols).trans hmounted)
      (hstays.listsCurrent hlists) hsymbols hfsProp]
    exact hplace.trans ((hin.dot_place (hstays.place .ext2) harrives).mpr hdot)
  · refine cmdMore_stays hlists hok hload fun hmounted => ?_
    simpa [hmounted] using hasks

theorem cmdMore_keeps {scratch : LoadScratch} {argv : ℕ → List UInt8} {m m' : Machine}
    (htree : InSomeTree k m) (hlists : ListsCurrent k m)
    (hok : cmdMore k scratch argv m = .ok m') (hlists' : ListsCurrent k m') :
    KeepsDirectory k m (.more scratch argv) := by
  intro hmounted reply m₁ hload hpanics
  have hstays := fsLoadfile_staysPut hload
  obtain ⟨hsymbols, hfsProp, c, harrives, hplace⟩ := cmdMore_dot hmounted hok hload hpanics
  obtain ⟨t, d, hin⟩ := htree .ext2 hmounted
  rw [listsCurrent_iff_stays ((mounted_congr hstays.symbols).trans hmounted)
    (hstays.listsCurrent hlists) hsymbols hfsProp] at hlists'
  exact ⟨t, d, hin, (hin.dot_place (hstays.place .ext2) harrives).mp
    (hplace.symm.trans hlists')⟩

/-! ## Sessions -/

theorem runCommand_lists {atoi : List UInt8 → ℕ} {p : PartState} {m m' : Machine}
    {command : Command} (hlists : ListsCurrent k m)
    (hok : runCommand k atoi p m command = .ok m')
    (hkeeps : KeepsDirectory k m command) : ListsCurrent k m' := by
  cases command with
  | root argc argv => exact cmdRoot_lists hlists hok
  | cd argc argv => exact cmdCd_lists hlists hok hkeeps
  | more scratch argv => exact cmdMore_lists hlists hok hkeeps
  | load scratch argv => exact cmdLoad_lists hlists hok

theorem runCommand_keeps {atoi : List UInt8 → ℕ} {p : PartState} {m m' : Machine}
    {command : Command} (htree : InSomeTree k m) (hlists : ListsCurrent k m)
    (hok : runCommand k atoi p m command = .ok m') (hlists' : ListsCurrent k m') :
    KeepsDirectory k m command := by
  cases command with
  | root argc argv => trivial
  | cd argc argv => exact cmdCd_keeps htree hlists hok hlists'
  | more scratch argv => exact cmdMore_keeps htree hlists hok hlists'
  | load scratch argv => trivial

theorem listsCurrent_of_null {m : Machine} (hnull : m.symbols = Symbols.null) :
    ListsCurrent k m := by
  intro kind hmounted
  have hchdir := k.symbols_chdir_ne kind
  rw [← Kernel.mounted_eq_some hmounted, hnull] at hchdir
  exact absurd rfl hchdir

theorem keepsListing_of_lists {used : Set ℕ} {atoi : List UInt8 → ℕ} {p : PartState}
    {m₀ : Machine} {commands : List (Transition Machine Command)}
    (hfirst : ListsCurrent k m₀)
    (hpath : StepPath (commandStep used k atoi p) m₀ commands)
    (htrees : ∀ t ∈ commands,
      StoresApart used k atoi t.before t.label ∧ InSomeTree k t.before)
    (hall : ∀ t ∈ commands, ListsCurrent k t.after) :
    ∀ t ∈ commands, KeepsListing used k atoi t.before t.label := by
  induction commands generalizing m₀ with
  | nil => simp
  | cons t ts ih =>
      obtain ⟨rfl, hstep, hrest⟩ := hpath
      obtain ⟨⟨hapart, htree⟩, hmore⟩ := List.forall_mem_cons.mp htrees
      obtain ⟨hlists, hothers⟩ := List.forall_mem_cons.mp hall
      rw [List.forall_mem_cons]
      exact ⟨⟨hapart, runCommand_keeps htree hfirst (hstep hapart) hlists⟩,
        ih hlists hrest hmore hothers⟩

/-- In a session that starts with nothing mounted, `fs_prop` always lists the
current directory when each command keeps it so.  On partitions that are trees of
directories, and with nothing stored at an address in use, there is no other way. -/
theorem session_lists_iff {used : Set ℕ} {atoi : List UInt8 → ℕ} {p : PartState}
    {m₀ : Machine} {commands : List (Transition Machine Command)}
    (hstart : m₀.symbols = Symbols.null)
    (hpath : StepPath (commandStep used k atoi p) m₀ commands) :
    ((∀ t ∈ commands, KeepsListing used k atoi t.before t.label) →
        ∀ t ∈ commands, ListsCurrent k t.after) ∧
      ((∀ t ∈ commands, StoresApart used k atoi t.before t.label ∧ InSomeTree k t.before) →
        (∀ t ∈ commands, ListsCurrent k t.after) →
          ∀ t ∈ commands, KeepsListing used k atoi t.before t.label) := by
  have hfirst := listsCurrent_of_null (k := k) hstart
  constructor
  · exact hpath.forall_after hfirst fun m command m' hlists hstep hkeeps =>
      runCommand_lists hlists (hstep hkeeps.apart) hkeeps.directory
  · exact keepsListing_of_lists hfirst hpath

/-! ## A session -/

/-- One FAT32 partition, at the start of the disk. -/
def treePartition : PartState :=
  { linuxPartition with records := [fillNode 1 ⟨0x0C, 0, 4096⟩ 0 fun _ => 0] }

/-- The vfat driver is registered and nothing is mounted. -/
def treeStarted : Machine :=
  { treeMachine with
    drvList := [⟨1, 0x0C, 0x20000, ascii "vfat", ⟨4, 5, 6⟩⟩]
    symbols := Symbols.null }

/-- `root p1` -/
def rootPath : ℕ → List UInt8 := fun _ => [112, 49]

def one : List UInt8 → ℕ := fun _ => 1

def listedDir : Reply → ℕ
  | .code _ => 0
  | .list listing => listing.place.dir

/-- The pages of the kernel and of the module. -/
def kernelArea : Set ℕ := { a | a < 0x40000 }

/-- `root p1` and `cd A/B`, with what the driver and the shell hold then. -/
theorem tree_session :
    ∃ m₁ m₂, StepPath (commandStep kernelArea treeKernel one treePartition) treeStarted
        [⟨treeStarted, .root 2 rootPath, m₁⟩, ⟨m₁, .cd 2 treePath, m₂⟩] ∧
      m₂.symbols = treeKernel.symbols .vfat ∧ listedDir m₂.fsProp = 2 ∧
      (m₂.world.place .vfat).dir = 3 := by
  have hany : (cmdRoot treeKernel one treePartition 2 rootPath treeStarted >>=
        fun m => cmdCd treeKernel 2 treePath m).toOption.any
      (fun m => decide ((m.symbols, listedDir m.fsProp, (m.world.place .vfat).dir) =
        (⟨4, 5, 6⟩, 2, 3))) = true := by
    decide +kernel
  obtain ⟨m₂, hrun, hlast⟩ := exists_ok_of_any hany
  obtain ⟨m₁, hroot, hcd⟩ := bind_eq_ok_iff.mp hrun
  have hlast' := of_decide_eq_true hlast
  simp only [Prod.mk.injEq] at hlast'
  exact ⟨m₁, m₂, ⟨rfl, fun _ => hroot, rfl, fun _ => hcd, trivial⟩, hlast'⟩

/-- `ls` prints the root directory while names are looked up in `A`. -/
theorem listing_left_behind :
    ∃ commands,
      StepPath (commandStep kernelArea treeKernel one treePartition) treeStarted commands ∧
        ¬∀ t ∈ commands, ListsCurrent treeKernel t.after := by
  obtain ⟨m₁, m₂, hpath, hsymbols, hlisted, hdir⟩ := tree_session
  refine ⟨_, hpath, fun hlists => ?_⟩
  obtain ⟨listing, hfsProp, _, hplace⟩ := hlists ⟨m₁, .cd 2 treePath, m₂⟩
    (List.mem_cons_of_mem _ List.mem_cons_self) .vfat
    (Kernel.mounted_of_symbols hsymbols)
  rw [hfsProp, listedDir, hplace, hdir] at hlisted
  cases hlisted

theorem session_lists_iff_tree :
    ∃ commands : List (Transition Machine Command), commands.length = 2 ∧
      ((∀ t ∈ commands, KeepsListing kernelArea treeKernel one t.before t.label) →
          ∀ t ∈ commands, ListsCurrent treeKernel t.after) ∧
        ((∀ t ∈ commands, StoresApart kernelArea treeKernel one t.before t.label ∧
            InSomeTree treeKernel t.before) →
          (∀ t ∈ commands, ListsCurrent treeKernel t.after) →
            ∀ t ∈ commands, KeepsListing kernelArea treeKernel one t.before t.label) := by
  obtain ⟨m₁, m₂, hpath, _⟩ := tree_session
  exact ⟨_, rfl, session_lists_iff rfl hpath⟩

end Fs
end Janus86
