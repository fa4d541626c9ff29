import Janus86.CommandSpecs
import Janus86.PathResolution

/-!
# Paths that cannot be resolved

`cd` should do nothing when it cannot resolve its path.  But each component that
can be entered has become the current directory by the time the next one is
looked up, and nothing takes this back.  The FAT driver returns a code then, so
that `fs_prop` stays; the ext2 driver returns the list of the directory it has
come to, and `NULL` for a path with too many components.
-/

namespace Janus86
namespace Fs

variable {k : Kernel}

/-! ## A directory of a tree -/

def Kernel.Lists (k : Kernel) (t : FileTree) (drive lba : ℕ) : FsKind → Prop
  | .ext2 => t.Listed (Ext2.reader k.disk) drive lba
  | .vfat => t.Listed (Fat32.reader k.disk) drive lba

/-- The driver of this kind is mounted, in the directory `d` of the tree. -/
structure InDirectory (k : Kernel) (kind : FsKind) (t : FileTree) (d : ℕ) (m : Machine) :
    Prop where
  mounted : k.mounted m = some kind
  lists : k.Lists t (m.world.place kind).drive (m.world.place kind).lba kind
  dir : (m.world.place kind).dir = d
  mem_dirs : d ∈ t.dirs

/-- The components of the path in front of one that is missing, or no directory, lead
from `d` to `last`.  For `chdir_fat32` the path `.` is the directory itself. -/
def PathStops (t : FileTree) (d : ℕ) (kind : FsKind) (path : List UInt8) (last : ℕ) : Prop :=
  ¬ (kind = .vfat ∧ cString path = [46]) ∧
    ∃ args, splitPath directoryNum (cString path) = some args ∧
      t.StopsAt d (components args) last

/-- The path has too many components, or one that is missing or no directory. -/
def Unresolved (t : FileTree) (d : ℕ) (kind : FsKind) (path : List UInt8) : Prop :=
  splitPath directoryNum (cString path) = none ∨ ∃ last, PathStops t d kind path last

/-! ## What should happen -/

def filesShown : Reply → Option (List Entry)
  | .code _ => none
  | .list listing => some (shownFiles listing.nodes)

/-- For a path that cannot be resolved, `cd` copies it within its array and
leaves the current directory and the listing as they were. -/
def CdUndone (k : Kernel) (kind : FsKind) (t : FileTree) (d : ℕ) (argv : ℕ → List UInt8)
    (m : Machine) : Prop :=
  Unresolved t d kind (argv 1) →
    (cString (argv 1)).length ≤ pathLen ∧
      ∀ m', cmdCd k 2 argv m = .ok m' →
        m'.world.place kind = m.world.place kind ∧
          filesShown m'.fsProp = filesShown m.fsProp

/-! ## When it does -/

/-- The components in front of the missing one lead back to the directory itself.  For
ext2, moreover, `fs_prop` showed its files, and was `NULL` when there are too many
components. -/
structure CdHarmless (t : FileTree) (d : ℕ) (kind : FsKind) (path : List UInt8)
    (m : Machine) : Prop where
  short : (cString path).length ≤ pathLen
  back : ∀ last, PathStops t d kind path last → last = d
  shown : kind = .ext2 → ∀ last, PathStops t d kind path last →
    filesShown m.fsProp = some (t.entries d)
  null : kind = .ext2 → splitPath directoryNum (cString path) = none →
    filesShown m.fsProp = none

section Cd

variable {kind : FsKind} {t : FileTree} {d : ℕ} {argv : ℕ → List UInt8} {m m' : Machine}

theorem InDirectory.place_eq (hin : InDirectory k kind t d m) :
    m.world.place kind = ⟨(m.world.place kind).drive, (m.world.place kind).lba, d⟩ := by
  rw [← hin.dir]

/-- Where the path stops, the driver is there, and the ext2 driver shows its files. -/
structure CdStopped (kind : FsKind) (t : FileTree) (last : ℕ) (m m' : Machine) : Prop where
  place : m'.world.place kind = { m.world.place kind with dir := last }
  kept : kind = .vfat → m'.fsProp = m.fsProp
  shown : kind = .ext2 → filesShown m'.fsProp = some (t.entries last)

theorem InDirectory.cmdCd_ext2_stops (hin : InDirectory k .ext2 t d m)
    (hok : cmdCd k 2 argv m = .ok m') {last : ℕ}
    (hstops : PathStops t d .ext2 (argv 1) last) : CdStopped .ext2 t last m m' := by
  obtain ⟨_, args, hargs, hstop⟩ := hstops
  rcases (cmdCd_ext2 hin.mounted hok).2 with ⟨hnone, _⟩ |
    ⟨args', c, listing, hsplit, hlast, hfsProp, _, hplace⟩
  · exact absurd (hargs.symm.trans hnone) nofun
  · obtain rfl := Option.some.inj (hargs.symm.trans hsplit)
    obtain ⟨last', hat, ⟨_, hleads⟩ | ⟨_, hstop'⟩⟩ :=
      FileTree.Listed.walkPath hin.lists hin.mem_dirs hin.place_eq hlast.arrives
    · exact absurd hleads hstop.not_leads
    · obtain rfl := hstop.unique hstop'
      refine ⟨hplace.trans hat.place, nofun, fun _ => ?_⟩
      rw [hfsProp, filesShown, FileTree.Listed.lastRead hin.lists hlast hat]

theorem InDirectory.cmdCd_vfat_stops (hin : InDirectory k .vfat t d m)
    (hok : cmdCd k 2 argv m = .ok m') {last : ℕ}
    (hstops : PathStops t d .vfat (argv 1) last) : CdStopped .vfat t last m m' := by
  obtain ⟨hself, args, hargs, hstop⟩ := hstops
  rcases (cmdCd_vfat hin.mounted hok).2 with ⟨hnone, _⟩ | ⟨hdot, _⟩ |
    ⟨args', c, hsplit, _, hplace, hway⟩
  · exact absurd (hargs.symm.trans hnone) nofun
  · exact absurd ⟨rfl, hdot⟩ hself
  · obtain rfl := Option.some.inj (hargs.symm.trans hsplit)
    rcases hway with ⟨hwalk, _⟩ | ⟨hstops, hfsProp⟩
    · obtain ⟨_, _, ⟨_, hleads⟩ | ⟨hstops, _⟩⟩ := FileTree.Listed.walkPath hin.lists
        hin.mem_dirs hin.place_eq (Or.inl hwalk)
      · exact absurd hleads hstop.not_leads
      · exact absurd hwalk hstops.ne_ok
    · obtain ⟨last', hstop', hat⟩ :=
        FileTree.Listed.stopsAt hin.lists hin.mem_dirs hin.place_eq hstops
      obtain rfl := hstop.unique hstop'
      exact ⟨hplace.trans hat.place, fun _ => hfsProp, nofun⟩

theorem InDirectory.cmdCd_stops (hin : InDirectory k kind t d m)
    (hok : cmdCd k 2 argv m = .ok m') {last : ℕ}
    (hstops : PathStops t d kind (argv 1) last) : CdStopped kind t last m m' := by
  cases kind with
  | ext2 => exact hin.cmdCd_ext2_stops hok hstops
  | vfat => exact hin.cmdCd_vfat_stops hok hstops

/-- Too many components: only the ext2 driver loses the listing. -/
theorem cmdCd_refused (hmounted : k.mounted m = some kind)
    (hok : cmdCd k 2 argv m = .ok m')
    (hnone : splitPath directoryNum (cString (argv 1)) = none) :
    m'.world.place kind = m.world.place kind ∧
      (kind = .vfat → m'.fsProp = m.fsProp) ∧
      (kind = .ext2 → filesShown m'.fsProp = none) := by
  cases kind with
  | ext2 =>
      rcases (cmdCd_ext2 hmounted hok).2 with ⟨_, hfsProp, hworld⟩ | ⟨_, _, _, hsplit, _⟩
      · rw [hworld, hfsProp]
        exact ⟨rfl, nofun, fun _ => rfl⟩
      · exact absurd (hsplit.symm.trans hnone) nofun
  | vfat =>
      rcases (cmdCd_vfat hmounted hok).2 with ⟨_, hfsProp, hplace⟩ | ⟨hdot, _⟩ |
        ⟨_, _, hsplit, _⟩
      · exact ⟨hplace, fun _ => hfsProp, nofun⟩
      · rw [hdot] at hnone
        exact absurd hnone (by decide)
      · exact absurd (hsplit.symm.trans hnone) nofun

/-- In a directory of a tree, a `cd` that comes back is undone for a path that cannot be
resolved exactly when the path is short enough and what can be resolved of it does no
harm. -/
theorem cdUndone_iff (hin : InDirectory k kind t d m)
    (hback : (cString (argv 1)).length ≤ pathLen →
      ∃ m', cmdCd k 2 argv m = .ok m') :
    CdUndone k kind t d argv m ↔
      (Unresolved t d kind (argv 1) → CdHarmless t d kind (argv 1) m) := by
  constructor
  · intro hundone hunresolved
    obtain ⟨hfits, hsame⟩ := hundone hunresolved
    obtain ⟨m', hok⟩ := hback hfits
    obtain ⟨hplace, hshown⟩ := hsame m' hok
    have hleads : ∀ last, PathStops t d kind (argv 1) last → last = d := by
      intro last hstops
      have hdir := (hin.cmdCd_stops hok hstops).place.symm.trans hplace
      exact (congrArg Place.dir hdir).trans hin.dir
    refine ⟨hfits, hleads, fun hext2 last hstops => ?_, fun hext2 hnone => ?_⟩
    · rw [← hshown, (hin.cmdCd_stops hok hstops).shown hext2, hleads last hstops]
    · rw [← hshown, (cmdCd_refused hin.mounted hok hnone).2.2 hext2]
  · intro hharmless hunresolved
    have hharm := hharmless hunresolved
    refine ⟨hharm.short, fun m' hok => ?_⟩
    rcases hunresolved with hnone | ⟨last, hstops⟩
    · obtain ⟨hplace, hvfat, hext2⟩ := cmdCd_refused hin.mounted hok hnone
      refine ⟨hplace, ?_⟩
      cases kind with
      | ext2 => rw [hext2 rfl, hharm.null rfl hnone]
      | vfat => rw [hvfat rfl]
    · have hstopped := hin.cmdCd_stops hok hstops
      obtain rfl := hharm.back last hstops
      refine ⟨?_, ?_⟩
      · rw [hstopped.place, ← hin.dir]
      · cases kind with
        | ext2 => rw [hstopped.shown rfl, hharm.shown rfl _ hstops]
        | vfat => rw [hstopped.kept rfl]

end Cd

/-! ## A directory and a name that is not in it -/

open Fat32 (smallVolume dirEntry)

/-- The root in cluster 2 lists the directory `A`, which is cluster 3 and
empty. -/
def treeVolume : Volume :=
  smallVolume [0, 0, 0x0FFFFFFF, 0x0FFFFFFF] fun n =>
    if n = 2 then [dirEntry (65 :: List.replicate 10 32) 0x10 3 0] else []

def treeKernel : Kernel := kernelOn treeVolume.disk

/-- The partition is mounted, in its root directory. -/
def treeMachine : Machine where
  drvList := []
  symbols := ⟨4, 5, 6⟩
  fsProp := .code 0
  world :=
    { ext2 := idleExt2
      vfat := ⟨⟨0, 0, 2⟩, ⟨0, 0, 0⟩, List.replicate 8 blank,
        fun _ => Fat32.zeroStack⟩ }
  registered := 0

/-- `cd A/B` -/
def treePath : ℕ → List UInt8 := fun _ => [65, 47, 66]

/-- The root and `A`. -/
def treeOnDisk : Fat32.DiskTree treeKernel.disk 0 0 where
  dirs := {2, 3}
  entries := fun d => if d = 2 then [⟨[65], 3, 0, directory⟩] else []
  blocks := fun _ => 2
  listed := by
    rintro d (rfl | rfl)
    · exact ⟨Fat32.nestedState 2 2, (exists_read (by decide +kernel)).imp
        fun s' hread => hread.imp fun listing hread => ⟨rfl, le_rfl, hread⟩⟩
    · exact ⟨Fat32.nestedState 3 2, (exists_read (by decide +kernel)).imp
        fun s' hread => hread.imp fun listing hread => ⟨rfl, le_rfl, hread⟩⟩
  unique := by
    rintro d (rfl | rfl)
    · exact List.nodup_singleton _
    · exact List.nodup_nil
  booted := ⟨fun _ => rfl, by decide +kernel⟩
  linked := by
    rintro d (rfl | rfl) <;> decide +kernel
  dot := by
    rintro d (rfl | rfl) <;> simp

def treeFiles : FileTree :=
  treeOnDisk.fileTree (by rintro d (rfl | rfl) <;> simp [treeOnDisk])

theorem treeFiles_lists : treeKernel.Lists treeFiles 0 0 .vfat :=
  treeOnDisk.readsAlike.listed _

theorem treeMachine_inDirectory : InDirectory treeKernel .vfat treeFiles 2 treeMachine where
  mounted := rfl
  lists := treeFiles_lists
  dir := rfl
  mem_dirs := by simp [treeFiles, DirTree.fileTree, treeOnDisk]

/-- `A` is entered, and nothing in it has a name. -/
theorem treePath_stops : PathStops treeFiles 2 .vfat (treePath 1) 3 := by
  refine ⟨by decide, [[65], [66]], by decide, .sub ⟨_, rfl, rfl, rfl⟩ (.here ?_)⟩
  rintro d' ⟨e, he, _⟩
  cases he

theorem treePath_back : ∃ m', cmdCd treeKernel 2 treePath treeMachine = .ok m' := by
  have hany : (cmdCd treeKernel 2 treePath treeMachine).toOption.any (fun _ => true) = true := by
    decide +kernel
  exact (exists_ok_of_any hany).imp fun _ h => h.1

/-- `A` could be entered and `B` is not in it: the driver stays in `A`. -/
theorem half_resolved_path : ¬CdUndone treeKernel .vfat treeFiles 2 treePath treeMachine := by
  intro hundone
  obtain ⟨m', hok⟩ := treePath_back
  have hsame := (hundone (Or.inr ⟨3, treePath_stops⟩)).2 m' hok
  have hplace := (treeMachine_inDirectory.cmdCd_stops hok treePath_stops).place
  cases congrArg Place.dir (hplace.symm.trans hsame.1)

theorem cdUndone_iff_treePath :
    CdUndone treeKernel .vfat treeFiles 2 treePath treeMachine ↔
      (Unresolved treeFiles 2 .vfat (treePath 1) →
        CdHarmless treeFiles 2 .vfat (treePath 1) treeMachine) :=
  cdUndone_iff treeMachine_inDirectory fun _ => treePath_back

end Fs
end Janus86
