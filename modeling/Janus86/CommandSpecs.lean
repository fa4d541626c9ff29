import Janus86.DriverSpecs
import Janus86.ShellCommands

/-!
# What the commands do

Each command is described by the directory in which it leaves the mounted driver
and by what it leaves in `fs_prop`.
-/

namespace Janus86
namespace Fs

open Janus86.Partition

variable {k : Kernel}

/-! ## The mounted driver -/

theorem Kernel.mounted_eq_some {m : Machine} {kind : FsKind}
    (hmounted : k.mounted m = some kind) : m.symbols = k.symbols kind := by
  unfold Kernel.mounted at hmounted
  split at hmounted
  · next hext2 =>
      cases hmounted
      exact hext2
  · split at hmounted
    · next hvfat =>
        cases hmounted
        exact hvfat
    · cases hmounted

theorem Kernel.mounted_of_symbols {m : Machine} {kind : FsKind}
    (hsymbols : m.symbols = k.symbols kind) : k.mounted m = some kind := by
  have hne : k.vfat ≠ k.ext2 := fun h => k.root_ne (congrArg Symbols.root h.symm)
  unfold Kernel.mounted
  cases kind with
  | ext2 => exact if_pos hsymbols
  | vfat =>
      have hvfat : m.symbols = k.vfat := hsymbols
      rw [hvfat, if_neg hne, if_pos rfl]

/-! ## `fs_root` -/

/-- What the root routine of a driver does: it lists the directory that it is
told, and the other driver stays where it is. -/
theorem Kernel.rootRoutine_spec {kind : FsKind} {call : RootCall}
    {drivers drivers' : Drivers} {reply : Reply}
    (hsymbol : call.symbol = (k.symbols kind).root)
    (hok : k.rootRoutine call drivers = .ok (reply, drivers')) :
    ∃ listing, reply = .list listing ∧ listing.kind = kind ∧
      listing.place = ⟨call.drive, call.lba, call.start⟩ ∧
      drivers'.place kind = ⟨call.drive, call.lba, call.start⟩ ∧
      ∀ other ≠ kind, drivers'.place other = drivers.place other := by
  unfold Kernel.rootRoutine at hok
  cases kind with
  | ext2 =>
      have hext2 : call.symbol = k.ext2.root := hsymbol
      rw [if_pos hext2] at hok
      obtain ⟨⟨r, s⟩, hroot, hrest⟩ := bind_eq_ok_iff.mp hok
      cases hrest
      obtain ⟨listing, hreply, hlists, hplace⟩ := Ext2.ext2Root_spec hroot
      refine ⟨listing, hreply, hlists.kind, hlists.place.trans hplace, hplace, ?_⟩
      rintro (_ | _) hother
      · exact absurd rfl hother
      · rfl
  | vfat =>
      have hne : call.symbol ≠ k.ext2.root := fun h =>
        k.root_ne (h.symm.trans hsymbol)
      have hvfat : call.symbol = k.vfat.root := hsymbol
      rw [if_neg hne, if_pos hvfat] at hok
      obtain ⟨⟨r, s⟩, hroot, hrest⟩ := bind_eq_ok_iff.mp hok
      cases hrest
      obtain ⟨listing, hreply, hlists, hplace⟩ := Fat32.rootFat32_spec hroot
      refine ⟨listing, hreply, hlists.kind, hlists.place.trans hplace, hplace, ?_⟩
      rintro (_ | _) hother
      · rfl
      · exact absurd rfl hother

/-- `fs_root` for a partition with a driver: it is found, installed and asked
for the root directory. -/
theorem fsRoot_of_driver {p : PartState} {n : ℤ} {m m' : Machine}
    {kind : FsKind} {d : Driver} {code : ℤ}
    (hdriver : driverFor m.drvList (partitionNode p n typeByteOffset) = some d)
    (hkind : d.symbols = k.symbols kind)
    (hok : fsRoot k.rootRoutine p n m = .ok (code, m')) :
    code = fsDrvFound ∧ m'.symbols = k.symbols kind ∧
      ∃ listing, m'.fsProp = .list listing ∧ listing.kind = kind ∧
        listing.place = ⟨0, le32 (partitionNode p n) stLbaOffset, 2⟩ ∧
        m'.world.place kind = ⟨0, le32 (partitionNode p n) stLbaOffset, 2⟩ ∧
        ∀ other ≠ kind, m'.world.place other = m.world.place other := by
  unfold fsRoot at hok
  simp only [hdriver] at hok
  obtain ⟨⟨reply, drivers⟩, hroutine, hrest⟩ := bind_eq_ok_iff.mp hok
  cases hrest
  obtain ⟨listing, rfl, hlists⟩ := Kernel.rootRoutine_spec
    (by exact congrArg Symbols.root hkind) hroutine
  exact ⟨rfl, hkind, listing, rfl, hlists⟩

/-! ## `fs_chdir` -/

theorem Kernel.symbols_chdir_ne (k : Kernel) (kind : FsKind) :
    (k.symbols kind).chdir ≠ 0 := by
  cases kind with
  | ext2 => exact k.ext2_chdir_ne
  | vfat => exact k.vfat_chdir_ne

theorem fsChdir_ext2 {path : List UInt8} {m m' : Machine} {reply : Reply}
    (hmounted : k.mounted m = some .ext2)
    (hok : fsChdir k path m = .ok (reply, m')) :
    ∃ s, Ext2.ext2Chdir k.disk path m.world.ext2 = .ok (reply, s) ∧
      m' = { m with world := { m.world with ext2 := s } } := by
  unfold fsChdir at hok
  have hchdir := k.symbols_chdir_ne .ext2
  rw [← Kernel.mounted_eq_some hmounted] at hchdir
  rw [if_neg hchdir] at hok
  simp only [hmounted] at hok
  obtain ⟨⟨r, s⟩, hcall, hrest⟩ := bind_eq_ok_iff.mp hok
  cases hrest
  exact ⟨s, hcall, rfl⟩

theorem fsChdir_vfat {path : List UInt8} {m m' : Machine} {reply : Reply}
    (hmounted : k.mounted m = some .vfat)
    (hok : fsChdir k path m = .ok (reply, m')) :
    ∃ s, Fat32.chdirFat32 k.disk path m.world.vfat = .ok (reply, s) ∧
      m' = { m with world := { m.world with vfat := s } } := by
  unfold fsChdir at hok
  have hchdir := k.symbols_chdir_ne .vfat
  rw [← Kernel.mounted_eq_some hmounted] at hchdir
  rw [if_neg hchdir] at hok
  simp only [hmounted] at hok
  obtain ⟨⟨r, s⟩, hcall, hrest⟩ := bind_eq_ok_iff.mp hok
  cases hrest
  exact ⟨s, hcall, rfl⟩

theorem fsChdir_unmounted {path : List UInt8} {m m' : Machine} {reply : Reply}
    (hnone : k.mounted m = none) (hok : fsChdir k path m = .ok (reply, m')) :
    reply = .code 0 ∧ m' = m := by
  unfold fsChdir at hok
  split at hok
  · cases hok
    exact ⟨rfl, rfl⟩
  · simp only [hnone] at hok
    cases hok

theorem chdirFat32_dot {disk : Disk} {s s' : Fat32.State} {reply : Reply}
    (hok : Fat32.chdirFat32 disk [46] s = .ok (reply, s')) :
    s'.place = s.place := by
  rcases Fat32.chdirFat32_spec hok with ⟨hsplit, _⟩ | ⟨_, _, hplace⟩ |
    ⟨_, _, _, hne, _⟩
  · exact absurd hsplit (by decide)
  · exact hplace
  · exact absurd (by decide) hne

/-! ## `fs_loadfile` -/

/-- The pointers, the listing and the directories are as before. -/
structure StaysPut (m m' : Machine) : Prop where
  symbols : m'.symbols = m.symbols
  fsProp : m'.fsProp = m.fsProp
  place : ∀ kind, m'.world.place kind = m.world.place kind

theorem ext2_loadfile_place {scratch : LoadScratch} {name : List UInt8}
    {disk : Disk} {loadMem reply : ℕ} {s s' : Ext2.State}
    (hok : Ext2.loadfileCurrent disk scratch name loadMem s = .ok (reply, s')) :
    s'.place = s.place := by
  obtain ⟨load, _, hrest⟩ := bind_eq_ok_iff.mp hok
  obtain ⟨⟨listing, s₁⟩, hread, hlast⟩ := bind_eq_ok_iff.mp hrest
  cases hlast
  exact (listsPlace_read hread).2

theorem fat32_load_place {scratch : LoadScratch} {name : List UInt8}
    {disk : Disk} {loadMem reply : ℕ} {s s' : Fat32.State}
    (hok : Fat32.loadCurrent disk scratch name loadMem s = .ok (reply, s')) :
    s'.place = s.place := by
  obtain ⟨load, _, hrest⟩ := bind_eq_ok_iff.mp hok
  obtain ⟨⟨listing, s₁⟩, hread, hlast⟩ := bind_eq_ok_iff.mp hrest
  cases hlast
  exact (listsPlace_read hread).2

/-- A loader reads the current directory again and goes nowhere. -/
theorem fsLoadfile_staysPut {scratch : LoadScratch} {name : List UInt8}
    {loadMem reply : ℕ} {m m' : Machine}
    (hok : fsLoadfile k scratch name loadMem m = .ok (reply, m')) :
    StaysPut m m' := by
  unfold fsLoadfile at hok
  split at hok
  · cases hok
    exact ⟨rfl, rfl, fun _ => rfl⟩
  · split at hok
    · obtain ⟨⟨r, s⟩, hload, hrest⟩ := bind_eq_ok_iff.mp hok
      cases hrest
      refine ⟨rfl, rfl, ?_⟩
      rintro (_ | _)
      · exact ext2_loadfile_place hload
      · rfl
    · obtain ⟨⟨r, s⟩, hload, hrest⟩ := bind_eq_ok_iff.mp hok
      cases hrest
      refine ⟨rfl, rfl, ?_⟩
      rintro (_ | _)
      · rfl
      · exact fat32_load_place hload
    · cases hok

/-! ## The call for `.` -/

/-- `ext2_chdir(".")` goes where the name `.` leads. -/
theorem fsChdir_dot_ext2 {m m' : Machine} {reply : Reply}
    (hmounted : k.mounted m = some .ext2)
    (hok : fsChdir k [46] m = .ok (reply, m')) :
    m'.symbols = m.symbols ∧ m'.fsProp = m.fsProp ∧
      ∃ c, Arrives (walkPath (Ext2.reader k.disk) [[46]] m.world.ext2) c ∧
        m'.world.ext2.place = c.state.place := by
  obtain ⟨s, hcall, rfl⟩ := fsChdir_ext2 hmounted hok
  refine ⟨rfl, rfl, ?_⟩
  rcases Ext2.ext2Chdir_spec hcall with ⟨hsplit, _⟩ |
    ⟨args, c, listing, hsplit, hlast, _, _, hplace⟩
  · exact absurd hsplit (by decide)
  · obtain rfl := Option.some.inj (hsplit.symm.trans splitPath_dot)
    exact ⟨c, hlast.arrives, hplace⟩

theorem fsChdir_dot_vfat {m m' : Machine} {reply : Reply}
    (hmounted : k.mounted m = some .vfat)
    (hok : fsChdir k [46] m = .ok (reply, m')) : StaysPut m m' := by
  obtain ⟨s, hcall, rfl⟩ := fsChdir_vfat hmounted hok
  refine ⟨rfl, rfl, ?_⟩
  rintro (_ | _)
  · rfl
  · exact chdirFat32_dot hcall

/-! ## `cd` -/

theorem cmdCd_ext2 {argv : ℕ → List UInt8} {m m' : Machine}
    (hmounted : k.mounted m = some .ext2) (hok : cmdCd k 2 argv m = .ok m') :
    m'.symbols = m.symbols ∧
      (splitPath directoryNum (cString (argv 1)) = none ∧
          m'.fsProp = .code 0 ∧ m'.world = m.world ∨
        ∃ args c listing,
          splitPath directoryNum (cString (argv 1)) = some args ∧
          LastRead (Ext2.reader k.disk)
            (walkPath (Ext2.reader k.disk) args m.world.ext2) c listing ∧
          m'.fsProp = .list listing ∧
          ListsPlace (Ext2.reader k.disk) listing m'.world.ext2 ∧
          m'.world.ext2.place = c.state.place) := by
  unfold cmdCd at hok
  rw [if_pos rfl] at hok
  obtain ⟨⟨reply, m₁⟩, hchdir, hrest⟩ := bind_eq_ok_iff.mp hok
  obtain ⟨s, hcall, rfl⟩ := fsChdir_ext2 hmounted hchdir
  rcases Ext2.ext2Chdir_spec hcall with ⟨hsplit, rfl, rfl⟩ |
    ⟨args, c, listing, hsplit, hread, rfl, hlists, hplace⟩
  · cases hrest
    exact ⟨rfl, Or.inl ⟨hsplit, rfl, rfl⟩⟩
  · cases hrest
    exact ⟨rfl, Or.inr ⟨args, c, listing, hsplit, hread, rfl, hlists, hplace⟩⟩

theorem cmdCd_vfat {argv : ℕ → List UInt8} {m m' : Machine}
    (hmounted : k.mounted m = some .vfat) (hok : cmdCd k 2 argv m = .ok m') :
    m'.symbols = m.symbols ∧
      (splitPath directoryNum (cString (argv 1)) = none ∧
          m'.fsProp = m.fsProp ∧ m'.world.vfat.place = m.world.vfat.place ∨
        cString (argv 1) = [46] ∧
          (∃ listing, m'.fsProp = .list listing ∧
            ListsPlace (Fat32.reader k.disk) listing m'.world.vfat) ∧
          m'.world.vfat.place = m.world.vfat.place ∨
        ∃ args c, splitPath directoryNum (cString (argv 1)) = some args ∧
          cString (argv 1) ≠ [46] ∧ m'.world.vfat.place = c.state.place ∧
          (walkPath (Fat32.reader k.disk) args m.world.vfat = .ok c ∧
              (∃ listing, m'.fsProp = .list listing ∧
                ListsPlace (Fat32.reader k.disk) listing m'.world.vfat) ∨
            Stops (walkPath (Fat32.reader k.disk) args m.world.vfat) c ∧
              m'.fsProp = m.fsProp)) := by
  unfold cmdCd at hok
  rw [if_pos rfl] at hok
  obtain ⟨⟨reply, m₁⟩, hchdir, hrest⟩ := bind_eq_ok_iff.mp hok
  obtain ⟨s, hcall, rfl⟩ := fsChdir_vfat hmounted hchdir
  -- the second call of `fs_chdir`, behind a code
  have hback : reply.panics = true →
      m'.symbols = m.symbols ∧ m'.fsProp = m.fsProp ∧
        m'.world.vfat.place = s.place := by
    intro hpanics
    simp only [hpanics, if_true] at hrest
    obtain ⟨⟨reply', m₂⟩, hdot, hlast⟩ := bind_eq_ok_iff.mp hrest
    cases hlast
    have hstays := fsChdir_dot_vfat (by exact hmounted) hdot
    exact ⟨hstays.symbols, hstays.fsProp, hstays.place .vfat⟩
  have hlisted : ∀ listing, reply = .list listing →
      m' = { m with
        world := { m.world with vfat := s }
        fsProp := .list listing } := by
    rintro listing rfl
    cases hrest
    rfl
  rcases Fat32.chdirFat32_spec hcall with ⟨hsplit, hpanics, rfl⟩ |
    ⟨hdot, ⟨listing, hreply, hlists⟩, hplace⟩ |
    ⟨args, c, hsplit, hdot, hplace, ⟨hwalk, listing, hreply, hlists⟩ |
      ⟨hstops, hpanics⟩⟩
  · obtain ⟨hsymbols, hfsProp, hstays⟩ := hback hpanics
    exact ⟨hsymbols, Or.inl ⟨hsplit, hfsProp, hstays⟩⟩
  · rw [hlisted listing hreply]
    exact ⟨rfl, Or.inr (Or.inl ⟨hdot, ⟨listing, rfl, hlists⟩, hplace⟩)⟩
  · rw [hlisted listing hreply]
    exact ⟨rfl, Or.inr (Or.inr ⟨args, c, hsplit, hdot, hplace,
      Or.inl ⟨hwalk, listing, rfl, hlists⟩⟩)⟩
  · obtain ⟨hsymbols, hfsProp, hstays⟩ := hback hpanics
    exact ⟨hsymbols, Or.inr (Or.inr ⟨args, c, hsplit, hdot, hstays.trans hplace,
      Or.inr ⟨hstops, hfsProp⟩⟩)⟩

end Fs
end Janus86
