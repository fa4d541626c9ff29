import Janus86.DriverCalls

/-!
# What the calls for a directory do

A path with too many components changes nothing.  Otherwise the driver is in
the directory in which the walk ended or stopped, and when it returns a list,
it is the list of that directory.
-/

namespace Janus86

variable {γ ψ : Type}

theorem Arrives.of_stops {walk : Except (Halt γ ψ) (Cursor γ ψ)}
    {c : Cursor γ ψ} (hstops : Stops walk c) : Arrives walk c :=
  Or.inr hstops

theorem Stops.ne_ok {walk : Except (Halt γ ψ) (Cursor γ ψ)} {c c' : Cursor γ ψ}
    (hstops : Stops walk c) : walk ≠ .ok c' := by
  rintro rfl
  rcases hstops with h | h <;> cases h

theorem Arrives.unique {walk : Except (Halt γ ψ) (Cursor γ ψ)}
    {c c' : Cursor γ ψ} (harrives : Arrives walk c)
    (harrives' : Arrives walk c') : c = c' := by
  rcases harrives with h | h | h <;> rcases harrives' with h' | h' | h' <;>
    rw [h] at h' <;> cases h' <;> rfl

/-- The list belongs to the directory in which the driver is. -/
structure ListsPlace (reader : Reader γ ψ) (listing : Listing)
    (s : DriverState γ ψ) : Prop where
  kind : listing.kind = reader.kind
  place : listing.place = s.place

theorem listsPlace_of_settled {reader : Reader γ ψ} {c : Cursor γ ψ}
    (hsettled : c.Settled reader) : ListsPlace reader c.listing c.state :=
  ⟨hsettled.1, hsettled.2⟩

theorem listsPlace_read {reader : Reader γ ψ} {s s' : DriverState γ ψ}
    {listing : Listing} (hread : reader.read s = .ok (listing, s')) :
    ListsPlace reader listing s' ∧ s'.place = s.place := by
  obtain ⟨hkind, hplace, hstays⟩ := reader.stays s listing s' hread
  exact ⟨⟨hkind, hplace.trans hstays.symm⟩, hstays⟩

/-- The list that was read last when a walk has come to `c`: in front of a
missing component the directory is read once more. -/
def LastRead (reader : Reader γ ψ) (walk : Except (Halt γ ψ) (Cursor γ ψ))
    (c : Cursor γ ψ) (listing : Listing) : Prop :=
  (walk = .ok c ∨ walk = .error (.notDirectory c)) ∧ listing = c.listing ∨
    walk = .error (.missing c) ∧ ∃ s, reader.read c.state = .ok (listing, s)

theorem LastRead.arrives {reader : Reader γ ψ}
    {walk : Except (Halt γ ψ) (Cursor γ ψ)} {c : Cursor γ ψ} {listing : Listing}
    (hlast : LastRead reader walk c listing) : Arrives walk c := by
  rcases hlast with ⟨hok | hfile, _⟩ | ⟨hmissing, _⟩
  · exact Or.inl hok
  · exact Or.inr (Or.inr hfile)
  · exact Or.inr (Or.inl hmissing)

theorem LastRead.unique {reader : Reader γ ψ}
    {walk : Except (Halt γ ψ) (Cursor γ ψ)} {c : Cursor γ ψ}
    {listing listing' : Listing} (hlast : LastRead reader walk c listing)
    (hlast' : LastRead reader walk c listing') : listing = listing' := by
  rcases hlast with ⟨h, rfl⟩ | ⟨hmissing, s, hread⟩ <;>
    rcases hlast' with ⟨h', rfl⟩ | ⟨hmissing', s', hread'⟩
  · rfl
  · rw [hmissing'] at h
    exact absurd h (by rintro (h | h) <;> cases h)
  · rw [hmissing] at h'
    exact absurd h' (by rintro (h | h) <;> cases h)
  · rw [hread] at hread'
    cases hread'
    rfl

/-- The files that the nodes of a list show; the driver leaves nodes without a
name behind them. -/
def shownFiles (nodes : List FsProperties) : List Entry :=
  (nodes.map FsProperties.entry).filter (·.name ≠ [])

/-- The lists that two calls return show the same files, and it is no matter
whether one looks a name up or goes through the nodes. -/
structure SameRead {γ ψ : Type} (more : ℕ) (r r' : Listing × DriverState γ ψ) :
    Prop where
  nodes : shownFiles r'.1.nodes = shownFiles r.1.nodes
  search : shownFiles r'.1.search = shownFiles r'.1.nodes
  fresh : r'.2.fresh.length = r.2.fresh.length + more

/-- The path `/` leads to where the driver is. -/
theorem splitPath_slash : splitPath directoryNum [47] = some [[]] := by
  decide

theorem splitPath_dot : splitPath directoryNum [46] = some [[46]] := by
  decide

theorem walkPath_slash {reader : Reader γ ψ} {s : DriverState γ ψ}
    {c : Cursor γ ψ} (harrives : Arrives (walkPath reader [[]] s) c) :
    walkPath reader [[]] s = .ok c ∧ c.state.place = s.place := by
  unfold walkPath at harrives ⊢
  cases hread : reader.read s with
  | error e =>
      rw [hread] at harrives
      rcases harrives with h | h | h <;> cases h
  | ok x =>
      rw [hread] at harrives
      rcases harrives with h | h | h <;> cases h
      exact ⟨rfl, (listsPlace_read hread).2⟩

/-! ## ext2 -/

namespace Ext2

theorem ext2Chdir_spec {disk : Disk} {path : List UInt8} {s s' : State}
    {reply : Reply} (hok : ext2Chdir disk path s = .ok (reply, s')) :
    splitPath directoryNum (cString path) = none ∧ reply = .code 0 ∧ s' = s ∨
      ∃ args c listing, splitPath directoryNum (cString path) = some args ∧
        LastRead (reader disk) (walkPath (reader disk) args s) c listing ∧
        reply = .list listing ∧ ListsPlace (reader disk) listing s' ∧
        s'.place = c.state.place := by
  unfold ext2Chdir at hok
  split at hok
  · cases hok
  · split at hok
    · next hsplit =>
        cases hok
        exact Or.inl ⟨hsplit, rfl, rfl⟩
    · next args hsplit =>
        refine Or.inr ⟨args, ?_⟩
        split at hok
        · cases hok
        · next c hwalk =>
            cases hok
            have hlast : LastRead (reader disk) (walkPath (reader disk) args s) c
                c.listing := Or.inl ⟨Or.inr hwalk, rfl⟩
            exact ⟨c, c.listing, hsplit, hlast, rfl,
              listsPlace_of_settled (settled_walkPath hlast.arrives), rfl⟩
        · next c hwalk =>
            obtain ⟨⟨listing, s₁⟩, hread, hrest⟩ := bind_eq_ok_iff.mp hok
            cases hrest
            obtain ⟨hlists, hstays⟩ := listsPlace_read hread
            exact ⟨c, listing, hsplit, Or.inr ⟨hwalk, _, hread⟩, rfl, hlists, hstays⟩
        · next c hwalk =>
            cases hok
            have hlast : LastRead (reader disk) (walkPath (reader disk) args s) c
                c.listing := Or.inl ⟨Or.inl hwalk, rfl⟩
            exact ⟨c, c.listing, hsplit, hlast, rfl,
              listsPlace_of_settled (settled_walkPath hlast.arrives), rfl⟩

/-- `ext2_root` lists the directory that it is told. -/
theorem ext2Root_spec {disk : Disk} {lba drive inode : ℕ} {s s' : State}
    {reply : Reply} (hok : ext2Root disk lba drive inode s = .ok (reply, s')) :
    ∃ listing, reply = .list listing ∧ ListsPlace (reader disk) listing s' ∧
      s'.place = ⟨drive, lba, inode⟩ := by
  rcases ext2Chdir_spec hok with ⟨hsplit, _⟩ |
    ⟨args, c, listing, hsplit, hlast, hreply, hlists, hplace⟩
  · exact absurd (hsplit.symm.trans splitPath_slash) nofun
  · obtain rfl := Option.some.inj (hsplit.symm.trans splitPath_slash)
    exact ⟨listing, hreply, hlists,
      hplace.trans (walkPath_slash hlast.arrives).2⟩

end Ext2

/-! ## FAT32 -/

namespace Fat32

theorem chdirFat32_spec {disk : Disk} {path : List UInt8} {s s' : State}
    {reply : Reply} (hok : chdirFat32 disk path s = .ok (reply, s')) :
    splitPath directoryNum (cString path) = none ∧ reply.panics = true ∧ s' = s ∨
      cString path = [46] ∧ (∃ listing, reply = .list listing ∧
        ListsPlace (reader disk) listing s') ∧ s'.place = s.place ∨
      ∃ args c, splitPath directoryNum (cString path) = some args ∧
        cString path ≠ [46] ∧ s'.place = c.state.place ∧
        (walkPath (reader disk) args s = .ok c ∧
            (∃ listing, reply = .list listing ∧
              ListsPlace (reader disk) listing s') ∨
          Stops (walkPath (reader disk) args s) c ∧ reply.panics = true) := by
  unfold chdirFat32 at hok
  split at hok
  · cases hok
  · split at hok
    · next hsplit =>
        cases hok
        exact Or.inl ⟨hsplit, by decide, rfl⟩
    · next args hsplit =>
        refine Or.inr ?_
        split at hok
        · next hdot =>
            obtain ⟨⟨_, s₁⟩, hfirst, hrest⟩ := bind_eq_ok_iff.mp hok
            obtain ⟨⟨listing, s₂⟩, hread, hrest⟩ := bind_eq_ok_iff.mp hrest
            cases hrest
            obtain ⟨hlists, hstays⟩ := listsPlace_read hread
            exact Or.inl ⟨hdot, ⟨listing, rfl, hlists⟩,
              hstays.trans (listsPlace_read hfirst).2⟩
        · next hdot =>
            refine Or.inr ⟨args, ?_⟩
            split at hok
            · cases hok
            · next c hwalk =>
                cases hok
                exact ⟨c, hsplit, hdot, rfl, Or.inr ⟨Or.inr hwalk, by decide⟩⟩
            · next c hwalk =>
                obtain ⟨⟨_, s₁⟩, hread, hrest⟩ := bind_eq_ok_iff.mp hok
                cases hrest
                exact ⟨c, hsplit, hdot, (listsPlace_read hread).2,
                  Or.inr ⟨Or.inl hwalk, by decide⟩⟩
            · next c hwalk =>
                cases hok
                have hlists := listsPlace_of_settled
                  (settled_walkPath (Or.inl hwalk))
                exact ⟨c, hsplit, hdot, rfl, Or.inl ⟨hwalk, c.listing, rfl, hlists⟩⟩

/-- `root_fat32` lists the directory that it is told. -/
theorem rootFat32_spec {disk : Disk} {lba drive cluster : ℕ} {s s' : State}
    {reply : Reply} (hok : rootFat32 disk lba drive cluster s = .ok (reply, s')) :
    ∃ listing, reply = .list listing ∧ ListsPlace (reader disk) listing s' ∧
      s'.place = ⟨drive, lba, cluster⟩ := by
  rcases chdirFat32_spec hok with ⟨hsplit, _⟩ | ⟨hdot, _⟩ |
    ⟨args, c, hsplit, _, hplace, hrest⟩
  · exact absurd (hsplit.symm.trans splitPath_slash) nofun
  · exact absurd hdot (by decide)
  · obtain rfl := Option.some.inj (hsplit.symm.trans splitPath_slash)
    rcases hrest with ⟨hwalk, listing, hreply, hlists⟩ | ⟨hstops, _⟩
    · exact ⟨listing, hreply, hlists,
        hplace.trans (walkPath_slash (Or.inl hwalk)).2⟩
    · exact absurd (walkPath_slash (Arrives.of_stops hstops)).1 hstops.ne_ok

end Fat32
end Janus86
