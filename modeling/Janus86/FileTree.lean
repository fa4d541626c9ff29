import Janus86.DriverSpecs

/-!
# A path in the tree that the drives show

A directory shows its files, under names, and some of them are directories again.
This alone decides how far a path can be followed: each component leads from the
directory reached so far to the first file of that name, if that is a directory.  The
walk of a driver goes the same way and ends or stops at the same place.
-/

namespace Janus86

variable {γ ψ : Type}

/-! ## Trees -/

/-- Directories with their files; those that are directories are there as well. -/
structure FileTree where
  dirs : Set ℕ
  entries : ℕ → List Entry
  below : ∀ d ∈ dirs, ∀ e ∈ entries d, e.fileType = directory → e.start ∈ dirs

/-- A driver shows these files whenever it reads one of the directories. -/
def FileTree.Listed (t : FileTree) (reader : Reader γ ψ) (drive lba : ℕ) : Prop :=
  ∀ d ∈ t.dirs, ∀ (s s' : DriverState γ ψ) (listing : Listing),
    s.place = ⟨drive, lba, d⟩ → reader.read s = .ok (listing, s') →
      shownFiles listing.nodes = t.entries d ∧ shownFiles listing.search = t.entries d

/-- The components of a path: the empty one in front of a leading slash is none. -/
def components (args : List (List UInt8)) : List (List UInt8) :=
  args.filter (· ≠ [])

section Tree

variable (t : FileTree)

/-- The first file of the directory that has the name is the directory `d'`. -/
def FileTree.Sub (d : ℕ) (name : List UInt8) (d' : ℕ) : Prop :=
  ∃ e, (t.entries d).find? (fun e => e.name = name) = some e ∧
    e.fileType = directory ∧ e.start = d'

/-- The components lead from directory to directory. -/
inductive FileTree.Leads : ℕ → List (List UInt8) → ℕ → Prop
  | done (d : ℕ) : Leads d [] d
  | sub {d d' last : ℕ} {name : List UInt8} {names : List (List UInt8)}
      (sub : t.Sub d name d') (rest : Leads d' names last) : Leads d (name :: names) last

/-- The components in front of one that is missing, or no directory, lead to this
directory. -/
inductive FileTree.StopsAt : ℕ → List (List UInt8) → ℕ → Prop
  | here {d : ℕ} {name : List UInt8} {names : List (List UInt8)}
      (missing : ∀ d', ¬ t.Sub d name d') : StopsAt d (name :: names) d
  | sub {d d' last : ℕ} {name : List UInt8} {names : List (List UInt8)}
      (sub : t.Sub d name d') (rest : StopsAt d' names last) : StopsAt d (name :: names) last

variable {t}

theorem FileTree.Sub.unique {d d' d'' : ℕ} {name : List UInt8}
    (hsub : t.Sub d name d') (hsub' : t.Sub d name d'') : d' = d'' := by
  obtain ⟨e, he, _, rfl⟩ := hsub
  obtain ⟨e', he', _, rfl⟩ := hsub'
  rw [he] at he'
  cases he'
  rfl

theorem FileTree.Sub.mem_dirs {d d' : ℕ} {name : List UInt8} (hd : d ∈ t.dirs)
    (hsub : t.Sub d name d') : d' ∈ t.dirs := by
  obtain ⟨e, he, htype, rfl⟩ := hsub
  exact t.below d hd e (List.mem_of_find?_eq_some he) htype

theorem FileTree.StopsAt.unique {d last last' : ℕ} {names : List (List UInt8)}
    (hstops : t.StopsAt d names last) (hstops' : t.StopsAt d names last') :
    last = last' := by
  induction hstops with
  | here missing =>
      cases hstops' with
      | here _ => rfl
      | sub hsub _ => exact absurd hsub (missing _)
  | sub hsub _ ih =>
      cases hstops' with
      | here missing => exact absurd hsub (missing _)
      | sub hsub' hrest =>
          obtain rfl := hsub.unique hsub'
          exact ih hrest

theorem FileTree.StopsAt.not_leads {d last last' : ℕ} {names : List (List UInt8)}
    (hstops : t.StopsAt d names last) : ¬ t.Leads d names last' := by
  induction hstops with
  | here missing =>
      intro hleads
      cases hleads with
      | sub hsub _ => exact missing _ hsub
  | sub hsub _ ih =>
      intro hleads
      cases hleads with
      | sub hsub' hrest =>
          obtain rfl := hsub.unique hsub'
          exact ih hrest

end Tree

/-! ## The walk of a driver -/

section Walk

variable {t : FileTree} {reader : Reader γ ψ} {drive lba : ℕ}

/-- The first node with a name is the first of the files shown. -/
theorem findName_shown (nodes : List FsProperties) {name : List UInt8} (hne : name ≠ []) :
    (findName name nodes).map FsProperties.entry =
      (shownFiles nodes).find? fun e => e.name = name := by
  induction nodes with
  | nil => rfl
  | cons node nodes ih =>
      have hname : node.entry.name = node.name := rfl
      unfold shownFiles at ih ⊢
      rw [findName, List.map_cons, List.filter_cons]
      by_cases hfound : node.name = name
      · rw [if_pos hfound, if_pos (by simpa [hname, hfound] using hne)]
        rw [List.find?_cons_of_pos (by simpa [hname] using hfound)]
        rfl
      · rw [if_neg hfound, ih]
        split
        · rw [List.find?_cons_of_neg (by simpa [hname] using hfound)]
        · rfl

/-- The walk has come to the directory, and its list is the one read last. -/
structure FileTree.At (t : FileTree) (drive lba : ℕ) (c : Cursor γ ψ) (d : ℕ) :
    Prop where
  mem_dirs : d ∈ t.dirs
  place : c.state.place = ⟨drive, lba, d⟩
  nodes : shownFiles c.listing.nodes = t.entries d
  search : shownFiles c.listing.search = t.entries d

theorem FileTree.Listed.read_at (hlisted : t.Listed reader drive lba) {d : ℕ}
    {s s' : DriverState γ ψ} {listing : Listing} (hd : d ∈ t.dirs)
    (hplace : s.place = ⟨drive, lba, d⟩) (hread : reader.read s = .ok (listing, s')) :
    t.At drive lba ⟨listing, s'⟩ d := by
  obtain ⟨hnodes, hsearch⟩ := hlisted d hd s s' listing hplace hread
  exact ⟨hd, (listsPlace_read hread).2.trans hplace, hnodes, hsearch⟩

/-- A component is entered, or it is missing or no directory. -/
theorem FileTree.Listed.enter (hlisted : t.Listed reader drive lba) {c : Cursor γ ψ}
    {d : ℕ} (hat : t.At drive lba c d) {name : List UInt8} (hne : name ≠ []) :
    match Janus86.enter reader c name with
    | .ok c' => ∃ d', t.Sub d name d' ∧ t.At drive lba c' d'
    | .error (.fault _) => True
    | .error (.missing c') | .error (.notDirectory c') =>
        c' = c ∧ ∀ d', ¬ t.Sub d name d' := by
  have hfind := findName_shown c.listing.search hne
  rw [hat.search] at hfind
  unfold Janus86.enter
  rw [if_neg hne]
  cases hnode : findName name c.listing.search with
  | none =>
      rw [hnode, Option.map_none] at hfind
      refine ⟨rfl, ?_⟩
      rintro d' ⟨e, he, _⟩
      rw [he] at hfind
      cases hfind
  | some node =>
      rw [hnode, Option.map_some] at hfind
      dsimp only
      by_cases htype : node.fileType = directory
      · have hsub : t.Sub d name node.start := ⟨node.entry, hfind.symm, htype, rfl⟩
        rw [if_pos htype]
        cases hread : reader.read
            { c.state with place := { c.state.place with dir := node.start } } with
        | error e => trivial
        | ok r =>
            refine ⟨node.start, hsub, hlisted.read_at (hsub.mem_dirs hat.mem_dirs) ?_ hread⟩
            rw [hat.place]
      · rw [if_neg htype]
        refine ⟨rfl, ?_⟩
        rintro d' ⟨e, he, hdir, _⟩
        rw [he] at hfind
        cases hfind
        exact htype hdir

/-- Where a walk ends or stops in the tree. -/
structure FileTree.Walks (t : FileTree) (drive lba d : ℕ) (names : List (List UInt8))
    (walk : Except (Halt γ ψ) (Cursor γ ψ)) (c : Cursor γ ψ) (last : ℕ) : Prop where
  at_last : t.At drive lba c last
  way : walk = .ok c ∧ t.Leads d names last ∨ Stops walk c ∧ t.StopsAt d names last

theorem FileTree.Listed.entries (hlisted : t.Listed reader drive lba)
    {c c' : Cursor γ ψ} {d : ℕ} (hat : t.At drive lba c d) {args : List (List UInt8)}
    (harrives : Arrives (args.foldlM (Janus86.enter reader) c) c') :
    ∃ last, t.Walks drive lba d (components args)
      (args.foldlM (Janus86.enter reader) c) c' last := by
  induction args generalizing c d with
  | nil =>
      have hsame : c = c' := by
        rcases harrives with h | h | h <;> cases h
        rfl
      subst hsame
      exact ⟨d, hat, Or.inl ⟨rfl, .done d⟩⟩
  | cons name args ih =>
      by_cases hne : name = []
      · have hskip : Janus86.enter reader c name = .ok c := if_pos hne
        rw [List.foldlM_cons, hskip] at harrives ⊢
        have hcomponents : components (name :: args) = components args := by
          simp [components, hne]
        rw [hcomponents]
        exact ih hat harrives
      · have hcomponents : components (name :: args) = name :: components args := by
          simp [components, hne]
        have henter := hlisted.enter hat hne
        rw [List.foldlM_cons] at harrives ⊢
        rw [hcomponents]
        cases hfirst : Janus86.enter reader c name with
        | ok c₁ =>
            rw [hfirst] at henter harrives
            obtain ⟨d', hsub, hat₁⟩ := henter
            obtain ⟨last, hlast, hway⟩ := ih hat₁ harrives
            refine ⟨last, hlast, ?_⟩
            rcases hway with ⟨hok, hleads⟩ | ⟨hstops, hstop⟩
            · exact Or.inl ⟨hok, .sub hsub hleads⟩
            · exact Or.inr ⟨hstops, .sub hsub hstop⟩
        | error halt =>
            rw [hfirst] at henter harrives
            rcases harrives with h | h | h <;> cases h
            · obtain ⟨rfl, hmissing⟩ := henter
              exact ⟨d, hat, Or.inr ⟨Or.inl rfl, .here hmissing⟩⟩
            · obtain ⟨rfl, hmissing⟩ := henter
              exact ⟨d, hat, Or.inr ⟨Or.inr rfl, .here hmissing⟩⟩

/-- A walk that does not fault ends where the components lead, or stops where those
in front of a missing one lead. -/
theorem FileTree.Listed.walkPath (hlisted : t.Listed reader drive lba) {d : ℕ}
    {s : DriverState γ ψ} {args : List (List UInt8)} {c : Cursor γ ψ} (hd : d ∈ t.dirs)
    (hplace : s.place = ⟨drive, lba, d⟩) (harrives : Arrives (walkPath reader args s) c) :
    ∃ last, t.Walks drive lba d (components args)
      (Janus86.walkPath reader args s) c last := by
  unfold Janus86.walkPath at harrives ⊢
  cases hread : reader.read s with
  | error e =>
      rw [hread] at harrives
      rcases harrives with h | h | h <;> cases h
  | ok r =>
      rw [hread] at harrives
      exact hlisted.entries (hlisted.read_at hd hplace hread) harrives

theorem FileTree.Listed.stopsAt (hlisted : t.Listed reader drive lba) {d : ℕ}
    {s : DriverState γ ψ} {args : List (List UInt8)} {c : Cursor γ ψ} (hd : d ∈ t.dirs)
    (hplace : s.place = ⟨drive, lba, d⟩)
    (hstops : Stops (Janus86.walkPath reader args s) c) :
    ∃ last, t.StopsAt d (components args) last ∧ t.At drive lba c last := by
  obtain ⟨last, hat, ⟨hok, _⟩ | ⟨_, hstop⟩⟩ :=
    hlisted.walkPath hd hplace (Arrives.of_stops hstops)
  · exact absurd hok hstops.ne_ok
  · exact ⟨last, hstop, hat⟩

/-- What was read last shows the files of the directory the walk has come to. -/
theorem FileTree.Listed.lastRead (hlisted : t.Listed reader drive lba)
    {c : Cursor γ ψ} {d : ℕ} {listing : Listing} {walk : Except (Halt γ ψ) (Cursor γ ψ)}
    (hlast : LastRead reader walk c listing) (hat : t.At drive lba c d) :
    shownFiles listing.nodes = t.entries d := by
  rcases hlast with ⟨_, rfl⟩ | ⟨_, s, hread⟩
  · exact hat.nodes
  · exact (hlisted d hat.mem_dirs _ _ _ hat.place hread).1

/-! ## One component -/

theorem components_nil {name : List UInt8} {args : List (List UInt8)}
    (hnone : components (name :: args) = []) : name = [] ∧ components args = [] := by
  by_cases hnil : name = []
  · exact ⟨hnil, by simpa [components, hnil] using hnone⟩
  · simp [components, hnil] at hnone

theorem enter_stops {c c' : Cursor γ ψ} {name : List UInt8}
    (hstops : Stops (Janus86.enter reader c name) c') : c' = c := by
  unfold Janus86.enter at hstops
  split at hstops
  · rcases hstops with h | h <;> cases h
  · split at hstops
    · rcases hstops with h | h <;> cases h
      rfl
    · split at hstops
      · split at hstops
        · rcases hstops with h | h <;> cases h
        · rcases hstops with h | h <;> cases h
      · rcases hstops with h | h <;> cases h
        rfl

theorem enters_nothing {args : List (List UInt8)} (hnone : components args = [])
    (c : Cursor γ ψ) : args.foldlM (Janus86.enter reader) c = .ok c := by
  induction args with
  | nil => rfl
  | cons name args ih =>
      obtain ⟨hnil, hmore⟩ := components_nil hnone
      rw [List.foldlM_cons, show Janus86.enter reader c name = .ok c from if_pos hnil]
      exact ih hmore

/-- A walk over one component at most stops where it began. -/
theorem enters_one {args : List (List UInt8)} (hone : (components args).length ≤ 1)
    {c c' : Cursor γ ψ} (hstops : Stops (args.foldlM (Janus86.enter reader) c) c') :
    c' = c := by
  induction args with
  | nil => rcases hstops with h | h <;> cases h
  | cons name args ih =>
      rw [List.foldlM_cons] at hstops
      by_cases hnil : name = []
      · rw [show Janus86.enter reader c name = .ok c from if_pos hnil] at hstops
        exact ih (by simpa [components, hnil] using hone) hstops
      · have hnone : components args = [] := by simpa [components, hnil] using hone
        cases hfirst : Janus86.enter reader c name with
        | ok c₁ =>
            rw [hfirst] at hstops
            exact absurd (enters_nothing hnone c₁) hstops.ne_ok
        | error halt =>
            rw [hfirst] at hstops
            refine @enter_stops γ ψ reader c c' name ?_
            rw [hfirst]
            rcases hstops with h | h <;> cases h
            · exact Or.inl rfl
            · exact Or.inr rfl

theorem place_of_stops {args : List (List UInt8)} (hone : (components args).length ≤ 1)
    {s : DriverState γ ψ} {c : Cursor γ ψ}
    (hstops : Stops (Janus86.walkPath reader args s) c) : c.state.place = s.place := by
  unfold Janus86.walkPath at hstops
  cases hread : reader.read s with
  | error e =>
      rw [hread] at hstops
      rcases hstops with h | h <;> cases h
  | ok r =>
      rw [hread] at hstops
      rw [enters_one hone hstops]
      exact (listsPlace_read hread).2

end Walk
end Janus86
