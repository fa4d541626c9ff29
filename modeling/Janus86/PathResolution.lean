import Janus86.Ext2SameListing
import Janus86.Fat32SameListing
import Janus86.FileTree

/-!
# Paths in a tree of directories

Each call cuts its path anew, reads the current directory and follows the
components, reading every directory on the way.  Since a directory shows the same
files whenever it is read, it does not matter in how many calls a path is
followed, nor how many slashes stand behind a component.  The one exception is a
line feed behind a slash, which is taken for part of the separator.
-/

namespace Janus86

open StepMachine

/-! ## Paths -/

structure IsComponent (name : List UInt8) : Prop where
  ne_nil : name ≠ []
  no_slash : 47 ∉ name
  no_zero : 0 ∉ name

/-- The path consists of the components, with one slash or more between two of
them and any number of slashes at the end. -/
inductive Spells : List UInt8 → List (List UInt8) → Prop
  | last {name : List UInt8} (component : IsComponent name) (n : ℕ) :
      Spells (name ++ List.replicate n 47) [name]
  | cons {name rest : List UInt8} {names : List (List UInt8)}
      (component : IsComponent name) (n : ℕ) (spelled : Spells rest names) :
      Spells (name ++ List.replicate (n + 1) 47 ++ rest) (name :: names)

/-- No component behind a slash begins with a line feed. -/
def NoLineFeed (names : List (List UInt8)) : Prop :=
  ∀ name ∈ names.tail, name.head? ≠ some 10

instance (names : List (List UInt8)) : Decidable (NoLineFeed names) :=
  inferInstanceAs (Decidable (∀ name ∈ names.tail, name.head? ≠ some 10))

theorem Spells.append {p q : List UInt8} {ps qs : List (List UInt8)}
    (hp : Spells p ps) (hq : Spells q qs) : Spells (p ++ 47 :: q) (ps ++ qs) := by
  induction hp with
  | @last name component n =>
      have hjoin : name ++ List.replicate n 47 ++ 47 :: q =
          name ++ List.replicate (n + 1) 47 ++ q := by
        simp [List.replicate_succ', List.append_assoc]
      rw [hjoin]
      exact .cons component n hq
  | cons component n _ ih =>
      rw [List.append_assoc, List.cons_append]
      exact .cons component n ih

theorem Spells.no_zero {path : List UInt8} {names : List (List UInt8)}
    (hspells : Spells path names) : 0 ∉ path := by
  induction hspells with
  | last component n => simp [component.no_zero]
  | cons component n _ ih => simp [component.no_zero, ih]

theorem Spells.cString_eq {path : List UInt8} {names : List (List UInt8)}
    (hspells : Spells path names) : cString path = path := by
  rw [cString_eq_self_iff]
  rintro c hc rfl
  exact hspells.no_zero hc

theorem Spells.components {path : List UInt8} {names : List (List UInt8)}
    (hspells : Spells path names) : ∀ name ∈ names, IsComponent name := by
  induction hspells with
  | last component n => simpa using component
  | cons component n _ ih => simpa using ⟨component, ih⟩

theorem Spells.head {path : List UInt8} {names : List (List UInt8)}
    (hspells : Spells path names) :
    ∃ name rest, names = name :: rest ∧ ∃ more, path = name ++ more := by
  cases hspells with
  | @last name component n => exact ⟨name, [], rfl, _, rfl⟩
  | @cons name rest names component n _ =>
      exact ⟨name, names, rfl, _, List.append_assoc _ _ _⟩

/-- A component and the slashes behind it are cut off the path. -/
theorem splitPath_cut {name : List UInt8} (hname : IsComponent name)
    (rest : List UInt8) (n m : ℕ)
    (hbehind : rest.dropWhile (fun c => c == 47 || c == 10) = rest)
    (hslash : n = 0 → rest = []) :
    splitPath (m + 1) (name ++ List.replicate n 47 ++ rest) =
      (splitPath m rest).map fun args => name :: args := by
  have hall : ∀ c ∈ name, (c != 47) = true := by
    intro c hc
    simp only [bne_iff_ne, ne_eq]
    rintro rfl
    exact hname.no_slash hc
  have hstop : (List.replicate n 47 ++ rest).takeWhile (· != 47) = [] ∧
      (List.replicate n 47 ++ rest).dropWhile (· != 47) =
        List.replicate n 47 ++ rest := by
    cases n with
    | zero =>
        rw [hslash rfl]
        exact ⟨rfl, rfl⟩
    | succ n => exact ⟨rfl, rfl⟩
  have hslashes : ∀ c ∈ List.replicate n (47 : UInt8), (c == 47 || c == 10) = true := by
    intro c hc
    rw [List.eq_of_mem_replicate hc]
    rfl
  obtain ⟨c, tail, rfl⟩ := List.exists_cons_of_ne_nil hname.ne_nil
  have hcut : splitPath (m + 1) (c :: tail ++ List.replicate n 47 ++ rest) =
      (splitPath m (((c :: tail ++ List.replicate n 47 ++ rest).dropWhile
          (· != 47)).dropWhile fun c => c == 47 || c == 10)).map fun args =>
        (c :: tail ++ List.replicate n 47 ++ rest).takeWhile (· != 47) :: args := rfl
  rw [hcut, List.append_assoc, List.takeWhile_append_of_pos hall,
    List.dropWhile_append_of_pos hall, hstop.1, hstop.2,
    List.dropWhile_append_of_pos hslashes, hbehind, List.append_nil]

/-- The table of components. -/
theorem Spells.splitPath_eq {path : List UInt8} {names : List (List UInt8)}
    (hspells : Spells path names) (hfeed : NoLineFeed names) {n : ℕ}
    (hfew : names.length ≤ n) : splitPath n path = some names := by
  induction hspells generalizing n with
  | @last name component k =>
      obtain ⟨m, rfl⟩ : ∃ m, n = m + 1 := ⟨n - 1, by
        simp only [List.length_singleton] at hfew
        omega⟩
      have hcut := splitPath_cut component [] k m rfl fun _ => rfl
      rw [List.append_nil] at hcut
      rw [hcut]
      cases m <;> rfl
  | @cons name rest names component k hrest ih =>
      obtain ⟨m, rfl⟩ : ∃ m, n = m + 1 := ⟨n - 1, by
        simp only [List.length_cons] at hfew
        omega⟩
      obtain ⟨first, others, rfl, more, rfl⟩ := hrest.head
      have hfirst := hrest.components first List.mem_cons_self
      have hbehind : (first ++ more).dropWhile (fun c => c == 47 || c == 10) =
          first ++ more := by
        have hline := hfeed first List.mem_cons_self
        have hslash := hfirst.no_slash
        obtain ⟨c, tail, rfl⟩ := List.exists_cons_of_ne_nil hfirst.ne_nil
        have hc : ¬ (c == 47 || c == 10) = true := by
          simp only [Bool.or_eq_true, beq_iff_eq, not_or]
          refine ⟨?_, ?_⟩
          · rintro rfl
            exact hslash List.mem_cons_self
          · rintro rfl
            exact hline rfl
        exact List.dropWhile_cons_of_neg hc
      rw [splitPath_cut component _ (k + 1) m hbehind (by simp), ih ?_ ?_]
      · rfl
      · exact fun name hname => hfeed name (List.mem_cons_of_mem _ hname)
      · simp only [List.length_cons] at hfew ⊢
        omega

/-! ## Trees of directories -/

variable {γ ψ : Type}

/-- The directories below one another, as some call has shown them. -/
structure DirTree (reader : Reader γ ψ) (drive lba : ℕ) where
  dirs : Set ℕ
  entries : ℕ → List Entry
  blocks : ℕ → ℕ
  listed : ∀ d ∈ dirs, ∃ (s s' : DriverState γ ψ) (listing : Listing),
    s.place = ⟨drive, lba, d⟩ ∧ s.fresh.length ≤ blocks d ∧
      reader.read s = .ok (listing, s') ∧ shownFiles listing.nodes = entries d
  unique : ∀ d ∈ dirs, ((entries d).map Entry.name).Nodup

variable {reader : Reader γ ψ} {drive lba : ℕ}

/-- The name is that of a subdirectory. -/
def DirTree.Sub (t : DirTree reader drive lba) (d : ℕ) (name : List UInt8)
    (d' : ℕ) : Prop :=
  d' ∈ t.dirs ∧ ∃ e ∈ t.entries d, e.name = name ∧ e.fileType = directory ∧
    e.start = d'

/-- The components lead from subdirectory to subdirectory. -/
inductive DirTree.Leads (t : DirTree reader drive lba) :
    ℕ → List (List UInt8) → List ℕ → Prop
  | nil (d : ℕ) : Leads t d [] []
  | cons {d d' : ℕ} {name : List UInt8} {names : List (List UInt8)} {ds : List ℕ}
      (sub : t.Sub d name d') (rest : Leads t d' names ds) :
      Leads t d (name :: names) (d' :: ds)

/-- The blocks that a call takes, for the directories behind the first one. -/
def DirTree.blocksOf (t : DirTree reader drive lba) (ds : List ℕ) : ℕ :=
  (ds.map t.blocks).sum

/-- Every call that reads a directory shows the files of the tree. -/
def DirTree.Shown (t : DirTree reader drive lba) : Prop :=
  ∀ d ∈ t.dirs, ∀ s : DriverState γ ψ, s.place = ⟨drive, lba, d⟩ →
    t.blocks d ≤ s.fresh.length →
    ∃ listing s', reader.read s = .ok (listing, s') ∧
      shownFiles listing.nodes = t.entries d ∧
      shownFiles listing.search = t.entries d ∧
      s'.place = ⟨drive, lba, d⟩ ∧ s.fresh.length ≤ s'.fresh.length + t.blocks d

/-- Two calls that read a directory show the same. -/
def DirTree.ReadsAlike (t : DirTree reader drive lba) : Prop :=
  ∀ d ∈ t.dirs, ∀ s s' : DriverState γ ψ, ∀ more,
    s.place = ⟨drive, lba, d⟩ → s'.place = s.place →
    s'.fresh.length = s.fresh.length + more →
    Simulates (SameRead more) (reader.read s) (reader.read s')

theorem DirTree.ReadsAlike.shown {t : DirTree reader drive lba} (halike : t.ReadsAlike) :
    t.Shown := by
  intro d hd s hplace hroom
  obtain ⟨s₁, s₁', listing, hplace₁, hblocks, hread, hshown⟩ := t.listed d hd
  obtain ⟨⟨listing', s'⟩, hread', hsame⟩ := halike d hd s₁ s
    (s.fresh.length - s₁.fresh.length) hplace₁ (hplace.trans hplace₁.symm) (by omega)
    _ hread
  have hfresh := hsame.fresh
  have hnodes := hsame.nodes.trans hshown
  dsimp only at hfresh hnodes
  refine ⟨listing', s', hread', hnodes, hsame.search.trans hnodes, ?_, by omega⟩
  exact (reader.stays s listing' s' hread').2.2.trans hplace

/-- The directories below those of the tree are in the tree. -/
def DirTree.Closed (t : DirTree reader drive lba) : Prop :=
  ∀ d ∈ t.dirs, ∀ e ∈ t.entries d, e.fileType = directory → e.start ∈ t.dirs

def DirTree.fileTree (t : DirTree reader drive lba) (hclosed : t.Closed) : FileTree :=
  ⟨t.dirs, t.entries, hclosed⟩

/-- With fewer blocks than the call that has shown a directory, a call that reads it shows
the same, if it comes back. -/
theorem DirTree.ReadsAlike.listed {t : DirTree reader drive lba} (halike : t.ReadsAlike)
    (hclosed : t.Closed) : (t.fileTree hclosed).Listed reader drive lba := by
  intro d hd s s' listing hplace hread
  obtain ⟨s₁, s₁', listing₁, hplace₁, hblocks, hread₁, hshown⟩ := t.listed d hd
  have hboth : shownFiles listing.nodes = shownFiles listing₁.nodes ∧
      shownFiles listing.search = shownFiles listing.nodes := by
    rcases Nat.le_total s.fresh.length s₁.fresh.length with hle | hle
    · obtain ⟨⟨listing', s''⟩, hread', hsame⟩ := halike d hd s s₁
        (s₁.fresh.length - s.fresh.length) hplace (hplace₁.trans hplace.symm) (by omega)
        _ hread
      rw [hread₁] at hread'
      cases hread'
      -- what is looked up is what was listed, as a call like this one shows
      obtain ⟨⟨listing', s''⟩, hread', hself⟩ := halike d hd s s 0 hplace rfl rfl _ hread
      rw [hread] at hread'
      cases hread'
      exact ⟨hsame.nodes.symm, hself.search⟩
    · obtain ⟨⟨listing', s''⟩, hread', hsame⟩ := halike d hd s₁ s
        (s.fresh.length - s₁.fresh.length) hplace₁ (hplace.trans hplace₁.symm) (by omega)
        _ hread₁
      rw [hread] at hread'
      cases hread'
      exact ⟨hsame.nodes, hsame.search⟩
  have hnodes := hboth.1.trans hshown
  exact ⟨hnodes, hboth.2.trans hnodes⟩

/-! ## One call -/

theorem shownFiles_cons (node : FsProperties) (nodes : List FsProperties) :
    shownFiles (node :: nodes) =
      if node.name = [] then shownFiles nodes
      else node.entry :: shownFiles nodes := by
  have hname : node.entry.name = node.name := rfl
  unfold shownFiles
  rw [List.map_cons, List.filter_cons]
  by_cases hnil : node.name = []
  · rw [if_pos hnil, if_neg (by simp [hname, hnil])]
  · rw [if_neg hnil, if_pos (by simp [hname, hnil])]

/-- Among files with different names a name is that of one file. -/
theorem findName_of_mem {nodes : List FsProperties} {e : Entry}
    (hunique : ((shownFiles nodes).map Entry.name).Nodup)
    (he : e ∈ shownFiles nodes) :
    ∃ node, findName e.name nodes = some node ∧ node.entry = e := by
  have hname : e.name ≠ [] := by
    simpa using (List.mem_filter.mp he).2
  induction nodes with
  | nil => cases he
  | cons node nodes ih =>
      rw [shownFiles_cons] at hunique he
      by_cases hnil : node.name = []
      · rw [if_pos hnil] at hunique he
        obtain ⟨found, hfound, hentry⟩ := ih hunique he
        refine ⟨found, ?_, hentry⟩
        rw [findName, if_neg fun h => hname (h.symm.trans hnil)]
        exact hfound
      · rw [if_neg hnil] at hunique he
        rw [List.map_cons, List.nodup_cons] at hunique
        rcases List.mem_cons.mp he with rfl | he
        · exact ⟨node, if_pos rfl, rfl⟩
        · obtain ⟨found, hfound, hentry⟩ := ih hunique.2 he
          refine ⟨found, ?_, hentry⟩
          rw [findName, if_neg]
          · exact hfound
          · intro h
            have hmem := List.mem_map_of_mem (f := Entry.name) he
            rw [← h] at hmem
            exact hunique.1 hmem

/-- The directory is the current one, and what was read last is its list. -/
structure DirTree.At (t : DirTree reader drive lba) (c : Cursor γ ψ) (d : ℕ) :
    Prop where
  place : c.state.place = ⟨drive, lba, d⟩
  nodes : shownFiles c.listing.nodes = t.entries d
  search : shownFiles c.listing.search = t.entries d

section Walk

variable {t : DirTree reader drive lba} {d d' : ℕ} {c : Cursor γ ψ}
  {name : List UInt8} {names : List (List UInt8)} {ds : List ℕ}
  {s : DriverState γ ψ}

theorem DirTree.Shown.read (hshown : t.Shown) (hd : d ∈ t.dirs)
    (hplace : s.place = ⟨drive, lba, d⟩) (hroom : t.blocks d ≤ s.fresh.length) :
    ∃ c : Cursor γ ψ, reader.read s = .ok (c.listing, c.state) ∧ t.At c d ∧
      s.fresh.length ≤ c.state.fresh.length + t.blocks d := by
  obtain ⟨listing, s', hread, hnodes, hsearch, hplace', hfresh⟩ :=
    hshown d hd s hplace hroom
  exact ⟨⟨listing, s'⟩, hread, ⟨hplace', hnodes, hsearch⟩, hfresh⟩

/-- A component that is the name of a subdirectory is entered. -/
theorem DirTree.Shown.enter (hshown : t.Shown) (hd : d ∈ t.dirs) (hat : t.At c d)
    (hsub : t.Sub d name d') (hroom : t.blocks d' ≤ c.state.fresh.length) :
    ∃ c', enter reader c name = .ok c' ∧ t.At c' d' ∧
      c.state.fresh.length ≤ c'.state.fresh.length + t.blocks d' := by
  obtain ⟨hd', e, he, rfl, htype, rfl⟩ := hsub
  rw [← hat.search] at he
  have hname : e.name ≠ [] := by
    simpa using (List.mem_filter.mp he).2
  obtain ⟨node, hfind, rfl⟩ := findName_of_mem
    (by rw [hat.search]; exact t.unique d hd) he
  obtain ⟨c', hread, hat', hfresh⟩ := hshown.read hd'
    (s := { c.state with place := { c.state.place with dir := node.start } })
    (by rw [hat.place]; rfl) hroom
  refine ⟨c', ?_, hat', hfresh⟩
  have htype' : node.fileType = directory := htype
  unfold Janus86.enter
  rw [if_neg hname, hfind]
  dsimp only at hread ⊢
  rw [if_pos htype', hread]

theorem DirTree.blocksOf_cons (t : DirTree reader drive lba) (d : ℕ) (ds : List ℕ) :
    t.blocksOf (d :: ds) = t.blocks d + t.blocksOf ds :=
  List.sum_cons

/-- The components are entered one after the other. -/
theorem DirTree.Shown.enters (hshown : t.Shown) (hleads : t.Leads d names ds)
    (hd : d ∈ t.dirs) (hat : t.At c d)
    (hroom : t.blocksOf ds ≤ c.state.fresh.length) :
    ∃ c', names.foldlM (Janus86.enter reader) c = .ok c' ∧
      t.At c' (ds.getLastD d) ∧
      c.state.fresh.length ≤ c'.state.fresh.length + t.blocksOf ds := by
  induction hleads generalizing c with
  | nil d => exact ⟨c, rfl, hat, Nat.le_add_right _ _⟩
  | @cons d d' name names ds hsub _ ih =>
      rw [t.blocksOf_cons] at hroom ⊢
      obtain ⟨c₁, henter, hat₁, hfresh₁⟩ := hshown.enter hd hat hsub (by omega)
      obtain ⟨c₂, hrest, hat₂, hfresh₂⟩ := ih hsub.1 hat₁ (by omega)
      refine ⟨c₂, ?_, ?_, by omega⟩
      · rw [List.foldlM_cons, henter]
        exact hrest
      · rw [List.getLastD_cons]
        exact hat₂

theorem DirTree.Shown.walkPath (hshown : t.Shown) (hleads : t.Leads d names ds)
    (hd : d ∈ t.dirs) (hplace : s.place = ⟨drive, lba, d⟩)
    (hroom : t.blocks d + t.blocksOf ds ≤ s.fresh.length) :
    ∃ c, walkPath reader names s = .ok c ∧ t.At c (ds.getLastD d) ∧
      s.fresh.length ≤ c.state.fresh.length + (t.blocks d + t.blocksOf ds) := by
  obtain ⟨c₁, hread, hat₁, hfresh₁⟩ := hshown.read hd hplace (by omega)
  obtain ⟨c₂, hwalk, hat₂, hfresh₂⟩ := hshown.enters hleads hd hat₁ (by omega)
  refine ⟨c₂, ?_, hat₂, by omega⟩
  unfold Janus86.walkPath
  rw [hread]
  exact hwalk

end Walk

/-! ## Several calls -/

/-- The driver is in the directory, and the list that was returned is its list. -/
structure DirTree.Shows (t : DirTree reader drive lba)
    (r : Reply × DriverState γ ψ) (d : ℕ) : Prop where
  place : r.2.place = ⟨drive, lba, d⟩
  list : ∃ listing, r.1 = .list listing ∧ shownFiles listing.nodes = t.entries d

/-- One call follows the components of its path. -/
def DirTree.Follows (t : DirTree reader drive lba)
    (chdir : List UInt8 → DriverState γ ψ → Except Fault (Reply × DriverState γ ψ)) :
    Prop :=
  ∀ (path : List UInt8) (names : List (List UInt8)) (d : ℕ) (ds : List ℕ)
    (s : DriverState γ ψ), Spells path names → NoLineFeed names →
    names.length ≤ directoryNum → path.length ≤ pathLen → t.Leads d names ds →
    d ∈ t.dirs → s.place = ⟨drive, lba, d⟩ →
    t.blocks d + t.blocksOf ds ≤ s.fresh.length →
    ∃ r, chdir path s = .ok r ∧ t.Shows r (ds.getLastD d) ∧
      s.fresh.length ≤ r.2.fresh.length + (t.blocks d + t.blocksOf ds)

/-- The calls are made one after the other. -/
def chdirs (chdir : List UInt8 → DriverState γ ψ → Except Fault (Reply × DriverState γ ψ))
    (paths : List (List UInt8)) (s : DriverState γ ψ) :
    Except Fault (Reply × DriverState γ ψ) :=
  paths.foldlM (fun r path => chdir path r.2) (.code 0, s)

theorem NoLineFeed.of_append {ps qs : List (List UInt8)} (hfeed : NoLineFeed (ps ++ qs)) :
    NoLineFeed ps ∧ NoLineFeed qs := by
  refine ⟨fun name hname => hfeed name ?_, fun name hname => hfeed name ?_⟩
  · cases ps with
    | nil => cases hname
    | cons first ps => exact List.mem_append_left _ hname
  · cases ps with
    | nil => exact hname
    | cons first ps => exact List.mem_append_right _ (List.mem_of_mem_tail hname)

section Calls

variable {t : DirTree reader drive lba} {d : ℕ} {ds : List ℕ}
  {chdir : List UInt8 → DriverState γ ψ → Except Fault (Reply × DriverState γ ψ)}

theorem last_of_append (ds₁ ds₂ : List ℕ) (d : ℕ) :
    (ds₁ ++ ds₂).getLastD d = ds₂.getLastD (ds₁.getLastD d) := by
  simp [List.getLastD_eq_getLast?, List.getLast?_append, Option.getD_or]

theorem DirTree.Leads.split {ps qs : List (List UInt8)}
    (hleads : t.Leads d (ps ++ qs) ds) :
    ∃ ds₁ ds₂, ds = ds₁ ++ ds₂ ∧ t.Leads d ps ds₁ ∧
      t.Leads (ds₁.getLastD d) qs ds₂ := by
  induction ps generalizing d ds with
  | nil => exact ⟨[], ds, rfl, .nil d, hleads⟩
  | cons name ps ih =>
      cases hleads with
      | @cons _ d' _ _ ds hsub hrest =>
          obtain ⟨ds₁, ds₂, rfl, hfirst, hsecond⟩ := ih hrest
          refine ⟨d' :: ds₁, ds₂, rfl, .cons hsub hfirst, ?_⟩
          rw [List.getLastD_cons]
          exact hsecond

theorem DirTree.Leads.length_eq {names : List (List UInt8)}
    (hleads : t.Leads d names ds) : ds.length = names.length := by
  induction hleads with
  | nil d => rfl
  | cons _ _ ih => rw [List.length_cons, List.length_cons, ih]

theorem DirTree.Leads.mem_dirs {names : List (List UInt8)}
    (hleads : t.Leads d names ds) (hd : d ∈ t.dirs) : ds.getLastD d ∈ t.dirs := by
  induction hleads with
  | nil d => exact hd
  | cons hsub _ ih =>
      rw [List.getLastD_cons]
      exact ih hsub.1

theorem DirTree.blocksOf_append (t : DirTree reader drive lba) (ds₁ ds₂ : List ℕ) :
    t.blocksOf (ds₁ ++ ds₂) = t.blocksOf ds₁ + t.blocksOf ds₂ := by
  simp [DirTree.blocksOf]

theorem DirTree.blocks_getLastD_le (t : DirTree reader drive lba) (hne : ds ≠ []) :
    t.blocks (ds.getLastD d) ≤ t.blocksOf ds := by
  rw [List.getLastD_eq_getLast?, List.getLast?_eq_some_getLast hne]
  exact List.single_le_sum (fun _ _ => Nat.zero_le _) _
    (List.mem_map_of_mem (List.getLast_mem hne))

/-- It does not matter how many calls follow the components. -/
theorem DirTree.Follows.calls (hfollows : t.Follows chdir) {paths : List (List UInt8)}
    {groups : List (List (List UInt8))} (hspelled : List.Forall₂ Spells paths groups)
    (hfeed : NoLineFeed groups.flatten) (hfew : groups.flatten.length ≤ directoryNum)
    (hshort : ∀ path ∈ paths, path.length ≤ pathLen)
    (hleads : t.Leads d groups.flatten ds) (hd : d ∈ t.dirs)
    {r : Reply × DriverState γ ψ} (hplace : r.2.place = ⟨drive, lba, d⟩)
    (hroom : t.blocks d + 2 * t.blocksOf ds ≤ r.2.fresh.length)
    (hlast : paths = [] → t.Shows r d) :
    ∃ r', paths.foldlM (fun r path => chdir path r.2) r = .ok r' ∧
      t.Shows r' (ds.getLastD d) := by
  induction hspelled generalizing d ds r with
  | nil =>
      cases hleads
      exact ⟨r, rfl, hlast rfl⟩
  | @cons path names paths groups hpath _ ih =>
      rw [List.flatten_cons] at hfeed hfew hleads
      rw [List.length_append] at hfew
      obtain ⟨ds₁, ds₂, rfl, hfirst, hrest⟩ := hleads.split
      rw [t.blocksOf_append] at hroom
      have hne : ds₁ ≠ [] := by
        obtain ⟨name, others, rfl, _⟩ := hpath.head
        rintro rfl
        cases hfirst.length_eq
      obtain ⟨r₁, hcall, hshows, hfresh⟩ := hfollows path names d ds₁ r.2 hpath
        hfeed.of_append.1 (by omega) (hshort path List.mem_cons_self) hfirst hd hplace
        (by omega)
      have hblocks := t.blocks_getLastD_le (d := d) hne
      obtain ⟨r₂, hcalls, hshows₂⟩ := ih hfeed.of_append.2 (by omega)
        (fun path hmem => hshort path (List.mem_cons_of_mem _ hmem)) hrest
        (hfirst.mem_dirs hd) hshows.place (by omega) fun _ => hshows
      refine ⟨r₂, ?_, ?_⟩
      · rw [List.foldlM_cons, hcall]
        exact hcalls
      · rw [last_of_append]
        exact hshows₂

end Calls

/-! ## Two paths -/

theorem Spells.length_le {path : List UInt8} {names : List (List UInt8)}
    (hspells : Spells path names) : ∀ name ∈ names, name.length ≤ path.length := by
  induction hspells with
  | last component n => simp
  | @cons name rest names component n _ ih =>
      intro other hother
      simp only [List.length_append, List.length_replicate]
      rcases List.mem_cons.mp hother with rfl | hother
      · omega
      · have hrest := ih other hother
        omega

/-- A component is a path. -/
theorem IsComponent.spells {name : List UInt8} (hname : IsComponent name) :
    Spells name [name] := by
  have hpath := Spells.last hname 0
  rwa [List.replicate_zero, List.append_nil] at hpath

/-- Two paths through the tree, the second one from where the first one leads, and
a driver in front of them with the blocks for all calls. -/
structure DirTree.Way (t : DirTree reader drive lba) where
  start : ℕ
  start_mem : start ∈ t.dirs
  p : List UInt8
  q : List UInt8
  ps : List (List UInt8)
  qs : List (List UInt8)
  spells_p : Spells p ps
  spells_q : Spells q qs
  few : (ps ++ qs).length ≤ directoryNum
  short : (p ++ 47 :: q).length ≤ pathLen
  ds : List ℕ
  leads : t.Leads start (ps ++ qs) ds
  state : DriverState γ ψ
  place : state.place = ⟨drive, lba, start⟩
  room : t.blocks start + 2 * t.blocksOf ds ≤ state.fresh.length

/-- The calls end in the last directory of the way and return its list. -/
def DirTree.Way.Lands {t : DirTree reader drive lba} (w : t.Way)
    (chdir : List UInt8 → DriverState γ ψ → Except Fault (Reply × DriverState γ ψ))
    (paths : List (List UInt8)) : Prop :=
  ∃ r, chdirs chdir paths w.state = .ok r ∧ t.Shows r (w.ds.getLastD w.start)

/-- One call for both paths, two calls, a call for the path with any slashes in it,
and a call for each component all land alike. -/
structure DirTree.Way.Resolves {t : DirTree reader drive lba} (w : t.Way)
    (chdir : List UInt8 → DriverState γ ψ → Except Fault (Reply × DriverState γ ψ)) :
    Prop where
  together : w.Lands chdir [w.p ++ 47 :: w.q]
  apart : w.Lands chdir [w.p, w.q]
  slashes : ∀ path, Spells path (w.ps ++ w.qs) → path.length ≤ pathLen →
    w.Lands chdir [path]
  stepwise : w.Lands chdir (w.ps ++ w.qs)

section Ways

variable {t : DirTree reader drive lba}
  {chdir : List UInt8 → DriverState γ ψ → Except Fault (Reply × DriverState γ ψ)}

theorem DirTree.Follows.lands (hfollows : t.Follows chdir) (w : t.Way)
    (hfeed : NoLineFeed (w.ps ++ w.qs)) {paths : List (List UInt8)}
    {groups : List (List (List UInt8))} (hspelled : List.Forall₂ Spells paths groups)
    (hgroups : groups.flatten = w.ps ++ w.qs)
    (hshort : ∀ path ∈ paths, path.length ≤ pathLen) : w.Lands chdir paths := by
  rw [← hgroups] at hfeed
  refine hfollows.calls hspelled hfeed ?_ hshort ?_ w.start_mem w.place w.room ?_
  · rw [hgroups]
    exact w.few
  · rw [hgroups]
    exact w.leads
  · rintro rfl
    cases hspelled
    obtain ⟨name, others, hps, _⟩ := w.spells_p.head
    rw [hps] at hgroups
    cases hgroups

theorem DirTree.Follows.resolves (hfollows : t.Follows chdir) (w : t.Way)
    (hfeed : NoLineFeed (w.ps ++ w.qs)) : w.Resolves chdir := by
  have hlength := w.short
  rw [List.length_append, List.length_cons] at hlength
  have hone : ∀ path, Spells path (w.ps ++ w.qs) → path.length ≤ pathLen →
      w.Lands chdir [path] := by
    intro path hpath hshort
    refine hfollows.lands w hfeed (.cons hpath .nil) (by simp) ?_
    simpa using hshort
  refine ⟨hone _ (w.spells_p.append w.spells_q) w.short, ?_, hone, ?_⟩
  · refine hfollows.lands w hfeed (.cons w.spells_p (.cons w.spells_q .nil))
      (by simp) ?_
    simp only [List.mem_cons, List.not_mem_nil, or_false, forall_eq_or_imp, forall_eq]
    omega
  · have hall := w.spells_p.append w.spells_q
    have hgroups : ((w.ps ++ w.qs).map fun name => [name]).flatten = w.ps ++ w.qs := by
      rw [← List.flatMap_def]
      exact List.flatMap_singleton' _
    refine hfollows.lands w hfeed ?_ hgroups fun name hname =>
      (hall.length_le name hname).trans w.short
    rw [List.forall₂_map_right_iff, List.forall₂_same]
    exact fun name hname => (hall.components name hname).spells

end Ways

/-! ## The drivers -/

namespace Ext2

/-- A tree of directories that are found on a mounted file system. -/
structure DiskTree (disk : Disk) (drive lba : ℕ) extends
    DirTree (Ext2.reader disk) drive lba where
  mountable : Mountable ⟨disk, drive, lba⟩
  found : ∀ d ∈ dirs, Nonempty (DirectoryFound ⟨disk, drive, lba⟩ d)

variable {disk : Disk} {drive lba : ℕ}

theorem DiskTree.readsAlike (t : DiskTree disk drive lba) : t.ReadsAlike := by
  intro d hd s s' more hplace hplace' hfresh
  have hvolume : s.volume disk = ⟨disk, drive, lba⟩ := by
    rw [DriverState.volume, hplace]
  obtain ⟨found⟩ := t.found d hd
  refine initCurrent_simulates ?_ hplace' ?_ hfresh
  · rw [hvolume]
    exact t.mountable
  · rw [hvolume, hplace]
    exact found

theorem DiskTree.shown (t : DiskTree disk drive lba) : t.Shown := t.readsAlike.shown

theorem DiskTree.follows (t : DiskTree disk drive lba) : t.Follows (ext2Chdir disk) := by
  intro path names d ds s hpath hfeed hfew hshort hleads hd hplace hroom
  obtain ⟨c, hwalk, hat, hfresh⟩ := t.shown.walkPath hleads hd hplace hroom
  refine ⟨(.list c.listing, c.state), ?_, ⟨hat.place, c.listing, rfl, hat.nodes⟩,
    hfresh⟩
  unfold ext2Chdir
  rw [hpath.cString_eq, if_neg (by omega), hpath.splitPath_eq hfeed hfew]
  dsimp only
  rw [hwalk]

end Ext2

namespace Fat32

/-- A tree of directories on a FAT32 file system; an entry `.` is for the directory
that it is in. -/
structure DiskTree (disk : Disk) (drive lba : ℕ) extends
    DirTree (Fat32.reader disk) drive lba where
  booted : Booted ⟨disk, drive, lba⟩
  linked : ∀ d ∈ dirs, isError (fat32RdFAT ⟨disk, drive, lba⟩
    (bootedGlobals ⟨disk, drive, lba⟩) d) = false
  dot : ∀ d ∈ dirs, ∀ e ∈ entries d, e.name = [46] → e.start = d

variable {disk : Disk} {drive lba : ℕ}

theorem DiskTree.readsAlike (t : DiskTree disk drive lba) : t.ReadsAlike := by
  intro d hd s s' more hplace hplace' hfresh
  have hvolume : s.volume disk = ⟨disk, drive, lba⟩ := by
    rw [DriverState.volume, hplace]
  refine initCurrent_simulates ?_ hplace' ?_ hfresh
  · rw [hvolume]
    exact t.booted
  · rw [hvolume, hplace]
    exact t.linked d hd

theorem DiskTree.shown (t : DiskTree disk drive lba) : t.Shown := t.readsAlike.shown

/-- The path `.` reads the directory twice and stays there. -/
theorem DiskTree.follows_dot (t : DiskTree disk drive lba) {d : ℕ} {ds : List ℕ} {s : State}
    (hleads : t.Leads d [[46]] ds) (hd : d ∈ t.dirs)
    (hplace : s.place = ⟨drive, lba, d⟩)
    (hroom : t.blocks d + t.blocksOf ds ≤ s.fresh.length) :
    ∃ r, chdirFat32 disk [46] s = .ok r ∧ t.Shows r (ds.getLastD d) ∧
      s.fresh.length ≤ r.2.fresh.length + (t.blocks d + t.blocksOf ds) := by
  cases hleads with
  | @cons _ d' _ _ _ hsub hrest =>
      cases hrest
      obtain ⟨_, e, he, hname, _, rfl⟩ := hsub
      rw [t.dot d hd e he hname, t.blocksOf_cons] at hroom ⊢
      obtain ⟨c₁, hread₁, hat₁, hfresh₁⟩ := t.shown.read hd hplace (by omega)
      obtain ⟨c₂, hread₂, hat₂, hfresh₂⟩ := t.shown.read hd hat₁.place (by omega)
      refine ⟨(.list c₂.listing, c₂.state), ?_,
        ⟨hat₂.place, c₂.listing, rfl, hat₂.nodes⟩, by dsimp only; omega⟩
      unfold chdirFat32
      rw [show cString [46] = [46] from rfl, if_neg (by decide), splitPath_dot]
      dsimp only
      rw [if_pos rfl, hread₁, ok_bind]
      dsimp only
      rw [hread₂]
      rfl

theorem DiskTree.follows (t : DiskTree disk drive lba) : t.Follows (chdirFat32 disk) := by
  intro path names d ds s hpath hfeed hfew hshort hleads hd hplace hroom
  have hsplit := hpath.splitPath_eq hfeed hfew
  by_cases hdot : path = [46]
  · subst hdot
    obtain rfl := Option.some.inj (splitPath_dot.symm.trans hsplit)
    exact t.follows_dot hleads hd hplace hroom
  · obtain ⟨c, hwalk, hat, hfresh⟩ := t.shown.walkPath hleads hd hplace hroom
    refine ⟨(.list c.listing, c.state), ?_, ⟨hat.place, c.listing, rfl, hat.nodes⟩,
      hfresh⟩
    unfold chdirFat32
    rw [hpath.cString_eq, if_neg (by omega), hsplit]
    dsimp only
    rw [if_neg hdot, hwalk]

end Fat32

/-- In both drivers it does not matter in how many calls, and with how many slashes,
the components are followed, unless one behind a slash begins with a line feed. -/
theorem chdir_resolves {disk : Disk} {drive lba : ℕ} :
    (∀ (t : Ext2.DiskTree disk drive lba) (w : t.Way), NoLineFeed (w.ps ++ w.qs) →
      w.Resolves (Ext2.ext2Chdir disk)) ∧
    ∀ (t : Fat32.DiskTree disk drive lba) (w : t.Way), NoLineFeed (w.ps ++ w.qs) →
      w.Resolves (Fat32.chdirFat32 disk) :=
  ⟨fun t w hfeed => t.follows.resolves w hfeed,
    fun t w hfeed => t.follows.resolves w hfeed⟩

/-! ## Two directories below a root -/

theorem exists_read {s : DriverState γ ψ} {entries : List Entry}
    (hshown : (reader.read s).toOption.map (fun r => shownFiles r.1.nodes) =
      some entries) :
    ∃ (s' : DriverState γ ψ) (listing : Listing),
      reader.read s = .ok (listing, s') ∧ shownFiles listing.nodes = entries := by
  cases hread : reader.read s with
  | error e =>
      rw [hread] at hshown
      cases hshown
  | ok r =>
      rw [hread] at hshown
      exact ⟨r.2, r.1, rfl, Option.some.inj hshown⟩

namespace Ext2

/-- The inodes 2, 3 and 4 are directories with one block and one record each: `a`
in the root, in `a` a name of a line feed and a `b`, and `.` in that directory. -/
def nestedDisk : Disk where
  readable := fun _ _ => true
  byte := fun _ n o =>
    if n = 2 then
      if o = 40 then 16 else if o = 56 then 0x53 else if o = 57 then 0xEF else 0
    else if n = 4 then (if o = 8 then 5 else 0)
    else if n = 10 then
      if o % 128 = 1 then 0x40
      else if o % 128 = 40 then UInt8.ofNat (o / 128 + 9) else 0
    else if n = 20 then (recordBytes 3 1024 [97]).getD o 0
    else if n = 22 then (recordBytes 4 1024 [10, 98]).getD o 0
    else if n = 24 then (recordBytes 4 1024 [46]).getD o 0
    else 0

def nestedVolume : Volume := ⟨nestedDisk, 0, 0⟩

def nestedState (dir room : ℕ) : State :=
  ⟨⟨0, 0, dir⟩, mountedGlobals nestedVolume, List.replicate room blank,
    fun _ => zeroStack⟩

theorem nested_found {n b : ℕ} {r : DirRecord}
    (hmode : isDir (le16 (sectorFound nestedVolume (mountedGlobals nestedVolume) n)
      (offsetFound (mountedGlobals nestedVolume) n)) = true)
    (hblocks : dataBlocks (blocksFound nestedVolume (mountedGlobals nestedVolume) n) =
      [b])
    (hrecord : recordAt (blockBytes nestedVolume 0 (mountedGlobals nestedVolume) b) 0 =
      r)
    (hlen : r.recLen = 1024) (hname : r.name.length ≤ 1016) :
    Nonempty (DirectoryFound nestedVolume n) := by
  have hbs : (mountedGlobals nestedVolume).bs = 1024 := by decide +kernel
  have hinodes : (mountedGlobals nestedVolume).inodesPerGroup = 16 := by
    decide +kernel
  have htiled : Tiled (blockBytes nestedVolume 0 (mountedGlobals nestedVolume) b)
      (mountedGlobals nestedVolume).bs 0 [r] :=
    .last_of_eq hrecord ⟨⟨256, hlen⟩, by omega⟩ (by omega)
  refine ⟨⟨[[r]], by simp, ⟨fun _ => rfl, Or.inl hbs, ?_, ?_, ?_⟩, hmode⟩⟩
  · rw [hinodes]
    decide
  · rw [hinodes, hbs]
    decide
  · rw [hblocks]
    exact .cons htiled .nil

def nestedTree : DiskTree nestedDisk 0 0 where
  dirs := {2, 3, 4}
  entries := fun d =>
    if d = 2 then [⟨[97], 3, 0, directory⟩]
    else if d = 3 then [⟨[10, 98], 4, 0, directory⟩] else [⟨[46], 4, 0, directory⟩]
  blocks := fun _ => 2
  listed := by
    rintro d (rfl | rfl | rfl)
    · exact ⟨nestedState 2 2, (exists_read (by decide +kernel)).imp
        fun s' hread => hread.imp fun listing hread => ⟨rfl, le_rfl, hread⟩⟩
    · exact ⟨nestedState 3 2, (exists_read (by decide +kernel)).imp
        fun s' hread => hread.imp fun listing hread => ⟨rfl, le_rfl, hread⟩⟩
    · exact ⟨nestedState 4 2, (exists_read (by decide +kernel)).imp
        fun s' hread => hread.imp fun listing hread => ⟨rfl, le_rfl, hread⟩⟩
  unique := by
    rintro d (rfl | rfl | rfl) <;> exact List.nodup_singleton _
  mountable := ⟨fun _ => rfl, by decide +kernel, by decide +kernel⟩
  found := by
    rintro d (rfl | rfl | rfl)
    · exact nested_found (b := 10) (by decide +kernel) (by decide +kernel) rfl
        (by decide +kernel) (by decide +kernel)
    · exact nested_found (b := 11) (by decide +kernel) (by decide +kernel) rfl
        (by decide +kernel) (by decide +kernel)
    · exact nested_found (b := 12) (by decide +kernel) (by decide +kernel) rfl
        (by decide +kernel) (by decide +kernel)

/-- From `a` to the directory below it, and to where its `.` leads. -/
def nestedWay : nestedTree.Way where
  start := 3
  start_mem := by simp [nestedTree]
  p := [10, 98]
  q := [46]
  ps := [[10, 98]]
  qs := [[46]]
  spells_p := IsComponent.spells ⟨by decide, by decide, by decide⟩
  spells_q := IsComponent.spells ⟨by decide, by decide, by decide⟩
  few := by decide
  short := by decide
  ds := [4, 4]
  leads := .cons (by simp [DirTree.Sub, nestedTree])
    (.cons (by simp [DirTree.Sub, nestedTree]) (.nil 4))
  state := nestedState 3 10
  place := rfl
  room := by decide

/-- From the root to `a` and to the directory below it. -/
def lineFeedWay : nestedTree.Way where
  start := 2
  start_mem := by simp [nestedTree]
  p := [97]
  q := [10, 98]
  ps := [[97]]
  qs := [[10, 98]]
  spells_p := IsComponent.spells ⟨by decide, by decide, by decide⟩
  spells_q := IsComponent.spells ⟨by decide, by decide, by decide⟩
  few := by decide
  short := by decide
  ds := [3, 4]
  leads := .cons (by simp [DirTree.Sub, nestedTree])
    (.cons (by simp [DirTree.Sub, nestedTree]) (.nil 4))
  state := nestedState 2 10
  place := rfl
  room := by decide

/-- One call looks for `b` in `a`, and stays there. -/
theorem lineFeed_taken_for_separator :
    ¬ lineFeedWay.Resolves (ext2Chdir nestedDisk) := by
  intro hresolves
  obtain ⟨r, hrun, hplace, _⟩ := hresolves.together
  have hstays : (chdirs (ext2Chdir nestedDisk) [[97, 47, 10, 98]]
      (nestedState 2 10)).toOption.map (fun r => r.2.place.dir) = some 3 := by
    decide +kernel
  rw [show chdirs (ext2Chdir nestedDisk) [[97, 47, 10, 98]] (nestedState 2 10) = .ok r
    from hrun] at hstays
  have hdir : r.2.place.dir = 3 := Option.some.inj hstays
  rw [hplace] at hdir
  cases hdir

/-! ### A root with two blocks -/

/-- A record of the directory has the name and is for the directory `d'`. -/
structure RecordSub (vol : Volume) (d : ℕ) (name : List UInt8) (d' : ℕ) : Prop where
  record : ∃ found : DirectoryFound vol d,
    (found.records.flatten.map DirRecord.name).Nodup ∧
      ∃ r ∈ found.records.flatten, r.name = name ∧ r.inode = d'
  found : Nonempty (DirectoryFound vol d')

/-- By the records the components lead from subdirectory to subdirectory. -/
inductive RecordsLead (vol : Volume) : ℕ → List (List UInt8) → List ℕ → Prop
  | nil (d : ℕ) : RecordsLead vol d [] []
  | cons {d d' : ℕ} {name : List UInt8} {names : List (List UInt8)} {ds : List ℕ}
      (sub : RecordSub vol d name d') (rest : RecordsLead vol d' names ds) :
      RecordsLead vol d (name :: names) (d' :: ds)

/-- One call for two paths and a call for each of them come to the directory to
which the records lead, whenever they come back. -/
def RecordsResolve (vol : Volume) : Prop :=
  ∀ (d : ℕ) (p q : List UInt8) (ps qs : List (List UInt8)) (ds : List ℕ)
    (s : State) (r r' : Reply × State), Mountable vol →
    Spells p ps → Spells q qs → NoLineFeed (ps ++ qs) →
    (ps ++ qs).length ≤ directoryNum → (p ++ 47 :: q).length ≤ pathLen →
    RecordsLead vol d (ps ++ qs) ds → s.place = ⟨vol.drive, vol.lba, d⟩ →
    chdirs (ext2Chdir vol.disk) [p ++ 47 :: q] s = .ok r →
    chdirs (ext2Chdir vol.disk) [p, q] s = .ok r' →
    r.2.place = ⟨vol.drive, vol.lba, ds.getLastD d⟩ ∧ r'.2.place = r.2.place

/-- The first block of the root holds `.`, `..` and `a`, the second one `b`.  In
`a` are `.`, `..` and another `b`. -/
def splitDisk : Disk where
  readable := fun _ _ => true
  byte := fun _ n o =>
    if n = 2 then
      if o = 40 then 16 else if o = 56 then 0x53 else if o = 57 then 0xEF else 0
    else if n = 4 then (if o = 8 then 5 else 0)
    else if n = 10 then
      if o % 128 = 1 then 0x40
      else if o % 128 = 40 then UInt8.ofNat (o / 128 + 9)
      else if o = 128 + 44 then 14 else 0
    else if n = 11 then (if o = 1 then 0x40 else if o = 40 then 13 else 0)
    else if n = 20 then
      (recordBytes 2 12 [46] ++ recordBytes 2 12 [46, 46] ++
        recordBytes 3 1000 [97]).getD o 0
    else if n = 28 then (recordBytes 4 1024 [98]).getD o 0
    else if n = 22 then
      (recordBytes 3 12 [46] ++ recordBytes 2 12 [46, 46] ++
        recordBytes 5 1000 [98]).getD o 0
    else if n = 24 then (recordBytes 4 1024 [46]).getD o 0
    else if n = 26 then (recordBytes 5 1024 [46]).getD o 0
    else 0

def splitVolume : Volume := ⟨splitDisk, 0, 0⟩

def splitState (room : ℕ) : State :=
  ⟨⟨0, 0, 2⟩, mountedGlobals splitVolume, List.replicate room blank,
    fun _ => zeroStack⟩

/-- A directory of that disk, from its blocks and their records. -/
def splitFound {n : ℕ} (blocks : List ℕ) (records : List (List DirRecord))
    (hne : records ≠ [])
    (hmode : isDir (le16 (sectorFound splitVolume (mountedGlobals splitVolume) n)
      (offsetFound (mountedGlobals splitVolume) n)) = true)
    (hblocks : dataBlocks (blocksFound splitVolume (mountedGlobals splitVolume)
      n) = blocks)
    (htiled : List.Forall₂ (fun b rs => Tiled (blockBytes splitVolume 0
      (mountedGlobals splitVolume) b) 1024 0 rs) blocks records) :
    DirectoryFound splitVolume n where
  records := records
  records_ne := hne
  mode := hmode
  directory := by
    have hbs : (mountedGlobals splitVolume).bs = 1024 := by decide +kernel
    have hinodes : (mountedGlobals splitVolume).inodesPerGroup = 16 := by
      decide +kernel
    refine ⟨fun _ => rfl, Or.inl hbs, ?_, ?_, ?_⟩
    · rw [hinodes]
      decide
    · rw [hinodes, hbs]
      decide
    · rw [hblocks, hbs]
      exact htiled

def splitRoot : DirectoryFound splitVolume 2 :=
  splitFound [10, 14]
    [[⟨2, 12, 2, [46]⟩, ⟨2, 12, 2, [46, 46]⟩, ⟨3, 1000, 2, [97]⟩],
      [⟨4, 1024, 2, [98]⟩]]
    (by simp) (by decide +kernel) (by decide +kernel)
    (.cons (.next_of_eq rfl (by decide) (.next_of_eq rfl (by decide)
      (.last_of_eq rfl (by decide) rfl)))
      (.cons (.last_of_eq rfl (by decide) rfl) .nil))

def splitSub : DirectoryFound splitVolume 3 :=
  splitFound [11]
    [[⟨3, 12, 2, [46]⟩, ⟨2, 12, 2, [46, 46]⟩, ⟨5, 1000, 2, [98]⟩]]
    (by simp) (by decide +kernel) (by decide +kernel)
    (.cons (.next_of_eq rfl (by decide) (.next_of_eq rfl (by decide)
      (.last_of_eq rfl (by decide) rfl))) .nil)

def splitLeaf : DirectoryFound splitVolume 5 :=
  splitFound [13] [[⟨5, 1024, 2, [46]⟩]]
    (by simp) (by decide +kernel) (by decide +kernel)
    (.cons (.last_of_eq rfl (by decide) rfl) .nil)

/-- The last record of the first block is lost, so that `a` cannot be entered: the
path `a/b` stays in the root, and `a` followed by `b` comes to the `b` of the root. -/
theorem lost_record_not_entered : ¬ RecordsResolve splitVolume := by
  intro hresolve
  have hspells : ∀ c : UInt8, c ≠ 47 → c ≠ 0 → Spells [c] [[c]] := fun c hslash hzero =>
    IsComponent.spells ⟨by simp, by simpa using hslash.symm, by simpa using hzero.symm⟩
  have hlead : RecordsLead splitVolume 2 [[97], [98]] [3, 5] :=
    .cons ⟨⟨splitRoot, by decide, ⟨3, 1000, 2, [97]⟩,
          by simp [splitRoot, splitFound], rfl, rfl⟩,
        ⟨splitSub⟩⟩
      (.cons ⟨⟨splitSub, by decide, ⟨5, 1000, 2, [98]⟩,
          by simp [splitSub, splitFound], rfl, rfl⟩,
        ⟨splitLeaf⟩⟩ (.nil 5))
  have hone : (chdirs (ext2Chdir splitDisk) [[97, 47, 98]]
      (splitState 20)).toOption.map (fun r => r.2.place.dir) = some 2 := by
    decide +kernel
  have htwo : (chdirs (ext2Chdir splitDisk) [[97], [98]]
      (splitState 20)).toOption.map (fun r => r.2.place.dir) = some 4 := by
    decide +kernel
  cases hrun : chdirs (ext2Chdir splitDisk) [[97, 47, 98]] (splitState 20) with
  | error e =>
      rw [hrun] at hone
      cases hone
  | ok r =>
      cases hrun' : chdirs (ext2Chdir splitDisk) [[97], [98]] (splitState 20) with
      | error e =>
          rw [hrun'] at htwo
          cases htwo
      | ok r' =>
          rw [hrun] at hone
          have hdir : r.2.place.dir = 2 := Option.some.inj hone
          obtain ⟨hplace, -⟩ := hresolve 2 [97] [98] [[97]] [[98]] [3, 5]
            (splitState 20) r r' ⟨fun _ => rfl, by decide +kernel, by decide +kernel⟩
            (hspells 97 (by decide) (by decide)) (hspells 98 (by decide) (by decide))
            (by decide) (by decide) (by decide) hlead rfl hrun hrun'
          rw [hplace] at hdir
          cases hdir

end Ext2

namespace Fat32

/-- The root in cluster 2 lists the directory `A`, which is cluster 3 and has an
entry `.` for itself. -/
def nestedVolume : Volume :=
  smallVolume [0, 0, 0x0FFFFFFF, 0x0FFFFFFF] fun n =>
    if n = 2 then [dirEntry (65 :: List.replicate 10 32) 0x10 3 0]
    else if n = 3 then [dirEntry (46 :: List.replicate 10 32) 0x10 3 0] else []

def nestedState (dir room : ℕ) : State :=
  ⟨⟨0, 0, dir⟩, ⟨0, 0, 0⟩, List.replicate room blank, fun _ => zeroStack⟩

def nestedTree : DiskTree nestedVolume.disk 0 0 where
  dirs := {2, 3}
  entries := fun d =>
    if d = 2 then [⟨[65], 3, 0, directory⟩] else [⟨[46], 3, 0, directory⟩]
  blocks := fun _ => 2
  listed := by
    rintro d (rfl | rfl)
    · exact ⟨nestedState 2 2, (exists_read (by decide +kernel)).imp
        fun s' hread => hread.imp fun listing hread => ⟨rfl, le_rfl, hread⟩⟩
    · exact ⟨nestedState 3 2, (exists_read (by decide +kernel)).imp
        fun s' hread => hread.imp fun listing hread => ⟨rfl, le_rfl, hread⟩⟩
  unique := by
    rintro d (rfl | rfl) <;> exact List.nodup_singleton _
  booted := ⟨fun _ => rfl, by decide +kernel⟩
  linked := by
    rintro d (rfl | rfl) <;> decide +kernel
  dot := by
    rintro d (rfl | rfl) <;> simp

/-- From the root to `A`, and to where its `.` leads. -/
def nestedWay : nestedTree.Way where
  start := 2
  start_mem := by simp [nestedTree]
  p := [65]
  q := [46]
  ps := [[65]]
  qs := [[46]]
  spells_p := IsComponent.spells ⟨by decide, by decide, by decide⟩
  spells_q := IsComponent.spells ⟨by decide, by decide, by decide⟩
  few := by decide
  short := by decide
  ds := [3, 3]
  leads := .cons (by simp [DirTree.Sub, nestedTree])
    (.cons (by simp [DirTree.Sub, nestedTree]) (.nil 3))
  state := nestedState 2 10
  place := rfl
  room := by decide

end Fat32

theorem nested_resolves :
    Ext2.nestedWay.Resolves (Ext2.ext2Chdir Ext2.nestedDisk) ∧
      Fat32.nestedWay.Resolves (Fat32.chdirFat32 Fat32.nestedVolume.disk) :=
  ⟨chdir_resolves.1 Ext2.nestedTree Ext2.nestedWay (by decide),
    chdir_resolves.2 Fat32.nestedTree Fat32.nestedWay (by decide)⟩

end Janus86
