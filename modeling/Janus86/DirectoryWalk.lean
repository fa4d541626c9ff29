import Janus86.ShellArguments

/-!
# Walking along a path

Both drivers resolve a path in the same way.  The path is cut into a table of
components, the current directory is read, and each component is looked up in
the list that was read last; a component that is a directory becomes the current
directory at once and is read.  Where a component cannot be entered the walk
stops, and the current directory is the one that it has come to.
-/

namespace Janus86

/-! ## Components -/

def directoryNum : ℕ := 10

def pathLen : ℕ := 100

/-- The loop that fills `argtable`, with room for `n` more components; `none`
when they do not suffice.  A component ends at a slash, and the slashes and line
feeds behind it belong to no component. -/
def splitPath : ℕ → List UInt8 → Option (List (List UInt8))
  | _, [] => some []
  | 0, _ :: _ => none
  | n + 1, path =>
      (splitPath n ((path.dropWhile (· != 47)).dropWhile
          fun c => c == 47 || c == 10)).map fun args =>
        path.takeWhile (· != 47) :: args

/-! ## Where a driver is -/

inductive FsKind where
  | ext2
  | vfat
  deriving DecidableEq

/-- `current_drive`, `current_lba`, and `current_inode` or `current_cluster`. -/
structure Place where
  drive : ℕ
  lba : ℕ
  dir : ℕ
  deriving DecidableEq

/-- What a driver keeps from call to call, the blocks that `kmalloc` still has,
and what its calls will find in their local arrays. -/
structure DriverState (γ ψ : Type) where
  place : Place
  globals : γ
  fresh : List FreshBlock
  locals : ℕ → ψ

/-- A list that was built, with the directory it was built for, and the part of
it in which a name is looked up. -/
structure Listing where
  kind : FsKind
  place : Place
  nodes : List FsProperties
  search : List FsProperties

/-- How a driver reads its current directory: it lists it and stays where it
is. -/
structure Reader (γ ψ : Type) where
  kind : FsKind
  read : DriverState γ ψ → Except Fault (Listing × DriverState γ ψ)
  stays : ∀ s listing s', read s = .ok (listing, s') →
    listing.kind = kind ∧ listing.place = s.place ∧ s'.place = s.place

/-! ## The walk -/

/-- The list that was read last, and the driver. -/
structure Cursor (γ ψ : Type) where
  listing : Listing
  state : DriverState γ ψ

inductive Halt (γ ψ : Type) where
  | fault (fault : Fault)
  | missing (cursor : Cursor γ ψ)
  | notDirectory (cursor : Cursor γ ψ)

variable {γ ψ : Type}

def enter (reader : Reader γ ψ) (c : Cursor γ ψ) (name : List UInt8) :
    Except (Halt γ ψ) (Cursor γ ψ) :=
  if name = [] then .ok c
  else
    match findName name c.listing.search with
    | none => .error (.missing c)
    | some node =>
        if node.fileType = directory then
          match reader.read
              { c.state with place := { c.state.place with dir := node.start } } with
          | .error e => .error (.fault e)
          | .ok (listing, state) => .ok ⟨listing, state⟩
        else .error (.notDirectory c)

/-- The current directory is read, and then the components are entered. -/
def walkPath (reader : Reader γ ψ) (args : List (List UInt8))
    (s : DriverState γ ψ) : Except (Halt γ ψ) (Cursor γ ψ) :=
  match reader.read s with
  | .error e => .error (.fault e)
  | .ok (listing, state) => args.foldlM (enter reader) ⟨listing, state⟩

/-- The list is that of the directory in which the driver is. -/
def Cursor.Settled (reader : Reader γ ψ) (c : Cursor γ ψ) : Prop :=
  c.listing.kind = reader.kind ∧ c.listing.place = c.state.place

/-- What a walk that has not faulted leaves. -/
def Arrives (walk : Except (Halt γ ψ) (Cursor γ ψ)) (c : Cursor γ ψ) : Prop :=
  walk = .ok c ∨ walk = .error (.missing c) ∨ walk = .error (.notDirectory c)

/-- A walk stops in front of a component. -/
def Stops (walk : Except (Halt γ ψ) (Cursor γ ψ)) (c : Cursor γ ψ) : Prop :=
  walk = .error (.missing c) ∨ walk = .error (.notDirectory c)

theorem settled_read {reader : Reader γ ψ} {s s' : DriverState γ ψ}
    {listing : Listing} (hread : reader.read s = .ok (listing, s')) :
    Cursor.Settled reader ⟨listing, s'⟩ := by
  obtain ⟨hkind, hplace, hstays⟩ := reader.stays s listing s' hread
  exact ⟨hkind, hplace.trans hstays.symm⟩

/-- A component that is not entered leaves all as it was. -/
theorem enter_arrives {reader : Reader γ ψ} {c c' : Cursor γ ψ}
    {name : List UInt8} (harrives : Arrives (enter reader c name) c') :
    c' = c ∨ ∃ dir, reader.read
        { c.state with place := { c.state.place with dir := dir } } =
      .ok (c'.listing, c'.state) := by
  unfold enter at harrives
  split at harrives
  · rcases harrives with h | h | h <;> cases h
    exact Or.inl rfl
  · split at harrives
    · rcases harrives with h | h | h <;> cases h
      exact Or.inl rfl
    · next node _ =>
        split at harrives
        · split at harrives
          · rcases harrives with h | h | h <;> cases h
          · next hread =>
              rcases harrives with h | h | h <;> cases h
              exact Or.inr ⟨node.start, hread⟩
        · rcases harrives with h | h | h <;> cases h
          exact Or.inl rfl

theorem entries_invariant {reader : Reader γ ψ}
    {invariant : Cursor γ ψ → Prop}
    (henter : ∀ c name c', invariant c → Arrives (enter reader c name) c' →
      invariant c')
    {args : List (List UInt8)} {c c' : Cursor γ ψ} (hstart : invariant c)
    (harrives : Arrives (args.foldlM (enter reader) c) c') : invariant c' := by
  induction args generalizing c with
  | nil =>
      rcases harrives with h | h | h <;> cases h
      exact hstart
  | cons name args ih =>
      rw [List.foldlM_cons] at harrives
      cases hfirst : enter reader c name with
      | ok middle =>
          rw [hfirst] at harrives
          exact ih (henter c name middle hstart (Or.inl hfirst)) harrives
      | error halt =>
          rw [hfirst] at harrives
          have hhere : Arrives (enter reader c name) c' := by
            rw [hfirst]
            rcases harrives with h | h | h <;> cases h
            · exact Or.inr (Or.inl rfl)
            · exact Or.inr (Or.inr rfl)
          exact henter c name c' hstart hhere

theorem settled_enter {reader : Reader γ ψ} {c c' : Cursor γ ψ}
    {name : List UInt8} (hsettled : c.Settled reader)
    (harrives : Arrives (enter reader c name) c') : c'.Settled reader := by
  rcases enter_arrives harrives with rfl | ⟨dir, hread⟩
  · exact hsettled
  · exact settled_read hread

theorem settled_entries {reader : Reader γ ψ} {args : List (List UInt8)}
    {c c' : Cursor γ ψ} (hsettled : c.Settled reader)
    (harrives : Arrives (args.foldlM (enter reader) c) c') :
    c'.Settled reader :=
  entries_invariant (fun _ _ _ => settled_enter) hsettled harrives

/-- Wherever a walk comes to, the list it has is that of the directory. -/
theorem settled_walkPath {reader : Reader γ ψ} {args : List (List UInt8)}
    {s : DriverState γ ψ} {c : Cursor γ ψ}
    (harrives : Arrives (walkPath reader args s) c) : c.Settled reader := by
  unfold walkPath at harrives
  cases hread : reader.read s with
  | error e =>
      rw [hread] at harrives
      rcases harrives with h | h | h <;> cases h
  | ok x =>
      rw [hread] at harrives
      exact settled_entries (settled_read hread) harrives

end Janus86
