import Janus86.ChainWalk
import Janus86.FileListing
import Janus86.PartitionModel

/-!
# The walks of the partition scan

A call of `get_boot_sector` walks along the links of extended boot sectors,
which all count from the start of the extended partition.  The call comes back
exactly when the walk stops, and what it does is what it does for each boot
sector it comes to.  Which walks there are is decided by the slots of the boot
sector that `temp` points to: that is the MBR until the first walk has moved
it.
-/

namespace Janus86
namespace Partition

open ChainWalk

/-! ## One boot sector -/

/-- The boot sector at an address, if it can be read. -/
def bootAt (disk : Disk) (drive lba : ℕ) : Option BootSector :=
  (readDiskSector disk (fun _ => 0) drive lba 1).map bootSectorOf

/-- It is readable and signed: a record is made of its first slot. -/
def recorded (disk : Disk) (drive lba : ℕ) : Bool :=
  match bootAt disk drive lba with
  | none => false
  | some bs => bs.signature == mbrSignature

/-- The walk does not go on behind it. -/
def BootStops (disk : Disk) (drive lba : ℕ) : Prop :=
  ∀ bs, bootAt disk drive lba = some bs → bs.signature = mbrSignature →
    (bs.part 1).type = 0

/-- The address that its link gives. -/
def linkOf (disk : Disk) (drive extlba lba : ℕ) : ℕ :=
  match bootAt disk drive lba with
  | none => 0
  | some bs => nextBoot bs extlba

/-- What a call of `get_boot_sector` does besides the call for the next boot
sector. -/
def visitBoot (disk : Disk) (drive : ℕ) (s : PartState) (lba : ℕ) : PartState :=
  match bootAt disk drive lba with
  | none => { s.dropBlock with temp := staleSector (s.fresh 0) }
  | some bs =>
      let s := { s.dropBlock with temp := bs }
      if bs.signature = mbrSignature then
        savePartProps (bs.part 0) lba
          { s with booted := s.booted ++ [(drive, ataLba lba)] }
      else s

variable {disk : Disk} {drive : ℕ}

theorem getBootSector_of_stops {extlba fuel lba : ℕ} (s : PartState)
    (hstop : BootStops disk drive lba) :
    getBootSector disk drive extlba (fuel + 1) lba s =
      .ok (visitBoot disk drive s lba) := by
  unfold BootStops at hstop
  rw [getBootSector, visitBoot]
  unfold bootAt at hstop ⊢
  cases hread : readDiskSector disk (fun _ => 0) drive lba 1 with
  | none => rfl
  | some buf =>
      simp only [hread, Option.map_some, Option.some.injEq, forall_eq'] at hstop ⊢
      split
      · next hsigned =>
          have hlast := hstop hsigned
          simp only [hlast, ne_eq, not_true_eq_false, if_false]
      · rfl

theorem getBootSector_of_link {extlba fuel lba : ℕ} (s : PartState)
    (hpass : ¬BootStops disk drive lba) :
    getBootSector disk drive extlba (fuel + 1) lba s =
      getBootSector disk drive extlba fuel (linkOf disk drive extlba lba)
        (visitBoot disk drive s lba) := by
  unfold BootStops at hpass
  rw [getBootSector, visitBoot, linkOf]
  unfold bootAt at hpass ⊢
  cases hread : readDiskSector disk (fun _ => 0) drive lba 1 with
  | none => simp [hread] at hpass
  | some buf =>
      simp only [hread, Option.map_some, Option.some.injEq, forall_eq',
        Classical.not_imp] at hpass ⊢
      obtain ⟨hsigned, hlink⟩ := hpass
      rw [if_pos hsigned, if_pos hlink, if_pos hsigned]

/-! ## One walk -/

/-- The walk from `lba` on stops after `i` links. -/
def WalkStops (disk : Disk) (drive extlba lba i : ℕ) : Prop :=
  EndsAt (linkOf disk drive extlba) (fun _ => BootStops disk drive) lba i

/-- The boot sectors it comes to. -/
def walk (disk : Disk) (drive extlba lba i : ℕ) : List ℕ :=
  List.iterate (linkOf disk drive extlba) lba (i + 1)

theorem walk_zero (extlba lba : ℕ) : walk disk drive extlba lba 0 = [lba] :=
  rfl

theorem getBootSector_of_walkStops {extlba lba i fuel : ℕ} (s : PartState)
    (hstops : WalkStops disk drive extlba lba i) (hfuel : i < fuel) :
    getBootSector disk drive extlba fuel lba s =
      .ok ((walk disk drive extlba lba i).foldl (visitBoot disk drive) s) := by
  obtain ⟨fuel, rfl⟩ : ∃ n, fuel = n + 1 := ⟨fuel - 1, by omega⟩
  induction i generalizing lba s fuel with
  | zero => exact getBootSector_of_stops s (endsAt_zero_iff.mp hstops)
  | succ i ih =>
      obtain ⟨hpass, hrest⟩ := endsAt_succ_iff.mp hstops
      obtain ⟨fuel, rfl⟩ : ∃ n, fuel = n + 1 := ⟨fuel - 1, by omega⟩
      rw [getBootSector_of_link s hpass, ih _ hrest fuel (by omega)]
      rfl

theorem walkStops_of_getBootSector {extlba lba fuel : ℕ} {s s' : PartState}
    (hok : getBootSector disk drive extlba fuel lba s = .ok s') :
    ∃ i < fuel, WalkStops disk drive extlba lba i := by
  induction fuel generalizing lba s with
  | zero => cases hok
  | succ fuel ih =>
      by_cases hstop : BootStops disk drive lba
      · exact ⟨0, Nat.zero_lt_succ fuel, endsAt_zero_iff.mpr hstop⟩
      · rw [getBootSector_of_link s hstop] at hok
        obtain ⟨i, hi, hrest⟩ := ih hok
        exact ⟨i + 1, Nat.succ_lt_succ hi, endsAt_succ_iff.mpr ⟨hstop, hrest⟩⟩

/-- A boot sector is the same under every address that the drive takes for the
same sector. -/
theorem bootAt_congr {lba lba' : ℕ} (hsame : ataLba lba = ataLba lba') :
    bootAt disk drive lba = bootAt disk drive lba' := by
  unfold bootAt readDiskSector
  rw [hsame]

theorem WalkStops.nodup {extlba lba i : ℕ}
    (hstops : WalkStops disk drive extlba lba i) :
    ((walk disk drive extlba lba i).map ataLba).Nodup := by
  refine EndsAt.nodup_map (fun x y hsame => ?_) (fun x y hsame => ?_) hstops
  · rw [linkOf, linkOf, bootAt_congr hsame]
  · unfold BootStops
    rw [bootAt_congr hsame]
    exact id

/-! ## The slots that are looked at -/

/-- The walks that start from these slots, one slot after the other, each of
the boot sector that `temp` points to by then. -/
inductive SeenWalks (disk : Disk) (drive : ℕ) :
    PartState → List ℕ → List (List ℕ) → Prop
  | done (s : PartState) : SeenWalks disk drive s [] []
  | skip {s : PartState} {i : ℕ} {is : List ℕ} {ws : List (List ℕ)}
      (hslot : isExtended (s.temp.part i).type = false)
      (hrest : SeenWalks disk drive s is ws) :
      SeenWalks disk drive s (i :: is) ws
  | follow {s : PartState} {i links : ℕ} {is : List ℕ} {ws : List (List ℕ)}
      (hslot : isExtended (s.temp.part i).type = true)
      (hstops : WalkStops disk drive (s.temp.part i).startLba
        (s.temp.part i).startLba links)
      (hrest : SeenWalks disk drive
        ((walk disk drive (s.temp.part i).startLba (s.temp.part i).startLba
          links).foldl (visitBoot disk drive) s) is ws) :
      SeenWalks disk drive s (i :: is)
        (walk disk drive (s.temp.part i).startLba (s.temp.part i).startLba
          links :: ws)

theorem checkIfExtended_skip {s : PartState} {i : ℕ} (fuel : ℕ)
    (hslot : isExtended (s.temp.part i).type = false) :
    checkIfExtended disk drive fuel s i = .ok s := by
  simp [checkIfExtended, hslot]

theorem checkIfExtended_follow {s : PartState} {i : ℕ} (fuel : ℕ)
    (hslot : isExtended (s.temp.part i).type = true) :
    checkIfExtended disk drive fuel s i =
      getBootSector disk drive (s.temp.part i).startLba fuel
        (s.temp.part i).startLba s := by
  simp [checkIfExtended, hslot]

theorem SeenWalks.scan {s : PartState} {is : List ℕ} {ws : List (List ℕ)}
    (hseen : SeenWalks disk drive s is ws) :
    ∃ enough, ∀ fuel ≥ enough,
      is.foldlM (checkIfExtended disk drive fuel) s =
        .ok (ws.flatten.foldl (visitBoot disk drive) s) := by
  induction hseen with
  | done s => exact ⟨0, fun _ _ => rfl⟩
  | skip hslot _ ih =>
      obtain ⟨enough, hscan⟩ := ih
      refine ⟨enough, fun fuel hfuel => ?_⟩
      rw [List.foldlM_cons, checkIfExtended_skip fuel hslot, ok_bind,
        hscan fuel hfuel]
  | @follow s i links is ws hslot hstops _ ih =>
      obtain ⟨enough, hscan⟩ := ih
      refine ⟨max enough (links + 1), fun fuel hfuel => ?_⟩
      rw [List.foldlM_cons, checkIfExtended_follow fuel hslot,
        getBootSector_of_walkStops s hstops (by omega), ok_bind,
        hscan fuel (by omega), List.flatten_cons, List.foldl_append]

theorem seenWalks_of_scan {fuel : ℕ} {s s' : PartState} {is : List ℕ}
    (hok : is.foldlM (checkIfExtended disk drive fuel) s = .ok s') :
    ∃ ws, SeenWalks disk drive s is ws ∧
      s' = ws.flatten.foldl (visitBoot disk drive) s := by
  induction is generalizing s with
  | nil =>
      cases hok
      exact ⟨[], .done _, rfl⟩
  | cons i is ih =>
      rw [List.foldlM_cons] at hok
      obtain ⟨mid, hslot, hrest⟩ := bind_eq_ok_iff.mp hok
      cases htype : isExtended (s.temp.part i).type with
      | false =>
          rw [checkIfExtended_skip fuel htype] at hslot
          cases hslot
          obtain ⟨ws, hseen, hlast⟩ := ih hrest
          exact ⟨ws, .skip htype hseen, hlast⟩
      | true =>
          rw [checkIfExtended_follow fuel htype] at hslot
          obtain ⟨links, hlt, hstops⟩ := walkStops_of_getBootSector hslot
          rw [getBootSector_of_walkStops s hstops hlt] at hslot
          cases hslot
          obtain ⟨ws, hseen, hlast⟩ := ih hrest
          refine ⟨_, .follow htype hstops hseen, ?_⟩
          rw [hlast, List.flatten_cons, List.foldl_append]

theorem SeenWalks.unique {s : PartState} {is : List ℕ} {ws ws' : List (List ℕ)}
    (hseen : SeenWalks disk drive s is ws)
    (hseen' : SeenWalks disk drive s is ws') : ws = ws' := by
  induction hseen generalizing ws' with
  | done s =>
      cases hseen'
      rfl
  | skip hslot _ ih =>
      cases hseen' with
      | skip _ hrest => exact ih hrest
      | follow hslot' _ _ =>
          rw [hslot] at hslot'
          cases hslot'
  | follow hslot hstops _ ih =>
      cases hseen' with
      | skip hslot' _ =>
          rw [hslot] at hslot'
          cases hslot'
      | follow _ hstops' hrest =>
          obtain rfl := EndsAt.unique hstops hstops'
          rw [ih hrest]

theorem SeenWalks.follow_from {s : PartState} {i lba links : ℕ} {is : List ℕ}
    {ws : List (List ℕ)} (hslot : isExtended (s.temp.part i).type = true)
    (hlba : (s.temp.part i).startLba = lba)
    (hstops : WalkStops disk drive lba lba links)
    (hrest : SeenWalks disk drive
      ((walk disk drive lba lba links).foldl (visitBoot disk drive) s) is ws) :
    SeenWalks disk drive s (i :: is) (walk disk drive lba lba links :: ws) := by
  subst hlba
  exact .follow hslot hstops hrest

theorem SeenWalks.skip_all {s : PartState} {is js : List ℕ}
    {ws : List (List ℕ)}
    (hslots : ∀ i ∈ is, isExtended (s.temp.part i).type = false)
    (hrest : SeenWalks disk drive s js ws) : SeenWalks disk drive s (is ++ js) ws := by
  induction is with
  | nil => exact hrest
  | cons i is ih =>
      refine .skip (hslots i List.mem_cons_self) (ih fun j hj => ?_)
      exact hslots j (List.mem_cons_of_mem i hj)

theorem temp_visitBoot {lba : ℕ} {bs : BootSector} (s : PartState)
    (hread : bootAt disk drive lba = some bs) :
    (visitBoot disk drive s lba).temp = bs := by
  rw [visitBoot, hread]
  simp only
  split <;> rfl

/-- A walk leaves `temp` on its last boot sector. -/
theorem temp_walk {lbas : List ℕ} {last : ℕ} {bs : BootSector}
    (s : PartState) (hlast : lbas.getLast? = some last)
    (hread : bootAt disk drive last = some bs) :
    (lbas.foldl (visitBoot disk drive) s).temp = bs := by
  obtain ⟨before, rfl⟩ := List.getLast?_eq_some_iff.mp hlast
  rw [List.foldl_append, List.foldl_cons, List.foldl_nil]
  exact temp_visitBoot _ hread

end Partition
end Janus86
