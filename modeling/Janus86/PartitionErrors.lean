import Janus86.PartitionTermination

/-!
# Sectors that cannot be used

A boot sector that cannot be read, or is not signed, should give no records and
no links.  `get_boot_sector` returns before it uses such a sector, but it leaves
`temp` on it, and the slots that `traverse_extended_partitions` looks at next are
those of `temp`.  `read_mbr` leaves `bslist` on a block that was not filled, and
nobody looks at what it returns.  What a block of the heap held before decides
then.

The scan is followed here with the sectors that its blocks are for.
-/

namespace Janus86
namespace Partition

/-! ## The scan and what it goes by -/

/-- The state, the drive and address of the sector that `bslist` is for, those for
`temp`, and those of every sector from whose slots a record was made or a link was
followed. -/
structure Traced where
  state : PartState
  bslistOf : ℕ × ℕ
  tempOf : ℕ × ℕ
  used : List (ℕ × ℕ)

def traceMbr (disk : Disk) (drive : ℕ) (t : Traced) : Traced :=
  { t with state := readMbr disk drive t.state, bslistOf := (drive, 0) }

def tracePrimary (t : Traced) : Traced :=
  { t with
    state := traversePrimaryPartitions t.state
    used := t.used ++
      if t.state.bslist.signature = mbrSignature then List.replicate 4 t.bslistOf
      else [] }

/-- `get_boot_sector`; a scan that has no fuel left keeps what it has used. -/
def traceBoot (disk : Disk) (drive extlba : ℕ) :
    ℕ → ℕ → Traced → Except Traced Traced
  | 0, _, t => .error t
  | fuel + 1, lba, t =>
      match readDiskSector disk (fun _ => 0) drive lba 1 with
      | none =>
          .ok { t with
            state := { t.state.dropBlock with temp := staleSector (t.state.fresh 0) }
            tempOf := (drive, lba) }
      | some buf =>
          let bs := bootSectorOf buf
          let s := { t.state.dropBlock with temp := bs }
          if bs.signature = mbrSignature then
            let t : Traced :=
              { t with
                state := savePartProps (bs.part 0) lba
                  { s with booted := s.booted ++ [(drive, ataLba lba)] }
                tempOf := (drive, lba)
                used := t.used ++ [(drive, lba)] }
            if (bs.part 1).type ≠ 0 then
              traceBoot disk drive extlba fuel (nextBoot bs extlba)
                { t with used := t.used ++ [(drive, lba)] }
            else .ok t
          else .ok { t with state := s, tempOf := (drive, lba) }

def traceExtended (disk : Disk) (drive fuel : ℕ) (t : Traced) (i : ℕ) :
    Except Traced Traced :=
  let pe := t.state.temp.part i
  if isExtended pe.type then
    traceBoot disk drive pe.startLba fuel pe.startLba
      { t with used := t.used ++ [t.tempOf] }
  else .ok t

/-- The drive up to its extended slots. -/
def traceStart (disk : Disk) (drive : ℕ) (t : Traced) : Traced :=
  let t := tracePrimary (traceMbr disk drive t)
  { t with state := { t.state with temp := t.state.bslist }, tempOf := t.bslistOf }

def traceDrive (disk : Disk) (fuel : ℕ) (t : Traced) (drive : ℕ) :
    Except Traced Traced :=
  [0, 1, 2, 3].foldlM (traceExtended disk drive fuel) (traceStart disk drive t)

def tracePartitions (disk : Disk) (numIdeDrives fuel : ℕ) (s : PartState) :
    Except Traced Traced :=
  (List.range numIdeDrives).foldlM (traceDrive disk fuel)
    ⟨emptyList s, (0, 0), (0, 0), []⟩

/-- Where the scan has come to. -/
def soFar : Except Traced Traced → Traced
  | .ok t => t
  | .error t => t

/-- Only sectors that can be read and are signed were used. -/
def UsesSigned (disk : Disk) (t : Traced) : Prop :=
  ∀ sector ∈ t.used, recorded disk sector.1 sector.2 = true

/-- However far the scan is followed. -/
def ScanUsesSigned (disk : Disk) (numIdeDrives : ℕ) (s : PartState) : Prop :=
  ∀ fuel, UsesSigned disk (soFar (tracePartitions disk numIdeDrives fuel s))

/-! ## When a bad sector does no harm -/

/-- The slots from here on, of the sector for which `temp` is: one that is not signed has
no slot of an extended type.  Behind a walk the next slot is one of its last
sector. -/
def SlotsHarmless (disk : Disk) (drive : ℕ) : List ℕ → ℕ → PartState → Prop
  | [], _, _ => True
  | i :: is, lba, s =>
      if isExtended (s.temp.part i).type then
        recorded disk drive lba = true ∧
          ∀ links, WalkStops disk drive (s.temp.part i).startLba
              (s.temp.part i).startLba links →
            SlotsHarmless disk drive is
              ((linkOf disk drive (s.temp.part i).startLba)^[links]
                (s.temp.part i).startLba)
              ((walk disk drive (s.temp.part i).startLba (s.temp.part i).startLba
                links).foldl (visitBoot disk drive) s)
      else SlotsHarmless disk drive is lba s

/-- The block for an MBR that cannot be read holds no signature, either. -/
def DriveHarmless (disk : Disk) (drive : ℕ) (s : PartState) : Prop :=
  (bootAt disk drive 0 = none →
    (staleSector (s.fresh 0)).signature ≠ mbrSignature) ∧
  SlotsHarmless disk drive [0, 1, 2, 3] 0 (beforeExtended disk drive s)

def DrivesHarmless (disk : Disk) : List ℕ → PartState → Prop
  | [], _ => True
  | drive :: drives, s =>
      DriveHarmless disk drive s ∧
        ∀ walks, SeenWalks disk drive (beforeExtended disk drive s) [0, 1, 2, 3]
            walks →
          DrivesHarmless disk drives (walks.flatten.foldl (visitBoot disk drive)
            (beforeExtended disk drive s))

/-! ## The trace and the scan -/

def untraced : Except Traced Traced → Except Fault PartState
  | .ok t => .ok t.state
  | .error _ => .error .outOfFuel

variable {disk : Disk} {drive extlba : ℕ}

theorem untraced_traceBoot (fuel lba : ℕ) (t : Traced) :
    untraced (traceBoot disk drive extlba fuel lba t) =
      getBootSector disk drive extlba fuel lba t.state := by
  induction fuel generalizing lba t with
  | zero => rfl
  | succ fuel ih =>
      rw [traceBoot, getBootSector]
      cases readDiskSector disk (fun _ => 0) drive lba 1 with
      | none => rfl
      | some buf =>
          dsimp only
          split
          · split
            · rw [ih]
            · rfl
          · rfl

theorem untraced_foldlM {α : Type} {step : Traced → α → Except Traced Traced}
    {step' : PartState → α → Except Fault PartState}
    (hstep : ∀ t a, untraced (step t a) = step' t.state a) (as : List α) (t : Traced) :
    untraced (as.foldlM step t) = as.foldlM step' t.state := by
  induction as generalizing t with
  | nil => rfl
  | cons a as ih =>
      rw [List.foldlM_cons, List.foldlM_cons, ← hstep t a]
      cases step t a with
      | error t' => rfl
      | ok t' => exact ih t'

theorem untraced_traceExtended (fuel : ℕ) (t : Traced) (i : ℕ) :
    untraced (traceExtended disk drive fuel t i) =
      checkIfExtended disk drive fuel t.state i := by
  unfold traceExtended checkIfExtended
  dsimp only
  split
  · exact untraced_traceBoot _ _ _
  · rfl

theorem untraced_traceDrive (fuel : ℕ) (t : Traced) :
    untraced (traceDrive disk fuel t drive) = scanDrive disk fuel t.state drive := by
  rw [scanDrive_eq]
  exact untraced_foldlM (untraced_traceExtended fuel) _ _

/-- The scan that is followed is the scan. -/
theorem untraced_tracePartitions (numIdeDrives fuel : ℕ) (s : PartState) :
    untraced (tracePartitions disk numIdeDrives fuel s) =
      readDiskPartitions disk numIdeDrives fuel s :=
  untraced_foldlM (fun t _ => untraced_traceDrive fuel t) _ _

/-! ## What the steps use -/

theorem usesSigned_append {t : Traced} {used : List (ℕ × ℕ)} :
    UsesSigned disk { t with used := t.used ++ used } ↔
      UsesSigned disk t ∧ ∀ sector ∈ used, recorded disk sector.1 sector.2 = true :=
  List.forall_mem_append

theorem usesSigned_push {t : Traced} {sector : ℕ × ℕ} :
    UsesSigned disk { t with used := t.used ++ [sector] } ↔
      UsesSigned disk t ∧ recorded disk sector.1 sector.2 = true := by
  rw [usesSigned_append, List.forall_mem_singleton]

/-- What a call of `get_boot_sector` does besides the call for the next one. -/
def traceVisit (disk : Disk) (drive : ℕ) (t : Traced) (lba : ℕ) : Traced where
  state := visitBoot disk drive t.state lba
  bslistOf := t.bslistOf
  tempOf := (drive, lba)
  used := t.used ++ if recorded disk drive lba then [(drive, lba)] else []

theorem usesSigned_traceVisit {t : Traced} {lba : ℕ} :
    UsesSigned disk (traceVisit disk drive t lba) ↔ UsesSigned disk t := by
  have hvisit : ∀ sector ∈ if recorded disk drive lba then [(drive, lba)] else [],
      recorded disk sector.1 sector.2 = true := by
    split
    · next hrecorded => exact List.forall_mem_singleton.mpr hrecorded
    · exact fun _ h => absurd h List.not_mem_nil
  exact List.forall_mem_append.trans (and_iff_left hvisit)

theorem traceBoot_of_stops {fuel lba : ℕ} (t : Traced)
    (hstop : BootStops disk drive lba) :
    traceBoot disk drive extlba (fuel + 1) lba t =
      .ok (traceVisit disk drive t lba) := by
  unfold BootStops at hstop
  rw [traceBoot, traceVisit, visitBoot, recorded]
  unfold bootAt at hstop ⊢
  cases hread : readDiskSector disk (fun _ => 0) drive lba 1 with
  | none => simp
  | some buf =>
      simp only [hread, Option.map_some, Option.some.injEq, forall_eq'] at hstop ⊢
      by_cases hsigned : (bootSectorOf buf).signature = mbrSignature
      · simp [hsigned, hstop hsigned]
      · simp [hsigned]

theorem traceBoot_of_link {fuel lba : ℕ} (t : Traced)
    (hpass : ¬BootStops disk drive lba) :
    traceBoot disk drive extlba (fuel + 1) lba t =
      traceBoot disk drive extlba fuel (linkOf disk drive extlba lba)
        { traceVisit disk drive t lba with
          used := (traceVisit disk drive t lba).used ++ [(drive, lba)] } := by
  unfold BootStops at hpass
  rw [traceBoot, traceVisit, visitBoot, recorded, linkOf]
  unfold bootAt at hpass ⊢
  cases hread : readDiskSector disk (fun _ => 0) drive lba 1 with
  | none => simp [hread] at hpass
  | some buf =>
      simp only [hread, Option.map_some, Option.some.injEq, forall_eq',
        Classical.not_imp] at hpass ⊢
      simp [hpass.1, hpass.2]

/-- A link is followed from a signed sector. -/
theorem recorded_of_link {lba : ℕ} (hpass : ¬BootStops disk drive lba) :
    recorded disk drive lba = true := by
  unfold BootStops at hpass
  unfold recorded
  cases hread : bootAt disk drive lba with
  | none => simp [hread] at hpass
  | some bs =>
      simp only [hread, Option.some.injEq, forall_eq', Classical.not_imp] at hpass
      exact beq_iff_eq.mpr hpass.1

/-- `get_boot_sector` itself uses no other sector. -/
theorem usesSigned_traceBoot (fuel lba : ℕ) (t : Traced) :
    UsesSigned disk (soFar (traceBoot disk drive extlba fuel lba t)) ↔
      UsesSigned disk t := by
  induction fuel generalizing lba t with
  | zero => rfl
  | succ fuel ih =>
      by_cases hstop : BootStops disk drive lba
      · rw [traceBoot_of_stops t hstop]
        exact usesSigned_traceVisit
      · rw [traceBoot_of_link t hstop, ih]
        exact (usesSigned_push.trans (and_iff_left (recorded_of_link hstop))).trans
          usesSigned_traceVisit

theorem usesSigned_of_traceExtended {fuel i : ℕ} {t : Traced}
    (hsigned : UsesSigned disk (soFar (traceExtended disk drive fuel t i))) :
    UsesSigned disk t := by
  unfold traceExtended at hsigned
  dsimp only at hsigned
  split at hsigned
  · exact (usesSigned_push.mp ((usesSigned_traceBoot _ _ _).mp hsigned)).1
  · exact hsigned

theorem usesSigned_of_foldlM {α : Type} {step : Traced → α → Except Traced Traced}
    (hstep : ∀ t a, UsesSigned disk (soFar (step t a)) → UsesSigned disk t)
    {as : List α} {t : Traced} (hsigned : UsesSigned disk (soFar (as.foldlM step t))) :
    UsesSigned disk t := by
  induction as generalizing t with
  | nil => exact hsigned
  | cons a as ih =>
      refine hstep t a ?_
      rw [List.foldlM_cons] at hsigned
      cases hrun : step t a with
      | error t' =>
          rw [hrun] at hsigned
          exact hsigned
      | ok t' =>
          rw [hrun] at hsigned
          exact ih hsigned

/-! ## One walk -/

/-- A walk that stops leaves `temp` on its last sector, with any fuel that suffices. -/
theorem traceBoot_of_walkStops {lba links : ℕ}
    (hstops : WalkStops disk drive extlba lba links) (t : Traced) :
    ∃ t', (∀ fuel, links < fuel → traceBoot disk drive extlba fuel lba t = .ok t') ∧
      t'.tempOf = (drive, (linkOf disk drive extlba)^[links] lba) ∧
      t'.state = (walk disk drive extlba lba links).foldl (visitBoot disk drive)
        t.state := by
  induction links generalizing lba t with
  | zero =>
      refine ⟨traceVisit disk drive t lba, fun fuel hfuel => ?_, rfl, rfl⟩
      obtain ⟨fuel, rfl⟩ : ∃ n, fuel = n + 1 := ⟨fuel - 1, by omega⟩
      exact traceBoot_of_stops t (ChainWalk.endsAt_zero_iff.mp hstops)
  | succ links ih =>
      obtain ⟨hpass, hrest⟩ := ChainWalk.endsAt_succ_iff.mp hstops
      obtain ⟨t', hrun, htemp, hstate⟩ := ih hrest
        { traceVisit disk drive t lba with
          used := (traceVisit disk drive t lba).used ++ [(drive, lba)] }
      refine ⟨t', fun fuel hfuel => ?_, htemp, hstate⟩
      obtain ⟨fuel, rfl⟩ : ∃ n, fuel = n + 1 := ⟨fuel - 1, by omega⟩
      rw [traceBoot_of_link t hpass]
      exact hrun fuel (by omega)

theorem walkStops_of_traceBoot {fuel lba : ℕ} {t t' : Traced}
    (hrun : traceBoot disk drive extlba fuel lba t = .ok t') :
    ∃ links < fuel, WalkStops disk drive extlba lba links := by
  have huntraced := @untraced_traceBoot disk drive extlba fuel lba t
  rw [hrun] at huntraced
  exact walkStops_of_getBootSector huntraced.symm

/-! ## The slots of a drive -/

/-- Followed far enough, the slots from here on use signed sectors only exactly when they
are harmless. -/
theorem slots_useSigned_iff {is : List ℕ} {lba : ℕ} {t : Traced}
    (htemp : t.tempOf = (drive, lba)) (enough : ℕ) :
    (∀ fuel ≥ enough,
        UsesSigned disk (soFar (is.foldlM (traceExtended disk drive fuel) t))) ↔
      UsesSigned disk t ∧ SlotsHarmless disk drive is lba t.state := by
  induction is generalizing lba t enough with
  | nil =>
      exact ⟨fun h => ⟨h enough le_rfl, trivial⟩, fun h _ _ => h.1⟩
  | cons i is ih =>
      have hstep : ∀ fuel, (i :: is).foldlM (traceExtended disk drive fuel) t =
          (traceExtended disk drive fuel t i >>= fun t' =>
            is.foldlM (traceExtended disk drive fuel) t') := fun _ => List.foldlM_cons
      rw [SlotsHarmless]
      by_cases hslot : isExtended (t.state.temp.part i).type = true
      · have hcall : ∀ fuel, traceExtended disk drive fuel t i =
            traceBoot disk drive (t.state.temp.part i).startLba fuel
              (t.state.temp.part i).startLba
              { t with used := t.used ++ [t.tempOf] } := fun _ => if_pos hslot
        have hpush : UsesSigned disk { t with used := t.used ++ [t.tempOf] } ↔
            UsesSigned disk t ∧ recorded disk drive lba = true := by
          rw [usesSigned_push, htemp]
        rw [if_pos hslot, ← and_assoc, ← hpush]
        constructor
        · intro h
          have hhere := h enough le_rfl
          rw [hstep, hcall] at hhere
          have hpushed : UsesSigned disk { t with used := t.used ++ [t.tempOf] } := by
            rw [← @usesSigned_traceBoot disk drive (t.state.temp.part i).startLba enough
              (t.state.temp.part i).startLba]
            cases hrun : traceBoot disk drive (t.state.temp.part i).startLba enough
                (t.state.temp.part i).startLba
                { t with used := t.used ++ [t.tempOf] } with
            | error t' =>
                rw [hrun] at hhere
                exact hhere
            | ok t' =>
                rw [hrun] at hhere
                exact usesSigned_of_foldlM (fun _ _ => usesSigned_of_traceExtended) hhere
          refine ⟨hpushed, fun links hstops => ?_⟩
          obtain ⟨t', hrun, htemp', hstate⟩ := traceBoot_of_walkStops hstops
            { t with used := t.used ++ [t.tempOf] }
          rw [← hstate]
          refine ((ih htemp' (max enough (links + 1))).mp fun fuel hfuel => ?_).2
          have hfar := h fuel (by omega)
          rw [hstep, hcall, hrun fuel (by omega)] at hfar
          exact hfar
        · rintro ⟨hpushed, hwalks⟩ fuel hfuel
          rw [hstep, hcall]
          have hsigned := (@usesSigned_traceBoot disk drive
            (t.state.temp.part i).startLba fuel (t.state.temp.part i).startLba
            { t with used := t.used ++ [t.tempOf] }).mpr hpushed
          cases hrun : traceBoot disk drive (t.state.temp.part i).startLba fuel
              (t.state.temp.part i).startLba
              { t with used := t.used ++ [t.tempOf] } with
          | error t' =>
              rw [hrun] at hsigned
              exact hsigned
          | ok t' =>
              rw [hrun] at hsigned
              obtain ⟨links, hlt, hstops⟩ := walkStops_of_traceBoot hrun
              obtain ⟨t'', hrun', htemp', hstate⟩ := traceBoot_of_walkStops hstops
                { t with used := t.used ++ [t.tempOf] }
              rw [hrun' fuel hlt] at hrun
              cases hrun
              refine (ih htemp' fuel).mpr ⟨hsigned, ?_⟩ fuel le_rfl
              rw [hstate]
              exact hwalks links hstops
      · have hcall : ∀ fuel, traceExtended disk drive fuel t i = .ok t :=
          fun _ => if_neg hslot
        rw [if_neg hslot, ← ih htemp enough]
        refine forall_congr' fun fuel => ?_
        rw [hstep, hcall]
        rfl

theorem foldlM_of_seenWalks {is : List ℕ} {ws : List (List ℕ)} {t : Traced}
    (hseen : SeenWalks disk drive t.state is ws) :
    ∃ enough t', (∀ fuel ≥ enough,
        is.foldlM (traceExtended disk drive fuel) t = .ok t') ∧
      t'.state = ws.flatten.foldl (visitBoot disk drive) t.state := by
  obtain ⟨s, hs⟩ : ∃ s, s = t.state := ⟨_, rfl⟩
  rw [← hs] at hseen ⊢
  induction hseen generalizing t with
  | done s => exact ⟨0, t, fun _ _ => rfl, hs.symm⟩
  | skip hslot _ ih =>
      subst hs
      obtain ⟨enough, t', hrun, hstate⟩ := ih rfl
      have hskip : ¬ isExtended _ = true := Bool.eq_false_iff.mp hslot
      refine ⟨enough, t', fun fuel hfuel => ?_, hstate⟩
      rw [List.foldlM_cons, show traceExtended disk drive fuel t _ = .ok t from
        if_neg hskip]
      exact hrun fuel hfuel
  | @follow s i links is ws hslot hstops _ ih =>
      subst hs
      obtain ⟨t', hwalk, _, hmid⟩ := traceBoot_of_walkStops hstops
        { t with used := t.used ++ [t.tempOf] }
      obtain ⟨enough, t'', hrun, hstate⟩ := ih hmid.symm
      refine ⟨max enough (links + 1), t'', fun fuel hfuel => ?_, ?_⟩
      · rw [List.foldlM_cons, show traceExtended disk drive fuel t i = .ok t' from
          (if_pos hslot).trans (hwalk fuel (by omega))]
        exact hrun fuel (by omega)
      · rw [hstate, List.flatten_cons, List.foldl_append]

/-! ## The drives -/

/-- The MBR gives records when its block has a signature. -/
theorem usesSigned_traceStart (t : Traced) :
    UsesSigned disk (traceStart disk drive t) ↔
      UsesSigned disk t ∧ (bootAt disk drive 0 = none →
        (staleSector (t.state.fresh 0)).signature ≠ mbrSignature) := by
  have hused : UsesSigned disk (traceStart disk drive t) ↔ UsesSigned disk t ∧
      ((readMbr disk drive t.state).bslist.signature = mbrSignature →
        recorded disk drive 0 = true) := by
    refine List.forall_mem_append.trans (and_congr_right fun _ => ?_)
    dsimp only [traceMbr]
    by_cases hsigned : (readMbr disk drive t.state).bslist.signature = mbrSignature
    · simp [hsigned]
    · simp [hsigned]
  rw [hused]
  refine and_congr_right fun _ => ?_
  unfold readMbr recorded bootAt
  cases readDiskSector disk (fun _ => 0) drive 0 1 with
  | none => simp
  | some buf => simp

theorem drives_useSigned_iff {drives : List ℕ} {t : Traced} (enough : ℕ) :
    (∀ fuel ≥ enough, UsesSigned disk (soFar (drives.foldlM (traceDrive disk fuel) t))) ↔
      UsesSigned disk t ∧ DrivesHarmless disk drives t.state := by
  induction drives generalizing t enough with
  | nil => exact ⟨fun h => ⟨h enough le_rfl, trivial⟩, fun h _ _ => h.1⟩
  | cons drive drives ih =>
      have hstep : ∀ fuel, (drive :: drives).foldlM (traceDrive disk fuel) t =
          (traceDrive disk fuel t drive >>= fun t' =>
            drives.foldlM (traceDrive disk fuel) t') := fun _ => List.foldlM_cons
      have hslots := fun n => @slots_useSigned_iff disk drive [0, 1, 2, 3] 0
        (traceStart disk drive t) rfl n
      rw [DrivesHarmless, DriveHarmless, ← and_assoc, ← and_assoc,
        ← usesSigned_traceStart]
      constructor
      · intro h
        have hdrive : ∀ fuel ≥ enough,
            UsesSigned disk (soFar (traceDrive disk fuel t drive)) := by
          intro fuel hfuel
          have hhere := h fuel hfuel
          rw [hstep] at hhere
          cases hrun : traceDrive disk fuel t drive with
          | error t' =>
              rw [hrun] at hhere
              exact hhere
          | ok t' =>
              rw [hrun] at hhere
              refine usesSigned_of_foldlM (fun t drive hsigned => ?_) hhere
              have hstart := usesSigned_of_foldlM
                (fun _ _ => usesSigned_of_traceExtended) hsigned
              exact ((usesSigned_traceStart t).mp hstart).1
        refine ⟨(hslots enough).mp hdrive, fun walks hseen => ?_⟩
        obtain ⟨far, t', hrun, hstate⟩ :=
          @foldlM_of_seenWalks disk drive _ _ (traceStart disk drive t) hseen
        have hmid : t'.state = walks.flatten.foldl (visitBoot disk drive)
            (beforeExtended disk drive t.state) := hstate
        rw [← hmid]
        refine ((ih (max enough far)).mp fun fuel hfuel => ?_).2
        have hfar := h fuel (by omega)
        rw [hstep, show traceDrive disk fuel t drive = .ok t' from hrun fuel (by omega)]
          at hfar
        exact hfar
      · rintro ⟨hharmless, hrest⟩ fuel hfuel
        have hsigned := (hslots fuel).mpr hharmless fuel le_rfl
        rw [hstep]
        cases hrun : traceDrive disk fuel t drive with
        | error t' =>
            rw [show [0, 1, 2, 3].foldlM (traceExtended disk drive fuel)
              (traceStart disk drive t) = .error t' from hrun] at hsigned
            exact hsigned
        | ok t' =>
            rw [show [0, 1, 2, 3].foldlM (traceExtended disk drive fuel)
              (traceStart disk drive t) = .ok t' from hrun] at hsigned
            have huntraced := @untraced_traceDrive disk drive fuel t
            rw [hrun, scanDrive_eq] at huntraced
            obtain ⟨walks, hseen, hstate⟩ := seenWalks_of_scan huntraced.symm
            have hsafe := hrest walks hseen
            rw [← hstate] at hsafe
            exact (ih fuel).mpr ⟨hsigned, hsafe⟩ fuel le_rfl

/-! ## On the links of the disk -/

/-- A block for an MBR that cannot be read holds no signature, and a slot that is looked at
in a sector which cannot be read or is not signed has none of the extended types. -/
structure BadHarmless (disk : Disk) (heap : ℕ → Buffer) (drives : ℕ) : Prop where
  mbr : ∀ {drive p}, Comes disk heap drives drive 0 p → bootAt disk drive 0 = none →
    p.sector.signature ≠ mbrSignature
  slots : ∀ {drive i p}, Comes disk heap drives drive i p → i < 4 →
    isExtended (p.slots i).type = true → recorded disk drive p.lba = true

section Links

variable {heap : ℕ → Buffer} {drives : ℕ}

theorem getLastD_walk (lba links : ℕ) :
    (walk disk drive extlba lba links).getLastD 0 =
      (linkOf disk drive extlba)^[links] lba := by
  induction links generalizing lba with
  | zero => rfl
  | succ links ih =>
      have hcons : walk disk drive extlba lba (links + 1) =
          lba :: walk disk drive extlba (linkOf disk drive extlba lba) links := rfl
      rw [hcons, Function.iterate_succ_apply, ← ih]
      cases hrest : walk disk drive extlba (linkOf disk drive extlba lba) links with
      | nil => cases hrest
      | cons b w => rfl

theorem walk_ne_nil (lba links : ℕ) : walk disk drive extlba lba links ≠ [] :=
  List.cons_ne_nil _ _

/-- Walks that are made lead from place to place. -/
theorem Comes.of_seenWalks {i : ℕ} {p : Place} {s : PartState} {walks : List (List ℕ)}
    (hcomes : Comes disk heap drives drive i p) (hplace : InPlace heap p s)
    (hseen : SeenWalks disk drive s (List.range' i (4 - i)) walks) :
    ∃ q, Comes disk heap drives drive 4 q ∧
      InPlace heap q (walks.flatten.foldl (visitBoot disk drive) s) := by
  obtain ⟨n, hn⟩ : ∃ n, 4 = i + n := ⟨4 - i, by have := hcomes.slot_le; omega⟩
  induction n generalizing i p s walks with
  | zero =>
      obtain rfl : i = 4 := hn.symm
      cases hseen with
      | done _ => exact ⟨p, hcomes, hplace⟩
  | succ n ih =>
      have hi : i < 4 := by omega
      rw [range'_succ_of_lt hi] at hseen
      cases hseen with
      | skip hslot hseen =>
          rw [hplace.slots] at hslot
          exact ih (hcomes.skip hi hslot) hplace hseen (by omega)
      | follow hslot hstops hseen =>
          rw [hplace.slots] at hslot hstops hseen ⊢
          rw [List.flatten_cons, List.foldl_append]
          exact ih (hcomes.follow hi hslot (chain_iff.mpr ⟨_, hstops, rfl⟩))
            (hplace.behind (walk_ne_nil _ _)) hseen (by omega)

theorem BadHarmless.slotsHarmless (hbad : BadHarmless disk heap drives) {i : ℕ} {p : Place}
    {s : PartState} (hcomes : Comes disk heap drives drive i p) (hplace : InPlace heap p s) :
    SlotsHarmless disk drive (List.range' i (4 - i)) p.lba s := by
  obtain ⟨n, hn⟩ : ∃ n, 4 = i + n := ⟨4 - i, by have := hcomes.slot_le; omega⟩
  induction n generalizing i p s with
  | zero =>
      obtain rfl : i = 4 := hn.symm
      exact trivial
  | succ n ih =>
      have hi : i < 4 := by omega
      rw [range'_succ_of_lt hi, SlotsHarmless, hplace.slots]
      split
      · next hslot =>
          refine ⟨hbad.slots hcomes hi hslot, fun links hstops => ?_⟩
          rw [← getLastD_walk]
          exact ih (hcomes.follow hi hslot (chain_iff.mpr ⟨links, hstops, rfl⟩))
            (hplace.behind (walk_ne_nil _ _)) (by omega)
      · next hslot =>
          exact ih (hcomes.skip hi (Bool.eq_false_iff.mpr hslot)) hplace (by omega)

theorem BadHarmless.drivesHarmless (hbad : BadHarmless disk heap drives) {s : PartState}
    {n : ℕ} (hdrive : drive < drives)
    (hcomes : Comes disk heap drives drive 0 (mbrPlace disk heap drive n))
    (hfresh : ∀ k, s.fresh k = heap (k + n)) :
    DrivesHarmless disk (List.range' drive (drives - drive)) s := by
  obtain ⟨m, hm⟩ : ∃ m, drives = drive + 1 + m := ⟨drives - (drive + 1), by omega⟩
  have hmbr : bootAt disk drive 0 = none →
      (staleSector (s.fresh 0)).signature ≠ mbrSignature := by
    intro hnone
    have hsector := hbad.mbr hcomes hnone
    rwa [mbrPlace, sectorAt, hnone, Option.getD_none, ← Nat.zero_add n, ← hfresh] at hsector
  induction m generalizing drive s n with
  | zero =>
      rw [range'_succ_of_lt hdrive, show drives - (drive + 1) = 0 by omega]
      exact ⟨⟨hmbr, hbad.slotsHarmless hcomes (inPlace_mbr hfresh)⟩, fun _ _ => trivial⟩
  | succ m ih =>
      rw [range'_succ_of_lt hdrive]
      refine ⟨⟨hmbr, hbad.slotsHarmless hcomes (inPlace_mbr hfresh)⟩, fun walks hseen => ?_⟩
      obtain ⟨q, hlast, hin⟩ := hcomes.of_seenWalks (inPlace_mbr hfresh) hseen
      have hnext : drive + 1 < drives := by omega
      refine ih hnext (hlast.drive hnext) hin.fresh (by omega) fun hnone => ?_
      have hsector := hbad.mbr (hlast.drive hnext) hnone
      rwa [mbrPlace, sectorAt, hnone, Option.getD_none, ← Nat.zero_add q.blocks,
        ← hin.fresh] at hsector

/-- The scan from slot `i` of a drive on, while bad sectors do no harm. -/
structure HarmlessFrom (disk : Disk) (heap : ℕ → Buffer) (drives drive i : ℕ) (p : Place)
    (t : PartState) : Prop where
  inPlace : InPlace heap p t
  mbr : i = 0 → bootAt disk drive 0 = none → p.sector.signature ≠ mbrSignature
  slots : SlotsHarmless disk drive (List.range' i (4 - i)) p.lba t
  rest : ∀ walks, SeenWalks disk drive t (List.range' i (4 - i)) walks →
    DrivesHarmless disk (List.range' (drive + 1) (drives - (drive + 1)))
      (walks.flatten.foldl (visitBoot disk drive) t)

section HarmlessFrom

variable {heap : ℕ → Buffer} {drives drive : ℕ}

theorem harmlessFrom_mbr {n : ℕ} {t : PartState} (hdrive : drive < drives)
    (hfresh : ∀ k, t.fresh k = heap (k + n))
    (hharmless : DrivesHarmless disk (List.range' drive (drives - drive)) t) :
    ∃ t', HarmlessFrom disk heap drives drive 0 (mbrPlace disk heap drive n) t' := by
  rw [range'_succ_of_lt hdrive] at hharmless
  obtain ⟨⟨hsignature, hslots⟩, hrest⟩ := hharmless
  refine ⟨_, inPlace_mbr hfresh, fun _ hnone => ?_, hslots, hrest⟩
  rw [mbrPlace, sectorAt, hnone, Option.getD_none, ← Nat.zero_add n, ← hfresh]
  exact hsignature hnone

variable {i : ℕ} {p : Place} {t : PartState}
  (hfrom : HarmlessFrom disk heap drives drive i p t) (hi : i < 4)
include hfrom hi

theorem HarmlessFrom.skip (hslot : isExtended (p.slots i).type = false) :
    HarmlessFrom disk heap drives drive (i + 1) p t := by
  obtain ⟨hplace, _, hslots, hrest⟩ := hfrom
  rw [range'_succ_of_lt hi, SlotsHarmless, hplace.slots,
    if_neg (Bool.eq_false_iff.mp hslot)] at hslots
  rw [range'_succ_of_lt hi] at hrest
  refine ⟨hplace, fun h => absurd h (Nat.succ_ne_zero i), hslots, fun walks hseen => ?_⟩
  exact hrest walks (.skip (hplace.slots ▸ hslot) hseen)

theorem HarmlessFrom.follow {w : List ℕ} (hslot : isExtended (p.slots i).type = true)
    (hchain : Chain disk drive (p.slots i).startLba (p.slots i).startLba w) :
    ∃ t', HarmlessFrom disk heap drives drive (i + 1) (p.behind disk heap drive w) t' := by
  obtain ⟨hplace, _, hslots, hrest⟩ := hfrom
  obtain ⟨links, hstops, rfl⟩ := chain_iff.mp hchain
  rw [range'_succ_of_lt hi, SlotsHarmless, hplace.slots, if_pos hslot] at hslots
  rw [range'_succ_of_lt hi] at hrest
  refine ⟨_, hplace.behind (walk_ne_nil _ _), fun h => absurd h (Nat.succ_ne_zero i),
    ?_, fun walks hseen => ?_⟩
  · have hbehind := hslots.2 links hstops
    rwa [← getLastD_walk] at hbehind
  · have hdrives := hrest (_ :: walks) (SeenWalks.follow (hplace.slots ▸ hslot)
      (hplace.slots ▸ hstops) (by rw [hplace.slots]; exact hseen))
    rwa [List.flatten_cons, List.foldl_append, hplace.slots] at hdrives

end HarmlessFrom

theorem harmless_of_comes {s : PartState}
    (hharmless : DrivesHarmless disk (List.range drives) (emptyList s)) {i : ℕ} {p : Place}
    (hcomes : Comes disk s.fresh drives drive i p) :
    ∃ t, HarmlessFrom disk s.fresh drives drive i p t := by
  induction hcomes with
  | first hdrives =>
      rw [List.range_eq_range'] at hharmless
      exact harmlessFrom_mbr hdrives (fun _ => rfl) hharmless
  | skip _ hi hslot ih =>
      obtain ⟨t, hfrom⟩ := ih
      exact ⟨t, hfrom.skip hi hslot⟩
  | follow _ hi hslot hchain ih =>
      obtain ⟨t, hfrom⟩ := ih
      exact hfrom.follow hi hslot hchain
  | drive _ hdrive ih =>
      obtain ⟨t, hplace, _, _, hrest⟩ := ih
      exact harmlessFrom_mbr hdrive hplace.fresh (hrest [] (.done t))

theorem drivesHarmless_iff (s : PartState) :
    DrivesHarmless disk (List.range drives) (emptyList s) ↔
      BadHarmless disk s.fresh drives := by
  constructor
  · intro hharmless
    constructor
    · intro drive p hcomes
      obtain ⟨_, _, hmbr, _⟩ := harmless_of_comes hharmless hcomes
      exact hmbr rfl
    · intro drive i p hcomes hi hslot
      obtain ⟨t, hplace, _, hslots, _⟩ := harmless_of_comes hharmless hcomes
      rw [range'_succ_of_lt hi, SlotsHarmless, hplace.slots, if_pos hslot] at hslots
      exact hslots.1
  · intro hbad
    rcases Nat.eq_zero_or_pos drives with rfl | hpos
    · exact trivial
    · have hall := hbad.drivesHarmless (s := emptyList s) (n := 1) hpos (.first hpos)
        fun _ => rfl
      rwa [Nat.sub_zero, ← List.range_eq_range'] at hall

end Links

/-- The scan makes no record and follows no link that is based on a sector which cannot be
read or is not signed exactly when no such sector, or the block in its place, offers one. -/
theorem scanUsesSigned_iff (disk : Disk) (numIdeDrives : ℕ) (s : PartState) :
    ScanUsesSigned disk numIdeDrives s ↔ BadHarmless disk s.fresh numIdeDrives := by
  rw [← drivesHarmless_iff]
  have hall := @drives_useSigned_iff disk (List.range numIdeDrives)
    ⟨emptyList s, (0, 0), (0, 0), []⟩ 0
  have hstart : UsesSigned disk ⟨emptyList s, (0, 0), (0, 0), []⟩ :=
    fun _ h => absurd h List.not_mem_nil
  rw [and_iff_right hstart] at hall
  exact ⟨fun h => hall.mp fun fuel _ => h fuel, fun h fuel => hall.mpr h fuel (Nat.zero_le _)⟩

/-- A drive that cannot be read at all. -/
def deadDisk : Disk where
  readable := fun _ _ => false
  byte := fun _ _ _ => 0

/-- A block full of fives, where the MBR should be, has four extended slots. -/
theorem unread_slots_followed : ¬ ScanUsesSigned deadDisk 1 (heapOf 5) := by
  intro h
  have hused : (0, 0) ∈ (soFar (tracePartitions deadDisk 1 1 (heapOf 5))).used := by
    decide +kernel
  exact absurd (h 1 (0, 0) hused) (by decide +kernel)

end Partition
end Janus86
