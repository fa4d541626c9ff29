import Janus86.Fat32Termination

/-!
# What the entries of a FAT32 directory do to the list

Nothing that `fat32_rd_cluster` does depends on the list that it builds: the
sectors, the attribute of the last entry and the names come from the drive.  So
a call is a walk over the entries, with a log of what each of them puts into the
last node, and the list is the log replayed.
-/

namespace Janus86
namespace Fat32

open StepMachine

/-- What an entry does to the name of the last node. -/
inductive NameWrite where
  | keep
  | leave (name : List UInt8)
  | put (name : List UInt8)

/-- An entry that is neither a slot nor a label, and what it puts into the last node. -/
structure EntryWrite where
  attrib : UInt8
  start : ℕ
  size : ℕ
  name : NameWrite

def NameWrite.apply (c : ListCursor) : NameWrite → Except Fault ListCursor
  | .keep => .ok c
  | .leave name => .ok (leaveName name c)
  | .put name => putName name c

def EntryWrite.fill (w : EntryWrite) (c : ListCursor) : ListCursor :=
  { c with temp := { c.temp with
      fileType := fileTypeOf w.attrib.toNat
      start := w.start
      size := w.size } }

def EntryWrite.apply (c : ListCursor) (w : EntryWrite) : Except Fault ListCursor :=
  w.name.apply (w.fill c)

/-- Why a walk leaves its loops early. -/
inductive Leave where
  | fault (fault : Fault)
  | ret (code : ℕ)

/-- A part of a walk, with its log. -/
structure Walked (α : Type) where
  log : List EntryWrite
  result : Except Leave α

instance : Monad Walked where
  pure a := ⟨[], .ok a⟩
  bind x f :=
    match x.result with
    | .error e => ⟨x.log, .error e⟩
    | .ok a => ⟨x.log ++ (f a).log, (f a).result⟩

/-- The end of a walk, with the list as it is then. -/
def leaveWith {α : Type} (c : ListCursor) :
    Except Leave α → Except Stop (α × ListCursor)
  | .error (.fault e) => .error (.fault e)
  | .error (.ret code) => .error (.ret code c)
  | .ok a => .ok (a, c)

/-- The walk with the list that it builds. -/
def replay {α : Type} (x : Walked α) (c : ListCursor) :
    Except Stop (α × ListCursor) := do
  let c ← liftFault (x.log.foldlM EntryWrite.apply c)
  leaveWith c x.result

/-! ## The walk -/

/-- The locals of `fat32_rd_cluster`. -/
structure WalkState where
  direntry : Buffer
  prev : ℕ

abbrev WalkState.withList (w : WalkState) (c : ListCursor) : ClusterState :=
  ⟨w.direntry, w.prev, c⟩

def readWalk (vol : Volume) (g : Globals) (cluster k : ℕ) (w : WalkState) :
    Walked WalkState :=
  match readClusterSector vol g cluster k w.direntry with
  | none => ⟨[], .error (.ret diskReadErr)⟩
  | some buf => pure { w with direntry := buf }

/-- `Generate_Long_Name` as far as the name goes. -/
def longNameWrite (vol : Volume) (g : Globals) (cluster : ℕ) (buf : Buffer)
    (i k : ℕ) : Except Fault (Buffer × NameWrite) := do
  let (s, done) ← (runFuel (longTurn vol g cluster) 20
    ⟨buf, i, k, false, []⟩).getD (.error .outOfFuel)
  if done then
    match (if s.flag then readClusterSector vol g cluster (s.k + 1) s.buf
      else some s.buf) with
    | none => pure (s.buf, .leave s.name)
    | some buf => pure (buf, .put s.name)
  else pure (s.buf, .leave s.name)

/-- An entry behind a long name. -/
def longWalk (vol : Volume) (g : Globals) (cluster k i : ℕ) (direntry : Buffer) :
    NameWrite × Except Leave WalkState :=
  if i = 0 then
    match readClusterSector vol g cluster (sub32 k 1) direntry with
    | none => (.keep, .error (.ret diskReadErr))
    | some before =>
        match longNameWrite vol g cluster before direntPerSector k with
        | .error e => (.keep, .error (.fault e))
        | .ok (buf, name) =>
            match readClusterSector vol g cluster k buf with
            | none => (name, .error (.ret diskReadErr))
            | some again => (name, .ok ⟨again, 0⟩)
  else
    match longNameWrite vol g cluster direntry i k with
    | .error e => (.keep, .error (.fault e))
    | .ok (buf, name) => (name, .ok ⟨buf, 0⟩)

def shortWrite (direntry : Buffer) (i : ℕ) : NameWrite :=
  if isLive (direntry (32 * i)) then .put (shortName direntry (32 * i)) else .keep

def WalkState.remember (i : ℕ) (w : WalkState) : WalkState :=
  if isLive (w.direntry (32 * i)) then
    { w with prev := attribOf w.direntry (32 * i) }
  else w

def entryWalk (vol : Volume) (g : Globals) (cluster k : ℕ) (w : WalkState) (i : ℕ) :
    Walked WalkState :=
  let attrib := attribOf w.direntry (32 * i)
  if attrib ≠ 0x0F ∧ attrib ≠ 0x08 then
    let (name, result) :=
      if w.prev = 0x0F then longWalk vol g cluster k i w.direntry
      else (shortWrite w.direntry i, .ok w)
    ⟨[⟨w.direntry (32 * i + 11), startCluster w.direntry (32 * i),
      le32 w.direntry (32 * i + 28), name⟩], result.map (WalkState.remember i)⟩
  else pure (w.remember i)

def sectorWalk (vol : Volume) (g : Globals) (cluster : ℕ) (w : WalkState) (k : ℕ) :
    Walked WalkState := do
  let w ← readWalk vol g cluster k w
  (List.range direntPerSector).foldlM (entryWalk vol g cluster k) w

def clusterWalk (vol : Volume) (g : Globals) (direntry : Buffer) (cluster : ℕ) :
    Walked WalkState :=
  (List.range g.sectorsPerCluster).foldlM (sectorWalk vol g cluster) ⟨direntry, 0⟩

/-- The code of an inner call is not looked at. -/
def Walked.ignoreCode (x : Walked Unit) : Walked Unit :=
  match x.result with
  | .error (.ret _) => ⟨x.log, .ok ()⟩
  | _ => x

/-- The walk of `fat32_rd_cluster` over a chain of clusters. -/
def chainWalk (vol : Volume) (g : Globals) (direntry : Buffer) : ℕ → ℕ → Walked Unit
  | 0, _ => ⟨[], .error (.fault .outOfFuel)⟩
  | fuel + 1, cluster => do
      let _ ← clusterWalk vol g direntry cluster
      let next := fat32RdFAT vol g cluster
      if isError next then ⟨[], .error (.ret next)⟩
      else if next = 0 then pure ()
      else (chainWalk vol g direntry fuel next).ignoreCode

/-- How `fat32_rd_cluster` leaves the list. -/
def finish : Except Stop (Unit × ListCursor) → Except Fault (ℕ × ListCursor)
  | .error (.fault e) => .error e
  | .error (.ret code c) => .ok (code, c)
  | .ok (_, c) => .ok (success, clearName c)

/-! ## Replays -/

section Replay

variable {α β ι : Type}

theorem Walked.bind_of_error {x : Walked α} {e : Leave} (hresult : x.result = .error e)
    (f : α → Walked β) : x >>= f = ⟨x.log, .error e⟩ := by
  obtain ⟨log, result⟩ := x
  cases hresult
  rfl

theorem Walked.bind_of_ok {x : Walked α} {a : α} (hresult : x.result = .ok a)
    (f : α → Walked β) : x >>= f = ⟨x.log ++ (f a).log, (f a).result⟩ := by
  obtain ⟨log, result⟩ := x
  cases hresult
  rfl

theorem replay_bind (x : Walked α) (f : α → Walked β) (c : ListCursor) :
    replay (x >>= f) c = replay x c >>= fun r => replay (f r.1) r.2 := by
  cases hresult : x.result with
  | error e =>
      rw [Walked.bind_of_error hresult, replay, replay, hresult]
      cases x.log.foldlM EntryWrite.apply c with
      | error fault => rfl
      | ok c' => cases e <;> rfl
  | ok a =>
      rw [Walked.bind_of_ok hresult, replay, replay, hresult, List.foldlM_append]
      cases x.log.foldlM EntryWrite.apply c with
      | error fault => rfl
      | ok c' => rfl

/-- A loop with a list is the replay of the loop without it. -/
theorem foldlM_eq_replay {step : ClusterState → ι → Except Stop ClusterState}
    {walk : WalkState → ι → Walked WalkState}
    (hstep : ∀ w c i, step (w.withList c) i =
      replay (walk w i) c >>= fun r => .ok (r.1.withList r.2))
    (is : List ι) (w : WalkState) (c : ListCursor) :
    is.foldlM step (w.withList c) =
      replay (is.foldlM walk w) c >>= fun r => .ok (r.1.withList r.2) := by
  induction is generalizing w c with
  | nil => rfl
  | cons i is ih =>
      rw [List.foldlM_cons, List.foldlM_cons, replay_bind, hstep]
      cases replay (walk w i) c with
      | error e => rfl
      | ok r => exact ih r.1 r.2

end Replay

/-! ## The code and the walk -/

variable {vol : Volume} {g : Globals} {cluster k i : ℕ}

theorem readOrReturn_eq_replay (w : WalkState) (c : ListCursor) :
    readOrReturn vol g cluster k (w.withList c) =
      replay (readWalk vol g cluster k w) c >>= fun r => .ok (r.1.withList r.2) := by
  unfold readOrReturn readWalk
  cases readClusterSector vol g cluster k w.direntry with
  | none => rfl
  | some buf => rfl

theorem generateLongName_eq (buf : Buffer) (c : ListCursor) :
    generateLongName vol g cluster buf i k c =
      longNameWrite vol g cluster buf i k >>= fun r =>
        r.2.apply c >>= fun c' => .ok (r.1, c') := by
  unfold generateLongName longNameWrite
  cases (runFuel (longTurn vol g cluster) 20 ⟨buf, i, k, false, []⟩).getD
      (.error .outOfFuel) with
  | error e => rfl
  | ok r =>
      obtain ⟨s, done⟩ := r
      rw [ok_bind, ok_bind]
      cases done with
      | false => rfl
      | true =>
          dsimp only
          rw [if_pos rfl, if_pos rfl]
          cases (if s.flag then readClusterSector vol g cluster (s.k + 1) s.buf
            else some s.buf) with
          | none => rfl
          | some buf' => rfl

/-- The log of one entry. -/
def logged (w : EntryWrite) (x : NameWrite × Except Leave WalkState) :
    Walked WalkState :=
  ⟨[{ w with name := x.1 }], x.2⟩

theorem replay_logged (w : EntryWrite) (name : NameWrite)
    (result : Except Leave WalkState) (c : ListCursor) :
    replay (logged w (name, result)) c =
      liftFault (name.apply (w.fill c)) >>= fun c' => leaveWith c' result := by
  have hone : (logged w (name, result)).log.foldlM EntryWrite.apply c =
      name.apply (w.fill c) := bind_pure _
  unfold replay
  rw [hone]
  rfl

theorem longEntry_eq_replay (w : WalkState) (write : EntryWrite) (c : ListCursor) :
    longEntry vol g cluster k i (w.withList (write.fill c)) =
      replay (logged write (longWalk vol g cluster k i w.direntry)) c >>= fun r =>
        .ok (r.1.withList r.2) := by
  unfold longEntry longWalk readOrReturn
  dsimp only [WalkState.withList]
  by_cases hfirst : i = 0
  · rw [if_pos hfirst, if_pos hfirst]
    cases readClusterSector vol g cluster (sub32 k 1) w.direntry with
    | none => rfl
    | some before =>
        dsimp only
        rw [ok_bind, generateLongName_eq]
        cases longNameWrite vol g cluster before direntPerSector k with
        | error e => rfl
        | ok r =>
            dsimp only
            rw [ok_bind]
            cases hagain : readClusterSector vol g cluster k r.1 with
            | none =>
                rw [replay_logged]
                cases r.2.apply (write.fill c) with
                | error e => rfl
                | ok c' => simp [liftFault, leaveWith, hagain, bind, Except.bind]
            | some again =>
                rw [replay_logged]
                cases r.2.apply (write.fill c) with
                | error e => rfl
                | ok c' => simp [liftFault, leaveWith, hagain, bind, Except.bind, pure, Except.pure]
  · rw [if_neg hfirst, if_neg hfirst, generateLongName_eq]
    cases longNameWrite vol g cluster w.direntry i k with
    | error e => rfl
    | ok r =>
        dsimp only
        rw [ok_bind, replay_logged]
        cases r.2.apply (write.fill c) with
        | error e => rfl
        | ok c' => rfl

theorem rememberAttrib_withList (w : WalkState) (c : ListCursor) :
    rememberAttrib i (w.withList c) = (w.remember i).withList c := by
  unfold rememberAttrib WalkState.remember
  by_cases hlive : isLive (w.direntry (32 * i)) = true
  · rw [if_pos hlive, if_pos hlive]
  · rw [if_neg hlive, if_neg hlive]

theorem shortEntry_eq_replay (w : WalkState) (write : EntryWrite) (c : ListCursor) :
    shortEntry i (w.withList (write.fill c)) =
      replay (logged write (shortWrite w.direntry i, .ok w)) c >>= fun r =>
        .ok (r.1.withList r.2) := by
  unfold shortEntry shortWrite
  dsimp only [WalkState.withList]
  by_cases hlive : isLive (w.direntry (32 * i)) = true
  · rw [if_pos hlive, if_pos hlive, replay_logged]
    change liftFault (putName _ (write.fill c)) >>= _ =
      (liftFault (putName _ (write.fill c)) >>= _) >>= _
    cases putName (shortName w.direntry (32 * i)) (write.fill c) with
    | error e => rfl
    | ok c' => rfl
  · rw [if_neg hlive, if_neg hlive]
    rfl

theorem remembered_eq_replay {step : Except Stop ClusterState} {write : EntryWrite}
    {x : NameWrite × Except Leave WalkState} {c : ListCursor}
    (hstep : step = replay (logged write x) c >>= fun r => .ok (r.1.withList r.2)) :
    (step >>= fun s => pure (rememberAttrib i s)) =
      replay (logged write (x.1, x.2.map (WalkState.remember i))) c >>= fun r =>
        .ok (r.1.withList r.2) := by
  obtain ⟨name, result⟩ := x
  rw [hstep, replay_logged, replay_logged]
  cases name.apply (write.fill c) with
  | error e => rfl
  | ok c' =>
      cases result with
      | error e => cases e <;> rfl
      | ok w => exact congrArg Except.ok (rememberAttrib_withList w c')

theorem fillNode_eq_fill (buf : Buffer) (o : ℕ) (c : ListCursor) (name : NameWrite) :
    fillNode buf o c =
      (⟨buf (o + 11), startCluster buf o, le32 buf (o + 28), name⟩ : EntryWrite).fill c := by
  unfold fillNode EntryWrite.fill
  rfl

theorem entryStep_eq_replay (w : WalkState) (c : ListCursor) (i : ℕ) :
    entryStep vol g cluster k (w.withList c) i =
      replay (entryWalk vol g cluster k w i) c >>= fun r => .ok (r.1.withList r.2) := by
  unfold entryStep entryWalk
  dsimp only [WalkState.withList]
  by_cases hattrib : attribOf w.direntry (32 * i) ≠ 0x0F ∧
      attribOf w.direntry (32 * i) ≠ 0x08
  · rw [if_pos hattrib, if_pos hattrib]
    let write : EntryWrite := ⟨w.direntry (32 * i + 11),
      startCluster w.direntry (32 * i), le32 w.direntry (32 * i + 28), .keep⟩
    rw [fillNode_eq_fill w.direntry (32 * i) c .keep]
    by_cases hprev : w.prev = 0x0F
    · rw [if_pos hprev, if_pos hprev]
      have hlong := remembered_eq_replay (i := i)
        (@longEntry_eq_replay vol g cluster k i w write c)
      exact hlong
    · rw [if_neg hprev, if_neg hprev]
      have hshort := remembered_eq_replay (i := i) (@shortEntry_eq_replay i w write c)
      exact hshort
  · rw [if_neg hattrib, if_neg hattrib]
    exact congrArg Except.ok (rememberAttrib_withList w c)

theorem sectorStep_eq_replay (w : WalkState) (c : ListCursor) (k : ℕ) :
    sectorStep vol g cluster (w.withList c) k =
      replay (sectorWalk vol g cluster w k) c >>= fun r => .ok (r.1.withList r.2) := by
  unfold sectorStep sectorWalk
  rw [readOrReturn_eq_replay, replay_bind]
  cases replay (readWalk vol g cluster k w) c with
  | error e => rfl
  | ok r => exact foldlM_eq_replay (fun w c i => entryStep_eq_replay w c i) _ r.1 r.2

theorem clusterLoop_eq_replay (direntry : Buffer) (c : ListCursor) :
    clusterLoop vol g direntry cluster c =
      replay (clusterWalk vol g direntry cluster) c >>= fun r =>
        .ok (r.1.withList r.2) :=
  foldlM_eq_replay (fun w c k => sectorStep_eq_replay w c k) _ ⟨direntry, 0⟩ c

theorem finish_ignoreCode (x : Walked Unit) (c : ListCursor) :
    finish (replay x.ignoreCode c) =
      finish (replay x c) >>= fun r => .ok (success, clearName r.2) := by
  obtain ⟨log, result⟩ := x
  unfold replay Walked.ignoreCode
  rcases result with (fault | code) | u
  all_goals
    dsimp only
    cases log.foldlM EntryWrite.apply c with
    | error e => rfl
    | ok c' => rfl

/-- `fat32_rd_cluster` is its walk, replayed on the list. -/
theorem fat32RdCluster_eq_replay (direntry : Buffer) (fuel : ℕ) (c : ListCursor) :
    fat32RdCluster vol g direntry fuel cluster c =
      finish (replay (chainWalk vol g direntry fuel cluster) c) := by
  induction fuel generalizing cluster c with
  | zero => rfl
  | succ fuel ih =>
      have hloop := @clusterLoop_eq_replay vol g cluster direntry c
      rw [clusterLoop] at hloop
      rw [fat32RdCluster, hloop, chainWalk, replay_bind]
      cases replay (clusterWalk vol g direntry cluster) c with
      | error stop => cases stop <;> rfl
      | ok r =>
          change (if isError (fat32RdFAT vol g cluster) then _
            else if fat32RdFAT vol g cluster = 0 then _ else _) = finish (replay
              (if isError (fat32RdFAT vol g cluster) then _
            else if fat32RdFAT vol g cluster = 0 then _ else _) r.2)
          by_cases herror : isError (fat32RdFAT vol g cluster) = true
          · rw [if_pos herror, if_pos herror]
            rfl
          · rw [if_neg herror, if_neg herror]
            by_cases hend : fat32RdFAT vol g cluster = 0
            · rw [if_pos hend, if_pos hend]
              rfl
            · rw [if_neg hend, if_neg hend]
              change fat32RdCluster vol g direntry fuel (fat32RdFAT vol g cluster) r.2 >>=
                _ = _
              rw [ih]
              exact (finish_ignoreCode _ r.2).symm

end Fat32
end Janus86
