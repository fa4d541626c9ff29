import Janus86.SchedRoundRobin
import Janus86.DiskModel

/-!
# New tasks

`make_task` puts the first context of a task on a stack of its own and its record in
the slot `end` of `rrq`.  It moves `end` on without looking at the size of the array or
at `front`, so the queue stays sound as long as `end` is not in the last slot and two
slots are free.
-/

namespace Janus86
namespace Scheduler

open CircularQueue

def STACK_SIZE : ℕ := 64 * 4
def KERNEL_CODE_SEG : ℕ := 0x0008
def KERNEL_STACK_SEG : ℕ := 0x0010
def DATA_SEG : ℕ := 0x0010

/-- `struct stack_data`. -/
structure StackData where
  gs : ℕ
  fs : ℕ
  es : ℕ
  ds : ℕ
  edi : ℕ
  esi : ℕ
  ebp : ℕ
  esp : ℕ
  ebx : ℕ
  edx : ℕ
  ecx : ℕ
  eax : ℕ
  eip : ℕ
  cs : ℕ
  eflags : ℕ
  deriving DecidableEq, Repr

def sizeofStackData : ℕ := 15 * 4

/-- The context with which a task starts in `entry`. -/
def firstContext (stack entry : ℕ) : StackData where
  gs := DATA_SEG
  fs := DATA_SEG
  es := DATA_SEG
  ds := DATA_SEG
  edi := 0
  esi := 0
  ebp := stack
  esp := stack
  ebx := 0
  edx := 0
  ecx := 0
  eax := 0
  eip := entry
  cs := KERNEL_CODE_SEG
  eflags := 0x202

/-- `strncpy(dest, src, limit)` into an array that the copy fits into. -/
def strncpy : List UInt8 → List UInt8 → ℕ → List UInt8
  | [], _, _ => []
  | dest, _, 0 => dest
  | _ :: dest, [], _ + 1 => 0 :: dest
  | _ :: dest, c :: src, limit + 1 =>
      if c = 0 then 0 :: dest else c :: strncpy dest src limit

/-- The address of the context on the stack that `kmalloc` returned. -/
def stackTop (stackMem : ℕ) : ℕ := (stackMem + (STACK_SIZE - sizeofStackData)) % 2 ^ 32

/-- The record as `make_task` fills it in; `kstack` and `ustack` keep what they had. -/
def newRecord (stackMem pri : ℕ) (name : List UInt8) (old : TaskData) : TaskData :=
  { old with
    name := strncpy old.name name 32
    stack := stackTop stackMem
    ss := KERNEL_STACK_SEG
    priority := pri
    time := getPriTime pri }

/-- `make_task(pri, name, entry)`, where `kmalloc` returns `stackMem`: the scheduler and
the context that is stored at `stackTop stackMem`. -/
def makeTask (stackMem pri : ℕ) (name : List UInt8) (entry : ℕ) (s : Sched) :
    Sched × StackData :=
  ({ s with
      rrq := Function.update s.rrq s.end_
        (newRecord stackMem pri name (s.rrq s.end_))
      end_ := s.end_ + 1 },
    firstContext (stackTop stackMem) entry)

/-- The task is put behind the last one of the queue, or the full queue is left as it
is; no slot outside `rrq` changes. -/
structure Enqueues (s : Sched) (task : TaskData) (t : Sched) : Prop where
  wellFormed : WellFormed t
  inside : ∀ slot, QUE_SIZE ≤ slot → t.rrq slot = s.rrq slot
  appended : count s < QUE_SIZE - 1 → queue t = queue s ++ [task]
  refused : QUE_SIZE - 1 ≤ count s → t = s

variable {s : Sched}

theorem WellFormed.end_eq (hs : WellFormed s) :
    s.end_ = (s.front + count s) % QUE_SIZE := by
  obtain ⟨hfront, hend⟩ := hs
  simp only [QUE_SIZE] at hfront hend
  simp only [count, QUE_SIZE]
  omega

theorem count_lt (s : Sched) : count s < QUE_SIZE := Nat.mod_lt _ (by decide)

/-- Below the last slot `end` moves on as it should, and the queue grows by one. -/
theorem WellFormed.count_succ (hs : WellFormed s) (hroom : count s < QUE_SIZE - 1)
    (hlast : s.end_ < QUE_SIZE - 1) :
    (s.end_ + 1 + QUE_SIZE - s.front) % QUE_SIZE = count s + 1 := by
  obtain ⟨hfront, hend⟩ := hs
  simp only [count, QUE_SIZE] at hfront hend hroom hlast ⊢
  omega

theorem WellFormed.makeTask_enqueues (hs : WellFormed s) (hroom : count s < QUE_SIZE - 1)
    (hlast : s.end_ < QUE_SIZE - 1) (stackMem pri entry : ℕ) (name : List UInt8) :
    Enqueues s (newRecord stackMem pri name (s.rrq s.end_))
      (makeTask stackMem pri name entry s).1 where
  wellFormed := by
    refine ⟨hs.front_lt, ?_⟩
    simp only [makeTask, QUE_SIZE] at hlast ⊢
    omega
  inside := by
    intro slot hslot
    exact Function.update_of_ne (fun h => absurd hs.end_lt (by omega)) _ _
  appended := by
    intro _
    have hcount : count (makeTask stackMem pri name entry s).1 = count s + 1 :=
      hs.count_succ hroom hlast
    rw [queue, hcount, window_snoc]
    simp only [makeTask]
    rw [hs.end_eq, window_update (count_lt s), Function.update_self]
    rfl
  refused := by
    intro hfull
    omega

/-- `make_task` enqueues its task exactly when there is room for it and `end` is not in
the last slot of the array. -/
theorem makeTask_enqueues_iff (hs : WellFormed s) (stackMem pri entry : ℕ)
    (name : List UInt8) :
    Enqueues s (newRecord stackMem pri name (s.rrq s.end_))
        (makeTask stackMem pri name entry s).1 ↔
      count s < QUE_SIZE - 1 ∧ s.end_ < QUE_SIZE - 1 := by
  constructor
  · intro henq
    have hend := henq.wellFormed.end_lt
    refine ⟨?_, ?_⟩
    · -- a full queue would have to stay as it is, and `end` moves on
      by_contra hfull
      have hsame := congrArg Sched.end_ (henq.refused (not_lt.mp hfull))
      simp [makeTask] at hsame
    · simp only [makeTask, QUE_SIZE] at hend ⊢
      omega
  · rintro ⟨hroom, hlast⟩
    exact hs.makeTask_enqueues hroom hlast stackMem pri entry name

theorem makeTask_enqueues_wrapped :
    Enqueues threeTasks (newRecord 8192 3 [116] (threeTasks.rrq 2))
        (makeTask 8192 3 [116] 4096 threeTasks).1 ↔
      count threeTasks < QUE_SIZE - 1 ∧ threeTasks.end_ < QUE_SIZE - 1 :=
  makeTask_enqueues_iff ⟨by decide, by decide⟩ 8192 3 4096 [116]

/-- The queue of the tasks in the slots 5 to 126. -/
def lastSlotNext : Sched := { threeTasks with front := 5, end_ := 127 }

/-- From the last slot `end` leaves the array. -/
theorem end_leaves_array :
    ¬ ∀ (s : Sched) (stackMem pri entry : ℕ) (name : List UInt8), WellFormed s →
      Enqueues s (newRecord stackMem pri name (s.rrq s.end_))
        (makeTask stackMem pri name entry s).1 := by
  intro hclaim
  have henq := hclaim lastSlotNext 8192 3 4096 [116] ⟨by decide, by decide⟩
  exact absurd henq.wellFormed.end_lt (by decide)

end Scheduler
end Janus86
