import Janus86.SchedModel
import Janus86.CircularQueue
import Mathlib.Data.List.Rotate

/-!
# The order of the tasks

A call of `schedule` sets the time of the front record anew and moves the record
to the end of the queue.  Up to the time fields it rotates the queue by one, so the
tasks get the processor in turn.
-/

namespace Janus86
namespace Scheduler

open CircularQueue

/-- A record without its time. -/
def untimed (task : TaskData) : TaskData := { task with time := 0 }

/-- The records in the queue, the front one first. -/
def queue (s : Sched) : List TaskData := window QUE_SIZE s.rrq s.front (count s)

def untimedQueue (s : Sched) : List TaskData := (queue s).map untimed

/-- The task at the front of the queue, up to its time. -/
def running (s : Sched) : TaskData := untimed (s.rrq s.front)

/-- The state after so many calls of `schedule`. -/
def afterSchedules (regs : ℕ → ℕ) (s : Sched) : ℕ → Sched
  | 0 => s
  | k + 1 => (schedule (regs k) (afterSchedules regs s k)).1

variable {s : Sched} {n : ℕ}

theorem Holds.count_eq (hs : Holds s n) : count s = n := by
  obtain ⟨hfront, hend, hpos, hlt⟩ := hs
  simp only [QUE_SIZE] at hfront hend hlt
  simp only [count, QUE_SIZE]
  omega

theorem Holds.untimedQueue_eq (hs : Holds s n) :
    untimedQueue s = window QUE_SIZE (untimed ∘ s.rrq) s.front n := by
  simp [untimedQueue, queue, window, hs.count_eq]

@[simp] theorem untimed_renewed (s : Sched) :
    untimed (renewed s) = untimed (s.rrq s.front) := rfl

theorem Holds.untimed_schedule (hs : Holds s n) (regs : ℕ) :
    untimed ∘ (schedule regs s).1.rrq =
      Function.update (untimed ∘ s.rrq) ((s.front + n) % QUE_SIZE)
        (untimed (s.rrq s.front)) := by
  -- the front record is stored back with another time, which does not show
  have hfront : Function.update (untimed ∘ s.rrq) s.front
      (untimed (s.rrq s.front)) = untimed ∘ s.rrq :=
    Function.update_eq_self s.front _
  rw [hs.schedule_eq, Function.comp_update, Function.comp_update, untimed_renewed, hfront,
    hs.end_eq]

theorem Holds.queue_cons (hs : Holds s n) :
    untimedQueue s =
      running s :: window QUE_SIZE (untimed ∘ s.rrq) (s.front + 1) (n - 1) := by
  obtain ⟨m, rfl⟩ : ∃ m, n = m + 1 := ⟨n - 1, by have := hs.pos; omega⟩
  rw [hs.untimedQueue_eq, window_cons, Nat.mod_eq_of_lt hs.front_lt]
  rfl

theorem Holds.queue_schedule (hs : Holds s n) (regs : ℕ) :
    untimedQueue (schedule regs s).1 = (untimedQueue s).rotate 1 := by
  have hmoved : (schedule regs s).1.front = (s.front + 1) % QUE_SIZE := by
    rw [hs.schedule_eq]
  rw [(hs.schedule_holds regs).untimedQueue_eq, hmoved, window_mod,
    hs.untimed_schedule regs, window_move hs.lt, ← hs.untimedQueue_eq, hs.queue_cons,
    List.rotate_cons_succ, List.rotate_zero]
  rfl

theorem Holds.after_calls (hs : Holds s n) (regs : ℕ → ℕ) (k : ℕ) :
    Holds (afterSchedules regs s k) n ∧
      untimedQueue (afterSchedules regs s k) = (untimedQueue s).rotate k := by
  induction k with
  | zero => exact ⟨hs, (List.rotate_zero _).symm⟩
  | succ k ih =>
      obtain ⟨hbefore, hrotated⟩ := ih
      refine ⟨hbefore.schedule_holds (regs k), ?_⟩
      rw [afterSchedules, hbefore.queue_schedule, hrotated, List.rotate_rotate]

theorem Holds.length_queue (hs : Holds s n) : (untimedQueue s).length = n := by
  simp [hs.untimedQueue_eq]

theorem Holds.running_eq (hs : Holds s n) : (untimedQueue s)[0]? = some (running s) := by
  rw [hs.queue_cons]
  rfl

/-- The task that runs after `k` calls. -/
theorem Holds.running_after (hs : Holds s n) (regs : ℕ → ℕ) (k : ℕ) :
    (untimedQueue s)[k % n]? = some (running (afterSchedules regs s k)) := by
  obtain ⟨hafter, hrotated⟩ := hs.after_calls regs k
  have hlength : 0 < (untimedQueue s).length := hs.length_queue ▸ hs.pos
  rw [← hafter.running_eq, hrotated, List.getElem?_rotate hlength, hs.length_queue,
    Nat.zero_add]

/-- The tasks that run after `n` calls in a row are the tasks of the queue, in the
order of the queue. -/
theorem Holds.running_round (hs : Holds s n) (regs : ℕ → ℕ) (k : ℕ) :
    (List.range n).map (fun i => running (afterSchedules regs s (k + i))) =
      (untimedQueue s).rotate k := by
  have hlength : ((untimedQueue s).rotate k).length = n := by
    rw [List.length_rotate, hs.length_queue]
  apply List.ext_getElem?
  intro i
  by_cases hi : i < n
  · rw [List.getElem?_rotate (hs.length_queue.symm ▸ hi), hs.length_queue, Nat.add_comm i k,
      hs.running_after regs (k + i), List.getElem?_map, List.getElem?_range hi,
      Option.map_some]
  · rw [List.getElem?_eq_none (by simp; omega), List.getElem?_eq_none (by omega)]

/-- `schedule` takes the tasks in turn: the queue is rotated by one at each call, the
pointer returned is the one of the task then at the front, and the tasks that `n` calls
in a row give the processor are those of the queue. -/
theorem schedule_round_robin (hs : Holds s n) (regs : ℕ → ℕ) (k : ℕ) :
    (afterSchedules regs s k).front < QUE_SIZE ∧
    (afterSchedules regs s k).end_ < QUE_SIZE ∧
    count (afterSchedules regs s k) = n ∧
    untimedQueue (afterSchedules regs s k) = (untimedQueue s).rotate k ∧
    (untimedQueue s)[k % n]? = some (running (afterSchedules regs s k)) ∧
    (schedule (regs k) (afterSchedules regs s k)).2 =
      (running (afterSchedules regs s (k + 1))).stack ∧
    ((List.range n).map fun i => running (afterSchedules regs s (k + 1 + i))).Perm
      (untimedQueue s) := by
  obtain ⟨hafter, hrotated⟩ := hs.after_calls regs k
  refine ⟨hafter.front_lt, hafter.end_lt, hafter.count_eq, hrotated,
    hs.running_after regs k, rfl, ?_⟩
  rw [hs.running_round regs (k + 1)]
  exact List.rotate_perm _ _

/-- Three tasks in the last slot and the first two. -/
def threeTasks : Sched where
  rrq := fun slot => ⟨[], 5000 + slot, 0x10, 0, 0, 2, 3⟩
  front := 127
  end_ := 2
  ticks := 0
  sysTime := 0
  totalTicks := 0

theorem schedule_round_robin_wrapped :
    (untimedQueue threeTasks)[4 % 3]? =
        some (running (afterSchedules id threeTasks 4)) ∧
      ((List.range 3).map fun i => running (afterSchedules id threeTasks (4 + 1 + i))).Perm
        (untimedQueue threeTasks) :=
  have hround := schedule_round_robin (s := threeTasks) (n := 3)
    ⟨by decide, by decide, by decide, by decide⟩ id 4
  ⟨hround.2.2.2.2.1, hround.2.2.2.2.2.2⟩

end Scheduler
end Janus86
