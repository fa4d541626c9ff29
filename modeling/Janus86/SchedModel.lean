import Mathlib.Tactic

/-!
# The task scheduler

`src/kernel/sched.c` keeps the tasks in the circular buffer `rrq`, from `front`
up to `end`, and takes the processor from one to the next at every tick of the
timer.  `task_timer` in `switch.asm` saves the registers on the stack of the
running task, passes the stack pointer to `task_timer_c` as `regs`, and goes on
with the stack pointer that comes back.  What the functions print and the end
of interrupt that they send to the interrupt controller leave this state alone.
-/

namespace Janus86
namespace Scheduler

def QUE_SIZE : ℕ := 128

/-- `struct task_data`; `stack` is a pointer. -/
structure TaskData where
  name : List UInt8
  stack : ℕ
  ss : ℕ
  kstack : ℕ
  ustack : ℕ
  time : ℕ
  priority : ℕ
  deriving DecidableEq, Repr

/-- The globals of the scheduler and of its clock. -/
structure Sched where
  rrq : ℕ → TaskData
  front : ℕ
  end_ : ℕ
  ticks : ℕ
  sysTime : ℕ
  totalTicks : ℕ

def clock (s : Sched) : Sched :=
  let ticks := (s.ticks + 1) % 2 ^ 32
  let s := { s with ticks := ticks, totalTicks := (s.totalTicks + 1) % 2 ^ 32 }
  if 100 ≤ ticks then
    { s with sysTime := (s.sysTime + 1) % 2 ^ 32, ticks := 0 }
  else s

def isEmpty (s : Sched) : Bool := s.end_ == s.front

def curTaskPri (s : Sched) : ℕ :=
  if isEmpty s then 0 else (s.rrq s.front).priority

def frontToEnd (s : Sched) : Sched :=
  if isEmpty s then s
  else
    { s with
      rrq := Function.update s.rrq s.end_ (s.rrq s.front)
      end_ := if QUE_SIZE ≤ s.end_ + 1 then 0 else s.end_ + 1
      front := if QUE_SIZE ≤ s.front + 1 then 0 else s.front + 1 }

def curTaskTimeEqu (time : ℕ) (s : Sched) : Sched :=
  if isEmpty s then s
  else
    { s with
      rrq := Function.update s.rrq s.front { s.rrq s.front with time := time } }

def getPriTime : ℕ → ℕ
  | 0 => 100
  | 1 => 10
  | 2 => 5
  | 3 => 2
  | 4 => 1
  | _ => 0

/-- `schedule(regs)` and the stack pointer it returns; `regs` is not read. -/
def schedule (_regs : ℕ) (s : Sched) : Sched × ℕ :=
  let s := curTaskTimeEqu (getPriTime (curTaskPri s)) s
  let s := frontToEnd s
  (s, (s.rrq s.front).stack)

def taskTimerC (regs : ℕ) (s : Sched) : Sched × ℕ :=
  schedule regs (clock s)

structure WellFormed (s : Sched) : Prop where
  front_lt : s.front < QUE_SIZE
  end_lt : s.end_ < QUE_SIZE

def count (s : Sched) : ℕ := (s.end_ + QUE_SIZE - s.front) % QUE_SIZE

/-- The stack pointer that is recorded for the running task. -/
def curTaskStack (s : Sched) : ℕ := (s.rrq s.front).stack

/-! ## What one tick does -/

section Tick

variable {s : Sched} {n : ℕ} (regs : ℕ)

/-- The queue holds `n` tasks, at least one. -/
structure Holds (s : Sched) (n : ℕ) : Prop where
  front_lt : s.front < QUE_SIZE
  end_eq : s.end_ = (s.front + n) % QUE_SIZE
  pos : 0 < n
  lt : n < QUE_SIZE

theorem WellFormed.holds_count (hs : WellFormed s) (hne : isEmpty s = false) :
    Holds s (count s) := by
  obtain ⟨hfront, hend⟩ := hs
  simp only [isEmpty, beq_eq_false_iff_ne] at hne
  simp only [QUE_SIZE] at hfront hend
  constructor
  · exact hfront
  · simp only [count, QUE_SIZE]
    omega
  · simp only [count, QUE_SIZE]
    omega
  · exact Nat.mod_lt _ (by decide)

theorem Holds.not_isEmpty (hs : Holds s n) : isEmpty s = false := by
  obtain ⟨hfront, hend, hpos, hlt⟩ := hs
  simp only [QUE_SIZE] at hfront hend hlt
  simp only [isEmpty, beq_eq_false_iff_ne]
  omega

@[simp] theorem clock_rrq (s : Sched) : (clock s).rrq = s.rrq := by
  unfold clock
  dsimp only
  split <;> rfl

@[simp] theorem clock_front (s : Sched) : (clock s).front = s.front := by
  unfold clock
  dsimp only
  split <;> rfl

@[simp] theorem clock_end (s : Sched) : (clock s).end_ = s.end_ := by
  unfold clock
  dsimp only
  split <;> rfl

@[simp] theorem isEmpty_clock (s : Sched) : isEmpty (clock s) = isEmpty s := by
  simp [isEmpty]

def renewed (s : Sched) : TaskData :=
  { s.rrq s.front with time := getPriTime (s.rrq s.front).priority }

theorem succ_index {i : ℕ} (hi : i < QUE_SIZE) :
    (if QUE_SIZE ≤ i + 1 then 0 else i + 1) = (i + 1) % QUE_SIZE := by
  by_cases hwrap : QUE_SIZE ≤ i + 1
  · have hlast : i + 1 = QUE_SIZE := Nat.le_antisymm hi hwrap
    rw [if_pos hwrap, hlast, Nat.mod_self]
  · rw [if_neg hwrap, Nat.mod_eq_of_lt (not_le.mp hwrap)]

theorem Holds.end_lt (hs : Holds s n) : s.end_ < QUE_SIZE :=
  hs.end_eq ▸ Nat.mod_lt _ (by decide)

theorem Holds.curTaskTimeEqu (hs : Holds s n) :
    curTaskTimeEqu (getPriTime (curTaskPri s)) s =
      { s with rrq := Function.update s.rrq s.front (renewed s) } := by
  simp [Scheduler.curTaskTimeEqu, curTaskPri, hs.not_isEmpty, renewed]

theorem Holds.frontToEnd (hs : Holds s n) :
    frontToEnd s =
      { s with
        rrq := Function.update s.rrq s.end_ (s.rrq s.front)
        end_ := (s.end_ + 1) % QUE_SIZE
        front := (s.front + 1) % QUE_SIZE } := by
  simp [Scheduler.frontToEnd, hs.not_isEmpty, succ_index hs.end_lt,
    succ_index hs.front_lt]

/-- The record at the front is moved behind the last one, with its time set
anew, and both indices go on by one slot. -/
theorem Holds.schedule_eq (hs : Holds s n) :
    (schedule regs s).1 =
      { s with
        rrq := Function.update (Function.update s.rrq s.front (renewed s))
          s.end_ (renewed s)
        end_ := (s.end_ + 1) % QUE_SIZE
        front := (s.front + 1) % QUE_SIZE } := by
  have hset : Holds { s with
      rrq := Function.update s.rrq s.front (renewed s) } n :=
    ⟨hs.front_lt, hs.end_eq, hs.pos, hs.lt⟩
  simp only [schedule, hs.curTaskTimeEqu, hset.frontToEnd]
  simp

theorem Holds.schedule_holds (hs : Holds s n) : Holds (schedule regs s).1 n := by
  obtain ⟨hfront, hend, hpos, hlt⟩ := hs
  rw [Holds.schedule_eq regs ⟨hfront, hend, hpos, hlt⟩]
  refine ⟨Nat.mod_lt _ (by decide), ?_, hpos, hlt⟩
  simp only [hend, QUE_SIZE]
  omega

theorem Holds.clock_holds (hs : Holds s n) : Holds (clock s) n := by
  constructor
  · simpa using hs.front_lt
  · simpa using hs.end_eq
  · exact hs.pos
  · exact hs.lt

/-- A tick does what `schedule` does, after the clock has been counted up. -/
theorem Holds.taskTimerC (hs : Holds s n) :
    (taskTimerC regs s).1 =
      { clock s with
        rrq := Function.update (Function.update s.rrq s.front (renewed s))
          s.end_ (renewed s)
        end_ := (s.end_ + 1) % QUE_SIZE
        front := (s.front + 1) % QUE_SIZE } := by
  have hsame : renewed (clock s) = renewed s := by simp [renewed]
  rw [Scheduler.taskTimerC, hs.clock_holds.schedule_eq]
  simp [hsame]

end Tick

end Scheduler
end Janus86
