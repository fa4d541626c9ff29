import Janus86.SchedModel
import Janus86.CircularQueue
import Janus86.StepMachine

/-!
# Saved contexts of the tasks

A tick is given the stack pointer of the task that it preempts and returns the
one of the task that runs next.  The scheduler is watched here together with
two things it does not keep itself: which task the record in a slot belongs to,
and the pointer with which a task was last preempted.  `schedule` never stores
`regs`, so a task is resumed with the pointer its record came with.
-/

namespace Janus86
namespace Scheduler

open StepMachine
open CircularQueue

/-- The scheduler, the task whose record a slot holds, and the `regs` with
which a task was last preempted. -/
structure Watched where
  sched : Sched
  owner : ℕ → ℕ
  lastRegs : ℕ → Option ℕ

/-- A tick preempts the task at the front; the record moves with its owner. -/
def Watched.tick (regs : ℕ) (w : Watched) : Watched where
  sched := (taskTimerC regs w.sched).1
  owner := Function.update w.owner w.sched.end_ (w.owner w.sched.front)
  lastRegs :=
    Function.update w.lastRegs (w.owner w.sched.front) (some regs)

/-- Nothing has been preempted yet; a task is called by the slot it is in. -/
def watch (s : Sched) : Watched := ⟨s, id, fun _ => none⟩

def Ticks (w : Watched) (regs : ℕ) (w' : Watched) : Prop := w' = w.tick regs

/-- The pointer that the tick returns is the one with which the task now at the
front was last preempted, if it was. -/
def ResumesLast (t : Transition Watched ℕ) : Prop :=
  ∀ regs, t.after.lastRegs (t.after.owner t.after.sched.front) = some regs →
    (taskTimerC t.label t.before.sched).2 = regs

/-- The task is preempted with the pointer that its record holds. -/
def AsRecorded (t : Transition Watched ℕ) : Prop :=
  t.label = curTaskStack t.before.sched

/-! ## The queue of contexts -/

/-- What resuming the task in a slot needs: the recorded pointer and the last
one it was preempted with. -/
def Watched.context (w : Watched) (slot : ℕ) : ℕ × Option ℕ :=
  ((w.sched.rrq slot).stack, w.lastRegs (w.owner slot))

def Watched.contexts (w : Watched) (n : ℕ) : List (ℕ × Option ℕ) :=
  window QUE_SIZE w.context w.sched.front n

def UpToDate (context : ℕ × Option ℕ) : Prop :=
  ∀ regs, context.2 = some regs → context.1 = regs

/-- The context that a tick puts at the end of the queue. -/
def served (t : Transition Watched ℕ) : ℕ × Option ℕ :=
  (curTaskStack t.before.sched, some t.label)

/-- The queue holds `n` tasks, each in one slot. -/
structure Tracks (w : Watched) (n : ℕ) : Prop where
  holds : Holds w.sched n
  owners : (window QUE_SIZE w.owner w.sched.front n).Nodup

section Tick

variable {w : Watched} {n : ℕ} (regs : ℕ)

theorem tracks_watch {s : Sched} (hs : Holds s n) : Tracks (watch s) n :=
  ⟨hs, window_nodup hs.lt.le⟩

theorem Tracks.tick_front (hw : Tracks w n) :
    (w.tick regs).sched.front = (w.sched.front + 1) % QUE_SIZE := by
  simp [Watched.tick, hw.holds.taskTimerC]

theorem Tracks.tick_holds (hw : Tracks w n) :
    Holds (w.tick regs).sched n :=
  hw.holds.clock_holds.schedule_holds regs

theorem Tracks.window_cons {α : Type} (hw : Tracks w n) (slots : ℕ → α) :
    window QUE_SIZE slots w.sched.front n =
      slots w.sched.front ::
        window QUE_SIZE slots (w.sched.front + 1) (n - 1) := by
  obtain ⟨m, rfl⟩ : ∃ m, n = m + 1 := ⟨n - 1, by have := hw.holds.pos; omega⟩
  rw [CircularQueue.window_cons, Nat.mod_eq_of_lt hw.holds.front_lt,
    Nat.add_sub_cancel]

theorem Tracks.owner_ne (hw : Tracks w n) {i : ℕ} (hi : i < n - 1) :
    w.owner ((w.sched.front + 1 + i) % QUE_SIZE) ≠ w.owner w.sched.front := by
  have howners := hw.owners
  rw [hw.window_cons, List.nodup_cons] at howners
  intro hsame
  apply howners.1
  rw [← hsame]
  exact List.mem_map.mpr ⟨i, List.mem_range.mpr hi, rfl⟩

theorem Tracks.tick_owners (hw : Tracks w n) :
    (window QUE_SIZE (w.tick regs).owner (w.tick regs).sched.front n).Nodup := by
  rw [hw.tick_front, window_mod]
  simp only [Watched.tick, hw.holds.end_eq]
  rw [window_move hw.holds.lt, hw.window_cons]
  have howners := hw.owners
  rw [hw.window_cons] at howners
  exact (List.perm_append_singleton _ _).nodup_iff.mpr howners

theorem Tracks.tick (hw : Tracks w n) : Tracks (w.tick regs) n :=
  ⟨hw.tick_holds regs, hw.tick_owners regs⟩

/-- The task at the front leaves the front of the queue and comes back at its
end with the pointer that it was preempted with. -/
theorem Tracks.tick_contexts (hw : Tracks w n) :
    (w.tick regs).contexts n =
      (w.contexts n).tail ++ [(curTaskStack w.sched, some regs)] := by
  -- the contexts with the new pointer, before the record is moved
  let stored : ℕ → ℕ × Option ℕ := fun slot =>
    ((w.sched.rrq slot).stack, (w.tick regs).lastRegs (w.owner slot))
  have hcontext : (w.tick regs).context =
      Function.update stored ((w.sched.front + n) % QUE_SIZE)
        (curTaskStack w.sched, some regs) := by
    funext slot
    rw [← hw.holds.end_eq]
    by_cases hend : slot = w.sched.end_
    · simp [hend, Watched.context, Watched.tick, hw.holds.taskTimerC,
        renewed, curTaskStack]
    · by_cases hfront : slot = w.sched.front
      · subst hfront
        simp [hend, stored, Watched.context, Watched.tick,
          hw.holds.taskTimerC, renewed]
      · simp [hend, hfront, stored, Watched.context, Watched.tick,
          hw.holds.taskTimerC]
  rw [Watched.contexts, hw.tick_front, window_mod, hcontext,
    window_move hw.holds.lt, Watched.contexts, hw.window_cons, hw.window_cons]
  simp only [List.cons_append, List.tail_cons, List.append_cancel_right_eq]
  apply List.map_congr_left
  intro i hi
  have hother := hw.owner_ne (List.mem_range.mp hi)
  simp [stored, Watched.context, Watched.tick, hother]

theorem Tracks.resumesLast_iff (hw : Tracks w n) {t : Transition Watched ℕ}
    (hbefore : t.before = w) (hafter : Ticks w t.label t.after) :
    ResumesLast t ↔
      UpToDate (t.after.context t.after.sched.front) := by
  subst hbefore
  rw [Ticks] at hafter
  simp only [ResumesLast, UpToDate, Watched.context, hafter]
  rfl

end Tick

/-! ## Runs of ticks -/

/-- All ticks of a run resume the last context exactly when the contexts that
come to the front are up to date: first those that wait in the queue, then
those that the run puts there. -/
theorem resumesLast_iff_contexts {w : Watched} {n : ℕ}
    {ts : List (Transition Watched ℕ)} (hw : Tracks w n)
    (hpath : StepPath Ticks w ts) :
    (∀ t ∈ ts, ResumesLast t) ↔
      ∀ c ∈ ((w.contexts n).tail ++ ts.map served).take ts.length,
        UpToDate c := by
  induction ts generalizing w with
  | nil => simp
  | cons t ts ih =>
      obtain ⟨hbefore, hstep, hrest⟩ := hpath
      have hafter : t.after = w.tick t.label := by
        rw [hbefore] at hstep
        exact hstep
      have hw' : Tracks t.after n := hafter ▸ hw.tick t.label
      have hqueue := hw.tick_contexts t.label
      rw [← hafter] at hqueue
      -- the context that comes to the front is the first of the waiting ones
      have hcons : (w.contexts n).tail ++ served t :: ts.map served =
          t.after.context t.after.sched.front ::
            ((t.after.contexts n).tail ++ ts.map served) := by
        have hserved : served t = (curTaskStack w.sched, some t.label) := by
          rw [served, hbefore]
        rw [hserved, List.append_cons, ← hqueue, Watched.contexts,
          hw'.window_cons]
        rfl
      rw [List.forall_mem_cons, List.map_cons, List.length_cons, hcons,
        List.take_succ_cons, List.forall_mem_cons, ih hw' hrest,
        hw.resumesLast_iff hbefore (hbefore ▸ hstep)]

/-- In a run of ticks every task that comes back to the front is resumed with
the pointer it was last preempted with, exactly when every tick that the run
follows up with a whole round preempts its task with the recorded pointer. -/
theorem resumesLast_iff_asRecorded {s : Sched}
    {ts : List (Transition Watched ℕ)} (hs : WellFormed s)
    (hne : isEmpty s = false) (hpath : StepPath Ticks (watch s) ts) :
    (∀ t ∈ ts, ResumesLast t) ↔
      ∀ t ∈ ts.take (ts.length + 1 - count s), AsRecorded t := by
  have hholds := hs.holds_count hne
  have hpos := hholds.pos
  rw [resumesLast_iff_contexts (tracks_watch hholds) hpath]
  set waiting := ((watch s).contexts (count s)).tail with hwaiting
  have hlength : waiting.length = count s - 1 := by
    simp [hwaiting, Watched.contexts]
  have hfresh : ∀ c ∈ waiting.take ts.length, UpToDate c := by
    intro c hc regs hregs
    have hmem := List.mem_of_mem_tail (List.mem_of_mem_take hc)
    obtain ⟨i, _, rfl⟩ := List.mem_map.mp hmem
    simp [Watched.context, watch] at hregs
  have hrounds : ts.length - waiting.length = ts.length + 1 - count s := by
    omega
  rw [List.take_append, List.forall_mem_append, and_iff_right hfresh, hrounds,
    ← List.map_take, List.forall_mem_map]
  refine forall₂_congr fun t _ => ?_
  simp [UpToDate, served, AsRecorded, eq_comm]

/-! ## Two tasks -/

/-- The tasks of slots 0 and 1, with the stack pointers 5000 and 6000. -/
def twoTasks : Sched where
  rrq := fun slot => ⟨[], if slot = 0 then 5000 else 6000, 0x10, 0, 0, 2, 3⟩
  front := 0
  end_ := 2
  ticks := 0
  sysTime := 0
  totalTicks := 0

def stepsOf : Watched → List ℕ → List (Transition Watched ℕ)
  | _, [] => []
  | w, regs :: rest => ⟨w, regs, w.tick regs⟩ :: stepsOf (w.tick regs) rest

theorem stepPath_stepsOf (w : Watched) (rs : List ℕ) :
    StepPath Ticks w (stepsOf w rs) := by
  induction rs generalizing w with
  | nil => trivial
  | cons regs rest ih => exact ⟨rfl, rfl, ih _⟩

theorem resumesLast_iff_asRecorded_round :
    (∀ t ∈ stepsOf (watch twoTasks) [5000, 6000, 5000], ResumesLast t) ↔
      ∀ t ∈ (stepsOf (watch twoTasks) [5000, 6000, 5000]).take 2,
        AsRecorded t :=
  resumesLast_iff_asRecorded ⟨by decide, by decide⟩ rfl (stepPath_stepsOf _ _)

/-- The first task is preempted with 4000 and resumed with 5000. -/
theorem old_context_resumed :
    ¬ ∀ (s : Sched) (ts : List (Transition Watched ℕ)), WellFormed s →
      isEmpty s = false → StepPath Ticks (watch s) ts →
      ∀ t ∈ ts, ResumesLast t := by
  intro hclaim
  have hresumes := hclaim twoTasks _ ⟨by decide, by decide⟩ rfl
    (stepPath_stepsOf _ [4000, 4100])
  have hsecond := hresumes _ (List.mem_cons_of_mem _ List.mem_cons_self) 4000
    (by decide +kernel)
  exact absurd hsecond (by decide +kernel)

end Scheduler
end Janus86
