/-
# The scheduler's CPU-burst accounting

`OS과제/과제4` adds a field `cpu_burst` to the kernel's `task_struct`:
`sched_fork` clears it, `sched_info_depart` adds the time a task ran when it
leaves a CPU, and `finish_task_switch` prints it when the task is dead. This
module is the part of the scheduler that decides these values, for any type
`R` of CPUs with a runqueue each and any type `T` of tasks: the `sched_info`
functions of `stats.h`, `sched_fork`, wakeups and migrations, and `__schedule`
up to the end of `finish_task_switch`.

What a CPU does under its runqueue lock is one step. A switch is three: up to
`switch_to`; the load of `prev->state` and `finish_task`, which lets other
CPUs take `prev`; and the `printk`, after the lock is released. A call of
`update_rq_clock` outside `__schedule` is a step of its own. What
`pick_next_task` returns, the clocks, the signals and who is woken are left
open. `CONFIG_SMP`, `CONFIG_SCHED_INFO` and `CONFIG_SCHEDSTATS` are on, and
`sched_info_on()` is true.
-/
import Mathlib
import LinuxProg.Lib.Transition
import LinuxProg.Lib.Occupancy

namespace LinuxProg
namespace Sched

/-! ### Tasks and runqueues -/

/- The values of `task_struct.state` that are looked at; a state is a set of bits. -/
def taskRunning : ℕ := 0x0000
def taskInterruptible : ℕ := 0x0001
def taskDead : ℕ := 0x0080
def taskWakekill : ℕ := 0x0100
def taskNew : ℕ := 0x0800

def schedNormal : ℕ := 0
def schedFifo : ℕ := 1
def schedRr : ℕ := 2
def schedDeadline : ℕ := 6

/-- `NICE_TO_PRIO(0)`. -/
def defaultPrio : ℤ := 120
def maxDlPrio : ℤ := 0
def eagain : ℤ := 11

structure SchedInfo where
  pcount : UInt64
  runDelay : UInt64
  lastArrival : UInt64
  lastQueued : UInt64

inductive OnRq where
  | off
  | queued
  | migrating
  deriving DecidableEq

/-- The fields of `task_struct` that the accounting depends on. -/
structure Task (R : Type*) where
  pid : ℤ
  state : ℕ
  onRq : OnRq
  onCpu : Bool
  cpu : R
  prio : ℤ
  staticPrio : ℤ
  normalPrio : ℤ
  rtPriority : ℕ
  policy : ℕ
  schedResetOnFork : Bool
  schedInfo : SchedInfo
  cpuBurst : UInt64

/-- How far the last switch of a runqueue is. -/
inductive Phase (T : Type*) where
  | running
  /-- After `switch_to`, before `finish_task(prev)`. -/
  | switched (prev : T)
  /-- After `finish_task(prev)`, with the `prev_state` loaded before it. -/
  | dropped (prev : T) (prevState : ℕ)
  deriving DecidableEq

structure Rq (T : Type*) where
  clock : UInt64
  curr : T
  idle : T
  rqCpuTime : UInt64
  /-- `rq_sched_info.run_delay` and `.pcount`. -/
  runDelay : UInt64
  pcount : UInt64
  phase : Phase T

/-- A line of `finish_task_switch` in the kernel log. -/
structure Report (T : Type*) where
  prev : T
  pid : ℤ
  cpuBurst : UInt64

structure System (R T : Type*) where
  rq : R → Rq T
  task : T → Task R
  /-- The tasks there are or have been. -/
  tasks : Finset T
  printk : List (Report T)

variable {R T : Type*}

/-! ### `stats.h` -/

def rqSchedInfoArrive (rq : Rq T) (delta : UInt64) : Rq T :=
  { rq with runDelay := rq.runDelay + delta, pcount := rq.pcount + 1 }

def rqSchedInfoDepart (rq : Rq T) (delta : UInt64) : Rq T :=
  { rq with rqCpuTime := rq.rqCpuTime + delta }

def rqSchedInfoDequeued (rq : Rq T) (delta : UInt64) : Rq T :=
  { rq with runDelay := rq.runDelay + delta }

def schedInfoResetDequeued (t : Task R) : Task R :=
  { t with schedInfo := { t.schedInfo with lastQueued := 0 } }

/-- The time since the task was queued, `0` if it was not. -/
def queuedFor (rq : Rq T) (t : Task R) : UInt64 :=
  if t.schedInfo.lastQueued ≠ 0 then rq.clock - t.schedInfo.lastQueued else 0

def addRunDelay (t : Task R) (delta : UInt64) : Task R :=
  { t with schedInfo := { t.schedInfo with runDelay := t.schedInfo.runDelay + delta } }

def schedInfoDequeued (rq : Rq T) (t : Task R) : Rq T × Task R :=
  let delta := queuedFor rq t
  (rqSchedInfoDequeued rq delta, addRunDelay (schedInfoResetDequeued t) delta)

def schedInfoArrive (rq : Rq T) (t : Task R) : Rq T × Task R :=
  let delta := queuedFor rq t
  let t := addRunDelay (schedInfoResetDequeued t) delta
  (rqSchedInfoArrive rq delta,
    { t with schedInfo :=
      { t.schedInfo with lastArrival := rq.clock, pcount := t.schedInfo.pcount + 1 } })

def schedInfoQueued (rq : Rq T) (t : Task R) : Task R :=
  if t.schedInfo.lastQueued = 0 then
    { t with schedInfo := { t.schedInfo with lastQueued := rq.clock } }
  else t

def schedInfoDepart (rq : Rq T) (t : Task R) : Rq T × Task R :=
  let delta := rq.clock - t.schedInfo.lastArrival
  let t := { t with cpuBurst := t.cpuBurst + delta }
  (rqSchedInfoDepart rq delta, if t.state = taskRunning then schedInfoQueued rq t else t)

section

variable [DecidableEq R] (σ : System R T) (r : R) (q : Rq T)

def System.setRq : System R T :=
  { σ with rq := Function.update σ.rq r q }

@[simp]
theorem setRq_rq (x : R) : (σ.setRq r q).rq x = if x = r then q else σ.rq x :=
  Function.update_apply ..

@[simp]
theorem setRq_task : (σ.setRq r q).task = σ.task := rfl

end

section

variable [DecidableEq T] (σ : System R T) (p : T) (y : Task R)

def System.setTask : System R T :=
  { σ with task := Function.update σ.task p y }

@[simp]
theorem setTask_task (t : T) : (σ.setTask p y).task t = if t = p then y else σ.task t :=
  Function.update_apply ..

theorem setTask_of_mem {σ : System R T} {p t : T} {y : Task R} (hp : p ∉ σ.tasks)
    (ht : t ∈ σ.tasks) : (σ.setTask p y).task t = σ.task t := by
  have hne : t ≠ p := fun he => hp (he ▸ ht)
  rw [setTask_task, if_neg hne]

@[simp]
theorem setTask_rq : (σ.setTask p y).rq = σ.rq := rfl

end

section

variable [DecidableEq R] [DecidableEq T]

/-- Runs a `sched_info` function on a runqueue and a task. -/
def System.account (σ : System R T) (r : R) (t : T) (f : Rq T → Task R → Rq T × Task R) :
    System R T :=
  (σ.setRq r (f (σ.rq r) (σ.task t)).1).setTask t (f (σ.rq r) (σ.task t)).2

/-- `__sched_info_switch`. -/
def schedInfoSwitch (σ : System R T) (r : R) (prev next : T) : System R T :=
  let σ := if prev ≠ (σ.rq r).idle then σ.account r prev schedInfoDepart else σ
  if next ≠ (σ.rq r).idle then σ.account r next schedInfoArrive else σ

/-! ### Fork -/

def taskHasDlPolicy (p : Task R) : Bool := p.policy == schedDeadline

def taskHasRtPolicy (p : Task R) : Bool := p.policy == schedFifo || p.policy == schedRr

/-- Revert to default priority and policy. -/
def resetOnFork (p : Task R) : Task R :=
  let p :=
    if taskHasDlPolicy p || taskHasRtPolicy p then
      { p with policy := schedNormal, staticPrio := defaultPrio, rtPriority := 0 }
    else if p.staticPrio - defaultPrio < 0 then { p with staticPrio := defaultPrio }
    else p
  { p with prio := p.staticPrio, normalPrio := p.staticPrio, schedResetOnFork := false }

/-- `sched_fork` on CPU `cpu`, with what is copied from the parent already in
`p`: the new task, or the error. -/
def schedFork (cpu : R) (current p : Task R) : Except ℤ (Task R) :=
  let p := { p with onRq := .off, state := taskNew, cpuBurst := 0, prio := current.normalPrio,
                    policy := schedFifo }
  let p := if p.schedResetOnFork then resetOnFork p else p
  if p.prio < maxDlPrio then .error (-eagain)
  else .ok { p with cpu := cpu, schedInfo := ⟨0, 0, 0, 0⟩, onCpu := false }

/-- The forked task `p` is there. -/
def System.addTask (σ : System R T) (p : T) (new : Task R) : System R T :=
  { σ.setTask p new with tasks := insert p σ.tasks }

/-! ### Clocks, queues and wakeups -/

/-- `update_rq_clock`, when `sched_clock_cpu` returns `now`. -/
def updateRqClock (now : UInt64) (rq : Rq T) : Rq T :=
  let delta := (now - rq.clock).toInt64
  if delta < 0 then rq else { rq with clock := rq.clock + delta.toUInt64 }

def System.updateClock (σ : System R T) (r : R) (now : UInt64) : System R T :=
  σ.setRq r (updateRqClock now (σ.rq r))

def activateTask (σ : System R T) (r : R) (p : T) : System R T :=
  σ.setTask p { schedInfoQueued (σ.rq r) (σ.task p) with onRq := .queued }

/-- `deactivate_task`; `sleep` is the flag `DEQUEUE_SLEEP`. -/
def deactivateTask (σ : System R T) (r : R) (p : T) (sleep : Bool) : System R T :=
  (σ.setTask p { σ.task p with onRq := if sleep then .off else .migrating }).account r p
    schedInfoDequeued

def wakeUpNewTask (σ : System R T) (r : R) (p : T) : System R T :=
  activateTask (σ.setTask p { σ.task p with state := taskRunning, cpu := r }) r p

/-- `try_to_wake_up`, when `select_task_rq` chooses `r`. -/
def tryToWakeUp (σ : System R T) (r : R) (p : T) (state : ℕ) : System R T :=
  if (σ.task p).state &&& state = 0 then σ
  else if (σ.task p).onRq = .queued then σ.setTask p { σ.task p with state := taskRunning }
  else activateTask (σ.setTask p { σ.task p with state := taskRunning, cpu := r }) r p

def moveQueuedTask (σ : System R T) (src dst : R) (p : T) : System R T :=
  let σ := deactivateTask σ src p false
  activateTask (σ.setTask p { σ.task p with cpu := dst }) dst p

def setCurrentState (σ : System R T) (r : R) (state : ℕ) : System R T :=
  σ.setTask (σ.rq r).curr { σ.task (σ.rq r).curr with state := state }

/-! ### `__schedule` -/

/-- `signal_pending_state`; `pending` says that there is a signal the state lets through. -/
def signalPendingState (state : ℕ) (pending : Bool) : Bool :=
  state &&& (taskInterruptible ||| taskWakekill) ≠ 0 && pending

/-- `__schedule` before `pick_next_task`: a task that is not running leaves the queue. -/
def blockPrev (σ : System R T) (r : R) (prev : T) (preempt pending : Bool) : System R T :=
  let prevState := (σ.task prev).state
  if !preempt && prevState ≠ 0 then
    if signalPendingState prevState pending then
      σ.setTask prev { σ.task prev with state := taskRunning }
    else deactivateTask σ r prev true
  else σ

def prepareTaskSwitch (σ : System R T) (r : R) (prev next : T) : System R T :=
  let σ := schedInfoSwitch σ r prev next
  σ.setTask next { σ.task next with onCpu := true }

/-- `context_switch` up to `switch_to`. -/
def contextSwitch (σ : System R T) (r : R) (prev next : T) : System R T :=
  let σ := prepareTaskSwitch σ r prev next
  σ.setRq r { σ.rq r with phase := .switched prev }

/-- `__schedule`, when `pick_next_task` returns `next`. -/
def schedule (σ : System R T) (r : R) (now : UInt64) (preempt pending : Bool) (next : T) :
    System R T :=
  let σ := σ.updateClock r now
  let prev := (σ.rq r).curr
  let σ := blockPrev σ r prev preempt pending
  if prev ≠ next then contextSwitch (σ.setRq r { σ.rq r with curr := next }) r prev next else σ

/-- `finish_task_switch` up to `finish_task(prev)`. -/
def finishTask (σ : System R T) (r : R) (prev : T) : System R T :=
  (σ.setRq r { σ.rq r with phase := .dropped prev (σ.task prev).state }).setTask prev
    { σ.task prev with onCpu := false }

/-- The rest of `finish_task_switch`. -/
def finishTaskSwitch (σ : System R T) (r : R) (prev : T) (prevState : ℕ) : System R T :=
  let σ' := σ.setRq r { σ.rq r with phase := .running }
  if prevState = taskDead then
    { σ' with printk := σ.printk ++ [⟨prev, (σ.task prev).pid, (σ.task prev).cpuBurst⟩] }
  else σ'

/-! ### Runs -/

/-- What a step did: a fork, a call of `__schedule` with the task it chose and
the clock it read, or something else. -/
inductive Event (R T : Type*) where
  | fork (r : R) (p : T)
  | schedule (r : R) (next : T) (clock : UInt64)
  | other

/-- `pick_next_task` on `r` may return `next`: the idle task of `r`, or a queued
task of this CPU. -/
def Pickable (σ : System R T) (r : R) (next : T) : Prop :=
  next = (σ.rq r).idle ∨
    next ∈ σ.tasks ∧ (∀ r', next ≠ (σ.rq r').idle) ∧ (σ.task next).onRq = .queued ∧
      (σ.task next).cpu = r

inductive Step (σ : System R T) : Event R T → System R T → Prop where
  | fork (r : R) (p : T) (orig : Task R) {new : Task R} :
      (σ.rq r).phase = .running → p ∉ σ.tasks →
      schedFork r (σ.task (σ.rq r).curr) orig = .ok new →
      Step σ (.fork r p) (σ.addTask p new)
  | tick (r : R) (now : UInt64) :
      (σ.rq r).clock ≤ (updateRqClock now (σ.rq r)).clock →
      Step σ .other (σ.updateClock r now)
  | wakeNew (r : R) (p : T) :
      p ∈ σ.tasks → (σ.task p).state = taskNew → Step σ .other (wakeUpNewTask σ r p)
  -- no caller wakes tasks in the state `TASK_DEAD`; a task on its way off a CPU is waited for
  | wake (r : R) (p : T) (state : ℕ) :
      p ∈ σ.tasks → taskDead &&& state = 0 →
      ((σ.task p).onRq ≠ .queued → (σ.task p).onCpu = false) →
      Step σ .other (tryToWakeUp σ r p state)
  | migrate (src dst : R) (p : T) :
      p ∈ σ.tasks → (σ.task p).onRq = .queued → (σ.task p).onCpu = false →
      Step σ .other (moveQueuedTask σ src dst p)
  -- the idle task never blocks, and a task that has called `do_task_dead` only calls `__schedule`
  | setState (r : R) (state : ℕ) :
      (σ.rq r).phase = .running → (σ.rq r).curr ≠ (σ.rq r).idle →
      (σ.task (σ.rq r).curr).state ≠ taskDead →
      Step σ .other (setCurrentState σ r state)
  -- `do_task_dead` runs with preemption disabled
  | schedule (r : R) (now : UInt64) (preempt pending : Bool) (next : T) :
      (σ.rq r).phase = .running →
      (σ.rq r).clock ≤ (updateRqClock now (σ.rq r)).clock →
      (preempt = true → (σ.task (σ.rq r).curr).state ≠ taskDead) →
      Pickable (blockPrev (σ.updateClock r now) r (σ.rq r).curr preempt pending) r next →
      (next ≠ (σ.rq r).curr → (σ.task next).onCpu = false) →
      Step σ (.schedule r next (updateRqClock now (σ.rq r)).clock)
        (schedule σ r now preempt pending next)
  | finish (r : R) (prev : T) :
      (σ.rq r).phase = .switched prev → Step σ .other (finishTask σ r prev)
  | report (r : R) (prev : T) (prevState : ℕ) :
      (σ.rq r).phase = .dropped prev prevState →
      Step σ .other (finishTaskSwitch σ r prev prevState)

end

/-- The idle tasks are current, and all counters are `0`. -/
structure Initial (σ : System R T) : Prop where
  idle_injective : Function.Injective fun r => (σ.rq r).idle
  idle_mem : ∀ r, (σ.rq r).idle ∈ σ.tasks
  idle_state : ∀ r, (σ.task (σ.rq r).idle).state = taskRunning
  idle_onCpu : ∀ r, (σ.task (σ.rq r).idle).onCpu = true
  curr : ∀ r, (σ.rq r).curr = (σ.rq r).idle
  phase : ∀ r, (σ.rq r).phase = .running
  rqCpuTime : ∀ r, (σ.rq r).rqCpuTime = 0
  cpuBurst : ∀ t ∈ σ.tasks, (σ.task t).cpuBurst = 0
  printk : σ.printk = []

end Sched
end LinuxProg
