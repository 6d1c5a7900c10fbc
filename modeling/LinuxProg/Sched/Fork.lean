/-
# Real-time policy, priority and class of a new task

The kernel says in three ways that a task is a real-time task: by its policy,
by a normal priority below `MAX_RT_PRIO`, and by its class. `sched_fork` takes
the priority from the parent, forces `SCHED_FIFO` and picks the class by the
priority. With the reset flag the forced policy is reverted together with the
priority, and the child of a real-time task is one in all three ways; the child
of any other task has the policy and not the class (`fork_consistent_iff`).
-/
import Mathlib
import LinuxProg.Sched.Model

namespace LinuxProg
namespace Sched

variable {R : Type*}

def maxRtPrio : ℤ := 100

/-- `rt_prio(prio)` -/
def rtPrio (prio : ℤ) : Bool := decide (prio < maxRtPrio)

/-- `__normal_prio(p)` -/
def staticNormalPrio (p : Task R) : ℤ := p.staticPrio

/-- `normal_prio(p)`; `rt_priority` is unsigned, the result is an `int`. -/
def normalPrio (p : Task R) : ℤ :=
  if taskHasDlPolicy p then maxDlPrio - 1
  else if taskHasRtPolicy p then Int.bmod (maxRtPrio - 1 - p.rtPriority) (2 ^ 32)
  else staticNormalPrio p

inductive SchedClass where
  | rt
  | fair
  deriving DecidableEq

/-- The class `sched_fork` gives to the new task. -/
def classOnFork (p : Task R) : SchedClass := if rtPrio p.prio then .rt else .fair

/-- `sched_fork(p)`, with the class. -/
def schedForkClass (cpu : R) (current p : Task R) : Except ℤ (Task R × SchedClass) :=
  (schedFork cpu current p).map fun new => (new, classOnFork new)

/-- `p` is a copy of `current`, as far as the policy and the priorities go. -/
structure CopyOf (current p : Task R) : Prop where
  policy : p.policy = current.policy
  staticPrio : p.staticPrio = current.staticPrio
  normalPrio : p.normalPrio = current.normalPrio
  rtPriority : p.rtPriority = current.rtPriority
  resetOnFork : p.schedResetOnFork = current.schedResetOnFork

/-- The policy and the priorities of a task agree. -/
structure Regular (t : Task R) : Prop where
  normal : t.normalPrio = normalPrio t
  rt : taskHasRtPolicy t = true ↔ rtPrio t.normalPrio = true
  dl : taskHasDlPolicy t = false
  static : 100 ≤ t.staticPrio ∧ t.staticPrio ≤ 139

/-- The policy, the priority and the class of a task agree. -/
structure Consistent (t : Task R) (c : SchedClass) : Prop where
  normal : t.normalPrio = normalPrio t
  rt : c = .rt ↔ taskHasRtPolicy t = true

theorem classOnFork_eq_rt {p : Task R} : classOnFork p = .rt ↔ rtPrio p.prio = true := by
  unfold classOnFork
  split <;> simp_all

/-- What the forced policy is. -/
theorem taskHasRtPolicy_fifo {p : Task R} (h : p.policy = schedFifo) : taskHasRtPolicy p = true := by
  rw [taskHasRtPolicy, h]
  rfl

theorem taskHasDlPolicy_fifo {p : Task R} (h : p.policy = schedFifo) :
    taskHasDlPolicy p = false := by
  rw [taskHasDlPolicy, h]
  rfl

/-- Reverting is always from the forced policy. -/
theorem resetOnFork_fifo {p : Task R} (h : p.policy = schedFifo) : resetOnFork p =
    { p with policy := schedNormal, staticPrio := defaultPrio, rtPriority := 0, prio := defaultPrio,
             normalPrio := defaultPrio, schedResetOnFork := false } := by
  unfold resetOnFork
  rw [taskHasRtPolicy_fifo h, Bool.or_true, if_pos rfl]

section Fork

variable {cpu : R} {current p new : Task R} {c : SchedClass}

/-- What a new task has, with the reset flag and without. -/
theorem schedForkClass_ok (h : schedForkClass cpu current p = .ok (new, c)) :
    c = classOnFork new ∧ if p.schedResetOnFork then
      new.policy = schedNormal ∧ new.staticPrio = defaultPrio ∧ new.prio = defaultPrio ∧
        new.normalPrio = defaultPrio
    else new.policy = schedFifo ∧ new.prio = current.normalPrio ∧ new.normalPrio = p.normalPrio ∧
      new.rtPriority = p.rtPriority := by
  unfold schedForkClass schedFork at h
  dsimp only at h
  split_ifs at h with hreset hdl hdl
  · cases h
  · obtain ⟨rfl, rfl⟩ := Prod.mk.inj (Except.ok.inj h)
    rw [if_pos hreset, resetOnFork_fifo rfl]
    exact ⟨rfl, rfl, rfl, rfl, rfl⟩
  · cases h
  · obtain ⟨rfl, rfl⟩ := Prod.mk.inj (Except.ok.inj h)
    rw [if_neg hreset]
    exact ⟨rfl, rfl, rfl, rfl, rfl⟩

/-- Without the flag there is a new task unless the priority is a deadline one. -/
theorem schedForkClass_isOk (cpu : R) (hreset : p.schedResetOnFork = false)
    (hdl : maxDlPrio ≤ current.normalPrio) :
    ∃ new c, schedForkClass cpu current p = .ok (new, c) := by
  unfold schedForkClass schedFork
  simp only [hreset, Bool.false_eq_true, if_false, if_neg (not_lt.mpr hdl)]
  exact ⟨_, _, rfl⟩

/-- A task whose policy was reverted. -/
theorem consistent_of_reset (hpolicy : new.policy = schedNormal)
    (hstatic : new.staticPrio = defaultPrio) (hprio : new.prio = defaultPrio)
    (hnormal : new.normalPrio = defaultPrio) : Consistent new (classOnFork new) := by
  have hrt : taskHasRtPolicy new = false := by
    rw [taskHasRtPolicy, hpolicy]
    rfl
  have hdl : taskHasDlPolicy new = false := by
    rw [taskHasDlPolicy, hpolicy]
    rfl
  constructor
  · rw [normalPrio, hdl, hrt, staticNormalPrio, hnormal, hstatic]
    rfl
  · rw [classOnFork_eq_rt, hprio, hrt]
    decide

/-- A task with the forced policy, copied from a real-time one. -/
theorem consistent_of_rt (hcur : Regular current) (hcopy : CopyOf current p)
    (hrt : taskHasRtPolicy current = true) (hpolicy : new.policy = schedFifo)
    (hprio : new.prio = current.normalPrio) (hnormal : new.normalPrio = p.normalPrio)
    (hrtp : new.rtPriority = p.rtPriority) : Consistent new (classOnFork new) := by
  have hnew := taskHasRtPolicy_fifo hpolicy
  constructor
  · calc new.normalPrio = current.normalPrio := hnormal.trans hcopy.normalPrio
      _ = normalPrio current := hcur.normal
      _ = Int.bmod (maxRtPrio - 1 - current.rtPriority) (2 ^ 32) := by
        rw [normalPrio, hcur.dl, hrt]
        rfl
      _ = Int.bmod (maxRtPrio - 1 - new.rtPriority) (2 ^ 32) := by rw [hrtp, hcopy.rtPriority]
      _ = normalPrio new := by
        rw [normalPrio, taskHasDlPolicy_fifo hpolicy, hnew]
        rfl
  · rw [classOnFork_eq_rt, hprio, hnew, ← hcur.rt, hrt]

/-- **The new task is consistent exactly if the parent has the reset flag or is
a real-time task.** -/
theorem fork_consistent_iff (cpu : R) (hcur : Regular current) (hcopy : CopyOf current p) :
    (∀ new c, schedForkClass cpu current p = .ok (new, c) → Consistent new c) ↔
      current.schedResetOnFork = true ∨ taskHasRtPolicy current = true := by
  constructor
  · intro h
    by_contra hnot
    rw [not_or, Bool.not_eq_true, Bool.not_eq_true] at hnot
    obtain ⟨hreset, hrt⟩ := hnot
    have hprio : rtPrio current.normalPrio = false := by
      rw [← Bool.not_eq_true, ← hcur.rt, hrt]
      exact Bool.false_ne_true
    have hle : maxRtPrio ≤ current.normalPrio := not_lt.mp (of_decide_eq_false hprio)
    rw [← hcopy.resetOnFork] at hreset
    obtain ⟨new, c, hok⟩ := schedForkClass_isOk cpu hreset (le_trans (by decide) hle)
    obtain ⟨rfl, hnew⟩ := schedForkClass_ok hok
    rw [if_neg (by rw [hreset]; exact Bool.false_ne_true)] at hnew
    have hclass := (h new _ hok).rt.mpr (taskHasRtPolicy_fifo hnew.1)
    rw [classOnFork_eq_rt, hnew.2.1, hprio] at hclass
    cases hclass
  · intro h new c hok
    obtain ⟨rfl, hnew⟩ := schedForkClass_ok hok
    rw [hcopy.resetOnFork] at hnew
    by_cases hreset : current.schedResetOnFork = true
    · rw [if_pos hreset] at hnew
      obtain ⟨hpolicy, hstatic, hprio, hnormal⟩ := hnew
      exact consistent_of_reset hpolicy hstatic hprio hnormal
    · rw [if_neg hreset] at hnew
      obtain ⟨hpolicy, hprio, hnormal, hrtp⟩ := hnew
      exact consistent_of_rt hcur hcopy (h.resolve_left hreset) hpolicy hprio hnormal hrtp

end Fork

/-- A task of policy `SCHED_NORMAL` and nice value 0. -/
def normalTask : Task Unit where
  pid := 1
  state := taskRunning
  onRq := .queued
  onCpu := true
  cpu := ()
  prio := defaultPrio
  staticPrio := defaultPrio
  normalPrio := defaultPrio
  rtPriority := 0
  policy := schedNormal
  schedResetOnFork := false
  schedInfo := ⟨0, 0, 0, 0⟩
  cpuBurst := 0

theorem normalTask_regular : Regular normalTask where
  normal := rfl
  rt := by decide
  dl := rfl
  static := by decide

theorem copyOf_self (t : Task R) : CopyOf t t := ⟨rfl, rfl, rfl, rfl, rfl⟩

/-- Its child has the policy `SCHED_FIFO` and the fair class. -/
theorem normalTask_child : Regular normalTask ∧ CopyOf normalTask normalTask ∧
    ∃ new, schedForkClass () normalTask normalTask = .ok (new, .fair) ∧
      new.policy = schedFifo ∧ ¬ Consistent new .fair := by
  refine ⟨normalTask_regular, copyOf_self _, _, rfl, rfl, fun h => ?_⟩
  have := h.rt.mpr (by decide)
  cases this

/-- The same fork. -/
theorem fork_consistent_iff_normalTask :
    (∀ new c, schedForkClass () normalTask normalTask = .ok (new, c) → Consistent new c) ↔
      normalTask.schedResetOnFork = true ∨ taskHasRtPolicy normalTask = true :=
  fork_consistent_iff () normalTask_regular (copyOf_self normalTask)

end Sched
end LinuxProg
