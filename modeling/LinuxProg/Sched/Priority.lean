/-
# Changing the policy and the priority of a task

`set_user_nice`, `rt_mutex_setprio` and the calls that end in
`__sched_setscheduler`. What these read besides the tasks (capabilities, limits,
the deadline parameters, the uclamp attributes) is in `Answers`.

`__sched_setscheduler` looks at the task without its lock first (`precheck`), and
starts again when the policy has changed in the meantime (`locked`).
`_sched_setscheduler` replaces the policy by `SCHED_FIFO`, unless the bit
`SCHED_RESET_ON_FORK` is set in it (`legacyAttr`).
-/
import Mathlib
import LinuxProg.Sched.Fork

namespace LinuxProg
namespace Sched
namespace Priority

variable {R T : Type*}

/-! ### Policies and priorities -/

def schedBatch : ℕ := 3
def schedIdle : ℕ := 5

def einval : ℤ := 22
def eperm : ℤ := 1
def ebusy : ℤ := 16

def maxUserRtPrio : ℤ := 100

def fairPolicy (policy : ℕ) : Bool := policy == schedNormal || policy == schedBatch

def rtPolicy (policy : ℕ) : Bool := policy == schedFifo || policy == schedRr

def dlPolicy (policy : ℕ) : Bool := policy == schedDeadline

def idlePolicy (policy : ℕ) : Bool := policy == schedIdle

def validPolicy (policy : ℕ) : Bool :=
  idlePolicy policy || fairPolicy policy || rtPolicy policy || dlPolicy policy

def niceToPrio (nice : ℤ) : ℤ := nice + defaultPrio

def prioToNice (prio : ℤ) : ℤ := prio - defaultPrio

def minNice : ℤ := -20
def maxNice : ℤ := 19

def dlPrio (prio : ℤ) : Bool := decide (prio < maxDlPrio)

inductive SchedClass where
  | dl
  | rt
  | fair
  deriving DecidableEq

/-- The class for a priority, as `rt_mutex_setprio` and `__setscheduler` choose it. -/
def classOf (prio : ℤ) : SchedClass :=
  if dlPrio prio then .dl else if rtPrio prio then .rt else .fair

/-- The class for the one that `sched_fork` chose. -/
def SchedClass.ofFork : Sched.SchedClass → SchedClass
  | .rt => .rt
  | .fair => .fair

/-- A task with its class and the task whose priority it inherits. -/
structure TaskStruct (R T : Type*) extends Task R where
  schedClass : SchedClass
  piTopTask : Option T

def taskNice (p : TaskStruct R T) : ℤ := prioToNice p.staticPrio

/-! ### Nice values and inheritance -/

/-- `effective_prio(p)`, with the normal priority it stores. -/
def effectivePrio (p : TaskStruct R T) : ℤ × TaskStruct R T :=
  let p := { p with normalPrio := normalPrio p.toTask }
  (if rtPrio p.prio = false then p.normalPrio else p.prio, p)

def setUserNice (p : TaskStruct R T) (nice : ℤ) : TaskStruct R T :=
  if taskNice p = nice ∨ nice < minNice ∨ maxNice < nice then p
  else if taskHasDlPolicy p.toTask || taskHasRtPolicy p.toTask then
    { p with staticPrio := niceToPrio nice }
  else
    let eff := effectivePrio { p with staticPrio := niceToPrio nice }
    { eff.2 with prio := eff.1 }

/-- `__rt_effective_prio`; `prioOf` are the priorities of the tasks. -/
def rtEffectivePrio (prioOf : T → ℤ) (piTask : Option T) (prio : ℤ) : ℤ :=
  match piTask with
  | none => prio
  | some t => min prio (prioOf t)

/-- `rt_mutex_setprio`; `idle` is the test `p == rq->idle`. -/
def rtMutexSetprio [DecidableEq T] (prioOf : T → ℤ) (idle : Bool) (p : TaskStruct R T)
    (piTask : Option T) : TaskStruct R T :=
  let prio := rtEffectivePrio prioOf piTask p.normalPrio
  if p.piTopTask = piTask ∧ prio = p.prio ∧ dlPrio prio = false then p
  else
    let p := { p with piTopTask := piTask }
    if prio = p.prio ∧ dlPrio prio = false then p
    else if idle then p
    else { p with schedClass := classOf prio, prio := prio }

/-! ### `__sched_setscheduler` -/

/-- `struct sched_attr`, with the flags that are tested; `unknown` are those
outside `SCHED_FLAG_ALL | SCHED_FLAG_SUGOV`. -/
structure SchedAttr where
  schedPolicy : BitVec 32
  schedPriority : ℕ
  schedNice : ℤ
  resetOnFork : Bool := false
  keepPolicy : Bool := false
  keepParams : Bool := false
  utilClamp : Bool := false
  sugov : Bool := false
  unknown : Bool := false

def setparamPolicy : BitVec 32 := -1

/-- The environment's part in a call. -/
structure Answers where
  /-- `capable(CAP_SYS_NICE)` -/
  capable : Bool
  /-- `p->mm` is set. -/
  mm : Bool
  canNice : ℤ → Bool
  rlimitRtprio : ℕ
  checkSameOwner : Bool
  securityTaskSetscheduler : ℤ
  uclampValidate : ℤ
  checkparamDl : Bool
  dlParamChanged : Bool
  /-- `p == rq->stop` -/
  stop : Bool
  /-- A group without real-time runtime. -/
  rtGroupRefuses : Bool
  /-- The affinity mask or the bandwidth of the root domain. -/
  dlDomainRefuses : Bool
  schedDlOverflow : Bool

/-- The policy asked for; a negative one stands for that of the task. -/
def requestedPolicy (t : TaskStruct R T) (attr : SchedAttr) : ℕ :=
  if attr.schedPolicy.msb then t.policy else attr.schedPolicy.toNat

def requestedReset (t : TaskStruct R T) (attr : SchedAttr) : Bool :=
  if attr.schedPolicy.msb then t.schedResetOnFork else attr.resetOnFork

/-- The checks of the attributes. -/
def checkAttr (ans : Answers) (early : TaskStruct R T) (attr : SchedAttr) : Option ℤ :=
  let policy := requestedPolicy early attr
  if attr.schedPolicy.msb = false ∧ validPolicy policy = false then some (-einval)
  else if attr.unknown then some (-einval)
  else if (ans.mm = true ∧ maxUserRtPrio - 1 < attr.schedPriority) ∨
      (ans.mm = false ∧ maxRtPrio - 1 < attr.schedPriority) then some (-einval)
  else if (dlPolicy policy = true ∧ ans.checkparamDl = false) ∨
      rtPolicy policy ≠ decide (attr.schedPriority ≠ 0) then some (-einval)
  else none

/-- The checks for users without the capability. -/
def checkUser (ans : Answers) (early : TaskStruct R T) (attr : SchedAttr) : Option ℤ :=
  let policy := requestedPolicy early attr
  if fairPolicy policy = true ∧ attr.schedNice < taskNice early ∧
      ans.canNice attr.schedNice = false then some (-eperm)
  else if rtPolicy policy = true ∧ policy ≠ early.policy ∧ ans.rlimitRtprio = 0 then some (-eperm)
  else if rtPolicy policy = true ∧ early.rtPriority < attr.schedPriority ∧
      ans.rlimitRtprio < attr.schedPriority then some (-eperm)
  else if dlPolicy policy then some (-eperm)
  else if idlePolicy early.policy = true ∧ idlePolicy policy = false ∧
      ans.canNice (taskNice early) = false then some (-eperm)
  else if ans.checkSameOwner = false then some (-eperm)
  else if early.schedResetOnFork = true ∧ requestedReset early attr = false then some (-eperm)
  else none

/-- All checks before the lock is taken: the error of the first that fails. -/
def precheck (ans : Answers) (early : TaskStruct R T) (attr : SchedAttr) (user : Bool) : Option ℤ :=
  (checkAttr ans early attr).or <|
  (if user = true ∧ ans.capable = false then checkUser ans early attr else none).or <|
  if user = true ∧ attr.sugov = true then some (-einval)
  else if user = true ∧ ans.securityTaskSetscheduler ≠ 0 then some ans.securityTaskSetscheduler
  else if attr.utilClamp = true ∧ ans.uclampValidate ≠ 0 then some ans.uclampValidate
  else none

def setschedulerParams (p : TaskStruct R T) (attr : SchedAttr) : TaskStruct R T :=
  let policy := if attr.schedPolicy = setparamPolicy then p.policy else attr.schedPolicy.toNat
  let p := { p with policy := policy }
  let p :=
    if dlPolicy policy then p
    else if fairPolicy policy then { p with staticPrio := niceToPrio attr.schedNice }
    else p
  let p := { p with rtPriority := attr.schedPriority }
  { p with normalPrio := normalPrio p.toTask }

/-- `__setscheduler` -/
def setscheduler (prioOf : T → ℤ) (p : TaskStruct R T) (attr : SchedAttr) (keepBoost : Bool) :
    TaskStruct R T :=
  if attr.keepParams then p
  else
    let p := setschedulerParams p attr
    let prio := normalPrio p.toTask
    let prio := if keepBoost then rtEffectivePrio prioOf p.piTopTask prio else prio
    { p with prio := prio, schedClass := classOf prio }

/-- How a turn of `__sched_setscheduler` ends: with `goto recheck`, or with the
return value and the task. -/
inductive Attempt (R T : Type*) where
  | recheck
  | done (retval : ℤ) (p : TaskStruct R T)

/-- Nothing is asked that would change the task. -/
def unchanging (ans : Answers) (p : TaskStruct R T) (attr : SchedAttr) (policy : ℕ) : Bool :=
  policy == p.policy && !(fairPolicy policy && attr.schedNice != taskNice p) &&
    !(rtPolicy policy && attr.schedPriority != p.rtPriority) &&
    !(dlPolicy policy && ans.dlParamChanged) && !attr.utilClamp

/-- `__sched_setscheduler` under the lock, when `policy` and `reset` are what it has
found before. -/
def locked (prioOf : T → ℤ) (ans : Answers) (policy : ℕ) (reset : Bool) (p : TaskStruct R T)
    (attr : SchedAttr) (user pi : Bool) : Attempt R T :=
  if ans.stop then .done (-einval) p
  else if unchanging ans p attr policy then .done 0 { p with schedResetOnFork := reset }
  else if user = true ∧ rtPolicy policy = true ∧ ans.rtGroupRefuses = true then .done (-eperm) p
  else if user = true ∧ dlPolicy policy = true ∧ attr.sugov = false ∧
      ans.dlDomainRefuses = true then .done (-eperm) p
  else if attr.schedPolicy.msb = true ∧ policy ≠ p.policy then .recheck
  else if (dlPolicy policy || dlPrio p.prio) && ans.schedDlOverflow then .done (-ebusy) p
  else .done 0 (setscheduler prioOf { p with schedResetOnFork := reset } attr pi)

/-! ### The callers -/

/-- `SCHED_RESET_ON_FORK` -/
def resetOnForkBit : BitVec 32 := 0x40000000

/-- The attributes that `_sched_setscheduler` passes on, for the task `p`. -/
def legacyAttr (p : TaskStruct R T) (policy : BitVec 32) (priority : BitVec 32) : SchedAttr :=
  let attr : SchedAttr :=
    { schedPolicy := policy, schedPriority := priority.toNat, schedNice := prioToNice p.staticPrio }
  let attr := { attr with schedPolicy := BitVec.ofNat 32 schedFifo }
  if policy ≠ setparamPolicy ∧ policy &&& resetOnForkBit ≠ 0 then
    { attr with resetOnFork := true, schedPolicy := policy &&& ~~~resetOnForkBit }
  else attr

/-- What `sys_sched_setattr` makes of the attributes, or `none` for `-EINVAL`. -/
def userAttr (attr : SchedAttr) : Option SchedAttr :=
  let attr := { attr with schedNice := max minNice (min maxNice attr.schedNice) }
  if attr.schedPolicy.msb then none
  else if attr.keepPolicy then some { attr with schedPolicy := setparamPolicy }
  else some attr

/-! ### Tasks whose fields agree -/

/-- The policy and the real-time priority of a task fit, and give its normal
priority. -/
structure Fitting (p : TaskStruct R T) : Prop where
  valid : validPolicy p.policy = true
  rt : rtPolicy p.policy = decide (p.rtPriority ≠ 0)
  le : (p.rtPriority : ℤ) ≤ maxRtPrio - 1
  normal : p.normalPrio = normalPrio p.toTask

/-- A task that has got its policy from `sched_fork`, and nothing that goes with it. -/
structure Forked (p : TaskStruct R T) : Prop where
  policy : p.policy = schedFifo
  rtPriority : p.rtPriority = 0
  normal : maxRtPrio ≤ p.normalPrio

/-- The class of a task is that of its priority, which is its normal priority or a
better one that it inherits. -/
structure Sane (p : TaskStruct R T) : Prop where
  schedClass : p.schedClass = classOf p.prio
  prio : p.prio ≤ p.normalPrio
  static : maxRtPrio ≤ p.staticPrio ∧ p.staticPrio ≤ niceToPrio maxNice
  kind : Fitting p ∨ Forked p

variable {p : TaskStruct R T} {prioOf : T → ℤ}

theorem normalPrio_rt {t : Task R} (hrt : taskHasRtPolicy t = true) (hdl : taskHasDlPolicy t = false)
    (hle : (t.rtPriority : ℤ) ≤ maxRtPrio - 1) :
    normalPrio t = maxRtPrio - 1 - t.rtPriority := by
  unfold normalPrio
  rw [hdl, hrt, if_neg Bool.false_ne_true, if_pos rfl]
  unfold maxRtPrio at hle ⊢
  exact Int.bmod_eq_of_le (by omega) (by omega)

theorem normalPrio_fair {t : Task R} (hrt : taskHasRtPolicy t = false)
    (hdl : taskHasDlPolicy t = false) : normalPrio t = t.staticPrio := by
  unfold normalPrio
  rw [hdl, hrt]
  rfl

/-- Only the static priority of other policies counts. -/
theorem normalPrio_congr {t t' : Task R} (hpolicy : t'.policy = t.policy)
    (hrt : t'.rtPriority = t.rtPriority)
    (hstatic : taskHasDlPolicy t = true ∨ taskHasRtPolicy t = true ∨ t'.staticPrio = t.staticPrio) :
    normalPrio t' = normalPrio t := by
  unfold normalPrio staticNormalPrio taskHasDlPolicy taskHasRtPolicy at *
  rw [hpolicy, hrt]
  rcases hstatic with h | h | h
  · rw [h, if_pos rfl, if_pos rfl]
  · rw [h]
    rfl
  · rw [h]

theorem Fitting.congr {q : TaskStruct R T} (h : Fitting p) (hpolicy : q.policy = p.policy)
    (hrt : q.rtPriority = p.rtPriority) (hnormal : q.normalPrio = normalPrio q.toTask) :
    Fitting q := by
  refine ⟨?_, ?_, ?_, hnormal⟩
  · rw [hpolicy]
    exact h.valid
  · rw [hpolicy, hrt]
    exact h.rt
  · rw [hrt]
    exact h.le

theorem Forked.congr {q : TaskStruct R T} (h : Forked p) (hpolicy : q.policy = p.policy)
    (hrt : q.rtPriority = p.rtPriority) (hnormal : q.normalPrio = p.normalPrio) : Forked q :=
  ⟨hpolicy.trans h.policy, hrt.trans h.rtPriority, hnormal ▸ h.normal⟩

theorem rtEffectivePrio_le (prioOf : T → ℤ) (piTask : Option T) (prio : ℤ) :
    rtEffectivePrio prioOf piTask prio ≤ prio := by
  unfold rtEffectivePrio
  split
  · exact le_rfl
  · exact min_le_left _ _

theorem classOf_fair {prio : ℤ} (h : maxRtPrio ≤ prio) : classOf prio = .fair := by
  have hdl : ¬ prio < maxDlPrio := not_lt.mpr (le_trans (by decide) h)
  unfold classOf dlPrio rtPrio
  rw [if_neg (by simpa using hdl), if_neg (by simpa using h)]

/-! ### The functions keep this -/

/-- What `set_user_nice` does with a real-time or deadline policy. -/
theorem setUserNice_rt (h : (taskHasDlPolicy p.toTask || taskHasRtPolicy p.toTask) = true)
    (nice : ℤ) : ∃ static, setUserNice p nice = { p with staticPrio := static } ∧
      (static = p.staticPrio ∨ static = niceToPrio nice ∧ minNice ≤ nice ∧ nice ≤ maxNice) := by
  unfold setUserNice
  split
  · exact ⟨p.staticPrio, rfl, .inl rfl⟩
  · rename_i hrange
    refine ⟨niceToPrio nice, rfl, .inr ⟨rfl, ?_, ?_⟩⟩
    · omega
    · omega

/-- What it does with the others. -/
theorem setUserNice_fair (hdl : taskHasDlPolicy p.toTask = false)
    (hrt : taskHasRtPolicy p.toTask = false) (nice : ℤ) : setUserNice p nice = p ∨
      minNice ≤ nice ∧ nice ≤ maxNice ∧ setUserNice p nice =
        { p with staticPrio := niceToPrio nice, normalPrio := niceToPrio nice,
                 prio := if rtPrio p.prio = false then niceToPrio nice else p.prio } := by
  unfold setUserNice effectivePrio
  split
  · exact .inl rfl
  · rename_i hrange
    have hnormal := normalPrio_fair
      (t := ({ p with staticPrio := niceToPrio nice } : TaskStruct R T).toTask) hrt hdl
    rw [if_neg (by simp [hdl, hrt])]
    simp only [hnormal]
    refine .inr ⟨?_, ?_, trivial⟩
    · omega
    · omega

theorem static_of_nice {nice : ℤ} (h : minNice ≤ nice) (h' : nice ≤ maxNice) :
    maxRtPrio ≤ niceToPrio nice ∧ niceToPrio nice ≤ niceToPrio maxNice := by
  unfold minNice maxNice niceToPrio defaultPrio maxRtPrio at *
  omega

theorem Forked.hasRt (h : Forked p) : taskHasRtPolicy p.toTask = true := taskHasRtPolicy_fifo h.policy

theorem Fitting.setUserNice (h : Fitting p) (nice : ℤ) : Fitting (setUserNice p nice) := by
  by_cases hrt : (taskHasDlPolicy p.toTask || taskHasRtPolicy p.toTask) = true
  · obtain ⟨static, heq, -⟩ := setUserNice_rt hrt nice
    rw [heq]
    refine h.congr rfl rfl (h.normal.trans (Eq.symm ?_))
    apply normalPrio_congr
    · rfl
    · rfl
    · exact (Bool.or_eq_true _ _ ▸ hrt).imp_right .inl
  · rw [Bool.not_eq_true, Bool.or_eq_false_iff] at hrt
    rcases setUserNice_fair hrt.1 hrt.2 nice with heq | ⟨-, -, heq⟩
    · rw [heq]
      exact h
    · rw [heq]
      refine h.congr rfl rfl (Eq.symm ?_)
      apply normalPrio_fair
      · exact hrt.2
      · exact hrt.1

theorem Forked.setUserNice (h : Forked p) (nice : ℤ) :
    Forked (setUserNice p nice) ∧ (Priority.setUserNice p nice).normalPrio = p.normalPrio := by
  obtain ⟨static, heq, -⟩ := setUserNice_rt (by rw [h.hasRt, Bool.or_true]) nice
  rw [heq]
  exact ⟨h.congr rfl rfl rfl, rfl⟩

theorem Sane.setUserNice (h : Sane p) (nice : ℤ) : Sane (setUserNice p nice) := by
  have hkind : Fitting (Priority.setUserNice p nice) ∨ Forked (Priority.setUserNice p nice) :=
    h.kind.imp (fun h => h.setUserNice nice) fun h => (h.setUserNice nice).1
  by_cases hrt : (taskHasDlPolicy p.toTask || taskHasRtPolicy p.toTask) = true
  · obtain ⟨static, heq, hstatic⟩ := setUserNice_rt hrt nice
    rw [heq] at hkind ⊢
    refine ⟨h.schedClass, h.prio, ?_, hkind⟩
    rcases hstatic with rfl | ⟨rfl, hmin, hmax⟩
    · exact h.static
    · exact static_of_nice hmin hmax
  · rw [Bool.not_eq_true, Bool.or_eq_false_iff] at hrt
    rcases setUserNice_fair hrt.1 hrt.2 nice with heq | ⟨hmin, hmax, heq⟩
    · rw [heq]
      exact h
    · have hstatic := static_of_nice hmin hmax
      rw [heq] at hkind ⊢
      refine ⟨?_, ?_, hstatic, hkind⟩
      · -- a fair task was fair before, and a boosted one keeps its priority
        show p.schedClass = classOf (if rtPrio p.prio = false then _ else _)
        split
        · rename_i hprio
          rw [h.schedClass, classOf_fair hstatic.1]
          exact classOf_fair (by simpa [rtPrio] using hprio)
        · exact h.schedClass
      · show (if rtPrio p.prio = false then _ else _) ≤ niceToPrio nice
        split
        · exact le_rfl
        · rename_i hprio
          have hlt : p.prio < maxRtPrio := by simpa [rtPrio] using hprio
          exact hlt.le.trans hstatic.1

/-- What `rt_mutex_setprio` does: with the priority goes the class. -/
theorem rtMutexSetprio_eq [DecidableEq T] (prioOf : T → ℤ) (idle : Bool) (p : TaskStruct R T)
    (piTask : Option T) : ∃ (top : Option T) (prio : ℤ) (schedClass : SchedClass),
      rtMutexSetprio prioOf idle p piTask =
        { p with piTopTask := top, prio := prio, schedClass := schedClass } ∧
      (prio = p.prio ∧ schedClass = p.schedClass ∨
        prio ≤ p.normalPrio ∧ schedClass = classOf prio) := by
  have hle := rtEffectivePrio_le prioOf piTask p.normalPrio
  unfold rtMutexSetprio
  dsimp only
  split_ifs
  · exact ⟨p.piTopTask, p.prio, p.schedClass, rfl, .inl ⟨rfl, rfl⟩⟩
  · exact ⟨piTask, p.prio, p.schedClass, rfl, .inl ⟨rfl, rfl⟩⟩
  · exact ⟨piTask, p.prio, p.schedClass, rfl, .inl ⟨rfl, rfl⟩⟩
  · exact ⟨piTask, _, _, rfl, .inr ⟨hle, rfl⟩⟩

theorem Forked.rtMutexSetprio [DecidableEq T] (h : Forked p) (idle : Bool) (piTask : Option T) :
    Forked (rtMutexSetprio prioOf idle p piTask) ∧
      (Priority.rtMutexSetprio prioOf idle p piTask).normalPrio = p.normalPrio := by
  obtain ⟨top, prio, schedClass, heq, -⟩ := rtMutexSetprio_eq prioOf idle p piTask
  rw [heq]
  exact ⟨h.congr rfl rfl rfl, rfl⟩

theorem Fitting.rtMutexSetprio [DecidableEq T] (h : Fitting p) (idle : Bool) (piTask : Option T) :
    Fitting (rtMutexSetprio prioOf idle p piTask) := by
  obtain ⟨top, prio, schedClass, heq, -⟩ := rtMutexSetprio_eq prioOf idle p piTask
  rw [heq]
  exact h.congr rfl rfl h.normal

theorem Sane.rtMutexSetprio [DecidableEq T] (h : Sane p) (idle : Bool) (piTask : Option T) :
    Sane (rtMutexSetprio prioOf idle p piTask) := by
  have hkind : Fitting (Priority.rtMutexSetprio prioOf idle p piTask) ∨
      Forked (Priority.rtMutexSetprio prioOf idle p piTask) :=
    h.kind.imp (fun hf => hf.rtMutexSetprio idle piTask) fun hf => (hf.rtMutexSetprio idle piTask).1
  obtain ⟨top, prio, schedClass, heq, hprio⟩ := rtMutexSetprio_eq prioOf idle p piTask
  rw [heq] at hkind ⊢
  rcases hprio with ⟨hprio, hclass⟩ | ⟨hprio, hclass⟩
  · refine ⟨?_, hprio.trans_le h.prio, h.static, hkind⟩
    rw [hclass, hprio]
    exact h.schedClass
  · exact ⟨hclass, hprio, h.static, hkind⟩

/-- Without a task whose priority it inherits, a task has its normal priority. -/
def OwnPrio (p : TaskStruct R T) : Prop := p.piTopTask = none → p.prio = p.normalPrio

theorem OwnPrio.setUserNice (h : OwnPrio p) (hforked : Forked p) (nice : ℤ) :
    OwnPrio (setUserNice p nice) := by
  obtain ⟨static, heq, -⟩ := setUserNice_rt (by rw [hforked.hasRt, Bool.or_true]) nice
  rw [heq]
  exact h

theorem OwnPrio.rtMutexSetprio [DecidableEq T] (h : OwnPrio p) (piTask : Option T) :
    OwnPrio (rtMutexSetprio prioOf false p piTask) := by
  have hnone : piTask = none → rtEffectivePrio prioOf piTask p.normalPrio = p.normalPrio := by
    rintro rfl
    rfl
  unfold Priority.rtMutexSetprio
  dsimp only
  split_ifs with hsame hprio hidle
  · exact h
  · exact fun htop => hprio.1.symm.trans (hnone htop)
  · exact hidle.elim
  · exact hnone

/-- What the checks of the attributes ensure, for the policy they have found. -/
structure Checked (attr : SchedAttr) (policy : ℕ) : Prop where
  valid : attr.schedPolicy.msb = false →
    policy = attr.schedPolicy.toNat ∧ validPolicy policy = true
  rt : rtPolicy policy = decide (attr.schedPriority ≠ 0)
  le : (attr.schedPriority : ℤ) ≤ maxRtPrio - 1

/-- What the callers ensure, those inside the kernel by the constants they pass. -/
structure AttrOk (attr : SchedAttr) : Prop where
  keep : attr.schedPolicy.msb = true → attr.schedPolicy = setparamPolicy
  nice : minNice ≤ attr.schedNice ∧ attr.schedNice ≤ maxNice

theorem checked_of_checkAttr {ans : Answers} {early : TaskStruct R T} {attr : SchedAttr}
    (h : checkAttr ans early attr = none) : Checked attr (requestedPolicy early attr) := by
  unfold checkAttr at h
  dsimp only at h
  split_ifs at h with hvalid hunknown hrange hrt
  rw [not_or] at hrt hrange
  refine ⟨fun hmsb => ?_, ?_, ?_⟩
  · refine ⟨by rw [requestedPolicy, hmsb]; rfl, ?_⟩
    by_contra hno
    exact hvalid ⟨hmsb, by simpa using hno⟩
  · exact not_not.mp hrt.2
  · cases hmm : ans.mm
    · exact not_lt.mp fun hlt => hrange.2 ⟨hmm, hlt⟩
    · exact not_lt.mp fun hlt => hrange.1 ⟨hmm, hlt⟩

theorem checked_of_precheck {ans : Answers} {early : TaskStruct R T} {attr : SchedAttr}
    {user : Bool} (h : precheck ans early attr user = none) :
    Checked attr (requestedPolicy early attr) :=
  checked_of_checkAttr (Option.or_eq_none_iff.mp h).1

/-- What the checks return is an error. -/
theorem precheck_ne_zero {ans : Answers} {early : TaskStruct R T} {attr : SchedAttr} {user : Bool}
    {retval : ℤ} (h : precheck ans early attr user = some retval) : retval ≠ 0 := by
  have hattr : ∀ r, checkAttr ans early attr = some r → r ≠ 0 := by
    intro r hr
    unfold checkAttr at hr
    dsimp only at hr
    split_ifs at hr <;> exact Option.some.inj hr ▸ by decide
  have huser : ∀ r, checkUser ans early attr = some r → r ≠ 0 := by
    intro r hr
    unfold checkUser at hr
    dsimp only at hr
    split_ifs at hr <;> exact Option.some.inj hr ▸ by decide
  unfold precheck at h
  rcases Option.or_eq_some_iff.mp h with h | ⟨-, h⟩
  · exact hattr retval h
  · rcases Option.or_eq_some_iff.mp h with h | ⟨-, h⟩
    · split at h
      · exact huser retval h
      · cases h
    · split_ifs at h with hsugov hsec huclamp
      · exact Option.some.inj h ▸ by decide
      · exact Option.some.inj h ▸ hsec.2
      · exact Option.some.inj h ▸ huclamp.2

/-- An error leaves the task as it is. -/
theorem locked_done {ans : Answers} {policy : ℕ} {reset user pi : Bool} {attr : SchedAttr}
    {retval : ℤ} {q : TaskStruct R T}
    (h : locked prioOf ans policy reset p attr user pi = .done retval q) :
    retval ≠ 0 ∧ q = p ∨ retval = 0 ∧ (unchanging ans p attr policy = true ∧
        q = { p with schedResetOnFork := reset } ∨
      (attr.schedPolicy.msb = true → policy = p.policy) ∧
        q = setscheduler prioOf { p with schedResetOnFork := reset } attr pi) := by
  unfold locked at h
  split_ifs at h with hstop hsame hrt hdl hpolicy hover
  · obtain ⟨rfl, rfl⟩ := Attempt.done.inj h
    exact .inl ⟨by decide, rfl⟩
  · obtain ⟨rfl, rfl⟩ := Attempt.done.inj h
    exact .inr ⟨rfl, .inl ⟨hsame, rfl⟩⟩
  · obtain ⟨rfl, rfl⟩ := Attempt.done.inj h
    exact .inl ⟨by decide, rfl⟩
  · obtain ⟨rfl, rfl⟩ := Attempt.done.inj h
    exact .inl ⟨by decide, rfl⟩
  · obtain ⟨rfl, rfl⟩ := Attempt.done.inj h
    exact .inl ⟨by decide, rfl⟩
  · obtain ⟨rfl, rfl⟩ := Attempt.done.inj h
    exact .inr ⟨rfl, .inr ⟨fun hmsb => not_not.mp fun hne => hpolicy ⟨hmsb, hne⟩, rfl⟩⟩

/-- The policy that is set is the one that has been checked. -/
theorem setschedulerParams_policy {attr : SchedAttr} {policy : ℕ} (hc : Checked attr policy)
    (hok : AttrOk attr) (hp : attr.schedPolicy.msb = true → policy = p.policy) :
    (setschedulerParams p attr).policy = policy := by
  have heq : (if attr.schedPolicy = setparamPolicy then p.policy else attr.schedPolicy.toNat) =
      policy := by
    cases hmsb : attr.schedPolicy.msb with
    | false =>
      rw [if_neg fun heq => by rw [heq] at hmsb; cases hmsb]
      exact (hc.valid hmsb).1.symm
    | true =>
      rw [if_pos (hok.keep hmsb)]
      exact (hp hmsb).symm
  unfold setschedulerParams
  simp only [heq]
  split_ifs <;> rfl

theorem setschedulerParams_fields (p : TaskStruct R T) (attr : SchedAttr) :
    (setschedulerParams p attr).rtPriority = attr.schedPriority ∧
      (setschedulerParams p attr).normalPrio = normalPrio (setschedulerParams p attr).toTask ∧
      ((setschedulerParams p attr).staticPrio = p.staticPrio ∨
        (setschedulerParams p attr).staticPrio = niceToPrio attr.schedNice) := by
  unfold setschedulerParams
  dsimp only
  split_ifs
  · exact ⟨rfl, rfl, .inl rfl⟩
  · exact ⟨rfl, rfl, .inr rfl⟩
  · exact ⟨rfl, rfl, .inl rfl⟩
  · exact ⟨rfl, rfl, .inl rfl⟩
  · exact ⟨rfl, rfl, .inr rfl⟩
  · exact ⟨rfl, rfl, .inl rfl⟩

theorem setschedulerParams_reset (p : TaskStruct R T) (attr : SchedAttr) :
    (setschedulerParams p attr).schedResetOnFork = p.schedResetOnFork := by
  unfold setschedulerParams
  dsimp only
  split_ifs <;> rfl

/-- With new parameters the priority and the class are new too. -/
theorem setscheduler_fields (prioOf : T → ℤ) (p : TaskStruct R T) {attr : SchedAttr}
    (hkeep : attr.keepParams = false) (keepBoost : Bool) :
    ∃ prio, prio ≤ (setschedulerParams p attr).normalPrio ∧
      setscheduler prioOf p attr keepBoost =
        { setschedulerParams p attr with prio := prio, schedClass := classOf prio } := by
  have hnormal := (setschedulerParams_fields p attr).2.1
  unfold setscheduler
  rw [if_neg (by simp [hkeep])]
  refine ⟨_, ?_, rfl⟩
  rw [hnormal]
  split
  · exact rtEffectivePrio_le _ _ _
  · exact le_rfl

/-- New parameters make a task fit, whatever it was. -/
theorem sane_setscheduler {attr : SchedAttr} {policy : ℕ} (h : Sane p) (hc : Checked attr policy)
    (hok : AttrOk attr) (hp : attr.schedPolicy.msb = true → policy = p.policy)
    (hkeep : attr.keepParams = false) (keepBoost : Bool) :
    Sane (setscheduler prioOf p attr keepBoost) ∧ Fitting (setscheduler prioOf p attr keepBoost) := by
  have hpolicy := setschedulerParams_policy hc hok hp
  obtain ⟨hrt, hnormal, hstatic⟩ := setschedulerParams_fields p attr
  have hvalid : validPolicy policy = true := by
    cases hmsb : attr.schedPolicy.msb with
    | false => exact (hc.valid hmsb).2
    | true =>
      rw [hp hmsb]
      rcases h.kind with hf | hf
      · exact hf.valid
      · rw [hf.policy]
        rfl
  have hfit : Fitting (setschedulerParams p attr) := by
    refine ⟨?_, ?_, ?_, hnormal⟩
    · rw [hpolicy]
      exact hvalid
    · rw [hpolicy, hrt]
      exact hc.rt
    · rw [hrt]
      exact hc.le
  obtain ⟨prio, hprio, heq⟩ := setscheduler_fields prioOf p hkeep keepBoost
  have hfit' : Fitting (setscheduler prioOf p attr keepBoost) := by
    rw [heq]
    exact hfit.congr rfl rfl hnormal
  refine ⟨⟨?_, ?_, ?_, .inl hfit'⟩, hfit'⟩
  · rw [heq]
  · rw [heq]
    exact hprio
  · rw [heq]
    show maxRtPrio ≤ (setschedulerParams p attr).staticPrio ∧ _
    rcases hstatic with hstatic | hstatic
    · rw [hstatic]
      exact h.static
    · rw [hstatic]
      exact static_of_nice hok.nice.1 hok.nice.2

theorem setscheduler_keep {attr : SchedAttr} (hkeep : attr.keepParams = true) (keepBoost : Bool) :
    setscheduler prioOf p attr keepBoost = p := by
  unfold setscheduler
  rw [if_pos hkeep]

/-- The flag for forks does not matter here. -/
theorem Fitting.setReset (h : Fitting p) (reset : Bool) :
    Fitting { p with schedResetOnFork := reset } := h.congr rfl rfl h.normal

theorem Sane.setReset (h : Sane p) (reset : Bool) : Sane { p with schedResetOnFork := reset } :=
  ⟨h.schedClass, h.prio, h.static, h.kind.imp (fun hf => hf.setReset reset) fun hf => hf.congr rfl rfl rfl⟩

/-! ### New tasks -/

/-- A new task: the copy of `current`, which inherits no priority, and `sched_fork`
are one step. -/
def fork (cpu : R) (current : TaskStruct R T) : Except ℤ (TaskStruct R T) :=
  (schedForkClass cpu current.toTask current.toTask).map fun new =>
    { new.1 with schedClass := .ofFork new.2, piTopTask := none }

theorem ofFork_classOnFork {t : Task R} (h : maxDlPrio ≤ t.prio) :
    SchedClass.ofFork (classOnFork t) = classOf t.prio := by
  have hdl : dlPrio t.prio = false := by simpa [dlPrio] using h
  unfold classOnFork classOf
  rw [hdl]
  cases rtPrio t.prio <;> rfl

/-- The new task, when the reset flag is set and when it is not. -/
theorem fork_ok {cpu : R} {current new : TaskStruct R T} (h : fork cpu current = .ok new) :
    new.schedClass = classOf new.prio ∧ if current.schedResetOnFork then
      new.policy = schedNormal ∧ new.staticPrio = defaultPrio ∧ new.prio = defaultPrio ∧
        new.normalPrio = defaultPrio ∧ new.rtPriority = 0
    else new.policy = schedFifo ∧ new.staticPrio = current.staticPrio ∧
      new.prio = current.normalPrio ∧ new.normalPrio = current.normalPrio ∧
      new.rtPriority = current.rtPriority ∧ maxDlPrio ≤ current.normalPrio := by
  unfold fork schedForkClass schedFork at h
  dsimp only at h
  split_ifs at h with hreset hdl hdl
  · cases h
  · obtain rfl := Except.ok.inj h
    refine ⟨ofFork_classOnFork (not_lt.mp hdl), ?_⟩
    rw [if_pos hreset, resetOnFork_fifo rfl]
    exact ⟨rfl, rfl, rfl, rfl, rfl⟩
  · cases h
  · obtain rfl := Except.ok.inj h
    refine ⟨ofFork_classOnFork (not_lt.mp hdl), ?_⟩
    rw [if_neg hreset]
    exact ⟨rfl, rfl, rfl, rfl, rfl, not_lt.mp hdl⟩

/-- The child of a real-time task, and the child of any other one. -/
theorem Fitting.fork {cpu : R} {current new : TaskStruct R T} (h : Fitting current)
    (hstatic : maxRtPrio ≤ current.staticPrio) (hreset : current.schedResetOnFork = false)
    (hfork : fork cpu current = .ok new) :
    if rtPolicy current.policy then Fitting new else Forked new := by
  obtain ⟨-, hnew⟩ := fork_ok hfork
  rw [if_neg (by simp [hreset])] at hnew
  obtain ⟨hpolicy, -, -, hnormal, hrtp, hdl⟩ := hnew
  have hnodl : taskHasDlPolicy current.toTask = false := by
    by_contra hyes
    rw [Bool.not_eq_false] at hyes
    have hval : current.normalPrio = maxDlPrio - 1 := by
      rw [h.normal, normalPrio, hyes]
      rfl
    exact absurd (hval ▸ hdl) (by decide)
  split
  · rename_i hrt
    have hle : (new.rtPriority : ℤ) ≤ maxRtPrio - 1 := hrtp ▸ h.le
    refine ⟨by rw [hpolicy]; rfl, ?_, hle, ?_⟩
    · rw [hpolicy, hrtp, ← h.rt, hrt]
      rfl
    · rw [hnormal, h.normal, normalPrio_rt hrt hnodl h.le,
        normalPrio_rt (taskHasRtPolicy_fifo hpolicy) (taskHasDlPolicy_fifo hpolicy) hle, hrtp]
  · rename_i hrt
    rw [Bool.not_eq_true] at hrt
    have hzero := h.rt
    rw [hrt] at hzero
    refine ⟨hpolicy, hrtp.trans (by simpa using hzero.symm), ?_⟩
    rw [hnormal, h.normal, normalPrio_fair hrt hnodl]
    exact hstatic

theorem Sane.fork {cpu : R} {current new : TaskStruct R T} (h : Sane current)
    (hfork : fork cpu current = .ok new) : Sane new := by
  obtain ⟨hclass, hnew⟩ := fork_ok hfork
  cases hreset : current.schedResetOnFork with
  | true =>
    rw [if_pos hreset] at hnew
    obtain ⟨hpolicy, hstatic, hprio, hnormal, hrtp⟩ := hnew
    refine ⟨hclass, (hprio.trans hnormal.symm).le, ?_, .inl ⟨?_, ?_, ?_, ?_⟩⟩
    · rw [hstatic]
      decide
    · rw [hpolicy]
      rfl
    · rw [hpolicy, hrtp]
      rfl
    · rw [hrtp]
      decide
    · have hrt : taskHasRtPolicy new.toTask = false := by
        rw [taskHasRtPolicy, hpolicy]
        rfl
      have hdl : taskHasDlPolicy new.toTask = false := by
        rw [taskHasDlPolicy, hpolicy]
        rfl
      rw [hnormal, normalPrio_fair hrt hdl, hstatic]
  | false =>
    have hkind : Fitting new ∨ Forked new := by
      rcases h.kind with hf | hf
      · have hnew := hf.fork h.static.1 hreset hfork
        split at hnew
        · exact .inl hnew
        · exact .inr hnew
      · rw [if_neg (by simp [hreset])] at hnew
        obtain ⟨hpolicy, -, -, hnormal, hrtp, -⟩ := hnew
        exact .inr ⟨hpolicy, hrtp.trans hf.rtPriority, hnormal ▸ hf.normal⟩
    rw [if_neg (by simp [hreset])] at hnew
    obtain ⟨-, hstatic, hprio, hnormal, -, -⟩ := hnew
    refine ⟨hclass, (hprio.trans hnormal.symm).le, ?_, hkind⟩
    rw [hstatic]
    exact h.static

/-- A new child of a fair task. -/
structure FairChild (parent child : TaskStruct R T) : Prop where
  forked : Forked child
  normalPrio : child.normalPrio = parent.normalPrio
  prio : child.prio = child.normalPrio
  top : child.piTopTask = none

theorem fork_top {cpu : R} {current new : TaskStruct R T} (h : fork cpu current = .ok new) :
    new.piTopTask = none := by
  unfold fork at h
  cases hnew : schedForkClass cpu current.toTask current.toTask with
  | error e =>
    rw [hnew] at h
    cases h
  | ok t =>
    rw [hnew] at h
    obtain rfl := Except.ok.inj h
    rfl

theorem Fitting.fairChild {cpu : R} {current new : TaskStruct R T} (h : Fitting current)
    (hstatic : maxRtPrio ≤ current.staticPrio) (hfair : rtPolicy current.policy = false)
    (hreset : current.schedResetOnFork = false) (hnew : Priority.fork cpu current = .ok new) :
    FairChild current new := by
  have hforked := h.fork hstatic hreset hnew
  rw [if_neg (by simp [hfair])] at hforked
  have hfields := (fork_ok hnew).2
  rw [if_neg (by simp [hreset])] at hfields
  obtain ⟨-, -, hprio, hnormal, -, -⟩ := hfields
  exact ⟨hforked, hnormal, hprio.trans hnormal.symm, fork_top hnew⟩

/-- With its normal priority it is in the fair class. -/
theorem Sane.fair_of_forked (h : Sane p) (hforked : Forked p) (hprio : p.prio = p.normalPrio) :
    p.schedClass = .fair := by
  rw [h.schedClass, hprio]
  exact classOf_fair hforked.normal

/-! ### The attributes of the callers -/

theorem userAttr_ok {attr attr' : SchedAttr} (h : userAttr attr = some attr') : AttrOk attr' := by
  have hnice : minNice ≤ max minNice (min maxNice attr.schedNice) ∧
      max minNice (min maxNice attr.schedNice) ≤ maxNice :=
    ⟨le_max_left _ _, max_le (by decide) (min_le_left _ _)⟩
  unfold userAttr at h
  dsimp only at h
  split_ifs at h with hmsb hkeep
  · exact Option.some.inj h ▸ ⟨fun _ => rfl, hnice⟩
  · exact Option.some.inj h ▸ ⟨fun hmsb' => absurd hmsb' hmsb, hnice⟩

/-- Whether the policy asked for is replaced. -/
def Legacy (policy : BitVec 32) : Prop := policy = setparamPolicy ∨ policy &&& resetOnForkBit = 0

theorem legacyAttr_fifo {policy : BitVec 32} (h : Legacy policy) (priority : BitVec 32) :
    legacyAttr p policy priority =
      { schedPolicy := BitVec.ofNat 32 schedFifo, schedPriority := priority.toNat,
        schedNice := prioToNice p.staticPrio } := by
  unfold legacyAttr
  rw [if_neg fun hno => h.elim hno.1 hno.2]

theorem legacyAttr_ok {policy : BitVec 32} (h : Sane p) (priority : BitVec 32)
    (hpolicy : policy.msb = false ∨ policy = setparamPolicy) : AttrOk (legacyAttr p policy priority) := by
  have hnice : minNice ≤ prioToNice p.staticPrio ∧ prioToNice p.staticPrio ≤ maxNice := by
    have hstatic := h.static
    unfold maxRtPrio niceToPrio defaultPrio maxNice at hstatic
    unfold minNice maxNice prioToNice defaultPrio
    omega
  unfold legacyAttr
  dsimp only
  split_ifs with hreset
  · refine ⟨fun hmsb => absurd hmsb ?_, hnice⟩
    simp [BitVec.msb_and, hpolicy.resolve_right hreset.1]
  · exact ⟨fun hmsb => absurd (show (BitVec.ofNat 32 schedFifo).msb = true from hmsb) (by decide),
      hnice⟩

end Priority
end Sched
end LinuxProg
