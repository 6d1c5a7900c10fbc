/-
# Policies and priorities over runs

Calls that set the policy of tasks are made by any number of callers, each in two
parts, the look without the lock and the change under it; nice values, inherited
priorities and forks come in between. Every task stays sane (`sane_of_reach`),
whatever has happened between the two parts of a call. A call of
`_sched_setscheduler` without the reset bit either fails and changes nothing or
makes the task a `SCHED_FIFO` task, whatever policy was asked for
(`fifo_of_call`). The child of a fair task has the policy `SCHED_FIFO` and runs in
the fair class, unless it inherits a priority, until such a call succeeds
(`child_of_fork`).

The tasks are those of the deadline, the real-time and the fair class; the stop and
the idle tasks of the runqueues are left out.
-/
import Mathlib
import LinuxProg.Lib.Transition
import LinuxProg.Sched.Priority

namespace LinuxProg
namespace Sched
namespace Priority

open Transition

variable {R T C : Type*}

/-! ### The system -/

/-- A call of `__sched_setscheduler`: before the label `recheck`, before the lock
is taken, and after the return. -/
inductive Call (T : Type*) where
  | begun (p : T) (attr : SchedAttr) (user pi : Bool)
  | looked (p : T) (attr : SchedAttr) (user pi : Bool) (policy : ℕ) (reset : Bool)
  | returned (retval : ℤ)

structure State (R T C : Type*) where
  task : T → TaskStruct R T
  call : C → Call T

inductive Act (R T C : Type*) where
  | setUserNice (p : T) (nice : ℤ)
  | rtMutexSetprio (p : T) (piTask : Option T) (idle : Bool)
  | fork (current new : T) (cpu : R)
  | schedSetscheduler (c : C) (p : T) (policy priority : BitVec 32) (check : Bool)
  | sysSchedSetattr (c : C) (p : T) (attr : SchedAttr)
  | schedSetattr (c : C) (p : T) (attr : SchedAttr) (user pi : Bool)
  | look (c : C) (ans : Answers)
  | lock (c : C) (ans : Answers)

variable [DecidableEq T] [DecidableEq C]

namespace State

def prioOf (s : State R T C) (p : T) : ℤ := (s.task p).prio

def setTask (s : State R T C) (p : T) (t : TaskStruct R T) : State R T C :=
  { s with task := Function.update s.task p t }

def setCall (s : State R T C) (c : C) (call : Call T) : State R T C :=
  { s with call := Function.update s.call c call }

omit [DecidableEq C] in
theorem setTask_task_self (s : State R T C) (p : T) (t : TaskStruct R T) :
    (s.setTask p t).task p = t := Function.update_self _ _ _

omit [DecidableEq C] in
theorem setTask_task_of_ne (s : State R T C) {p q : T} (t : TaskStruct R T) (h : q ≠ p) :
    (s.setTask p t).task q = s.task q := Function.update_of_ne h _ _

omit [DecidableEq T] in
@[simp]
theorem setCall_call_self (s : State R T C) (c : C) (call : Call T) :
    (s.setCall c call).call c = call := Function.update_self _ _ _

omit [DecidableEq T] in
theorem setCall_call_of_ne (s : State R T C) {c d : C} (call : Call T) (h : c ≠ d) :
    (s.setCall d call).call c = s.call c := Function.update_of_ne h _ _

end State

/-- The look of a call at its task. -/
def look (s : State R T C) (c : C) (ans : Answers) (p : T) (attr : SchedAttr) (user pi : Bool) :
    State R T C :=
  s.setCall c <| match precheck ans (s.task p) attr user with
    | some retval => .returned retval
    | none => .looked p attr user pi (requestedPolicy (s.task p) attr) (requestedReset (s.task p) attr)

/-- The change, or another turn. -/
def lock (s : State R T C) (c : C) (ans : Answers) (p : T) (attr : SchedAttr) (user pi : Bool)
    (policy : ℕ) (reset : Bool) : State R T C :=
  match locked s.prioOf ans policy reset (s.task p) attr user pi with
  | .recheck => s.setCall c (.begun p attr user pi)
  | .done retval q => (s.setTask p q).setCall c (.returned retval)

/-- `sys_sched_setscheduler` refuses a negative policy, and `sys_sched_setparam`
passes `SETPARAM_POLICY`. `schedSetattr` are the calls inside the kernel. -/
inductive Step : State R T C → Act R T C → State R T C → Prop where
  | setUserNice {s : State R T C} (p : T) (nice : ℤ) :
      Step s (.setUserNice p nice) (s.setTask p (Priority.setUserNice (s.task p) nice))
  | rtMutexSetprio {s : State R T C} (p : T) (piTask : Option T) (idle : Bool) :
      Step s (.rtMutexSetprio p piTask idle)
        (s.setTask p (Priority.rtMutexSetprio s.prioOf idle (s.task p) piTask))
  | fork {s : State R T C} {current p : T} {cpu : R} {new : TaskStruct R T}
      (h : Priority.fork cpu (s.task current) = .ok new) :
      Step s (.fork current p cpu) (s.setTask p new)
  | schedSetscheduler {s : State R T C} {c : C} {policy priority : BitVec 32} {retval : ℤ}
      (p : T) (check : Bool) (hc : s.call c = .returned retval)
      (hpolicy : policy.msb = false ∨ policy = setparamPolicy) :
      Step s (.schedSetscheduler c p policy priority check)
        (s.setCall c (.begun p (legacyAttr (s.task p) policy priority) check true))
  | sysSchedSetattr {s : State R T C} {c : C} {attr attr' : SchedAttr} {retval : ℤ} (p : T)
      (hc : s.call c = .returned retval) (hattr : userAttr attr = some attr') :
      Step s (.sysSchedSetattr c p attr) (s.setCall c (.begun p attr' true true))
  | schedSetattr {s : State R T C} {c : C} {attr : SchedAttr} {retval : ℤ} (p : T) (user pi : Bool)
      (hc : s.call c = .returned retval) (hok : AttrOk attr) :
      Step s (.schedSetattr c p attr user pi) (s.setCall c (.begun p attr user pi))
  | look {s : State R T C} {c : C} {p : T} {attr : SchedAttr} {user pi : Bool} (ans : Answers)
      (hc : s.call c = .begun p attr user pi) :
      Step s (.look c ans) (Priority.look s c ans p attr user pi)
  | lock {s : State R T C} {c : C} {p : T} {attr : SchedAttr} {user pi : Bool} {policy : ℕ}
      {reset : Bool} (ans : Answers) (hc : s.call c = .looked p attr user pi policy reset) :
      Step s (.lock c ans) (Priority.lock s c ans p attr user pi policy reset)

/-- No call is under way. -/
def start (task : T → TaskStruct R T) : State R T C := ⟨task, fun _ => .returned 0⟩

/-! ### What every step keeps -/

/-- A call that is under way has attributes that its caller has made, and has
checked them when it has looked. -/
def CallOk : Call T → Prop
  | .begun _ attr _ _ => AttrOk attr
  | .looked _ attr _ _ policy _ => AttrOk attr ∧ Checked attr policy
  | .returned _ => True

structure Proper (s : State R T C) : Prop where
  sane : ∀ p, Sane (s.task p)
  call : ∀ c, CallOk (s.call c)

variable {s s' : State R T C} {a : Act R T C} {c : C} {p : T}

omit [DecidableEq C] in
theorem Proper.setTask {t : TaskStruct R T} (h : Proper s) (p : T) (ht : Sane t) :
    Proper (s.setTask p t) where
  sane q := by
    unfold State.setTask
    by_cases hq : q = p
    · simpa [hq] using ht
    · simpa [hq] using h.sane q
  call := h.call

omit [DecidableEq T] in
theorem Proper.setCall {call : Call T} (h : Proper s) (c : C) (hcall : CallOk call) :
    Proper (s.setCall c call) where
  sane := h.sane
  call d := by
    unfold State.setCall
    by_cases hd : d = c
    · simpa [hd] using hcall
    · simpa [hd] using h.call d

omit [DecidableEq T] in
/-- A call that ends has set a sane task. -/
theorem sane_locked {prioOf : T → ℤ} {ans : Answers} {policy : ℕ} {reset user pi : Bool}
    {attr : SchedAttr} {retval : ℤ} {t q : TaskStruct R T} (ht : Sane t) (hok : AttrOk attr)
    (hc : Checked attr policy)
    (h : locked prioOf ans policy reset t attr user pi = .done retval q) : Sane q := by
  rcases locked_done h with ⟨-, rfl⟩ | ⟨-, ⟨-, rfl⟩ | ⟨hpolicy, rfl⟩⟩
  · exact ht
  · exact ht.setReset reset
  · cases hkeep : attr.keepParams with
    | true =>
      rw [setscheduler_keep hkeep]
      exact ht.setReset reset
    | false => exact (sane_setscheduler (ht.setReset reset) hc hok hpolicy hkeep pi).1

theorem Proper.next (h : Proper s) (hstep : Step s a s') : Proper s' := by
  cases hstep with
  | setUserNice p nice => exact h.setTask p ((h.sane p).setUserNice nice)
  | rtMutexSetprio p piTask idle => exact h.setTask p ((h.sane p).rtMutexSetprio idle piTask)
  | fork hfork => exact h.setTask _ ((h.sane _).fork hfork)
  | schedSetscheduler p check hc hpolicy => exact h.setCall _ (legacyAttr_ok (h.sane p) _ hpolicy)
  | sysSchedSetattr p hc hattr => exact h.setCall _ (userAttr_ok hattr)
  | schedSetattr p user pi hc hok => exact h.setCall _ hok
  | @look c p attr user pi ans hc =>
    have hok : CallOk (.begun p attr user pi) := hc ▸ h.call c
    unfold Priority.look
    apply h.setCall
    split
    · trivial
    · rename_i hpre
      exact ⟨hok, checked_of_precheck hpre⟩
  | @lock c p attr user pi policy reset ans hc =>
    have hok : CallOk (.looked p attr user pi policy reset) := hc ▸ h.call c
    unfold Priority.lock
    split
    · exact h.setCall _ hok.1
    · rename_i hdone
      exact (h.setTask p (sane_locked (h.sane p) hok.1 hok.2 hdone)).setCall _ trivial

theorem proper_of_reach {init : State R T C} {ok : State R T C → Act R T C → Prop}
    (hinit : Proper init) (hs : Reach init Step ok s) : Proper s :=
  hs.invariant hinit fun _ _ _ h _ hstep => h.next hstep

omit [DecidableEq T] [DecidableEq C] in
theorem proper_start {task : T → TaskStruct R T} (h : ∀ p, Sane (task p)) :
    Proper (start task : State R T C) :=
  ⟨h, fun _ => trivial⟩

/-! ### Two tasks and a caller -/

def normalStruct : TaskStruct Unit Bool := { normalTask with schedClass := .fair, piTopTask := none }

theorem sane_normalStruct : Sane normalStruct where
  schedClass := by decide
  prio := le_rfl
  static := by decide
  kind := .inl ⟨rfl, rfl, by decide, rfl⟩

def twoTasks : State Unit Bool Unit := start fun _ => normalStruct

/-- A caller that may do everything. -/
def privileged : Answers where
  capable := true
  mm := true
  canNice _ := true
  rlimitRtprio := 0
  checkSameOwner := true
  securityTaskSetscheduler := 0
  uclampValidate := 0
  checkparamDl := true
  dlParamChanged := false
  stop := false
  rtGroupRefuses := false
  dlDomainRefuses := false
  schedDlOverflow := false

theorem twoTasks_fork : ∃ s, Step twoTasks (.fork false true ()) s ∧
    (s.task true).policy = schedFifo := by
  obtain ⟨new, hnew⟩ : ∃ new, Priority.fork () (twoTasks.task false) = .ok new := ⟨_, rfl⟩
  have hpolicy := (fork_ok hnew).2
  rw [if_neg (by decide)] at hpolicy
  refine ⟨_, .fork hnew, ?_⟩
  rw [State.setTask_task_self]
  exact hpolicy.1

/-- However the calls are interleaved, every task is in the class of its priority,
is not worse than its normal priority, and its policy, real-time priority and
normal priority fit, unless `sched_fork` has made it a `SCHED_FIFO` task. The calls
inside the kernel are those with attributes that are `AttrOk`, and a new task comes
with its copy of `current` and `sched_fork` in one step. -/
theorem sane_of_reach {task : T → TaskStruct R T} {ok : State R T C → Act R T C → Prop}
    (htask : ∀ p, Sane (task p)) (hs : Reach (start task) Step ok s) (p : T) : Sane (s.task p) :=
  (proper_of_reach (proper_start htask) hs).sane p

theorem sane_of_reach_two : ∃ s : State Unit Bool Unit,
    (s.task true).policy = schedFifo ∧ Sane (s.task true) := by
  obtain ⟨s, hstep, hpolicy⟩ := twoTasks_fork
  have hs : Reach twoTasks Step (fun _ _ => True) s := .step .init trivial hstep
  exact ⟨s, hpolicy, sane_of_reach (fun _ => sane_normalStruct) hs true⟩

/-! ### One call -/

/-- A step by which the caller `c` makes a call. -/
def Act.Starts (c : C) : Act R T C → Prop
  | .schedSetscheduler d _ _ _ _ => d = c
  | .sysSchedSetattr d _ _ => d = c
  | .schedSetattr d _ _ _ _ => d = c
  | _ => False

/-- Where a call with the attributes `attr`, which replace the policy, is. -/
def Running (p : T) (attr : SchedAttr) (check : Bool) : Call T → Prop
  | .begun q b user pi => q = p ∧ b = attr ∧ user = check ∧ pi = true
  | .looked q b user pi policy reset => q = p ∧ b = attr ∧ user = check ∧ pi = true ∧
      policy = schedFifo ∧ reset = false ∧ Checked attr schedFifo
  | .returned _ => True

/-- The attributes that `_sched_setscheduler` makes when it replaces the policy. -/
structure Forced (attr : SchedAttr) : Prop where
  policy : attr.schedPolicy = BitVec.ofNat 32 schedFifo
  reset : attr.resetOnFork = false
  params : attr.keepParams = false

omit [DecidableEq T] [DecidableEq C] in
theorem forced_legacyAttr {t : TaskStruct R T} {policy : BitVec 32} (h : Legacy policy)
    (priority : BitVec 32) : Forced (legacyAttr t policy priority) := by
  rw [legacyAttr_fifo h]
  exact ⟨rfl, rfl, rfl⟩

variable {attr : SchedAttr} {check : Bool}

omit [DecidableEq T] in
theorem running_look (hforced : Forced attr) (ans : Answers) :
    Running p attr check ((look s c ans p attr check true).call c) := by
  have hmsb : attr.schedPolicy.msb = false := by
    rw [hforced.policy]
    decide
  have hpolicy : requestedPolicy (s.task p) attr = schedFifo := by
    rw [requestedPolicy, hmsb, hforced.policy]
    rfl
  have hreset : requestedReset (s.task p) attr = false := by
    rw [requestedReset, hmsb, hforced.reset]
    rfl
  unfold look
  rw [State.setCall_call_self]
  split
  · trivial
  · rename_i hpre
    exact ⟨rfl, rfl, rfl, rfl, hpolicy, hreset, hpolicy ▸ checked_of_precheck hpre⟩

/-- What a step by which `c` makes no call does to the call of `c`. -/
theorem call_cases (hstep : Step s a s') (hstart : ¬ a.Starts c) :
    s'.call c = s.call c ∨
    (∃ q b user pi ans, s.call c = .begun q b user pi ∧ s' = look s c ans q b user pi) ∨
    ∃ q b user pi policy reset ans, s.call c = .looked q b user pi policy reset ∧
      s' = lock s c ans q b user pi policy reset := by
  have hother : ∀ {t : State R T C} {d : C} {call : Call T}, t.call = s.call → c ≠ d →
      (t.setCall d call).call c = s.call c := by
    intro t d call ht hne
    rw [State.setCall_call_of_ne _ _ hne, ht]
  cases hstep with
  | setUserNice => exact .inl rfl
  | rtMutexSetprio => exact .inl rfl
  | fork => exact .inl rfl
  | schedSetscheduler => exact .inl (hother rfl fun h => hstart h.symm)
  | sysSchedSetattr => exact .inl (hother rfl fun h => hstart h.symm)
  | schedSetattr => exact .inl (hother rfl fun h => hstart h.symm)
  | @look d q b user pi ans hc =>
    by_cases hd : c = d
    · subst hd
      exact .inr (.inl ⟨q, b, user, pi, ans, hc, rfl⟩)
    · exact .inl (hother rfl hd)
  | @lock d q b user pi policy reset ans hc =>
    by_cases hd : c = d
    · subst hd
      exact .inr (.inr ⟨q, b, user, pi, policy, reset, ans, hc, rfl⟩)
    · left
      unfold Priority.lock
      split
      · exact hother rfl hd
      · exact hother rfl hd

theorem running_next (hforced : Forced attr) (hrun : Running p attr check (s.call c))
    (hstart : ¬ a.Starts c) (hstep : Step s a s') : Running p attr check (s'.call c) := by
  rcases call_cases hstep hstart with hsame | ⟨q, b, user, pi, ans, hc, rfl⟩ |
    ⟨q, b, user, pi, policy, reset, ans, hc, rfl⟩
  · rw [hsame]
    exact hrun
  · rw [hc] at hrun
    obtain ⟨rfl, rfl, rfl, rfl⟩ := hrun
    exact running_look hforced ans
  · rw [hc] at hrun
    obtain ⟨rfl, rfl, rfl, rfl, -⟩ := hrun
    unfold lock
    split
    · simp [Running]
    · simp [Running]

omit [DecidableEq T] [DecidableEq C] in
/-- A real-time task that fits is in a real-time class. -/
theorem Fitting.class_ne_fair {t : TaskStruct R T} (h : Fitting t) (hs : Sane t)
    (hrt : t.policy = schedFifo) : t.schedClass ≠ .fair := by
  have hnormal := normalPrio_rt (taskHasRtPolicy_fifo hrt) (taskHasDlPolicy_fifo hrt) h.le
  have hprio : t.prio < maxRtPrio := by
    have hle := hs.prio
    rw [h.normal, hnormal] at hle
    omega
  rw [hs.schedClass]
  unfold classOf rtPrio
  rw [decide_eq_true hprio]
  split
  · simp
  · simp

omit [DecidableEq T] [DecidableEq C] in
/-- The end of such a call. -/
theorem lock_fifo (hforced : Forced attr) (hs : Sane (s.task p)) (hok : AttrOk attr)
    (hc : Checked attr schedFifo) {prioOf : T → ℤ} {ans : Answers} {q : TaskStruct R T}
    (h : locked prioOf ans schedFifo false (s.task p) attr check true = .done 0 q) :
    q.policy = schedFifo ∧ q.rtPriority = attr.schedPriority ∧ q.schedClass ≠ .fair ∧
      q.schedResetOnFork = false := by
  have hmsb : attr.schedPolicy.msb = false := by
    rw [hforced.policy]
    decide
  have hpriority : attr.schedPriority ≠ 0 := by
    have hrt := hc.rt
    rw [show rtPolicy schedFifo = true from rfl] at hrt
    exact of_decide_eq_true hrt.symm
  have hsane := sane_locked hs hok hc h
  have hq : q.policy = schedFifo ∧ q.rtPriority = attr.schedPriority ∧ q.schedResetOnFork = false := by
    rcases locked_done h with ⟨hne, -⟩ | ⟨-, ⟨hsame, rfl⟩ | ⟨-, rfl⟩⟩
    · exact absurd rfl hne
    · have hrt : rtPolicy schedFifo = true := rfl
      simp only [unchanging, hrt, Bool.true_and, Bool.and_eq_true, Bool.not_eq_true',
        beq_iff_eq, bne_eq_false_iff_eq] at hsame
      obtain ⟨⟨⟨⟨hpolicy, -⟩, hprio⟩, -⟩, -⟩ := hsame
      exact ⟨hpolicy.symm, hprio.symm, rfl⟩
    · let t : TaskStruct R T := { s.task p with schedResetOnFork := false }
      have hpolicy : (setschedulerParams t attr).policy = schedFifo :=
        setschedulerParams_policy hc hok fun h => absurd (hmsb.symm.trans h) (by simp)
      have hrtp : (setschedulerParams t attr).rtPriority = attr.schedPriority :=
        (setschedulerParams_fields t attr).1
      obtain ⟨prio, -, heq⟩ := setscheduler_fields prioOf t hforced.params true
      rw [heq]
      exact ⟨hpolicy, hrtp, setschedulerParams_reset t attr⟩
  refine ⟨hq.1, hq.2.1, ?_, hq.2.2⟩
  have hfit : Fitting q := hsane.kind.resolve_right fun hf => hpriority (hq.2.1 ▸ hf.rtPriority)
  exact hfit.class_ne_fair hsane hq.1

omit [DecidableEq T] in
/-- A call that returns from its look has failed. -/
theorem look_returned {q : T} {b : SchedAttr} {user pi : Bool} {ans : Answers} {retval : ℤ}
    (h : (look s c ans q b user pi).call c = .returned retval) :
    retval ≠ 0 ∧ (look s c ans q b user pi).task = s.task := by
  refine ⟨?_, rfl⟩
  unfold look at h
  rw [State.setCall_call_self] at h
  split at h
  · rename_i hpre
    exact Call.returned.inj h ▸ precheck_ne_zero hpre
  · cases h

/-- A call that returns from under the lock has made its change. -/
theorem lock_returned {q : T} {b : SchedAttr} {user pi reset : Bool} {policy : ℕ} {ans : Answers}
    {retval : ℤ}
    (h : (lock s c ans q b user pi policy reset).call c = .returned retval) :
    ∃ t, locked s.prioOf ans policy reset (s.task q) b user pi = .done retval t ∧
      (lock s c ans q b user pi policy reset).task = Function.update s.task q t := by
  unfold lock at h ⊢
  split at h
  · rw [State.setCall_call_self] at h
    cases h
  · rename_i retval' t hdone
    rw [State.setCall_call_self] at h
    obtain rfl := Call.returned.inj h
    exact ⟨t, hdone, rfl⟩

/-- `_sched_setscheduler` without the reset bit, between its call and its return:
an error leaves all tasks as they are, and a success leaves a `SCHED_FIFO` task of
the priority asked for, which is from 1 to 99, whatever policy was asked for. -/
theorem fifo_of_call {task : T → TaskStruct R T} {ok : State R T C → Act R T C → Prop}
    {s₁ s₂ s₃ : State R T C} {policy priority : BitVec 32} {retval : ℤ}
    (htask : ∀ p, Sane (task p)) (hs : Reach (start task) Step ok s) (hlegacy : Legacy policy)
    (hcall : Step s (.schedSetscheduler c p policy priority check) s₁)
    (hrun : Reach s₁ Step (fun _ a => ¬ a.Starts c) s₂) (hstep : Step s₂ a s₃)
    (hstart : ¬ a.Starts c) (hbefore : ∀ retval, s₂.call c ≠ .returned retval)
    (hafter : s₃.call c = .returned retval) :
    retval ≠ 0 ∧ s₃.task = s₂.task ∨ retval = 0 ∧ (s₃.task p).policy = schedFifo ∧
      (s₃.task p).rtPriority = priority.toNat ∧ 1 ≤ priority.toNat ∧ priority.toNat ≤ 99 ∧
      (s₃.task p).schedClass ≠ .fair ∧ (s₃.task p).schedResetOnFork = false := by
  have hproper := proper_of_reach (proper_start htask) hs
  have hforced := forced_legacyAttr (t := s.task p) hlegacy priority
  have hpriority : (legacyAttr (s.task p) policy priority).schedPriority = priority.toNat := by
    rw [legacyAttr_fifo hlegacy]
  generalize hattr : legacyAttr (s.task p) policy priority = attr at hforced hpriority
  have hbegun : Running p attr check (s₁.call c) := by
    cases hcall with
    | schedSetscheduler p check hc hpolicy =>
      rw [State.setCall_call_self, hattr]
      exact ⟨rfl, rfl, rfl, rfl⟩
  have hrunning : Running p attr check (s₂.call c) :=
    hrun.invariant hbegun fun _ _ _ h ha hstep => running_next hforced h ha hstep
  have hproper₂ := proper_of_reach (hproper.next hcall) hrun
  rcases call_cases hstep hstart with hsame | ⟨q, b, user, pi, ans, -, rfl⟩ |
    ⟨q, b, user, pi, policy', reset, ans, hc, rfl⟩
  · exact absurd (hsame.symm.trans hafter) (hbefore retval)
  · exact .inl (look_returned hafter)
  · have hok := hproper₂.call c
    rw [hc] at hrunning hok
    obtain ⟨rfl, rfl, rfl, rfl, rfl, rfl, hchecked⟩ := hrunning
    obtain ⟨t, hdone, htask'⟩ := lock_returned hafter
    rw [htask', Function.update_self]
    by_cases hret : retval = 0
    · subst hret
      obtain ⟨hpolicy, hrtp, hclass, hreset⟩ :=
        lock_fifo hforced (hproper₂.sane q) hok.1 hchecked hdone
      have hrt := hchecked.rt
      rw [show rtPolicy schedFifo = true from rfl, hpriority] at hrt
      have hne : priority.toNat ≠ 0 := of_decide_eq_true hrt.symm
      have hle := hchecked.le
      rw [hpriority] at hle
      refine .inr ⟨rfl, hpolicy, hrtp.trans hpriority, Nat.one_le_iff_ne_zero.mpr hne, ?_, hclass,
        hreset⟩
      unfold maxRtPrio at hle
      omega
    · rcases locked_done hdone with ⟨-, rfl⟩ | ⟨hzero, -⟩
      · exact .inl ⟨hret, Function.update_eq_self _ _⟩
      · exact absurd hzero hret

/-- `SCHED_NORMAL` is asked for, with the priority 50. -/
def askNormal : State Unit Bool Unit :=
  twoTasks.setCall () (.begun false (legacyAttr normalStruct 0 50) true true)

theorem askNormal_look : (look askNormal () privileged false (legacyAttr normalStruct 0 50)
    true true).call () = .looked false (legacyAttr normalStruct 0 50) true true schedFifo false := rfl

theorem fifo_of_call_two : ∃ s : State Unit Bool Unit,
    s.call () = .returned 0 ∧ (s.task false).policy = schedFifo := by
  have hcall : Step twoTasks (.schedSetscheduler () false 0 50 true) askNormal :=
    .schedSetscheduler false true rfl (.inl rfl)
  have hlook := Step.look (s := askNormal) (c := ()) privileged rfl
  have hlock := Step.lock privileged askNormal_look
  have hinit : Reach twoTasks Step (fun _ _ => True) twoTasks := .init
  have hrun : Reach askNormal Step (fun _ a => ¬ a.Starts ()) _ :=
    .step .init (by simp [Act.Starts]) hlook
  have hor := fifo_of_call (fun _ => sane_normalStruct) hinit (.inr rfl) hcall hrun hlock
    (by simp [Act.Starts]) (by rw [askNormal_look]; rintro r ⟨⟩) rfl
  rcases hor with ⟨hne, -⟩ | ⟨-, hpolicy, -⟩
  · exact absurd rfl hne
  · exact ⟨_, rfl, hpolicy⟩

/-! ### The children of fair tasks -/

/-- The caller `c` is about to set the policy of `p`, and that succeeds. -/
def Sets (p : T) (keepParams : Bool) (s : State R T C) (a : Act R T C) : Prop :=
  ∃ c ans attr user pi policy reset q, a = .lock c ans ∧
    s.call c = .looked p attr user pi policy reset ∧ attr.keepParams = keepParams ∧
    locked s.prioOf ans policy reset (s.task p) attr user pi = .done 0 q

/-- The task is not made anew. -/
def Stays (p : T) (a : Act R T C) : Prop := ∀ current cpu, a ≠ .fork current p cpu

/-- `rt_mutex_setprio` does not take the task for the idle one of its runqueue. -/
def NotIdle (p : T) (a : Act R T C) : Prop := ∀ piTask, a ≠ .rtMutexSetprio p piTask true

/-- What happens to the two kinds of tasks. -/
structure Kept (fails notIdle : Prop) (t q : TaskStruct R T) : Prop where
  fitting : Fitting t → Fitting q
  forked : Forked t → fails → Forked q ∧ q.normalPrio = t.normalPrio
  own : Forked t → fails → notIdle → OwnPrio t → OwnPrio q
  set : ¬ fails → Fitting q

omit [DecidableEq T] [DecidableEq C] in
theorem kept_refl (notIdle : Prop) (t : TaskStruct R T) : Kept True notIdle t t :=
  ⟨fun h => h, fun h _ => ⟨h, rfl⟩, fun _ _ _ h => h, fun h => absurd trivial h⟩

omit [DecidableEq T] [DecidableEq C] in
theorem kept_locked {prioOf : T → ℤ} {ans : Answers} {policy : ℕ} {reset user pi : Bool}
    {retval : ℤ} {t q : TaskStruct R T} (ht : Sane t) (hok : AttrOk attr)
    (hc : Checked attr policy)
    (h : locked prioOf ans policy reset t attr user pi = .done retval q) (notIdle : Prop) :
    Kept (retval ≠ 0 ∨ attr.keepParams = true) notIdle t q := by
  rcases locked_done h with ⟨hne, rfl⟩ | ⟨rfl, ⟨hsame, rfl⟩ | ⟨hpolicy, rfl⟩⟩
  · exact ⟨fun h => h, fun h _ => ⟨h, rfl⟩, fun _ _ _ h => h, fun h => absurd (.inl hne) h⟩
  · refine ⟨fun h => h.setReset reset, fun h _ => ⟨h.congr rfl rfl rfl, rfl⟩, fun _ _ _ h => h,
      fun _ => ?_⟩
    -- a forked task has a priority that no call with its policy asks for
    refine (ht.setReset reset).kind.resolve_right fun hf => ?_
    have hfifo : t.policy = schedFifo := hf.policy
    have hzero : t.rtPriority = 0 := hf.rtPriority
    simp only [unchanging, Bool.and_eq_true, beq_iff_eq] at hsame
    obtain ⟨⟨⟨⟨hpolicy, -⟩, hprio⟩, -⟩, -⟩ := hsame
    have hrt := hc.rt
    rw [hpolicy, hfifo, show rtPolicy schedFifo = true from rfl] at hrt hprio
    rw [hzero] at hprio
    have hne : attr.schedPriority ≠ 0 := of_decide_eq_true hrt.symm
    simp [hne] at hprio
  · cases hkeep : attr.keepParams with
    | true =>
      rw [setscheduler_keep hkeep]
      exact ⟨fun h => h.setReset reset, fun h _ => ⟨h.congr rfl rfl rfl, rfl⟩, fun _ _ _ h => h,
        fun h => absurd (.inr rfl) h⟩
    | false =>
      have hfit : Fitting (setscheduler prioOf { t with schedResetOnFork := reset } attr pi) :=
        (sane_setscheduler (ht.setReset reset) hc hok hpolicy hkeep pi).2
      have hsucceeds : ¬ ((0 : ℤ) ≠ 0 ∨ false = true) := by simp
      exact ⟨fun _ => hfit, fun _ hfails => absurd hfails hsucceeds,
        fun _ hfails => absurd hfails hsucceeds, fun _ => hfit⟩

omit [DecidableEq T] [DecidableEq C] in
theorem sets_lock_iff {q : T} {keep user pi reset : Bool} {policy : ℕ} (ans : Answers)
    (hc : s.call c = .looked q attr user pi policy reset) :
    Sets p keep s (.lock c ans) ↔ q = p ∧ attr.keepParams = keep ∧
      ∃ t, locked s.prioOf ans policy reset (s.task q) attr user pi = .done 0 t := by
  constructor
  · rintro ⟨c', ans', attr', user', pi', policy', reset', t, ha, hc', hkeep, hdone⟩
    obtain ⟨rfl, rfl⟩ := Act.lock.inj ha
    obtain ⟨rfl, rfl, rfl, rfl, rfl, rfl⟩ := Call.looked.inj (hc.symm.trans hc')
    exact ⟨rfl, hkeep, t, hdone⟩
  · rintro ⟨rfl, hkeep, t, hdone⟩
    exact ⟨c, ans, attr, user, pi, policy, reset, t, rfl, hc, hkeep, hdone⟩

/-- The change under the lock keeps the kind of every task whose parameters it does
not set. -/
theorem kept_lock (h : Proper s) {q : T} {user pi reset : Bool} {policy : ℕ} (ans : Answers)
    (hc : s.call c = .looked q attr user pi policy reset) (notIdle : Prop) :
    Kept (¬ Sets p false s (.lock c ans)) notIdle (s.task p)
      ((lock s c ans q attr user pi policy reset).task p) := by
  have hok : CallOk (.looked q attr user pi policy reset) := hc ▸ h.call c
  have hsets : Sets p false s (.lock c ans) ↔ _ := sets_lock_iff ans hc
  have hsame : ¬ Sets p false s (.lock c ans) →
      Kept (¬ Sets p false s (.lock c ans)) notIdle (s.task p) (s.task p) :=
    fun hno => ⟨fun h => h, fun h _ => ⟨h, rfl⟩, fun _ _ _ h => h, fun h => absurd hno h⟩
  unfold lock
  split
  · rename_i hrecheck
    apply hsame
    rw [hsets, hrecheck]
    rintro ⟨-, -, t, ht⟩
    cases ht
  · rename_i retval t hdone
    by_cases hq : p = q
    · subst hq
      have hkept := kept_locked (h.sane p) hok.1 hok.2 hdone notIdle
      have hiff : retval ≠ 0 ∨ attr.keepParams = true ↔ ¬ Sets p false s (.lock c ans) := by
        rw [hsets, hdone]
        constructor
        · rintro hor ⟨-, hkeep, t', ht⟩
          obtain ⟨hzero, -⟩ := Attempt.done.inj ht
          rcases hor with hne | hkeep'
          · exact hne hzero
          · exact absurd (hkeep.symm.trans hkeep') (by simp)
        · intro hno
          by_contra hor
          rw [not_or, not_not, Bool.not_eq_true] at hor
          exact hno ⟨rfl, hor.2, t, by rw [hor.1]⟩
      rw [propext hiff] at hkept
      show Kept _ _ (s.task p) ((s.setTask p t).task p)
      rw [State.setTask_task_self]
      exact hkept
    · show Kept _ _ (s.task p) ((s.setTask q t).task p)
      rw [State.setTask_task_of_ne _ _ hq]
      exact hsame fun hyes => hq (hsets.mp hyes).1.symm

theorem kept_next (h : Proper s) (hstep : Step s a s') (hstay : Stays p a) :
    Kept (¬ Sets p false s a) (NotIdle p a) (s.task p) (s'.task p) := by
  have hskip : ∀ {q : TaskStruct R T}, (∀ c ans, a ≠ .lock c ans) →
      Kept True (NotIdle p a) (s.task p) q →
      Kept (¬ Sets p false s a) (NotIdle p a) (s.task p) q := by
    rintro q ha ⟨hfit, hforked, hown, -⟩
    refine ⟨hfit, fun h _ => hforked h trivial, fun h _ => hown h trivial, fun h => absurd ?_ h⟩
    rintro ⟨c, ans, -, -, -, -, -, -, heq, -⟩
    exact ha c ans heq
  have hsame : ∀ {q t}, p ≠ q → ((s.setTask q t : State R T C).task p) = s.task p :=
    fun hne => State.setTask_task_of_ne _ _ hne
  cases hstep with
  | setUserNice q nice =>
    refine hskip (by simp) ?_
    by_cases hq : p = q
    · subst hq
      rw [State.setTask_task_self]
      exact ⟨fun h => h.setUserNice nice, fun h _ => h.setUserNice nice,
        fun hf _ _ h => h.setUserNice hf nice, fun h => absurd trivial h⟩
    · rw [hsame hq]
      exact kept_refl _ _
  | rtMutexSetprio q piTask idle =>
    refine hskip (by simp) ?_
    by_cases hq : p = q
    · subst hq
      rw [State.setTask_task_self]
      refine ⟨fun h => h.rtMutexSetprio idle piTask, fun h _ => h.rtMutexSetprio idle piTask,
        fun _ _ hno h => ?_, fun h => absurd trivial h⟩
      obtain rfl : idle = false := Bool.eq_false_of_not_eq_true fun hidle =>
        hno piTask (by rw [hidle])
      exact h.rtMutexSetprio piTask
    · rw [hsame hq]
      exact kept_refl _ _
  | @fork current q cpu new hfork =>
    refine hskip (by simp) ?_
    have hq : p ≠ q := fun hq => hstay current cpu (hq ▸ rfl)
    rw [hsame hq]
    exact kept_refl _ _
  | schedSetscheduler => exact hskip (by simp) (kept_refl _ _)
  | sysSchedSetattr => exact hskip (by simp) (kept_refl _ _)
  | schedSetattr => exact hskip (by simp) (kept_refl _ _)
  | look => exact hskip (by simp) (kept_refl _ _)
  | lock ans hc => exact kept_lock h ans hc _

theorem fitting_of_reach {ok : State R T C → Act R T C → Prop} (h : Proper s)
    (hfit : Fitting (s.task p)) (hok : ∀ s a, ok s a → Stays p a) (hs : Reach s Step ok s') :
    Fitting (s'.task p) := by
  have hall := hs.invariant (P := fun s => Proper s ∧ Fitting (s.task p)) ⟨h, hfit⟩
    fun s a s' h ha hstep => ⟨h.1.next hstep, (kept_next h.1 hstep (hok s a ha)).fitting h.2⟩
  exact hall.2

/-- The child of a fair task starts in the fair class with its normal priority, that
of its parent, and inherits none. Until a call succeeds that sets its parameters, it keeps the policy
`SCHED_FIFO` with the priority 0 and that normal priority; it is in the fair class
unless its priority is a better one, which it only is while it inherits one. From
that call on its policy and its priorities fit. -/
theorem child_of_fork {task : T → TaskStruct R T} {ok : State R T C → Act R T C → Prop}
    {current : T} {cpu : R} {s₁ s₂ : State R T C} (htask : ∀ p, Sane (task p))
    (hs : Reach (start task) Step ok s) (hfit : Fitting (s.task current))
    (hfair : rtPolicy (s.task current).policy = false)
    (hreset : (s.task current).schedResetOnFork = false)
    (hfork : Step s (.fork current p cpu) s₁)
    (hrun : Reach s₁ Step (fun s a => Stays p a ∧ ¬ Sets p false s a) s₂) :
    ((s₁.task p).prio = (s₁.task p).normalPrio ∧ (s₁.task p).schedClass = .fair ∧
      (s₁.task p).piTopTask = none) ∧
    ((s₂.task p).policy = schedFifo ∧ (s₂.task p).rtPriority = 0 ∧
      (s₂.task p).normalPrio = (s.task current).normalPrio ∧
      (maxRtPrio ≤ (s₂.task p).prio → (s₂.task p).schedClass = .fair)) ∧
    (Reach s₁ Step (fun s a => (Stays p a ∧ ¬ Sets p false s a) ∧ NotIdle p a) s₂ →
      (s₂.task p).piTopTask = none →
        (s₂.task p).prio = (s₂.task p).normalPrio ∧ (s₂.task p).schedClass = .fair) ∧
    ∀ a s₃ s₄, Stays p a → Sets p false s₂ a → Step s₂ a s₃ →
      Reach s₃ Step (fun _ a => Stays p a) s₄ → Fitting (s₄.task p) := by
  have hproper := proper_of_reach (proper_start htask) hs
  have hproper₁ := hproper.next hfork
  have hchild : FairChild (s.task current) (s₁.task p) := by
    cases hfork with
    | @fork current p cpu new hnew =>
      rw [State.setTask_task_self]
      exact hfit.fairChild (hproper.sane current).static.1 hfair hreset hnew
  have hkeeps : ∀ (s : State R T C) a s', (Proper s ∧ Forked (s.task p) ∧
      (s.task p).normalPrio = (s₁.task p).normalPrio) → Stays p a ∧ ¬ Sets p false s a →
      Step s a s' → Proper s' ∧ Forked (s'.task p) ∧
        (s'.task p).normalPrio = (s₁.task p).normalPrio := by
    rintro s a s' ⟨hp, hforked, hnormal⟩ ha hstep
    obtain ⟨hforked', hnormal'⟩ := (kept_next hp hstep ha.1).forked hforked ha.2
    exact ⟨hp.next hstep, hforked', hnormal'.trans hnormal⟩
  obtain ⟨hproper₂, hforked, hnormal⟩ := hrun.invariant
    (P := fun s => Proper s ∧ Forked (s.task p) ∧
      (s.task p).normalPrio = (s₁.task p).normalPrio) ⟨hproper₁, hchild.forked, rfl⟩ hkeeps
  refine ⟨⟨hchild.prio, (hproper₁.sane p).fair_of_forked hchild.forked hchild.prio, hchild.top⟩,
    ⟨hforked.policy, hforked.rtPriority, hnormal.trans hchild.normalPrio, fun hprio => ?_⟩,
    fun hrun' htop => ?_, ?_⟩
  · rw [(hproper₂.sane p).schedClass]
    exact classOf_fair hprio
  · have hown := hrun'.invariant (P := fun s => (Proper s ∧ Forked (s.task p) ∧
        (s.task p).normalPrio = (s₁.task p).normalPrio) ∧ OwnPrio (s.task p))
      ⟨⟨hproper₁, hchild.forked, rfl⟩, fun _ => hchild.prio⟩ fun s a s' h ha hstep =>
        ⟨hkeeps s a s' h.1 ha.1 hstep,
          (kept_next h.1.1 hstep ha.1.1).own h.1.2.1 ha.1.2 ha.2 h.2⟩
    have hprio := hown.2 htop
    exact ⟨hprio, (hproper₂.sane p).fair_of_forked hforked hprio⟩
  · intro a s₃ s₄ hstay hsets hstep hrun'
    have hfit₃ := (kept_next hproper₂ hstep hstay).set (not_not.mpr hsets)
    exact fitting_of_reach (hproper₂.next hstep) hfit₃ (fun _ _ h => h) hrun'

theorem child_of_fork_two : ∃ s : State Unit Bool Unit,
    (s.task true).policy = schedFifo ∧ (s.task true).normalPrio = defaultPrio ∧
      (s.task true).schedClass = .fair := by
  obtain ⟨s, hstep, -⟩ := twoTasks_fork
  have hfit : Fitting normalStruct := ⟨rfl, rfl, by decide, rfl⟩
  have hinit : Reach twoTasks Step (fun _ _ => True) twoTasks := .init
  obtain ⟨⟨-, hclass, -⟩, ⟨hpolicy, -, hnormal, -⟩, -⟩ :=
    child_of_fork (fun _ => sane_normalStruct) hinit hfit rfl rfl hstep .init
  exact ⟨s, hpolicy, hnormal, hclass⟩

end Priority
end Sched
end LinuxProg
