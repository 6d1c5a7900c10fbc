/-
# What the steps of the scheduler change

All steps of `Sched.Model` but a fork, a context switch and the end of one touch
one task and none of its counters (`Touches`); a context switch ends the stay of
the current task and begins that of the next one (`Switches`).
-/
import Mathlib
import LinuxProg.Sched.Model

namespace LinuxProg
namespace Sched

variable {R T : Type*}

/-! ### Steps that touch one task -/

/-- A runqueue that goes on as it was, with its clock. -/
structure SameRq (q q' : Rq T) : Prop where
  curr : q'.curr = q.curr
  idle : q'.idle = q.idle
  phase : q'.phase = q.phase
  rqCpuTime : q'.rqCpuTime = q.rqCpuTime
  clock : q.clock ≤ q'.clock

theorem SameRq.refl (q : Rq T) : SameRq q q := ⟨rfl, rfl, rfl, rfl, UInt64.le_refl _⟩

theorem SameRq.trans {q q₁ q₂ : Rq T} (h : SameRq q q₁) (h' : SameRq q₁ q₂) : SameRq q q₂ :=
  ⟨h'.curr.trans h.curr, h'.idle.trans h.idle, h'.phase.trans h.phase,
    h'.rqCpuTime.trans h.rqCpuTime, UInt64.le_trans h.clock h'.clock⟩

theorem sameRq_runDelay (q : Rq T) (d : UInt64) : SameRq q { q with runDelay := d } :=
  ⟨rfl, rfl, rfl, rfl, UInt64.le_refl _⟩

theorem sameRq_updateRqClock {now : UInt64} {q : Rq T} (h : q.clock ≤ (updateRqClock now q).clock) :
    SameRq q (updateRqClock now q) := by
  unfold updateRqClock at h ⊢
  by_cases hd : (now - q.clock).toInt64 < 0
  · simp only [hd, if_true]
    exact SameRq.refl q
  · simp only [hd, if_false] at h ⊢
    exact ⟨rfl, rfl, rfl, rfl, h⟩

/-- What a step on the task `p` leaves alone: everything but the clocks, the
`run_delay`s and the state and the queue of `p`. Who is dead and off the CPUs is
not revived, and only a current task that is not idle can die. -/
structure Touches (σ : System R T) (p : T) (σ' : System R T) : Prop where
  rq : ∀ r, SameRq (σ.rq r) (σ'.rq r)
  tasks : σ'.tasks = σ.tasks
  printk : σ'.printk = σ.printk
  other : ∀ t, t ≠ p → σ'.task t = σ.task t
  cpuBurst : (σ'.task p).cpuBurst = (σ.task p).cpuBurst
  lastArrival : (σ'.task p).schedInfo.lastArrival = (σ.task p).schedInfo.lastArrival
  onCpu : (σ'.task p).onCpu = (σ.task p).onCpu
  stays_dead : (σ.task p).state = taskDead → (σ.task p).onRq = .off → (∀ r, (σ.rq r).curr ≠ p) →
    (σ'.task p).state = taskDead ∧ (σ'.task p).onRq = .off
  dies : (σ'.task p).state = taskDead → (σ.task p).state = taskDead ∨
    ∃ r, (σ.rq r).curr = p ∧ p ≠ (σ.rq r).idle

theorem touches_refl (σ : System R T) (p : T) : Touches σ p σ :=
  ⟨fun _ => SameRq.refl _, rfl, rfl, fun _ _ => rfl, rfl, rfl, rfl, fun h1 h2 _ => ⟨h1, h2⟩, .inl⟩

theorem Touches.trans {σ σ₁ σ₂ : System R T} {p : T} (h : Touches σ p σ₁) (h' : Touches σ₁ p σ₂) :
    Touches σ p σ₂ := by
  refine ⟨fun r => (h.rq r).trans (h'.rq r), h'.tasks.trans h.tasks, h'.printk.trans h.printk, ?_,
    h'.cpuBurst.trans h.cpuBurst, h'.lastArrival.trans h.lastArrival, h'.onCpu.trans h.onCpu, ?_, ?_⟩
  · intro t ht
    rw [h'.other t ht, h.other t ht]
  · intro hs hq hc
    obtain ⟨hs', hq'⟩ := h.stays_dead hs hq hc
    apply h'.stays_dead hs' hq'
    intro r
    rw [(h.rq r).curr]
    exact hc r
  · intro hs
    rcases h'.dies hs with hs' | ⟨r, hr, hi⟩
    · exact h.dies hs'
    · rw [(h.rq r).curr] at hr
      rw [(h.rq r).idle] at hi
      exact .inr ⟨r, hr, hi⟩

theorem Touches.cpuBurst_eq {σ σ' : System R T} {p : T} (h : Touches σ p σ') (t : T) :
    (σ'.task t).cpuBurst = (σ.task t).cpuBurst := by
  by_cases ht : t = p
  · rw [ht, h.cpuBurst]
  · rw [h.other t ht]

theorem Touches.lastArrival_eq {σ σ' : System R T} {p : T} (h : Touches σ p σ') (t : T) :
    (σ'.task t).schedInfo.lastArrival = (σ.task t).schedInfo.lastArrival := by
  by_cases ht : t = p
  · rw [ht, h.lastArrival]
  · rw [h.other t ht]

theorem Touches.onCpu_eq {σ σ' : System R T} {p : T} (h : Touches σ p σ') (t : T) :
    (σ'.task t).onCpu = (σ.task t).onCpu := by
  by_cases ht : t = p
  · rw [ht, h.onCpu]
  · rw [h.other t ht]

/-- Dead, off the queues and current nowhere. -/
structure Gone (σ : System R T) (t : T) : Prop where
  mem : t ∈ σ.tasks
  state : (σ.task t).state = taskDead
  onRq : (σ.task t).onRq = .off
  curr : ∀ r, (σ.rq r).curr ≠ t

/-- Whether a task is gone depends on `curr`, its state and its queue. -/
theorem Gone.congr {σ σ' : System R T} {t : T} (hG : Gone σ t) (hcurr : ∀ x, (σ'.rq x).curr = (σ.rq x).curr)
    (htasks : σ'.tasks = σ.tasks) (hstate : (σ'.task t).state = (σ.task t).state)
    (honRq : (σ'.task t).onRq = (σ.task t).onRq) : Gone σ' t := by
  refine ⟨?_, hstate.trans hG.state, honRq.trans hG.onRq, ?_⟩
  · rw [htasks]
    exact hG.mem
  · intro x
    rw [hcurr]
    exact hG.curr x

theorem Touches.gone {σ σ' : System R T} {p t : T} (h : Touches σ p σ') (hG : Gone σ t) :
    Gone σ' t := by
  have hc : ∀ r, (σ'.rq r).curr ≠ t := fun r => by rw [(h.rq r).curr]; exact hG.curr r
  by_cases ht : t = p
  · subst ht
    obtain ⟨h1, h2⟩ := h.stays_dead hG.state hG.onRq hG.curr
    exact ⟨by rw [h.tasks]; exact hG.mem, h1, h2, hc⟩
  · refine ⟨by rw [h.tasks]; exact hG.mem, ?_, ?_, hc⟩
    · rw [h.other t ht]
      exact hG.state
    · rw [h.other t ht]
      exact hG.onRq

/-- Only current tasks that are not idle die. -/
theorem Touches.dead {σ σ' : System R T} {p t : T} (h : Touches σ p σ')
    (hd : (σ'.task t).state = taskDead) :
    (σ.task t).state = taskDead ∨ ∃ r, (σ.rq r).curr = t ∧ t ≠ (σ.rq r).idle := by
  by_cases ht : t = p
  · subst ht
    exact h.dies hd
  · rw [h.other t ht] at hd
    exact .inl hd

theorem resetOnFork_cpuBurst (p : Task R) : (resetOnFork p).cpuBurst = p.cpuBurst := by
  unfold resetOnFork
  dsimp only
  split_ifs <;> rfl

/-- A new task has not run. -/
theorem schedFork_cpuBurst {r : R} {current orig new : Task R}
    (h : schedFork r current orig = .ok new) : new.cpuBurst = 0 := by
  unfold schedFork at h
  dsimp only at h
  split_ifs at h
  · injection h with h
    rw [← h]
    exact resetOnFork_cpuBurst _
  · injection h with h
    rw [← h]

theorem taskRunning_ne_dead : taskRunning ≠ taskDead := by decide

theorem schedInfoQueued_eq (rq : Rq T) (t : Task R) :
    ∃ q, schedInfoQueued rq t = { t with schedInfo := { t.schedInfo with lastQueued := q } } := by
  unfold schedInfoQueued
  split_ifs with h
  · exact ⟨_, rfl⟩
  · exact ⟨t.schedInfo.lastQueued, rfl⟩

/-- `sched_info_depart` adds the time since the arrival. -/
theorem schedInfoDepart_eq (rq : Rq T) (t : Task R) :
    ∃ q, schedInfoDepart rq t =
      ({ rq with rqCpuTime := rq.rqCpuTime + (rq.clock - t.schedInfo.lastArrival) },
        { t with cpuBurst := t.cpuBurst + (rq.clock - t.schedInfo.lastArrival)
                 schedInfo := { t.schedInfo with lastQueued := q } }) := by
  obtain ⟨q, hq⟩ := schedInfoQueued_eq rq
    { t with cpuBurst := t.cpuBurst + (rq.clock - t.schedInfo.lastArrival) }
  unfold schedInfoDepart
  by_cases hs : t.state = taskRunning
  · refine ⟨q, ?_⟩
    dsimp only
    rw [if_pos hs, hq]
    rfl
  · refine ⟨t.schedInfo.lastQueued, ?_⟩
    dsimp only
    rw [if_neg hs]
    rfl

section

variable [DecidableEq T]

/-- A new value of the task `p`, on runqueues that go on. -/
theorem touches_of {σ σ' : System R T} {p : T} {y : Task R} (hrq : ∀ r, SameRq (σ.rq r) (σ'.rq r))
    (htask : σ'.task = (σ.setTask p y).task) (htasks : σ'.tasks = σ.tasks)
    (hprintk : σ'.printk = σ.printk) (hburst : y.cpuBurst = (σ.task p).cpuBurst)
    (harrival : y.schedInfo.lastArrival = (σ.task p).schedInfo.lastArrival)
    (honCpu : y.onCpu = (σ.task p).onCpu)
    (hdead : (σ.task p).state = taskDead → (σ.task p).onRq = .off → (∀ r, (σ.rq r).curr ≠ p) →
      y.state = taskDead ∧ y.onRq = .off)
    (hdies : y.state = taskDead → (σ.task p).state = taskDead ∨
      ∃ r, (σ.rq r).curr = p ∧ p ≠ (σ.rq r).idle) : Touches σ p σ' := by
  have hp : σ'.task p = y := by rw [htask, setTask_task, if_pos rfl]
  refine ⟨hrq, htasks, hprintk, ?_, ?_, ?_, ?_, ?_, ?_⟩
  · intro t ht
    rw [htask, setTask_task, if_neg ht]
  · rw [hp, hburst]
  · rw [hp, harrival]
  · rw [hp, honCpu]
  · rwa [hp]
  · rwa [hp]

/-- `activate_task` queues the task. -/
theorem activateTask_eq (σ : System R T) (r : R) (p : T) :
    ∃ q, activateTask σ r p = σ.setTask p { σ.task p with
      onRq := .queued, schedInfo := { (σ.task p).schedInfo with lastQueued := q } } := by
  obtain ⟨q, hq⟩ := schedInfoQueued_eq (σ.rq r) (σ.task p)
  refine ⟨q, ?_⟩
  unfold activateTask
  rw [hq]

theorem activateTask_touches {σ : System R T} {r : R} {p : T}
    (h : (σ.task p).state = taskDead → (σ.task p).onRq ≠ .off) :
    Touches σ p (activateTask σ r p) := by
  obtain ⟨q, hq⟩ := activateTask_eq σ r p
  rw [hq]
  refine touches_of (fun _ => SameRq.refl _) rfl rfl rfl rfl rfl rfl ?_ .inl
  exact fun hs ho _ => absurd ho (h hs)

/-- A task that is not dead is set to run and queued on `r`. -/
theorem wakeUp_touches {σ : System R T} {r : R} {p : T} (h : (σ.task p).state ≠ taskDead) :
    Touches σ p (activateTask (σ.setTask p { σ.task p with state := taskRunning, cpu := r }) r p) := by
  have h1 : Touches σ p (σ.setTask p { σ.task p with state := taskRunning, cpu := r }) := by
    refine touches_of (fun _ => SameRq.refl _) rfl rfl rfl rfl rfl rfl ?_ ?_
    · exact fun hd => absurd hd h
    · exact fun hd => absurd hd taskRunning_ne_dead
  apply h1.trans
  apply activateTask_touches
  rw [setTask_task, if_pos rfl]
  exact fun hd => absurd hd taskRunning_ne_dead

theorem wakeUpNewTask_touches {σ : System R T} {r : R} {p : T} (h : (σ.task p).state = taskNew) :
    Touches σ p (wakeUpNewTask σ r p) := by
  apply wakeUp_touches
  rw [h]
  decide

theorem tryToWakeUp_touches {σ : System R T} {r : R} {p : T} {state : ℕ}
    (h : taskDead &&& state = 0) : Touches σ p (tryToWakeUp σ r p state) := by
  unfold tryToWakeUp
  by_cases hs : (σ.task p).state &&& state = 0
  · rw [if_pos hs]
    exact touches_refl σ p
  · have hnd : (σ.task p).state ≠ taskDead := fun hd => hs (hd ▸ h)
    rw [if_neg hs]
    by_cases hq : (σ.task p).onRq = .queued
    · rw [if_pos hq]
      refine touches_of (fun _ => SameRq.refl _) rfl rfl rfl rfl rfl rfl ?_ ?_
      · exact fun hd => absurd hd hnd
      · exact fun hd => absurd hd taskRunning_ne_dead
    · rw [if_neg hq]
      exact wakeUp_touches hnd

end

variable [DecidableEq R]

theorem sameRq_setRq {σ : System R T} {r : R} {q : Rq T} (h : SameRq (σ.rq r) q) (x : R) :
    SameRq (σ.rq x) ((σ.setRq r q).rq x) := by
  rw [setRq_rq]
  by_cases hx : x = r
  · rw [if_pos hx, hx]
    exact h
  · rw [if_neg hx]
    exact SameRq.refl _

theorem setPhase_rq (σ : System R T) (r x : R) (f : Phase T) :
    (σ.setRq r { σ.rq r with phase := f }).rq x =
      { σ.rq x with phase := if x = r then f else (σ.rq x).phase } := by
  rw [setRq_rq]
  by_cases hx : x = r
  · rw [if_pos hx, if_pos hx, hx]
  · rw [if_neg hx, if_neg hx]

theorem finishTaskSwitch_rq (σ : System R T) (r x : R) (prev : T) (prevState : ℕ) :
    (finishTaskSwitch σ r prev prevState).rq x =
      { σ.rq x with phase := if x = r then .running else (σ.rq x).phase } := by
  unfold finishTaskSwitch
  by_cases hd : prevState = taskDead
  · rw [if_pos hd]
    exact setPhase_rq ..
  · rw [if_neg hd]
    exact setPhase_rq ..

theorem finishTaskSwitch_task (σ : System R T) (r : R) (prev : T) (prevState : ℕ) :
    (finishTaskSwitch σ r prev prevState).task = σ.task := by
  unfold finishTaskSwitch
  dsimp only
  split_ifs <;> rfl

theorem finishTaskSwitch_tasks (σ : System R T) (r : R) (prev : T) (prevState : ℕ) :
    (finishTaskSwitch σ r prev prevState).tasks = σ.tasks := by
  unfold finishTaskSwitch
  dsimp only
  split_ifs <;> rfl

/-- Only a dead task is reported. -/
theorem finishTaskSwitch_printk {σ : System R T} {r : R} {prev : T} {prevState : ℕ} {l : Report T}
    (h : l ∈ (finishTaskSwitch σ r prev prevState).printk) :
    l ∈ σ.printk ∨ prevState = taskDead ∧ l.prev = prev ∧ l.cpuBurst = (σ.task prev).cpuBurst := by
  unfold finishTaskSwitch at h
  dsimp only at h
  split_ifs at h with hd
  · rcases List.mem_append.mp h with h | h
    · exact .inl h
    · rw [List.mem_singleton.mp h]
      exact .inr ⟨hd, rfl, rfl⟩
  · exact .inl h

theorem updateClock_touches {σ : System R T} {r : R} {now : UInt64} (p : T)
    (h : (σ.rq r).clock ≤ (updateRqClock now (σ.rq r)).clock) :
    Touches σ p (σ.updateClock r now) :=
  ⟨sameRq_setRq (sameRq_updateRqClock h), rfl, rfl, fun _ _ => rfl, rfl, rfl, rfl,
    fun h1 h2 _ => ⟨h1, h2⟩, .inl⟩

variable [DecidableEq T]

/-- `deactivate_task` takes the task off the queue. -/
theorem deactivateTask_eq (σ : System R T) (r : R) (p : T) (sleep : Bool) :
    ∃ d a, deactivateTask σ r p sleep =
      (σ.setRq r { σ.rq r with runDelay := d }).setTask p { σ.task p with
        onRq := if sleep then .off else .migrating
        schedInfo := { (σ.task p).schedInfo with lastQueued := 0, runDelay := a } } := by
  refine ⟨(σ.rq r).runDelay + queuedFor (σ.rq r) (σ.task p),
    (σ.task p).schedInfo.runDelay + queuedFor (σ.rq r) (σ.task p), ?_⟩
  unfold deactivateTask System.account
  rw [setTask_task, if_pos rfl, setTask_rq]
  unfold System.setRq System.setTask
  rw [Function.update_idem]
  rfl

theorem deactivateTask_touches {σ : System R T} {r : R} {p : T} {sleep : Bool}
    (h : sleep = true ∨ (σ.task p).onRq ≠ .off) : Touches σ p (deactivateTask σ r p sleep) := by
  obtain ⟨d, a, hd⟩ := deactivateTask_eq σ r p sleep
  rw [hd]
  refine touches_of (sameRq_setRq (sameRq_runDelay _ d)) rfl rfl rfl rfl rfl rfl ?_ .inl
  intro hs ho _
  rcases h with rfl | h
  · exact ⟨hs, rfl⟩
  · exact absurd ho h

theorem moveQueuedTask_touches {σ : System R T} {src dst : R} {p : T}
    (h : (σ.task p).onRq = .queued) : Touches σ p (moveQueuedTask σ src dst p) := by
  obtain ⟨d, a, hd⟩ := deactivateTask_eq σ src p false
  have h1 : Touches σ p (deactivateTask σ src p false) :=
    deactivateTask_touches (.inr (by rw [h]; decide))
  have hq : ((deactivateTask σ src p false).task p).onRq = .migrating := by
    rw [hd, setTask_task, if_pos rfl]
    rfl
  apply h1.trans
  unfold moveQueuedTask
  generalize deactivateTask σ src p false = σ₁ at hq ⊢
  have h2 : Touches σ₁ p (σ₁.setTask p { σ₁.task p with cpu := dst }) :=
    touches_of (fun _ => SameRq.refl _) rfl rfl rfl rfl rfl rfl (fun h1 h2 _ => ⟨h1, h2⟩) .inl
  apply h2.trans
  apply activateTask_touches
  rw [setTask_task, if_pos rfl]
  intro _
  show (σ₁.task p).onRq ≠ .off
  rw [hq]
  decide

/-- Before `pick_next_task` the current task is dequeued or set to run. -/
theorem blockPrev_touches {σ : System R T} {r : R} {prev : T} (h : (σ.rq r).curr = prev)
    (preempt pending : Bool) : Touches σ prev (blockPrev σ r prev preempt pending) := by
  unfold blockPrev
  by_cases hb : (!preempt && (σ.task prev).state ≠ 0) = true
  · rw [if_pos hb]
    by_cases hs : signalPendingState (σ.task prev).state pending = true
    · rw [if_pos hs]
      refine touches_of (fun _ => SameRq.refl _) rfl rfl rfl rfl rfl rfl ?_ ?_
      · exact fun _ _ hc => absurd h (hc r)
      · exact fun hd => absurd hd taskRunning_ne_dead
    · rw [if_neg hs]
      exact deactivateTask_touches (.inl rfl)
  · rw [if_neg hb]
    exact touches_refl σ prev

/-- A task that is dead then is off its queue. -/
theorem blockPrev_dead {σ : System R T} {r : R} {prev : T} {preempt pending : Bool}
    (hp : preempt = true → (σ.task prev).state ≠ taskDead)
    (hd : ((blockPrev σ r prev preempt pending).task prev).state = taskDead) :
    ((blockPrev σ r prev preempt pending).task prev).onRq = .off := by
  obtain ⟨d, a, hda⟩ := deactivateTask_eq σ r prev true
  unfold blockPrev at hd ⊢
  dsimp only at hd ⊢
  by_cases hb : (!preempt && (σ.task prev).state ≠ 0) = true
  · rw [if_pos hb] at hd ⊢
    by_cases hs : signalPendingState (σ.task prev).state pending = true
    · rw [if_pos hs, setTask_task, if_pos rfl] at hd
      exact absurd hd taskRunning_ne_dead
    · rw [if_neg hs, hda, setTask_task, if_pos rfl]
      rfl
  · rw [if_neg hb] at hd
    have hpf : preempt = false := by
      cases preempt
      · rfl
      · exact absurd hd (hp rfl)
    rw [hd, hpf] at hb
    exact absurd rfl hb

theorem blockPrev_clock (σ : System R T) (r x : R) (prev : T) (preempt pending : Bool) :
    ((blockPrev σ r prev preempt pending).rq x).clock = (σ.rq x).clock := by
  obtain ⟨d, a, hda⟩ := deactivateTask_eq σ r prev true
  unfold blockPrev
  dsimp only
  split_ifs
  · rfl
  · rw [hda, setTask_rq, setRq_rq]
    by_cases hx : x = r
    · rw [if_pos hx, hx]
    · rw [if_neg hx]
  · rfl

/-! ### The context switch -/

/-- What a switch of `r` to `next` changes. -/
structure Switches (σ : System R T) (r : R) (next : T) (σ' : System R T) : Prop where
  curr : ∀ x, (σ'.rq x).curr = if x = r then next else (σ.rq x).curr
  phase : ∀ x, (σ'.rq x).phase = if x = r then .switched (σ.rq r).curr else (σ.rq x).phase
  idle : ∀ x, (σ'.rq x).idle = (σ.rq x).idle
  clock : ∀ x, (σ'.rq x).clock = (σ.rq x).clock
  rqCpuTime : ∀ x, (σ'.rq x).rqCpuTime =
    if x = r ∧ (σ.rq r).curr ≠ (σ.rq r).idle then (σ.rq x).rqCpuTime +
      ((σ.rq r).clock - (σ.task (σ.rq r).curr).schedInfo.lastArrival)
    else (σ.rq x).rqCpuTime
  tasks : σ'.tasks = σ.tasks
  printk : σ'.printk = σ.printk
  cpuBurst : ∀ t, (σ'.task t).cpuBurst =
    if t = (σ.rq r).curr ∧ (σ.rq r).curr ≠ (σ.rq r).idle then (σ.task t).cpuBurst +
      ((σ.rq r).clock - (σ.task t).schedInfo.lastArrival)
    else (σ.task t).cpuBurst
  lastArrival : ∀ t, (σ'.task t).schedInfo.lastArrival =
    if t = next ∧ next ≠ (σ.rq r).idle then (σ.rq r).clock else (σ.task t).schedInfo.lastArrival
  state : ∀ t, (σ'.task t).state = (σ.task t).state
  onRq : ∀ t, (σ'.task t).onRq = (σ.task t).onRq
  onCpu : ∀ t, (σ'.task t).onCpu = if t = next then true else (σ.task t).onCpu

@[simp]
theorem account_rq (σ : System R T) (r x : R) (t : T) (f : Rq T → Task R → Rq T × Task R) :
    (σ.account r t f).rq x = if x = r then (f (σ.rq r) (σ.task t)).1 else σ.rq x :=
  setRq_rq ..

@[simp]
theorem account_task (σ : System R T) (r : R) (t u : T) (f : Rq T → Task R → Rq T × Task R) :
    (σ.account r t f).task u = if u = t then (f (σ.rq r) (σ.task t)).2 else σ.task u :=
  setTask_task ..

/-- The first half of `__sched_info_switch`. -/
theorem depart_rq (σ : System R T) (r x : R) (prev : T) :
    (if prev ≠ (σ.rq r).idle then σ.account r prev schedInfoDepart else σ).rq x =
      { σ.rq x with rqCpuTime :=
        if x = r ∧ prev ≠ (σ.rq r).idle then (σ.rq x).rqCpuTime +
          ((σ.rq r).clock - (σ.task prev).schedInfo.lastArrival)
        else (σ.rq x).rqCpuTime } := by
  by_cases hp : prev = (σ.rq r).idle
  · rw [if_neg (not_not.mpr hp), if_neg fun h => h.2 hp]
  · rw [if_pos hp, account_rq]
    by_cases hx : x = r
    · rw [if_pos hx, if_pos ⟨hx, hp⟩, hx]
      rfl
    · rw [if_neg hx, if_neg fun h => hx h.1]

theorem depart_task (σ : System R T) (r : R) (prev t : T) :
    ∃ q, (if prev ≠ (σ.rq r).idle then σ.account r prev schedInfoDepart else σ).task t =
      { σ.task t with
        cpuBurst :=
          if t = prev ∧ prev ≠ (σ.rq r).idle then (σ.task t).cpuBurst +
            ((σ.rq r).clock - (σ.task t).schedInfo.lastArrival)
          else (σ.task t).cpuBurst
        schedInfo := { (σ.task t).schedInfo with lastQueued := q } } := by
  by_cases hp : prev = (σ.rq r).idle
  · refine ⟨(σ.task t).schedInfo.lastQueued, ?_⟩
    rw [if_neg (not_not.mpr hp), if_neg fun h => h.2 hp]
  · rw [if_pos hp, account_task]
    by_cases ht : t = prev
    · obtain ⟨q, hq⟩ := schedInfoDepart_eq (σ.rq r) (σ.task t)
      refine ⟨q, ?_⟩
      rw [if_pos ht, if_pos ⟨ht, hp⟩, ← ht, hq]
    · refine ⟨(σ.task t).schedInfo.lastQueued, ?_⟩
      rw [if_neg ht, if_neg fun h => ht h.1]

/-- The second half. -/
theorem arrive_rq (σ : System R T) (r x : R) (next : T) :
    ∃ d n, (if next ≠ (σ.rq r).idle then σ.account r next schedInfoArrive else σ).rq x =
      { σ.rq x with runDelay := d, pcount := n } := by
  by_cases hn : next = (σ.rq r).idle
  · refine ⟨(σ.rq x).runDelay, (σ.rq x).pcount, ?_⟩
    rw [if_neg (not_not.mpr hn)]
  · rw [if_pos hn, account_rq]
    by_cases hx : x = r
    · rw [if_pos hx, hx]
      exact ⟨_, _, rfl⟩
    · rw [if_neg hx]
      exact ⟨_, _, rfl⟩

theorem arrive_task (σ : System R T) (r : R) (next t : T) :
    ∃ i, (if next ≠ (σ.rq r).idle then σ.account r next schedInfoArrive else σ).task t =
        { σ.task t with schedInfo := i } ∧
      i.lastArrival = if t = next ∧ next ≠ (σ.rq r).idle then (σ.rq r).clock
        else (σ.task t).schedInfo.lastArrival := by
  by_cases hn : next = (σ.rq r).idle
  · refine ⟨(σ.task t).schedInfo, ?_, ?_⟩
    · rw [if_neg (not_not.mpr hn)]
    · rw [if_neg fun h => h.2 hn]
  · rw [if_pos hn, account_task]
    by_cases ht : t = next
    · rw [if_pos ht, if_pos ⟨ht, hn⟩, ht]
      exact ⟨_, rfl, rfl⟩
    · rw [if_neg ht, if_neg fun h => ht h.1]
      exact ⟨_, rfl, rfl⟩

/-- `__sched_info_switch` on a runqueue and a task. -/
theorem schedInfoSwitch_rq (σ : System R T) (r x : R) (prev next : T) :
    ∃ d n, (schedInfoSwitch σ r prev next).rq x =
      { σ.rq x with
        rqCpuTime :=
          if x = r ∧ prev ≠ (σ.rq r).idle then (σ.rq x).rqCpuTime +
            ((σ.rq r).clock - (σ.task prev).schedInfo.lastArrival)
          else (σ.rq x).rqCpuTime
        runDelay := d
        pcount := n } := by
  obtain ⟨d, n, h⟩ := arrive_rq
    (if prev ≠ (σ.rq r).idle then σ.account r prev schedInfoDepart else σ) r x next
  refine ⟨d, n, ?_⟩
  unfold schedInfoSwitch
  dsimp only
  rw [h, depart_rq]

theorem schedInfoSwitch_task (σ : System R T) (r : R) (prev next t : T) :
    ∃ i, (schedInfoSwitch σ r prev next).task t =
        { σ.task t with
          cpuBurst :=
            if t = prev ∧ prev ≠ (σ.rq r).idle then (σ.task t).cpuBurst +
              ((σ.rq r).clock - (σ.task t).schedInfo.lastArrival)
            else (σ.task t).cpuBurst
          schedInfo := i } ∧
      i.lastArrival = if t = next ∧ next ≠ (σ.rq r).idle then (σ.rq r).clock
        else (σ.task t).schedInfo.lastArrival := by
  obtain ⟨q, hq⟩ := depart_task σ r prev t
  obtain ⟨i, hi, hl⟩ := arrive_task
    (if prev ≠ (σ.rq r).idle then σ.account r prev schedInfoDepart else σ) r next t
  refine ⟨i, ?_, ?_⟩
  · unfold schedInfoSwitch
    dsimp only
    rw [hi, hq]
  · rw [hl, depart_rq, hq]

theorem schedInfoSwitch_tasks (σ : System R T) (r : R) (prev next : T) :
    (schedInfoSwitch σ r prev next).tasks = σ.tasks := by
  unfold schedInfoSwitch
  dsimp only
  split_ifs <;> rfl

theorem schedInfoSwitch_printk (σ : System R T) (r : R) (prev next : T) :
    (schedInfoSwitch σ r prev next).printk = σ.printk := by
  unfold schedInfoSwitch
  dsimp only
  split_ifs <;> rfl

theorem contextSwitch_rq (σ : System R T) (r x : R) (next : T) :
    ∃ d n, (contextSwitch (σ.setRq r { σ.rq r with curr := next }) r (σ.rq r).curr next).rq x =
      { σ.rq x with
        curr := if x = r then next else (σ.rq x).curr
        phase := if x = r then .switched (σ.rq r).curr else (σ.rq x).phase
        rqCpuTime :=
          if x = r ∧ (σ.rq r).curr ≠ (σ.rq r).idle then (σ.rq x).rqCpuTime +
            ((σ.rq r).clock - (σ.task (σ.rq r).curr).schedInfo.lastArrival)
          else (σ.rq x).rqCpuTime
        runDelay := d
        pcount := n } := by
  obtain ⟨d, n, h⟩ := schedInfoSwitch_rq (σ.setRq r { σ.rq r with curr := next }) r x
    (σ.rq r).curr next
  refine ⟨d, n, ?_⟩
  unfold contextSwitch prepareTaskSwitch
  dsimp only
  rw [setRq_rq, setTask_rq]
  by_cases hx : x = r
  · subst hx
    rw [if_pos rfl, h]
    simp only [setRq_rq, if_true, setRq_task]
  · rw [if_neg hx, h]
    simp only [setRq_rq, if_neg hx, if_true, setRq_task]

theorem contextSwitch_task (σ : System R T) (r : R) (next t : T) :
    ∃ i, (contextSwitch (σ.setRq r { σ.rq r with curr := next }) r (σ.rq r).curr next).task t =
        { σ.task t with
          onCpu := if t = next then true else (σ.task t).onCpu
          cpuBurst :=
            if t = (σ.rq r).curr ∧ (σ.rq r).curr ≠ (σ.rq r).idle then (σ.task t).cpuBurst +
              ((σ.rq r).clock - (σ.task t).schedInfo.lastArrival)
            else (σ.task t).cpuBurst
          schedInfo := i } ∧
      i.lastArrival = if t = next ∧ next ≠ (σ.rq r).idle then (σ.rq r).clock
        else (σ.task t).schedInfo.lastArrival := by
  obtain ⟨i, h, hl⟩ := schedInfoSwitch_task (σ.setRq r { σ.rq r with curr := next }) r
    (σ.rq r).curr next t
  simp only [setRq_rq, if_true, setRq_task] at h hl
  refine ⟨i, ?_, hl⟩
  unfold contextSwitch prepareTaskSwitch
  dsimp only
  rw [setRq_task, setTask_task]
  by_cases ht : t = next
  · subst ht
    rw [if_pos rfl, if_pos rfl, h]
  · rw [if_neg ht, if_neg ht, h]

theorem contextSwitch_switches (σ : System R T) (r : R) (next : T) :
    Switches σ r next
      (contextSwitch (σ.setRq r { σ.rq r with curr := next }) r (σ.rq r).curr next) := by
  have hrq := fun x => contextSwitch_rq σ r x next
  have htask := contextSwitch_task σ r next
  constructor
  case tasks => exact schedInfoSwitch_tasks ..
  case printk => exact schedInfoSwitch_printk ..
  all_goals intro x
  case lastArrival =>
    obtain ⟨i, h, hl⟩ := htask x
    rw [h]
    exact hl
  case cpuBurst | state | onRq | onCpu =>
    obtain ⟨i, h, -⟩ := htask x
    rw [h]
  all_goals
    obtain ⟨d, n, h⟩ := hrq x
    rw [h]

/-! ### The end of a switch -/

theorem finishTask_rq (σ : System R T) (r x : R) (prev : T) :
    (finishTask σ r prev).rq x =
      { σ.rq x with phase :=
        if x = r then .dropped prev (σ.task prev).state else (σ.rq x).phase } :=
  setPhase_rq ..

theorem finishTask_task (σ : System R T) (r : R) (prev t : T) :
    (finishTask σ r prev).task t =
      { σ.task t with onCpu := if t = prev then false else (σ.task t).onCpu } := by
  unfold finishTask
  rw [setTask_task]
  by_cases ht : t = prev
  · rw [if_pos ht, if_pos ht, ht]
  · rw [if_neg ht, if_neg ht]
    rfl

end Sched
end LinuxProg
