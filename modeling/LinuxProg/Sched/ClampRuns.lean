/-
# Clamps of the runqueues over runs

In all runs the tables count the tasks (`counts_of_reach`). The value of a
runqueue for `UCLAMP_MIN` is that of the topmost bucket with a task, unless
`uclamp_update_active` has been applied to `UCLAMP_MAX` of the only task of the
runqueue (`Alone`): then `UCLAMP_FLAG_IDLE` is left set while a task is queued,
and the next task overwrites both values (`value_of_reach`). The value for
`UCLAMP_MAX` starts with 1024 and is exact once the runqueue has become idle
(`max_of_idle`).
-/
import Mathlib
import LinuxProg.Sched.ClampQueues

namespace LinuxProg
namespace Sched
namespace ClampQueues

open Transition Buckets Clamps

variable {R T : Type*} [DecidableEq R] [DecidableEq T] [Fintype T] {buckets : ℕ}
variable {s s' : State R T} {p q : T} {id : ClampId} {r : R}

/-! ### The steps keep the counts -/

omit [DecidableEq R] [Fintype T] in
theorem State.setTask_active (s : State R T) (p q : T) (t : Task R) (id : ClampId) :
    (s.setTask p t).active id q = if q = p then (t.uclamp id).active else s.active id q := by
  unfold State.active State.setTask
  by_cases hq : q = p <;> simp [hq]

theorem Counted.setTask {t : Task R} (h : Counted buckets s)
    (hactive : ∀ id, (t.uclamp id).active = s.active id p)
    (ht : ∀ id, s.active id p = true →
      t.cpu = (s.task p).cpu ∧ t.uclamp id = (s.task p).uclamp id) :
    Counted buckets (s.setTask p t) := by
  refine h.congr rfl (fun q id => ?_) (fun q id hq => ?_) rfl
  · rw [State.setTask_active]
    split
    · rename_i hqp
      rw [hqp, hactive]
    · rfl
  · by_cases hqp : q = p
    · subst hqp
      simpa [State.setTask] using ht id hq
    · simp [State.setTask, hqp]

/-- A task that is not counted may change. -/
theorem Proper.setTask {t : Task R} (h : Proper buckets s) (hp : ∀ id, s.active id p = false)
    (ht : ∀ id, (t.uclamp id).active = false) : Proper buckets (s.setTask p t) where
  toCounted := h.toCounted.setTask (fun id => (ht id).trans (hp id).symm)
    fun id hid => absurd ((hp id).symm.trans hid) (by simp)
  queued q id hq := by
    rw [State.setTask_active] at hq
    split at hq
    · exact absurd ((ht id).symm.trans hq) (by simp)
    · rename_i hqp
      have hqueued := h.queued q id hq
      simpa [State.setTask, hqp] using hqueued
  both q id id' := by
    rw [State.setTask_active, State.setTask_active, ht, ht, h.both q id id']

omit [DecidableEq T] in
theorem Proper.inactive (h : Proper buckets s) (hp : ¬ (s.task p).queued = true) (id : ClampId) :
    s.active id p = false := by
  cases hid : s.active id p with
  | false => rfl
  | true => exact absurd (h.queued p id hid).1 hp

theorem Proper.enqueue (h : Proper buckets s) (hp : ¬ (s.task p).queued = true)
    (src : ClampId → Sources buckets) :
    Proper buckets ((uclampRqInc s p src).setTask p
      { (uclampRqInc s p src).task p with queued := true }) := by
  have hout := h.inactive hp
  by_cases hskip : s.used = true ∧ (s.task p).uclampEnabled = true
  · have hmax : (rqIncId s p (uclampEffGet (src .min)) .min).active .max p = false := by
      rw [rqIncId_active, if_neg (by simp), hout]
    have hboth : Counted buckets (incBoth s p src) :=
      (h.toCounted.rqIncId (hout .min) (uclampEffGet_bucket _)).rqIncId hmax
        (uclampEffGet_bucket _)
    rw [uclampRqInc_eq hskip.1 hskip.2]
    have hinc : Counted buckets ((incBoth s p src).setRq (s.task p).cpu
        { (incBoth s p src).rq (s.task p).cpu with idle := false }) :=
      hboth.congr (funext fun r' => funext fun id => State.setRq_idle_table _ _ _) (fun _ _ => rfl)
        (fun _ _ _ => ⟨rfl, rfl⟩) rfl
    have hsame := sameTasks_incBoth s p src
    refine ⟨hinc.setTask (fun _ => rfl) fun _ _ => ⟨rfl, rfl⟩, fun q id hq => ?_,
      fun q id id' => ?_⟩
    · by_cases hqp : q = p
      · subst hqp
        refine ⟨by simp [State.setTask], hsame.used.trans hskip.1, ?_⟩
        simpa [State.setTask, State.setRq, hsame.uclampEnabled] using hskip.2
      · rw [State.setTask_active, if_neg hqp] at hq
        have hqs : s.active id q = true := by
          rw [← hq]
          exact (incBoth_active.trans (if_neg hqp)).symm
        have hqueued := h.queued q id hqs
        simpa [State.setTask, State.setRq, hqp, hsame.queued, hsame.uclampEnabled, hsame.used]
          using hqueued
    · by_cases hqp : q = p
      · rw [State.setTask_active, State.setTask_active, if_pos hqp, if_pos hqp]
        exact (incBoth_active.trans (if_pos rfl)).trans (incBoth_active.trans (if_pos rfl)).symm
      · rw [State.setTask_active, State.setTask_active, if_neg hqp, if_neg hqp]
        refine (incBoth_active.trans (if_neg hqp)).trans ?_
        exact (h.both q id id').trans (incBoth_active.trans (if_neg hqp)).symm
  · rw [uclampRqInc_of_skip hskip]
    exact h.setTask hout hout

/-- After the tables have been left the task is not counted. -/
theorem Proper.uclampRqDec (h : Proper buckets s) (p : T) :
    Proper buckets (uclampRqDec buckets s p) ∧
      ∀ id, (ClampQueues.uclampRqDec buckets s p).active id p = false := by
  cases hp : s.active .min p with
  | false =>
    have hall : ∀ id, s.active id p = false := fun id => (h.both p id .min).trans hp
    rw [uclampRqDec_of_inactive hall]
    exact ⟨h, hall⟩
  | true =>
    have h₁ := h.toCounted.rqDecId p .min
    have hmax : (rqDecId buckets s p .min).active .max p = true := by
      rw [h.rqDecId_active hp, if_neg (by simp), h.both p .max .min, hp]
    have hsame := (sameTasks_rqDecId buckets s p .min).trans
      (sameTasks_rqDecId buckets _ p .max)
    rw [h.uclampRqDec_eq hp]
    have hactive : ∀ q id, (rqDecId buckets (rqDecId buckets s p .min) p .max).active id q =
        if q = p then false else s.active id q := fun q id => by
      rw [h₁.rqDecId_active hmax, h.rqDecId_active hp]
      cases id <;> by_cases hq : q = p <;> simp [hq]
    refine ⟨⟨h₁.rqDecId p .max, fun q id hq => ?_, fun q id id' => ?_⟩, fun id => ?_⟩
    · rw [hactive] at hq
      split at hq
      · cases hq
      · rw [hsame.queued, hsame.used, hsame.uclampEnabled]
        exact h.queued q id hq
    · rw [hactive, hactive, h.both q id id']
    · rw [hactive, if_pos rfl]

theorem Proper.uclampUpdateActive (h : Proper buckets s) (p : T) (id : ClampId)
    (src : Sources buckets) : Proper buckets (uclampUpdateActive s p id src) := by
  unfold ClampQueues.uclampUpdateActive
  split
  · rename_i hp
    have hout : (rqDecId buckets s p id).active id p = false := by
      rw [h.rqDecId_active hp, if_pos ⟨rfl, rfl⟩]
    have hactive : ∀ q id', (rqIncId (rqDecId buckets s p id) p (uclampEffGet src) id).active id' q =
        s.active id' q := fun q id' => by
      rw [rqIncId_active, h.rqDecId_active hp]
      split
      · rename_i hq
        rw [hq.1, hq.2, hp]
      · rfl
    have hsame := (sameTasks_rqDecId buckets s p id).trans
      (sameTasks_rqIncId _ p id (uclampEffGet src))
    refine ⟨(h.toCounted.rqDecId p id).rqIncId hout (uclampEffGet_bucket src), fun q id' hq => ?_,
      fun q i j => ?_⟩
    · rw [hactive] at hq
      rw [hsame.queued, hsame.used, hsame.uclampEnabled]
      exact h.queued q id' hq
    · rw [hactive, hactive, h.both q i j]
  · exact h

omit [DecidableEq T] in
theorem proper_start (hbuckets : 0 < buckets) (task : T → Task R) :
    Proper buckets (start task) where
  bucket _ _ hp := absurd hp (by simp [State.active, start])
  tracks r id := by
    have hempty : (start task).members r id = ∅ :=
      Finset.eq_empty_of_forall_notMem fun q hq =>
        absurd ((State.mem_members _ _ _ _).mp hq).2 (by simp [State.active, start])
    rw [hempty]
    exact .empty (uclampBucketId_lt hbuckets) fun i => rfl
  warn _ := List.not_mem_nil
  queued _ _ hp := absurd hp (by simp [State.active, start])
  both _ _ _ := rfl

theorem Proper.next {a : Act buckets R T} (h : Proper buckets s) (hstep : Step buckets s a s') :
    Proper buckets s' := by
  cases a with
  | enqueueTask p src =>
    obtain ⟨hp, hs⟩ := Option.ite_none_left_eq_some.mp hstep
    exact Option.some.inj hs ▸ h.enqueue hp src
  | dequeueTask p =>
    obtain ⟨hp, hs⟩ := Option.ite_none_right_eq_some.mp hstep
    obtain ⟨h', hout⟩ := h.uclampRqDec p
    exact Option.some.inj hs ▸ h'.setTask hout hout
  | updateActive p id src => exact Option.some.inj hstep ▸ h.uclampUpdateActive p id src
  | enable =>
    refine Option.some.inj hstep ▸ ⟨⟨h.bucket, h.tracks, h.warn⟩, fun q id hq => ?_, h.both⟩
    exact ⟨(h.queued q id hq).1, rfl, (h.queued q id hq).2.2⟩
  | setClass p uclampEnabled =>
    obtain ⟨hp, hs⟩ := Option.ite_none_left_eq_some.mp hstep
    exact Option.some.inj hs ▸ h.setTask (h.inactive hp) (h.inactive hp)
  | setTaskCpu p cpu =>
    obtain ⟨hp, hs⟩ := Option.ite_none_left_eq_some.mp hstep
    exact Option.some.inj hs ▸ h.setTask (h.inactive hp) (h.inactive hp)
  | uclampFork p parent =>
    obtain ⟨hp, hs⟩ := Option.ite_none_left_eq_some.mp hstep
    exact Option.some.inj hs ▸ h.setTask (h.inactive hp) fun _ => rfl

/-! ### What a step does to one runqueue -/

theorem members_setTask {t : Task R} (hactive : ∀ id, (t.uclamp id).active = s.active id p)
    (hcpu : ∀ id, s.active id p = true → t.cpu = (s.task p).cpu) (r : R) (id : ClampId) :
    (s.setTask p t).members r id = s.members r id := by
  ext q
  rw [State.mem_members, State.mem_members, State.setTask_active]
  by_cases hq : q = p
  · subst hq
    rw [if_pos rfl, hactive]
    exact and_congr_left fun hid => by simp [State.setTask, hcpu id hid]
  · simp [State.setTask, hq]

theorem stays_setTask {t : Task R} (hactive : ∀ id, (t.uclamp id).active = s.active id p)
    (hcpu : ∀ id, s.active id p = true → t.cpu = (s.task p).cpu) (r : R) :
    Stays s (s.setTask p t) r :=
  ⟨fun _ => rfl, fun id => members_setTask hactive hcpu r id, rfl, fun _ hw => hw⟩

/-- A task that is not counted may change. -/
theorem stays_of_inactive {t : Task R} (hp : ∀ id, s.active id p = false)
    (ht : ∀ id, (t.uclamp id).active = false) (r : R) : Stays s (s.setTask p t) r :=
  stays_setTask (fun id => (ht id).trans (hp id).symm)
    (fun id hid => absurd ((hp id).symm.trans hid) (by simp)) r

/-- `enqueue_task` counts the task at its own runqueue or not at all. -/
theorem Proper.enqueue_effect (h : Proper buckets s) (hp : (s.task p).queued ≠ true)
    (src : ClampId → Sources buckets) (r : R) :
    Stays s ((uclampRqInc s p src).setTask p { (uclampRqInc s p src).task p with queued := true }) r ∨
      ∃ v, Enters buckets s ((uclampRqInc s p src).setTask p
        { (uclampRqInc s p src).task p with queued := true }) r p v := by
  have hlast := stays_setTask (s := uclampRqInc s p src) (p := p)
    (t := { (uclampRqInc s p src).task p with queued := true }) (fun _ => rfl) fun _ _ => rfl
  by_cases hskip : s.used = true ∧ (s.task p).uclampEnabled = true
  · by_cases hr : r = (s.task p).cpu
    · subst hr
      have henters := uclampRqInc_enters src (h.inactive hp) hskip.1 hskip.2
      refine .inr ⟨_, henters.notMem, henters.table, fun id => ?_, fun id q => ?_,
        henters.idle, henters.warnings⟩
      · exact ((hlast _).members id).trans (henters.members id)
      · rw [← henters.value id q]
        unfold State.value State.setTask
        by_cases hq : q = p <;> simp [hq]
    · exact .inl ((uclampRqInc_stays src hskip.1 hskip.2 hr).trans (hlast r))
  · rw [uclampRqInc_of_skip hskip]
    left
    apply stays_of_inactive (h.inactive hp)
    exact h.inactive hp

/-- `dequeue_task` takes the task out where it was counted. -/
theorem Proper.dequeue_effect (h : Proper buckets s) (p : T) (r : R) :
    Stays s ((ClampQueues.uclampRqDec buckets s p).setTask p
        { (ClampQueues.uclampRqDec buckets s p).task p with queued := false }) r ∨
      Leaves buckets s ((ClampQueues.uclampRqDec buckets s p).setTask p
        { (ClampQueues.uclampRqDec buckets s p).task p with queued := false }) r p := by
  have hlast := stays_setTask (s := ClampQueues.uclampRqDec buckets s p) (p := p)
    (t := { (ClampQueues.uclampRqDec buckets s p).task p with queued := false })
    (fun _ => rfl) fun _ _ => rfl
  by_cases hr : r = (s.task p).cpu
  · subst hr
    cases hactive : s.active .min p with
    | false =>
      have hout : ∀ id, s.active id p = false := fun id => (h.both p id .min).trans hactive
      rw [uclampRqDec_of_inactive hout]
      left
      apply stays_of_inactive hout
      exact hout
    | true =>
      have hleaves := h.uclampRqDec_leaves fun id => (h.both p id .min).trans hactive
      exact .inr ⟨hleaves.mem, hleaves.table, fun id => ((hlast _).members id).trans
        (hleaves.members id), hleaves.idle, hleaves.warnings⟩
  · exact .inl ((h.uclampRqDec_stays hr).trans (hlast r))

/-- `uclamp_update_active` gives a counted task its new clamp at its own runqueue. -/
theorem Proper.updateActive_effect (h : Proper buckets s) (p : T) (id : ClampId)
    (src : Sources buckets) (r : R) : Stays s (ClampQueues.uclampUpdateActive s p id src) r ∨
      Updates buckets s (ClampQueues.uclampUpdateActive s p id src) r p id
        (uclampEffGet src).value := by
  by_cases hp : s.active id p = true
  · by_cases hr : r = (s.task p).cpu
    · subst hr
      exact .inr (h.updates hp src)
    · unfold ClampQueues.uclampUpdateActive
      rw [if_pos hp]
      refine .inl ((h.rqDecId_stays hp hr).trans ?_)
      rw [← (sameTasks_rqDecId buckets s p id).cpu] at hr
      refine ⟨fun id' => ?_, fun id' => ?_, rqIncId_idle _ _ _ _ _, fun w hw => hw⟩
      · rw [rqIncId_table, if_neg fun h => hr h.1]
      · rw [rqIncId_members, if_neg fun h => hr h.1]
  · unfold ClampQueues.uclampUpdateActive
    rw [if_neg hp]
    exact .inl ⟨fun _ => rfl, fun _ => rfl, rfl, fun _ hw => hw⟩

theorem step_cases {a : Act buckets R T} (h : Proper buckets s) (hstep : Step buckets s a s')
    (r : R) : Stays s s' r ∨ (∃ p v, Enters buckets s s' r p v) ∨ (∃ p, Leaves buckets s s' r p) ∨
      ∃ p id src, a = .updateActive p id src ∧
        Updates buckets s s' r p id (uclampEffGet src).value := by
  cases a with
  | enqueueTask p src =>
    obtain ⟨hp, hs⟩ := Option.ite_none_left_eq_some.mp hstep
    obtain rfl := Option.some.inj hs
    rcases h.enqueue_effect hp src r with hstays | ⟨v, henters⟩
    · exact .inl hstays
    · exact .inr (.inl ⟨p, v, henters⟩)
  | dequeueTask p =>
    obtain ⟨hp, hs⟩ := Option.ite_none_right_eq_some.mp hstep
    obtain rfl := Option.some.inj hs
    rcases h.dequeue_effect p r with hstays | hleaves
    · exact .inl hstays
    · exact .inr (.inr (.inl ⟨p, hleaves⟩))
  | updateActive p id src =>
    obtain rfl := Option.some.inj hstep
    rcases h.updateActive_effect p id src r with hstays | hupdates
    · exact .inl hstays
    · exact .inr (.inr (.inr ⟨p, id, src, rfl, hupdates⟩))
  | enable =>
    obtain rfl := Option.some.inj hstep
    exact .inl ⟨fun _ => rfl, fun _ => rfl, rfl, fun _ hw => hw⟩
  | setClass p uclampEnabled =>
    obtain ⟨hp, hs⟩ := Option.ite_none_left_eq_some.mp hstep
    obtain rfl := Option.some.inj hs
    left
    apply stays_of_inactive (h.inactive hp)
    exact h.inactive hp
  | setTaskCpu p cpu =>
    obtain ⟨hp, hs⟩ := Option.ite_none_left_eq_some.mp hstep
    obtain rfl := Option.some.inj hs
    left
    apply stays_of_inactive (h.inactive hp)
    exact h.inactive hp
  | uclampFork p parent =>
    obtain ⟨hp, hs⟩ := Option.ite_none_left_eq_some.mp hstep
    exact .inl (Option.some.inj hs ▸ stays_of_inactive (h.inactive hp) (fun _ => rfl) r)

/-! ### The values of a runqueue -/

/-- `UCLAMP_MAX` of the only task of a runqueue is updated. -/
def Alone (r : R) (s : State R T) (a : Act buckets R T) : Prop :=
  ∃ p src, a = .updateActive p .max src ∧ (s.task p).cpu = r ∧ s.members r .max = {p}

/-- The values of a runqueue bound those of its tasks, and the value for
`UCLAMP_MIN` is that of the topmost bucket. -/
structure Sound (buckets : ℕ) (r : R) (s : State R T) : Prop where
  idle : (s.rq r).idle = true → ∀ id, s.members r id = ∅
  bounds : ∀ id, Bounds (s.table r id)
  exact : Exact buckets (s.table r .min)
  rest : s.members r .min = ∅ → (s.table r .min).value = 0
  warn : (r, .aboveRq) ∉ s.warnings

/-- The value for `UCLAMP_MAX` is that of the topmost bucket too, and without
tasks the flag is set. -/
structure Fresh (buckets : ℕ) (r : R) (s : State R T) : Prop where
  exact : Exact buckets (s.table r .max)
  rest : s.members r .max = ∅ → (s.rq r).idle = true

omit [DecidableEq T] in
theorem Proper.members_eq (h : Proper buckets s) (r : R) (id id' : ClampId) :
    s.members r id = s.members r id' := by
  ext q
  rw [State.mem_members, State.mem_members, h.both q id id']

omit [DecidableEq T] in
theorem Counted.bounds_of_empty (h : Counted buckets s) {t : UclampRq}
    (ht : t.bucket = (s.table r id).bucket) (hempty : s.members r id = ∅) : Bounds t := by
  intro i hi
  rw [ht] at hi
  obtain ⟨q, hq, -⟩ := (h.tracks r id).exists_mem hi
  exact absurd (hempty ▸ hq) (Finset.notMem_empty q)

omit [DecidableEq T] in
theorem Counted.exact_of_empty (h : Counted buckets s) {t : UclampRq}
    (ht : t.bucket = (s.table r id).bucket) (hempty : s.members r id = ∅) : Exact buckets t := by
  intro v hv
  rw [ht, (h.tracks r id).top_eq_none_iff.mpr hempty] at hv
  cases hv

omit [DecidableEq T] in
theorem Sound.of_stays (h : Sound buckets r s) (hst : Stays s s' r) : Sound buckets r s' where
  idle hidle id := (hst.members id).trans (h.idle (hst.idle ▸ hidle) id)
  bounds id := by
    rw [hst.table]
    exact h.bounds id
  exact := by
    rw [hst.table]
    exact h.exact
  rest hempty := by
    rw [hst.table]
    exact h.rest ((hst.members .min).symm.trans hempty)
  warn hw := h.warn (hst.warnings _ hw)

omit [DecidableEq T] in
theorem Fresh.of_stays (h : Fresh buckets r s) (hst : Stays s s' r) : Fresh buckets r s' where
  exact := by
    rw [hst.table]
    exact h.exact
  rest hempty := hst.idle.trans (h.rest ((hst.members .max).symm.trans hempty))

section

variable {v : ClampId → ℕ}

omit [DecidableEq T] in
theorem Sound.bounds_reset (h : Sound buckets r s) (hs : Proper buckets s) (id : ClampId) (w : ℕ) :
    Bounds ((s.rq r).reset id w) := by
  by_cases hidle : (s.rq r).idle = true
  · exact hs.bounds_of_empty ((s.rq r).reset_bucket id w) (h.idle hidle id)
  · unfold Rq.reset
    rw [if_neg hidle]
    exact h.bounds id

omit [DecidableEq T] in
theorem Sound.exact_reset (h : Sound buckets r s) (hs : Proper buckets s)
    (he : Exact buckets (s.table r id)) (w : ℕ) : Exact buckets ((s.rq r).reset id w) := by
  by_cases hidle : (s.rq r).idle = true
  · exact hs.exact_of_empty ((s.rq r).reset_bucket id w) (h.idle hidle id)
  · unfold Rq.reset
    rw [if_neg hidle]
    exact he

theorem Enters.exact (he : Enters buckets s s' r p v) (hs : Proper buckets s)
    (hreset : Exact buckets ((s.rq r).reset id (v id)))
    (hfirst : s.members r id = ∅ → ((s.rq r).reset id (v id)).value ≤ v id) :
    Exact buckets (s'.table r id) := by
  have htracks := (hs.tracks r id).congr ((s.rq r).reset_bucket id (v id)) fun _ _ => rfl
  have hval : s'.value id p = v id := (he.value id p).trans (if_pos rfl)
  have hinsert := hreset.insert (s'.value id) htracks
    (fun _ _ hle => uclampBucketId_mono hle) (he.notMem id)
    (fun q hq => (he.value id q).trans (if_neg fun heq : q = p => he.notMem id (heq ▸ hq)))
  rw [hval] at hinsert
  rw [he.table]
  exact hinsert hfirst

theorem Sound.of_enters (h : Sound buckets r s) (hs : Proper buckets s)
    (he : Enters buckets s s' r p v) : Sound buckets r s' where
  idle hidle := absurd (he.idle.symm.trans hidle) (by simp)
  bounds id := by
    rw [he.table]
    exact (h.bounds_reset hs id _).insert _ _
  exact := by
    refine he.exact hs (h.exact_reset hs h.exact _) fun hempty => ?_
    by_cases hidle : (s.rq r).idle = true
    · simp [Rq.reset, hidle]
    · have hzero := h.rest hempty
      simp only [Rq.reset, hidle]
      exact hzero.trans_le (Nat.zero_le _)
  rest hempty := by
    rw [he.members] at hempty
    exact absurd hempty (Finset.insert_ne_empty p _)
  warn := by
    rw [he.warnings]
    exact h.warn

theorem Fresh.of_enters (h : Fresh buckets r s) (hsound : Sound buckets r s)
    (hs : Proper buckets s) (he : Enters buckets s s' r p v) : Fresh buckets r s' where
  exact := by
    refine he.exact hs (hsound.exact_reset hs h.exact _) fun hempty => ?_
    simp [Rq.reset, h.rest hempty]
  rest hempty := by
    rw [he.members] at hempty
    exact absurd hempty (Finset.insert_ne_empty p _)

theorem Proper.tracks_without (hs : Proper buckets s) (hp : p ∈ s.members r id) :
    Tracks (uclampBucketId buckets) buckets (s.without buckets r p id)
      ((s.members r id).erase p) (s.value id) :=
  (hs.tracks r id).remove _ hp

omit [Fintype T] in
/-- What is left of one member. -/
theorem eq_singleton_of_erase {A : Finset T} (hp : p ∈ A) (h : A.erase p = ∅) : A = {p} := by
  rcases Finset.erase_eq_empty_iff _ _ |>.mp h with hA | hA
  · exact absurd (hA ▸ hp) (Finset.notMem_empty p)
  · exact hA

/-- The last task leaves the value that `uclamp_idle_value` gives. -/
theorem Proper.value_without (hs : Proper buckets s) (hp : p ∈ s.members r id)
    (he : Exact buckets (s.table r id)) (h : (s.members r id).erase p = ∅) :
    (s.without buckets r p id).value = restValue id (s.value id p) := by
  have htracks := hs.tracks r id
  rw [eq_singleton_of_erase hp h] at htracks
  exact he.value_remove htracks

theorem Proper.exact_without (hs : Proper buckets s) (hp : p ∈ s.members r id)
    (he : Exact buckets (s.table r id)) : Exact buckets (s.without buckets r p id) :=
  he.remove (hs.tracks r id) (fun _ _ hle => uclampBucketId_mono hle) (hs.tracks_without hp)
    (Finset.ne_empty_of_mem hp)

theorem Proper.bounds_without (hs : Proper buckets s) (hp : p ∈ s.members r id)
    (hb : Bounds (s.table r id)) : Bounds (s.without buckets r p id) :=
  hb.remove (hs.tracks_without hp) fun _ _ hle => uclampBucketId_mono hle

omit [DecidableEq T] in
theorem Sound.idle_eq (h : Sound buckets r s) (hp : p ∈ s.members r id) :
    (s.rq r).idle = false := by
  cases hidle : (s.rq r).idle with
  | false => rfl
  | true => exact absurd (h.idle hidle id ▸ hp) (Finset.notMem_empty p)

/-- The flag is set by the last task. -/
theorem Proper.eq_of_idles (hs : Proper buckets s) (hp : p ∈ s.members r .max)
    (hi : (s.rq r).Idles buckets id (uclampBucketId buckets (s.value id p))) :
    id = .max ∧ s.members r .max = {p} := by
  obtain ⟨rfl, -, -, htop⟩ := hi
  exact ⟨rfl, eq_singleton_of_erase hp ((hs.tracks_without hp).top_eq_none_iff.mp htop)⟩

theorem Sound.of_leaves (h : Sound buckets r s) (hs : Proper buckets s) (hs' : Proper buckets s')
    (hl : Leaves buckets s s' r p) : Sound buckets r s' where
  idle hidle id := by
    rw [hl.idle, h.idle_eq (hl.mem .max), Bool.false_or, decide_eq_true_eq] at hidle
    rw [hs'.members_eq r id .max, hl.members, (hs.eq_of_idles (hl.mem .max) hidle).2,
      Finset.erase_singleton]
  bounds id := by
    rw [hl.table]
    exact hs.bounds_without (hl.mem id) (h.bounds id)
  exact := by
    rw [hl.table]
    exact hs.exact_without (hl.mem .min) h.exact
  rest hempty := by
    rw [hl.members] at hempty
    rw [hl.table]
    exact hs.value_without (hl.mem .min) h.exact hempty
  warn hw := by
    rcases hl.warnings _ hw with hw | ⟨-, id, hlt⟩
    · exact h.warn hw
    · exact absurd (h.bounds id _ ((hs.tracks r id).tasks_ne_zero (hl.mem id))) (not_le.mpr hlt)

theorem Fresh.of_leaves (h : Fresh buckets r s) (hs : Proper buckets s)
    (hl : Leaves buckets s s' r p) : Fresh buckets r s' where
  exact := by
    rw [hl.table]
    exact hs.exact_without (hl.mem .max) h.exact
  rest hempty := by
    rw [hl.members] at hempty
    have htop := (hs.tracks_without (hl.mem .max)).top_eq_none_iff.mpr hempty
    have htracks := hs.tracks r .max
    have htasks := top_eq_none.mp htop _ (htracks.lt (s.value .max p))
    rw [eq_singleton_of_erase (hl.mem .max) hempty] at htracks
    simp only [State.without, Table.remove, Function.update_self] at htasks
    rw [hl.idle, Bool.or_eq_true, decide_eq_true_eq]
    exact .inr ⟨rfl, htasks, (h.exact.value_eq htracks).ge, htop⟩

end

section

variable {v : ℕ}

/-- Another task is on the runqueue, or it is the lower clamp. -/
def Accompanied (s : State R T) (r : R) (p : T) (id : ClampId) : Prop :=
  id = .max → s.members r .max ≠ {p}

theorem Updates.idle_eq (hu : Updates buckets s s' r p id v) (h : Sound buckets r s)
    (hs : Proper buckets s) (hp : Accompanied s r p id) : (s'.rq r).idle = false := by
  rw [hu.idle, h.idle_eq hu.mem, Bool.false_or, decide_eq_false_iff_not]
  intro hi
  obtain ⟨rfl, hmem⟩ := hs.eq_of_idles (hs.members_eq r id .max ▸ hu.mem) hi
  exact hp rfl hmem

theorem Updates.table_eq (hu : Updates buckets s s' r p id v) (h : Sound buckets r s)
    (hs : Proper buckets s) (hp : Accompanied s r p id) :
    s'.table r id = (s.without buckets r p id).insert (uclampBucketId buckets v) v := by
  rw [hu.table, hu.idle_eq h hs hp]
  rfl

theorem Updates.exact (hu : Updates buckets s s' r p id v) (h : Sound buckets r s)
    (hs : Proper buckets s) (hp : Accompanied s r p id) (he : Exact buckets (s.table r id)) :
    Exact buckets (s'.table r id) := by
  have hval : s'.value id p = v := (hu.value p).trans (if_pos rfl)
  have hinsert := (hs.exact_without hu.mem he).insert (s'.value id)
    (hs.tracks_without hu.mem) (fun _ _ hle => uclampBucketId_mono hle) (Finset.notMem_erase p _)
    fun q hq => (hu.value q).trans (if_neg (Finset.ne_of_mem_erase hq))
  rw [hval] at hinsert
  rw [hu.table_eq h hs hp]
  refine hinsert fun hempty => ?_
  rw [hs.value_without hu.mem he hempty]
  cases id with
  | min => exact Nat.zero_le v
  | max => exact absurd (eq_singleton_of_erase hu.mem hempty) (hp rfl)

theorem Sound.of_updates (h : Sound buckets r s) (hs : Proper buckets s)
    (hp : Accompanied s r p id) (hu : Updates buckets s s' r p id v) : Sound buckets r s' where
  idle hidle := absurd ((hu.idle_eq h hs hp).symm.trans hidle) (by simp)
  bounds id' := by
    by_cases hid : id' = id
    · rw [hid, hu.table_eq h hs hp]
      exact (hs.bounds_without hu.mem (h.bounds id)).insert _ _
    · rw [hu.other id' hid]
      exact h.bounds id'
  exact := by
    cases id with
    | min => exact hu.exact h hs hp h.exact
    | max =>
      rw [hu.other .min (by simp)]
      exact h.exact
  rest hempty := by
    rw [hu.members, hs.members_eq r .min id] at hempty
    exact absurd (hempty ▸ hu.mem) (Finset.notMem_empty p)
  warn hw := by
    rcases hu.warnings _ hw with hw | ⟨-, hlt⟩
    · exact h.warn hw
    · exact absurd (h.bounds id _ ((hs.tracks r id).tasks_ne_zero hu.mem)) (not_le.mpr hlt)

theorem Fresh.of_updates (h : Fresh buckets r s) (hsound : Sound buckets r s)
    (hs : Proper buckets s) (hp : Accompanied s r p id) (hu : Updates buckets s s' r p id v) :
    Fresh buckets r s' where
  exact := by
    cases id with
    | min =>
      rw [hu.other .max (by simp)]
      exact h.exact
    | max => exact hu.exact hsound hs hp h.exact
  rest hempty := by
    rw [hu.members, hs.members_eq r .max id] at hempty
    exact absurd (hempty ▸ hu.mem) (Finset.notMem_empty p)

end

/-! ### Runs -/

theorem Sound.next {a : Act buckets R T} (h : Sound buckets r s) (hs : Proper buckets s)
    (ha : ¬ Alone r s a) (hstep : Step buckets s a s') : Sound buckets r s' := by
  rcases step_cases hs hstep r with hst | ⟨p, v, he⟩ | ⟨p, hl⟩ | ⟨p, id, src, rfl, hu⟩
  · exact h.of_stays hst
  · exact h.of_enters hs he
  · exact h.of_leaves hs (hs.next hstep) hl
  · refine h.of_updates hs (fun hid hmem => ha ⟨p, src, hid ▸ rfl, ?_, hmem⟩) hu
    exact ((State.mem_members _ _ _ _).mp hu.mem).1

theorem Fresh.next {a : Act buckets R T} (h : Fresh buckets r s) (hsound : Sound buckets r s)
    (hs : Proper buckets s) (ha : ¬ Alone r s a) (hstep : Step buckets s a s') :
    Fresh buckets r s' := by
  rcases step_cases hs hstep r with hst | ⟨p, v, he⟩ | ⟨p, hl⟩ | ⟨p, id, src, rfl, hu⟩
  · exact h.of_stays hst
  · exact h.of_enters hsound hs he
  · exact h.of_leaves hs hl
  · refine h.of_updates hsound hs (fun hid hmem => ha ⟨p, src, hid ▸ rfl, ?_, hmem⟩) hu
    exact ((State.mem_members _ _ _ _).mp hu.mem).1

omit [DecidableEq T] in
theorem sound_start (hbuckets : 0 < buckets) (task : T → Task R) (r : R) :
    Sound buckets r (start task) := by
  have hproper := proper_start hbuckets task
  have hempty : ∀ id, (start task).members r id = ∅ := fun id =>
    Finset.eq_empty_of_forall_notMem fun q hq =>
      absurd ((State.mem_members _ _ _ _).mp hq).2 (by simp [State.active, start])
  exact ⟨fun _ => hempty, fun id => hproper.bounds_of_empty rfl (hempty id),
    hproper.exact_of_empty rfl (hempty .min), fun _ => rfl, List.not_mem_nil⟩

variable {init : State R T} {ok : State R T → Act buckets R T → Prop}

theorem proper_of_reach (hinit : Proper buckets init)
    (hs : Reach init (Step buckets) ok s) : Proper buckets s :=
  hs.invariant hinit fun _ _ _ h _ hstep => h.next hstep

theorem sound_of_reach (hinit : Proper buckets init) (hsound : Sound buckets r init)
    (hs : Reach init (Step buckets) (fun s a => ¬ Alone r s a) s) :
    Proper buckets s ∧ Sound buckets r s :=
  hs.invariant (P := fun s => Proper buckets s ∧ Sound buckets r s) ⟨hinit, hsound⟩
    fun _ _ _ h ha hstep => ⟨h.1.next hstep, h.2.next h.1 ha hstep⟩

omit [DecidableEq T] in
/-- An idle runqueue has no tasks, so its values are right. -/
theorem fresh_of_idle (h : Proper buckets s) (hsound : Sound buckets r s)
    (hidle : (s.rq r).idle = true) : Fresh buckets r s :=
  ⟨h.exact_of_empty rfl (hsound.idle hidle .max), fun _ => hidle⟩

theorem fresh_of_reach (hinit : Proper buckets init) (hsound : Sound buckets r init)
    (hidle : (init.rq r).idle = true)
    (hs : Reach init (Step buckets) (fun s a => ¬ Alone r s a) s) :
    Proper buckets s ∧ Fresh buckets r s := by
  have hall := hs.invariant
    (P := fun s => (Proper buckets s ∧ Sound buckets r s) ∧ Fresh buckets r s)
    ⟨⟨hinit, hsound⟩, fresh_of_idle hinit hsound hidle⟩ fun _ _ _ h ha hstep =>
      ⟨⟨h.1.1.next hstep, h.1.2.next h.1.1 ha hstep⟩, h.2.next h.1.2 h.1.1 ha hstep⟩
  exact ⟨hall.1.1, hall.2⟩

/-! ### A runqueue with two tasks -/

/-- A clamp that is requested, with no group. -/
def requested (value : ℕ) : Sources 5 where
  req := ⟨value, uclampBucketId 5 value, false, true⟩
  group := none
  default := ⟨schedCapacityScale, uclampBucketId 5 schedCapacityScale, false, false⟩
  req_bucket := rfl
  group_bucket _ h := by cases h
  default_bucket := rfl

def clamps (utilMin utilMax : ℕ) : ClampId → Sources 5
  | .min => requested utilMin
  | .max => requested utilMax

def twoTasks : State Unit Bool :=
  start fun _ => ⟨fun _ => ⟨0, 0, false, false⟩, (), false, true⟩

def Act.Plain : Act buckets R T → Prop
  | .updateActive _ _ _ => False
  | _ => True

instance : DecidablePred (Act.Plain : Act buckets R T → Prop) := fun a =>
  match a with
  | .updateActive _ _ _ => isFalse fun h => h
  | .enqueueTask _ _ | .dequeueTask _ | .enable | .setClass _ _ | .setTaskCpu _ _
  | .uclampFork _ _ => isTrue trivial

/-- A run without updates. -/
theorem reach_of_plain {as : List (Act buckets R T)} {s₀ : State R T}
    (h : runAlong next (fun _ a => a.Plain) as s₀ = some s) :
    Reach s₀ (Step buckets) (fun s a => ¬ Alone r s a) s := by
  have hreach : Reach s₀ (Step buckets) (fun _ a => a.Plain) s :=
    Reach.runAlong (fun _ _ _ h => h) .init h
  refine hreach.mono fun s a ha halone => ?_
  obtain ⟨p, src, rfl, -⟩ := halone
  exact ha

/-- Two tasks with the clamps 300 to 700 and 600 to 900, of which the second leaves. -/
def twoQueued : List (Act 5 Unit Bool) :=
  [.enable, .enqueueTask false (clamps 300 700), .enqueueTask true (clamps 600 900),
    .dequeueTask true]

/-- The value for `UCLAMP_MAX` is still the first one. -/
theorem twoQueued_run : ∃ s, runAlong next (fun _ a => a.Plain) twoQueued twoTasks = some s ∧
    s.members () .min = {false} ∧ (s.table () .min).value = 300 ∧ (s.table () .max).value = 1024 := by
  have h : (runAlong next (fun _ a => a.Plain) twoQueued twoTasks).map
      (fun s => (s.members () .min, (s.table () .min).value, (s.table () .max).value)) =
      some ({false}, 300, 1024) := by decide +kernel
  obtain ⟨s, hs, heq⟩ := Option.map_eq_some_iff.mp h
  rw [Prod.mk.injEq, Prod.mk.injEq] at heq
  exact ⟨s, hs, heq⟩

/-- The buckets of a runqueue count its tasks, whose values their bucket's value
bounds; no bucket is ever found empty by a task that leaves it. -/
theorem counts_of_reach (hbuckets : 0 < buckets) (task : T → Task R) {s : State R T}
    (hs : Reach (start task) (Step buckets) (fun _ _ => True) s) (r : R) (id : ClampId) :
    (∀ i, ((s.table r id).bucket i).tasks =
      ((s.members r id).filter fun p => uclampBucketId buckets (s.value id p) = i).card) ∧
    (∀ p ∈ s.members r id, ((s.task p).uclamp id).bucketId = uclampBucketId buckets (s.value id p) ∧
      s.value id p ≤ ((s.table r id).bucket ((s.task p).uclamp id).bucketId).value) ∧
    (∀ i, ((s.table r id).bucket i).tasks ≠ 0 →
      uclampBucketId buckets ((s.table r id).bucket i).value = i) ∧
    (∀ p ∈ s.members r id, (s.task p).queued = true) ∧ (r, Warning.noTasks) ∉ s.warnings := by
  have hproper := proper_of_reach (proper_start hbuckets task) hs
  have htracks := hproper.tracks r id
  refine ⟨htracks.tasks, fun p hp => ?_, htracks.key, fun p hp => ?_, hproper.warn r⟩
  · have hbucket := hproper.bucket p id ((State.mem_members _ _ _ _).mp hp).2
    refine ⟨hbucket, ?_⟩
    rw [hbucket]
    exact htracks.le p hp
  · exact (hproper.queued p id ((State.mem_members _ _ _ _).mp hp).2).1

theorem counts_of_reach_two : ∃ s : State Unit Bool, s.members () .min = {false} ∧
    ((s.table () .min).bucket 3).tasks =
      ((s.members () .min).filter fun p => uclampBucketId 5 (s.value .min p) = 3).card := by
  obtain ⟨s, hs, hmem, -⟩ := twoQueued_run
  have hreach := (reach_of_plain (r := ()) hs).mono fun _ _ _ => trivial
  obtain ⟨htasks, -⟩ := counts_of_reach (by decide) _ hreach () .min
  exact ⟨s, hmem, htasks 3⟩

/-- Unless `UCLAMP_MAX` of the only task is ever updated, the values bound those of
the tasks, and the value for `UCLAMP_MIN` lies in the bucket of the greatest, or
is 0. -/
theorem value_of_reach (hbuckets : 0 < buckets) (task : T → Task R) (r : R) {s : State R T}
    (hs : Reach (start task) (Step buckets) (fun s a => ¬ Alone r s a) s) :
    (∀ id, ∀ p ∈ s.members r id, s.value id p ≤ (s.table r id).value) ∧
    (s.members r .min ≠ ∅ → ∃ p ∈ s.members r .min,
      uclampBucketId buckets (s.value .min p) = uclampBucketId buckets (s.table r .min).value) ∧
    (s.members r .min = ∅ → (s.table r .min).value = uclampNone .min) ∧
    (r, Warning.aboveRq) ∉ s.warnings := by
  obtain ⟨hproper, hsound⟩ := sound_of_reach (proper_start hbuckets task)
    (sound_start hbuckets task r) hs
  refine ⟨fun id p hp => (hsound.bounds id).val_le (hproper.tracks r id) hp, fun hne => ?_,
    hsound.rest, hsound.warn⟩
  exact hsound.exact.exists_key_eq (hproper.tracks r .min) hne

theorem value_of_reach_two : ∃ s : State Unit Bool, s.members () .min = {false} ∧
    (s.table () .min).value = 300 ∧ s.value .min false ≤ (s.table () .min).value := by
  obtain ⟨s, hs, hmem, hvalue, -⟩ := twoQueued_run
  obtain ⟨hle, -⟩ := value_of_reach (by decide) _ () (reach_of_plain hs)
  exact ⟨s, hmem, hvalue, hle .min false (hmem ▸ Finset.mem_singleton_self false)⟩

/-- Without the condition the next task overwrites a greater value. -/
example : (runAlong next (fun _ _ => True) [.enable, .enqueueTask false (clamps 600 1024),
    .updateActive false .max (requested 900), .enqueueTask true (clamps 100 1024)] twoTasks).map
    (fun s => (s.value .min false, (s.table () .min).value)) = some (600, 100) := by decide +kernel

/-- The value for `UCLAMP_MAX` starts with 1024. Once a runqueue has become idle, it
bounds those of the tasks and lies in the bucket of the greatest, and the last task
to leave leaves its own. -/
theorem max_of_idle (hbuckets : 0 < buckets) (task : T → Task R) (r : R) {s s' : State R T}
    (hs : Reach (start task) (Step buckets) (fun s a => ¬ Alone r s a) s)
    (hidle : (s.rq r).idle = true)
    (hs' : Reach s (Step buckets) (fun s a => ¬ Alone r s a) s') :
    ((start task).table r .max).value = 1024 ∧
    (∀ p ∈ s'.members r .max, s'.value .max p ≤ (s'.table r .max).value) ∧
    (s'.members r .max ≠ ∅ → ∃ p ∈ s'.members r .max,
      uclampBucketId buckets (s'.value .max p) = uclampBucketId buckets (s'.table r .max).value) ∧
    ∀ p s'', s'.members r .max = {p} → Step buckets s' (.dequeueTask p) s'' →
      (s''.table r .max).value = s'.value .max p ∧ (s''.rq r).idle = true := by
  obtain ⟨hproper, hsound⟩ := sound_of_reach (proper_start hbuckets task)
    (sound_start hbuckets task r) hs
  have hsound' := (sound_of_reach hproper hsound hs').2
  obtain ⟨hproper, hfresh⟩ := fresh_of_reach hproper hsound hidle hs'
  refine ⟨rfl, fun p hp => (hsound'.bounds .max).val_le (hproper.tracks r .max) hp,
    hfresh.exact.exists_key_eq (hproper.tracks r .max), fun p s'' hone hstep => ?_⟩
  have hmem : p ∈ s'.members r .max := hone ▸ Finset.mem_singleton_self p
  obtain ⟨rfl, hp⟩ := (State.mem_members _ _ _ _).mp hmem
  obtain ⟨hq, hs''⟩ := Option.ite_none_right_eq_some.mp hstep
  obtain rfl := Option.some.inj hs''
  have hl := hproper.uclampRqDec_leaves fun id => (hproper.both p id .max).trans hp
  have hempty : (s'.members (s'.task p).cpu .max).erase p = ∅ := by
    rw [hone]
    exact Finset.erase_singleton p
  refine ⟨?_, (hfresh.of_leaves hproper hl).rest ((hl.members .max).trans hempty)⟩
  exact (congrArg Table.value (hl.table .max)).trans
    (hproper.value_without hmem hfresh.exact hempty)

/-- The first task leaves the flag set, and the second one then gives the value. -/
theorem max_of_idle_two : ∃ s s' : State Unit Bool, (s.rq ()).idle = true ∧
    s'.members () .max = {true} ∧ (s'.table () .max).value = 500 ∧
      s'.value .max true ≤ (s'.table () .max).value ∧ ∃ p ∈ s'.members () .max,
        uclampBucketId 5 (s'.value .max p) = uclampBucketId 5 (s'.table () .max).value := by
  have h : (runAlong next (fun _ a => a.Plain)
      [.enable, .enqueueTask false (clamps 0 1024), .dequeueTask false] twoTasks).map
      (fun s => ((s.rq ()).idle, (runAlong next (fun _ a => a.Plain)
        [.enqueueTask true (clamps 200 500)] s).map
          fun s => (s.members () .max, (s.table () .max).value))) =
      some (true, some ({true}, 500)) := by decide +kernel
  obtain ⟨s, hs, heq⟩ := Option.map_eq_some_iff.mp h
  obtain ⟨hidle, heq⟩ := Prod.mk.injEq _ _ _ _ ▸ heq
  obtain ⟨s', hs', heq⟩ := Option.map_eq_some_iff.mp heq
  obtain ⟨hmem, hvalue⟩ := Prod.mk.injEq _ _ _ _ ▸ heq
  obtain ⟨-, hle, hbucket, -⟩ :=
    max_of_idle (by decide) _ () (reach_of_plain hs) hidle (reach_of_plain hs')
  exact ⟨s, s', hidle, hmem, hvalue, hle true (hmem ▸ Finset.mem_singleton_self true),
    hbucket (hmem ▸ Finset.singleton_ne_empty true)⟩

end ClampQueues
end Sched
end LinuxProg
