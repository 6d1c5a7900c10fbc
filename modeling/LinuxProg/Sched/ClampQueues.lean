/-
# Clamps of the queued tasks

Tasks are queued and dequeued on several runqueues, their effective clamps are
updated while they are queued, and the static key `sched_uclamp_used` is enabled
at some time, after which tasks that were not counted when they were queued are
dequeued. The tables of the runqueues are those of the tasks that are counted
there (`Counted`), whatever the order of the steps is.

`uclamp_rq_inc` and `uclamp_rq_dec` change the tables of both clamps of one
runqueue alike (`uclampRqInc_table`, `uclampRqDec_table`), so what the two do is
said for one table at a time.
-/
import Mathlib
import LinuxProg.Lib.Transition
import LinuxProg.Sched.Clamps

namespace LinuxProg
namespace Sched
namespace ClampQueues

open Transition Buckets Clamps

variable {R T : Type*}

/-! ### The functions -/

/-- A task: its clamps as they are counted, `task_cpu`, whether it is on its
runqueue, and `sched_class->uclamp_enabled`. -/
structure Task (R : Type*) where
  uclamp : ClampId → UclampSe
  cpu : R
  queued : Bool
  uclampEnabled : Bool

structure State (R T : Type*) where
  rq : R → Rq
  task : T → Task R
  used : Bool
  warnings : List (R × Warning)

namespace State

variable (s : State R T)

/-- The counts of one clamp of a runqueue. -/
def table (r : R) (id : ClampId) : UclampRq := (s.rq r).uclamp id

def value (id : ClampId) (p : T) : ℕ := ((s.task p).uclamp id).value

def active (id : ClampId) (p : T) : Bool := ((s.task p).uclamp id).active

variable [DecidableEq R]

def setRq (r : R) (rq : Rq) : State R T := { s with rq := Function.update s.rq r rq }

/-- The tasks that are counted on a runqueue. -/
def members [Fintype T] (r : R) (id : ClampId) : Finset T :=
  Finset.univ.filter fun p => (s.task p).cpu = r ∧ s.active id p = true

variable [DecidableEq T]

def setTask (p : T) (t : Task R) : State R T := { s with task := Function.update s.task p t }

def setUclamp (p : T) (id : ClampId) (se : UclampSe) : State R T :=
  s.setTask p { s.task p with uclamp := Function.update (s.task p).uclamp id se }

end State

section

variable [DecidableEq R] [DecidableEq T] {buckets : ℕ}

/-- `uclamp_rq_inc_id` for a task and its runqueue. -/
def rqIncId (s : State R T) (p : T) (eff : UclampSe) (id : ClampId) : State R T :=
  let (rq, ucSe) := uclampRqIncId (s.rq (s.task p).cpu) eff id
  (s.setRq (s.task p).cpu rq).setUclamp p id ucSe

/-- `uclamp_rq_dec_id` for a task and its runqueue. -/
def rqDecId (buckets : ℕ) (s : State R T) (p : T) (id : ClampId) : State R T :=
  let (rq, ucSe, warnings) := uclampRqDecId buckets (s.rq (s.task p).cpu) ((s.task p).uclamp id) id
  { (s.setRq (s.task p).cpu rq).setUclamp p id ucSe with
    warnings := s.warnings ++ warnings.map fun w => ((s.task p).cpu, w) }

def uclampRqInc (s : State R T) (p : T) (src : ClampId → Sources buckets) : State R T :=
  if s.used = false then s
  else if (s.task p).uclampEnabled = false then s
  else
    let s := rqIncId s p (uclampEffGet (src .min)) .min
    let s := rqIncId s p (uclampEffGet (src .max)) .max
    s.setRq (s.task p).cpu { s.rq (s.task p).cpu with idle := false }

def uclampRqDec (buckets : ℕ) (s : State R T) (p : T) : State R T :=
  if s.used = false then s
  else if (s.task p).uclampEnabled = false then s
  else rqDecId buckets (rqDecId buckets s p .min) p .max

def uclampUpdateActive (s : State R T) (p : T) (id : ClampId) (src : Sources buckets) : State R T :=
  if s.active id p then rqIncId (rqDecId buckets s p id) p (uclampEffGet src) id else s

end

/-! ### The system -/

/-- What the scheduler does under the lock of a runqueue. -/
inductive Act (buckets : ℕ) (R T : Type*) where
  | enqueueTask (p : T) (src : ClampId → Sources buckets)
  | dequeueTask (p : T)
  | updateActive (p : T) (id : ClampId) (src : Sources buckets)
  | enable
  | setClass (p : T) (uclampEnabled : Bool)
  | setTaskCpu (p : T) (cpu : R)
  | uclampFork (p parent : T)

variable [DecidableEq R] [DecidableEq T] {buckets : ℕ}

/-- A task changes its class and its CPU only while it is not queued, and a task
that is forked is not queued yet. -/
def next (s : State R T) : Act buckets R T → Option (State R T)
  | .enqueueTask p src =>
    if (s.task p).queued then none
    else
      let s := uclampRqInc s p src
      some (s.setTask p { s.task p with queued := true })
  | .dequeueTask p =>
    if (s.task p).queued then
      let s := uclampRqDec buckets s p
      some (s.setTask p { s.task p with queued := false })
    else none
  | .updateActive p id src => some (uclampUpdateActive s p id src)
  | .enable => some { s with used := true }
  | .setClass p uclampEnabled =>
    if (s.task p).queued then none
    else some (s.setTask p { s.task p with uclampEnabled := uclampEnabled })
  | .setTaskCpu p cpu =>
    if (s.task p).queued then none else some (s.setTask p { s.task p with cpu := cpu })
  | .uclampFork p parent =>
    if (s.task p).queued then none
    else some (s.setTask p { s.task parent with
      uclamp := fun id => { (s.task parent).uclamp id with active := false }
      queued := false })

def Step (buckets : ℕ) (s : State R T) (a : Act buckets R T) (s' : State R T) : Prop :=
  next s a = some s'

/-- `init_uclamp`; no task is queued. -/
def start (task : T → Task R) : State R T where
  rq _ := initUclampRq
  task p := { task p with
    uclamp := fun id => { (task p).uclamp id with active := false }
    queued := false }
  used := false
  warnings := []

/-! ### One clamp of a task -/

section

variable (s : State R T) (p q : T) (id id' : ClampId) (eff : UclampSe) (r : R)

omit [DecidableEq T] in
theorem State.mem_members [Fintype T] :
    p ∈ s.members r id ↔ (s.task p).cpu = r ∧ s.active id p = true := by
  simp [State.members]

theorem rqIncId_table : (rqIncId s p eff id).table r id' =
    if r = (s.task p).cpu ∧ id' = id then
      ((s.rq r).reset id eff.value).insert eff.bucketId eff.value else s.table r id' := by
  simp only [rqIncId, uclampRqIncId_eq, State.table, State.setUclamp, State.setTask, State.setRq,
    Rq.setUclamp, Function.update_apply]
  by_cases hr : r = (s.task p).cpu <;> by_cases hid : id' = id <;> simp [hr, hid]

theorem rqIncId_idle : ((rqIncId s p eff id).rq r).idle = (s.rq r).idle := by
  simp only [rqIncId, uclampRqIncId_eq, State.setUclamp, State.setTask, State.setRq,
    Rq.setUclamp, Function.update_apply]
  by_cases hr : r = (s.task p).cpu <;> simp [hr]

theorem rqIncId_uclamp : ((rqIncId s p eff id).task q).uclamp id' =
    if q = p ∧ id' = id then { eff with active := true } else (s.task q).uclamp id' := by
  simp only [rqIncId, uclampRqIncId_eq, State.setUclamp, State.setTask, State.setRq,
    Function.update_apply]
  by_cases hq : q = p <;> by_cases hid : id' = id <;> simp [hq, hid]

/-- What the steps of one clamp leave as it is. -/
structure SameTasks (s s' : State R T) : Prop where
  cpu : ∀ q, (s'.task q).cpu = (s.task q).cpu
  queued : ∀ q, (s'.task q).queued = (s.task q).queued
  uclampEnabled : ∀ q, (s'.task q).uclampEnabled = (s.task q).uclampEnabled
  used : s'.used = s.used

omit [DecidableEq R] in
variable {s p} in
theorem SameTasks.of_uclamp {s' : State R T} {uclamp : ClampId → UclampSe}
    (h : s'.task = Function.update s.task p { s.task p with uclamp := uclamp })
    (hused : s'.used = s.used) : SameTasks s s' := by
  refine ⟨fun q => ?_, fun q => ?_, fun q => ?_, hused⟩ <;>
    by_cases hq : q = p <;> simp [h, hq]

theorem sameTasks_rqIncId : SameTasks s (rqIncId s p eff id) := .of_uclamp rfl rfl

variable (buckets) in
theorem sameTasks_rqDecId : SameTasks s (rqDecId buckets s p id) := .of_uclamp rfl rfl

omit [DecidableEq R] [DecidableEq T] in
theorem SameTasks.trans {s s' s'' : State R T} (h : SameTasks s s') (h' : SameTasks s' s'') :
    SameTasks s s'' where
  cpu q := (h'.cpu q).trans (h.cpu q)
  queued q := (h'.queued q).trans (h.queued q)
  uclampEnabled q := (h'.uclampEnabled q).trans (h.uclampEnabled q)
  used := h'.used.trans h.used

variable {s p id eff r}

/-- A task that is not counted is not taken out. -/
theorem rqDecId_of_inactive (h : s.active id p = false) : rqDecId buckets s p id = s := by
  have hse : ((s.task p).uclamp id).active = false := h
  unfold rqDecId uclampRqDecId
  simp only [hse, if_true, List.map_nil, List.append_nil, State.setUclamp, State.setTask,
    State.setRq, Function.update_eq_self]

variable (h : s.active id p = true)
  (htasks : ((s.table (s.task p).cpu id).bucket ((s.task p).uclamp id).bucketId).tasks ≠ 0)

include h htasks

theorem rqDecId_table (r : R) (id' : ClampId) : (rqDecId buckets s p id).table r id' =
    if r = (s.task p).cpu ∧ id' = id then
      (s.table r id').remove buckets ((s.task p).uclamp id).bucketId (restValue id (s.value id p))
    else s.table r id' := by
  have heq := uclampRqDecId_eq buckets (s.rq (s.task p).cpu) h htasks
  simp only [rqDecId, heq, State.table, State.setUclamp, State.setTask, State.setRq,
    Rq.setUclamp, Function.update_apply]
  by_cases hr : r = (s.task p).cpu <;> by_cases hid : id' = id <;> simp [hr, hid, State.value]

theorem rqDecId_idle (r : R) : ((rqDecId buckets s p id).rq r).idle =
    ((s.rq r).idle || decide (r = (s.task p).cpu ∧
      (s.rq r).Idles buckets id ((s.task p).uclamp id).bucketId)) := by
  have heq := uclampRqDecId_eq buckets (s.rq (s.task p).cpu) h htasks
  simp only [rqDecId, heq, State.setUclamp, State.setTask, State.setRq, Function.update_apply]
  by_cases hr : r = (s.task p).cpu <;> simp [hr]

theorem rqDecId_uclamp (q : T) (id' : ClampId) : ((rqDecId buckets s p id).task q).uclamp id' =
    if q = p ∧ id' = id then { (s.task p).uclamp id with active := false }
    else (s.task q).uclamp id' := by
  have heq := uclampRqDecId_eq buckets (s.rq (s.task p).cpu) h htasks
  simp only [rqDecId, heq, State.setUclamp, State.setTask, State.setRq, Function.update_apply]
  by_cases hq : q = p <;> by_cases hid : id' = id <;> simp [hq, hid]

/-- Of the two warnings only the second can be new. -/
theorem of_mem_rqDecId_warnings {x : R × Warning} (hx : x ∈ (rqDecId buckets s p id).warnings) :
    x ∈ s.warnings ∨ x = ((s.task p).cpu, .aboveRq) ∧ (s.table (s.task p).cpu id).value <
      ((s.table (s.task p).cpu id).bucket ((s.task p).uclamp id).bucketId).value := by
  have heq := uclampRqDecId_eq buckets (s.rq (s.task p).cpu) h htasks
  simp only [rqDecId, heq, List.mem_append] at hx
  refine hx.imp_right fun hx => ?_
  split at hx
  · rename_i hlt
    exact ⟨by simpa using hx, hlt.2⟩
  · exact absurd hx List.not_mem_nil

end

/-! ### What is counted -/

section

variable {s s' : State R T} {p q : T} {id id' : ClampId} {eff : UclampSe} {r : R}

theorem rqIncId_active : (rqIncId s p eff id).active id' q =
    if q = p ∧ id' = id then true else s.active id' q := by
  unfold State.active
  rw [rqIncId_uclamp, apply_ite UclampSe.active]

theorem rqIncId_value : (rqIncId s p eff id).value id' q =
    if q = p ∧ id' = id then eff.value else s.value id' q := by
  unfold State.value
  rw [rqIncId_uclamp, apply_ite UclampSe.value]

variable [Fintype T]

theorem rqIncId_members : (rqIncId s p eff id).members r id' =
    if r = (s.task p).cpu ∧ id' = id then insert p (s.members r id') else s.members r id' := by
  ext q
  rw [State.mem_members, (sameTasks_rqIncId s p id eff).cpu, rqIncId_active]
  by_cases hid : id' = id
  · by_cases hq : q = p
    · by_cases hr : r = (s.task p).cpu <;>
        simp [hid, hq, hr, State.mem_members, eq_comm (b := r)]
    · by_cases hr : r = (s.task p).cpu <;> simp [hid, hq, hr, State.mem_members]
  · simp [hid, State.mem_members]

/-- The tables are those of the tasks that are counted. -/
structure Counted (buckets : ℕ) (s : State R T) : Prop where
  bucket : ∀ p id, s.active id p = true →
    ((s.task p).uclamp id).bucketId = uclampBucketId buckets (s.value id p)
  tracks : ∀ r id,
    Tracks (uclampBucketId buckets) buckets (s.table r id) (s.members r id) (s.value id)
  warn : ∀ r, (r, .noTasks) ∉ s.warnings

theorem Counted.rqIncId (h : Counted buckets s) (hp : s.active id p = false)
    (heff : eff.bucketId = uclampBucketId buckets eff.value) :
    Counted buckets (rqIncId s p eff id) where
  bucket q id' hq := by
    rw [rqIncId_active] at hq
    rw [rqIncId_uclamp, rqIncId_value]
    split
    · exact heff
    · rename_i hne
      rw [if_neg hne] at hq
      exact h.bucket q id' hq
  tracks r id' := by
    have hsame : ∀ q ∈ s.members r id', (ClampQueues.rqIncId s p eff id).value id' q =
        s.value id' q := by
      intro q hq
      rw [rqIncId_value, if_neg]
      rintro ⟨rfl, rfl⟩
      exact absurd ((State.mem_members _ _ _ _).mp hq).2 (by simp [hp])
    rw [rqIncId_table, rqIncId_members]
    split
    · rename_i hslot
      obtain ⟨rfl, rfl⟩ := hslot
      have hnew : (ClampQueues.rqIncId s p eff id').value id' p = eff.value := by
        rw [rqIncId_value, if_pos ⟨rfl, rfl⟩]
      have hout : p ∉ s.members (s.task p).cpu id' := by
        rw [State.mem_members, hp]
        simp
      have htracks := ((h.tracks (s.task p).cpu id').congr
        ((s.rq (s.task p).cpu).reset_bucket id' eff.value) fun _ _ => rfl).insert hout hsame
      rwa [hnew, ← heff] at htracks
    · exact (h.tracks r id').congr rfl hsame
  warn := h.warn

omit [DecidableEq T] in
theorem Counted.tasks_ne_zero (h : Counted buckets s) (hp : s.active id p = true) :
    ((s.table (s.task p).cpu id).bucket ((s.task p).uclamp id).bucketId).tasks ≠ 0 := by
  rw [h.bucket p id hp]
  exact (h.tracks _ id).tasks_ne_zero ((State.mem_members _ _ _ _).mpr ⟨rfl, hp⟩)

theorem Counted.rqDecId_active (h : Counted buckets s) (hp : s.active id p = true) :
    (rqDecId buckets s p id).active id' q = if q = p ∧ id' = id then false else s.active id' q := by
  unfold State.active
  rw [rqDecId_uclamp hp (h.tasks_ne_zero hp), apply_ite UclampSe.active]

theorem Counted.rqDecId_value (h : Counted buckets s) (hp : s.active id p = true) :
    (rqDecId buckets s p id).value id' q = s.value id' q := by
  unfold State.value
  rw [rqDecId_uclamp hp (h.tasks_ne_zero hp)]
  split
  · rename_i hq
    rw [hq.1, hq.2]
  · rfl

theorem Counted.rqDecId_members (h : Counted buckets s) (hp : s.active id p = true) :
    (rqDecId buckets s p id).members r id' =
      if r = (s.task p).cpu ∧ id' = id then (s.members r id').erase p else s.members r id' := by
  ext q
  rw [State.mem_members, (sameTasks_rqDecId buckets s p id).cpu, h.rqDecId_active hp]
  by_cases hid : id' = id
  · by_cases hq : q = p
    · by_cases hr : r = (s.task p).cpu <;>
        simp [hid, hq, hr, State.mem_members, eq_comm (b := r)]
    · by_cases hr : r = (s.task p).cpu <;> simp [hid, hq, hr, State.mem_members]
  · simp [hid, State.mem_members]

theorem Counted.rqDecId (h : Counted buckets s) (p : T) (id : ClampId) :
    Counted buckets (rqDecId buckets s p id) := by
  cases hp : s.active id p with
  | false =>
    rw [rqDecId_of_inactive hp]
    exact h
  | true =>
    refine ⟨fun q id' hq => ?_, fun r id' => ?_, fun r hr => ?_⟩
    · rw [h.rqDecId_active hp] at hq
      rw [rqDecId_uclamp hp (h.tasks_ne_zero hp), h.rqDecId_value hp]
      split at hq
      · cases hq
      · rename_i hne
        rw [if_neg hne]
        exact h.bucket q id' hq
    · have hsame : ∀ q ∈ (ClampQueues.rqDecId buckets s p id).members r id',
          (ClampQueues.rqDecId buckets s p id).value id' q = s.value id' q :=
        fun q _ => h.rqDecId_value hp
      refine Tracks.congr ?_ rfl hsame
      rw [rqDecId_table hp (h.tasks_ne_zero hp), h.rqDecId_members hp]
      split
      · rename_i hslot
        obtain ⟨rfl, rfl⟩ := hslot
        rw [h.bucket p id' hp]
        exact (h.tracks _ id').remove _ ((State.mem_members _ _ _ _).mpr ⟨rfl, hp⟩)
      · exact h.tracks r id'
    · rcases of_mem_rqDecId_warnings hp (h.tasks_ne_zero hp) hr with hr | ⟨hr, -⟩
      · exact h.warn r hr
      · cases hr

omit [DecidableEq T] in
/-- Only the tasks that are counted matter. -/
theorem Counted.congr (h : Counted buckets s) (htable : s'.table = s.table)
    (hactive : ∀ p id, s'.active id p = s.active id p)
    (htask : ∀ p id, s.active id p = true →
      (s'.task p).cpu = (s.task p).cpu ∧ (s'.task p).uclamp id = (s.task p).uclamp id)
    (hwarnings : s'.warnings = s.warnings) : Counted buckets s' := by
  have hmembers : ∀ r id, s'.members r id = s.members r id := by
    intro r id
    ext q
    rw [State.mem_members, State.mem_members, hactive]
    exact and_congr_left fun hq => by rw [(htask q id hq).1]
  refine ⟨fun p id hp => ?_, fun r id => ?_, fun r => ?_⟩
  · rw [hactive] at hp
    unfold State.value
    rw [(htask p id hp).2]
    exact h.bucket p id hp
  · rw [htable, hmembers]
    refine (h.tracks r id).congr rfl fun q hq => ?_
    unfold State.value
    rw [(htask q id ((State.mem_members _ _ _ _).mp hq).2).2]
  · rw [hwarnings]
    exact h.warn r

/-! ### Both clamps of a task -/

/-- Only queued tasks are counted, for both clamps. -/
structure Proper (buckets : ℕ) (s : State R T) : Prop extends Counted buckets s where
  queued : ∀ p id, s.active id p = true →
    (s.task p).queued = true ∧ s.used = true ∧ (s.task p).uclampEnabled = true
  both : ∀ p id id', s.active id p = s.active id' p

/-- What happens to the tables of `r` when a task with the clamps `v` is counted. -/
structure Enters (buckets : ℕ) (s s' : State R T) (r : R) (p : T) (v : ClampId → ℕ) : Prop where
  notMem : ∀ id, p ∉ s.members r id
  table : ∀ id, s'.table r id =
    ((s.rq r).reset id (v id)).insert (uclampBucketId buckets (v id)) (v id)
  members : ∀ id, s'.members r id = insert p (s.members r id)
  value : ∀ id q, s'.value id q = if q = p then v id else s.value id q
  idle : (s'.rq r).idle = false
  warnings : s'.warnings = s.warnings

/-- The table of `r` when one clamp of a task has been taken out. -/
def State.without (buckets : ℕ) (s : State R T) (r : R) (p : T) (id : ClampId) : UclampRq :=
  (s.table r id).remove buckets (uclampBucketId buckets (s.value id p)) (restValue id (s.value id p))

/-- What happens to the tables of `r` when a task is not counted any more. -/
structure Leaves (buckets : ℕ) (s s' : State R T) (r : R) (p : T) : Prop where
  mem : ∀ id, p ∈ s.members r id
  table : ∀ id, s'.table r id = s.without buckets r p id
  members : ∀ id, s'.members r id = (s.members r id).erase p
  idle : (s'.rq r).idle = ((s.rq r).idle ||
    decide ((s.rq r).Idles buckets .max (uclampBucketId buckets (s.value .max p))))
  warnings : ∀ x ∈ s'.warnings, x ∈ s.warnings ∨ x = (r, .aboveRq) ∧ ∃ id,
    (s.table r id).value < ((s.table r id).bucket (uclampBucketId buckets (s.value id p))).value

/-- What happens to the tables of `r` when one clamp of a task becomes `v`. -/
structure Updates (buckets : ℕ) (s s' : State R T) (r : R) (p : T) (id : ClampId) (v : ℕ) :
    Prop where
  mem : p ∈ s.members r id
  idle : (s'.rq r).idle = ((s.rq r).idle ||
    decide ((s.rq r).Idles buckets id (uclampBucketId buckets (s.value id p))))
  table : s'.table r id = Table.insert (if (s'.rq r).idle then
    { s.without buckets r p id with value := v } else s.without buckets r p id)
      (uclampBucketId buckets v) v
  other : ∀ id', id' ≠ id → s'.table r id' = s.table r id'
  members : ∀ id', s'.members r id' = s.members r id'
  value : ∀ q, s'.value id q = if q = p then v else s.value id q
  warnings : ∀ x ∈ s'.warnings, x ∈ s.warnings ∨ x = (r, .aboveRq) ∧
    (s.table r id).value < ((s.table r id).bucket (uclampBucketId buckets (s.value id p))).value

/-- Nothing happens to the tables of `r`. -/
structure Stays (s s' : State R T) (r : R) : Prop where
  table : ∀ id, s'.table r id = s.table r id
  members : ∀ id, s'.members r id = s.members r id
  idle : (s'.rq r).idle = (s.rq r).idle
  warnings : ∀ w, (r, w) ∈ s'.warnings → (r, w) ∈ s.warnings

/-- Both clamps of a task counted, before the flag is reset. -/
def incBoth (s : State R T) (p : T) (src : ClampId → Sources buckets) : State R T :=
  ClampQueues.rqIncId (ClampQueues.rqIncId s p (uclampEffGet (src .min)) .min) p
    (uclampEffGet (src .max)) .max

section

variable {src : ClampId → Sources buckets}

omit [Fintype T]

theorem sameTasks_incBoth (s : State R T) (p : T) (src : ClampId → Sources buckets) :
    SameTasks s (incBoth s p src) :=
  (sameTasks_rqIncId s p .min _).trans (sameTasks_rqIncId _ p .max _)

theorem incBoth_table : (incBoth s p src).table r id =
    if r = (s.task p).cpu then ((s.rq r).reset id (uclampEffGet (src id)).value).insert
      (uclampEffGet (src id)).bucketId (uclampEffGet (src id)).value
    else s.table r id := by
  unfold incBoth
  rw [rqIncId_table, rqIncId_table, (sameTasks_rqIncId s p .min _).cpu]
  by_cases hr : r = (s.task p).cpu
  · cases id with
    | min => simp [hr]
    | max =>
      have htable := rqIncId_table s p .min .max (uclampEffGet (src .min)) r
      rw [if_neg (by simp)] at htable
      simp only [hr, and_self, if_true, Rq.reset, rqIncId_idle]
      simp only [State.table, hr] at htable
      rw [htable]
  · simp [hr]

theorem incBoth_idle : ((incBoth s p src).rq r).idle = (s.rq r).idle := by
  unfold incBoth
  rw [rqIncId_idle, rqIncId_idle]

theorem incBoth_active : (incBoth s p src).active id q = if q = p then true else s.active id q := by
  unfold incBoth
  rw [rqIncId_active, rqIncId_active]
  cases id <;> by_cases hq : q = p <;> simp [hq]

theorem incBoth_value : (incBoth s p src).value id q =
    if q = p then (uclampEffGet (src id)).value else s.value id q := by
  unfold incBoth
  rw [rqIncId_value, rqIncId_value]
  cases id <;> by_cases hq : q = p <;> simp [hq]

theorem uclampRqInc_eq (hused : s.used = true) (henabled : (s.task p).uclampEnabled = true) :
    uclampRqInc s p src = (incBoth s p src).setRq (s.task p).cpu
      { (incBoth s p src).rq (s.task p).cpu with idle := false } := by
  unfold uclampRqInc
  rw [if_neg (by simp [hused]), if_neg (by simp [henabled])]
  exact congrArg (fun r => (incBoth s p src).setRq r { (incBoth s p src).rq r with idle := false })
    ((sameTasks_incBoth s p src).cpu p)

omit [DecidableEq T] in
theorem State.setRq_idle_table (s : State R T) (b : Bool) (r' : R) :
    (s.setRq r { s.rq r with idle := b }).table r' id = s.table r' id := by
  unfold State.table State.setRq
  by_cases hr : r' = r <;> simp [hr]

end

theorem incBoth_members {src : ClampId → Sources buckets} : (incBoth s p src).members r id =
    if r = (s.task p).cpu then insert p (s.members r id) else s.members r id := by
  unfold incBoth
  rw [rqIncId_members, rqIncId_members, (sameTasks_rqIncId s p .min _).cpu]
  cases id <;> by_cases hr : r = (s.task p).cpu <;> simp [hr]

omit [Fintype T] in
/-- Nothing is counted before the key is enabled, nor in a class without clamps. -/
theorem uclampRqInc_of_skip {src : ClampId → Sources buckets}
    (h : ¬ (s.used = true ∧ (s.task p).uclampEnabled = true)) : uclampRqInc s p src = s := by
  unfold uclampRqInc
  by_cases hused : s.used = true
  · rw [if_neg (by simp [hused]), if_pos (by simpa using fun henabled => h ⟨hused, henabled⟩)]
  · rw [if_pos (by simpa using hused)]

theorem uclampRqInc_enters (src : ClampId → Sources buckets) (hp : ∀ id, s.active id p = false)
    (hused : s.used = true) (henabled : (s.task p).uclampEnabled = true) :
    Enters buckets s (uclampRqInc s p src) (s.task p).cpu p
      fun id => (uclampEffGet (src id)).value := by
  rw [uclampRqInc_eq hused henabled]
  refine ⟨fun id => ?_, fun id => ?_, fun id => ?_, fun id q => incBoth_value, ?_, rfl⟩
  · rw [State.mem_members, hp]
    simp
  · rw [State.setRq_idle_table, incBoth_table, if_pos rfl, uclampEffGet_bucket]
  · exact incBoth_members.trans (if_pos rfl)
  · simp [State.setRq]

theorem uclampRqInc_stays (src : ClampId → Sources buckets) (hused : s.used = true)
    (henabled : (s.task p).uclampEnabled = true) (hr : r ≠ (s.task p).cpu) :
    Stays s (uclampRqInc s p src) r := by
  rw [uclampRqInc_eq hused henabled]
  refine ⟨fun id => ?_, fun id => ?_, ?_, fun w hw => hw⟩
  · rw [State.setRq_idle_table, incBoth_table, if_neg hr]
  · exact incBoth_members.trans (if_neg hr)
  · simp only [State.setRq, Function.update_of_ne hr]
    exact incBoth_idle

omit [Fintype T] in
theorem uclampRqDec_of_inactive (hp : ∀ id, s.active id p = false) :
    uclampRqDec buckets s p = s := by
  unfold uclampRqDec
  rw [rqDecId_of_inactive (hp .min), rqDecId_of_inactive (hp .max), ite_self, ite_self]

/-- What is counted is taken out, as the key is never disabled and the class does
not change. -/
theorem Proper.uclampRqDec_eq (h : Proper buckets s) (hp : s.active id p = true) :
    uclampRqDec buckets s p = rqDecId buckets (rqDecId buckets s p .min) p .max := by
  obtain ⟨-, hused, henabled⟩ := h.queued p id hp
  unfold uclampRqDec
  rw [if_neg (by simp [hused]), if_neg (by simp [henabled])]

/-- One clamp of one runqueue changes when one clamp of a task is taken out. -/
theorem Counted.rqDecId_stays (h : Counted buckets s) (hp : s.active id p = true)
    (hr : r ≠ (s.task p).cpu) : Stays s (ClampQueues.rqDecId buckets s p id) r := by
  refine ⟨fun id' => ?_, fun id' => ?_, ?_, fun w hw => ?_⟩
  · rw [rqDecId_table hp (h.tasks_ne_zero hp), if_neg fun h => hr h.1]
  · rw [h.rqDecId_members hp, if_neg fun h => hr h.1]
  · rw [rqDecId_idle hp (h.tasks_ne_zero hp)]
    simp [hr]
  · rcases of_mem_rqDecId_warnings hp (h.tasks_ne_zero hp) hw with hw | ⟨hw, -⟩
    · exact hw
    · exact absurd (congrArg Prod.fst hw) hr

omit [DecidableEq T] in
theorem Stays.trans {s'' : State R T} (h : Stays s s' r) (h' : Stays s' s'' r) :
    Stays s s'' r where
  table id := (h'.table id).trans (h.table id)
  members id := (h'.members id).trans (h.members id)
  idle := h'.idle.trans h.idle
  warnings w hw := h.warnings w (h'.warnings w hw)

theorem Proper.uclampRqDec_stays (h : Proper buckets s) (hr : r ≠ (s.task p).cpu) :
    Stays s (uclampRqDec buckets s p) r := by
  cases hp : s.active .min p with
  | false =>
    rw [uclampRqDec_of_inactive fun id => (h.both p id .min).trans hp]
    exact ⟨fun _ => rfl, fun _ => rfl, rfl, fun _ hw => hw⟩
  | true =>
    have hmax : (rqDecId buckets s p .min).active .max p = true := by
      rw [h.rqDecId_active hp, if_neg (by simp), h.both p .max .min, hp]
    rw [h.uclampRqDec_eq hp]
    refine (h.rqDecId_stays hp hr).trans ((h.toCounted.rqDecId p .min).rqDecId_stays hmax ?_)
    rwa [(sameTasks_rqDecId buckets s p .min).cpu]

theorem Proper.uclampRqDec_leaves (h : Proper buckets s) (hp : ∀ id, s.active id p = true) :
    Leaves buckets s (uclampRqDec buckets s p) (s.task p).cpu p := by
  have h₁ := h.toCounted.rqDecId p .min
  have hmin := h.tasks_ne_zero (hp .min)
  have hmax : (rqDecId buckets s p .min).active .max p = true := by
    rw [h.rqDecId_active (hp .min), if_neg (by simp), hp]
  have hcpu : ((rqDecId buckets s p .min).task p).cpu = (s.task p).cpu :=
    (sameTasks_rqDecId buckets s p .min).cpu p
  have htable : ∀ r, (rqDecId buckets s p .min).table r .max = s.table r .max := fun r => by
    rw [rqDecId_table (hp .min) hmin, if_neg (by simp)]
  have hse : ((rqDecId buckets s p .min).task p).uclamp .max = (s.task p).uclamp .max := by
    rw [rqDecId_uclamp (hp .min) hmin, if_neg (by simp)]
  have hbucket := h.bucket p .max (hp .max)
  rw [h.uclampRqDec_eq (hp .min)]
  refine ⟨fun id => ?_, fun id => ?_, fun id => ?_, ?_, fun x hx => ?_⟩
  · rw [State.mem_members, hp]
    simp
  · rw [rqDecId_table hmax (h₁.tasks_ne_zero hmax), hcpu]
    cases id with
    | min =>
      rw [if_neg (by simp), rqDecId_table (hp .min) hmin, if_pos ⟨rfl, rfl⟩,
        h.bucket p .min (hp .min)]
      rfl
    | max =>
      rw [if_pos ⟨rfl, rfl⟩, htable, hse, h.rqDecId_value (hp .min), hbucket]
      rfl
  · rw [h₁.rqDecId_members hmax, hcpu, h.rqDecId_members (hp .min)]
    cases id <;> simp
  · rw [rqDecId_idle hmax (h₁.tasks_ne_zero hmax), hcpu, hse, rqDecId_idle (hp .min) hmin, hbucket]
    have hiff : ∀ i, ((rqDecId buckets s p .min).rq (s.task p).cpu).Idles buckets .max i ↔
        (s.rq (s.task p).cpu).Idles buckets .max i := fun i => by
      have heq : ((rqDecId buckets s p .min).rq (s.task p).cpu).uclamp .max =
        (s.rq (s.task p).cpu).uclamp .max := htable _
      simp only [Rq.Idles, heq]
    have hno : ∀ i, ¬ (s.rq (s.task p).cpu).Idles buckets .min i := fun i hi => by cases hi.1
    simp only [hiff, hno, true_and, and_false, decide_false, Bool.or_false]
  · rcases of_mem_rqDecId_warnings hmax (h₁.tasks_ne_zero hmax) hx with hx | ⟨rfl, hlt⟩
    · rcases of_mem_rqDecId_warnings (hp .min) hmin hx with hx | ⟨rfl, hlt⟩
      · exact .inl hx
      · rw [h.bucket p .min (hp .min)] at hlt
        exact .inr ⟨rfl, .min, hlt⟩
    · rw [hcpu, htable, hse, hbucket] at hlt
      exact .inr ⟨by rw [hcpu], .max, hlt⟩

theorem Proper.updates (h : Proper buckets s) (hp : s.active id p = true) (src : Sources buckets) :
    Updates buckets s (uclampUpdateActive s p id src) (s.task p).cpu p id
      (uclampEffGet src).value := by
  have h₁ := h.toCounted.rqDecId p id
  have htasks := h.tasks_ne_zero hp
  have hbucket := h.bucket p id hp
  have hcpu : ((rqDecId buckets s p id).task p).cpu = (s.task p).cpu :=
    (sameTasks_rqDecId buckets s p id).cpu p
  unfold uclampUpdateActive
  rw [if_pos hp]
  have hidle : ((rqDecId buckets s p id).rq (s.task p).cpu).idle = _ :=
    rqDecId_idle hp htasks (s.task p).cpu
  rw [hbucket] at hidle
  simp only [true_and] at hidle
  refine ⟨(State.mem_members _ _ _ _).mpr ⟨rfl, hp⟩, ?_, ?_, fun id' hid => ?_, fun id' => ?_,
    fun q => ?_, fun x hx => ?_⟩
  · rw [rqIncId_idle, hidle]
  · have htable : (rqDecId buckets s p id).table (s.task p).cpu id = _ :=
      rqDecId_table hp htasks (s.task p).cpu id
    rw [if_pos ⟨rfl, rfl⟩, hbucket] at htable
    rw [rqIncId_table, hcpu, if_pos ⟨rfl, rfl⟩, rqIncId_idle, uclampEffGet_bucket]
    unfold Rq.reset State.without
    rw [← htable]
    rfl
  · rw [rqIncId_table, if_neg fun h => hid h.2, rqDecId_table hp htasks, if_neg fun h => hid h.2]
  · rw [rqIncId_members, hcpu, h.rqDecId_members hp]
    split
    · rename_i hid
      rw [hid.2]
      exact Finset.insert_erase ((State.mem_members _ _ _ _).mpr ⟨rfl, hp⟩)
    · rfl
  · rw [rqIncId_value, h.rqDecId_value hp]
    simp
  · rcases of_mem_rqDecId_warnings hp htasks hx with hx | ⟨hx, hlt⟩
    · exact .inl hx
    · exact .inr ⟨hx, hbucket ▸ hlt⟩

end

end ClampQueues
end Sched
end LinuxProg
