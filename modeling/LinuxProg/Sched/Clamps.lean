/-
# Utilization clamps of a runqueue

A task has a lower and an upper clamp of its utilization, from 0 to 1024. While
it is queued on a CPU each of the two is counted in one of `UCLAMP_BUCKETS`
buckets of the runqueue, and `rq->uclamp[id].value` keeps the greatest value of
the tasks counted. `CONFIG_UCLAMP_BUCKETS_COUNT` is the parameter `buckets`.
-/
import Mathlib
import LinuxProg.Lib.Buckets

namespace LinuxProg
namespace Sched
namespace Clamps

open Buckets

/-! ### Clamp values -/

/-- `enum uclamp_id`. -/
inductive ClampId where
  | min
  | max
  deriving DecidableEq

def schedCapacityScale : ℕ := 1024

/-- `struct uclamp_se`. -/
structure UclampSe where
  value : ℕ
  bucketId : ℕ
  active : Bool
  userDefined : Bool
  deriving DecidableEq

/-- `UCLAMP_BUCKET_DELTA`: the quotient of the scale and the number of buckets,
rounded to the closest. -/
def bucketDelta (buckets : ℕ) : ℕ := (schedCapacityScale + buckets / 2) / buckets

def uclampBucketId (buckets clampValue : ℕ) : ℕ :=
  Nat.min (clampValue / bucketDelta buckets) (buckets - 1)

def uclampNone : ClampId → ℕ
  | .min => 0
  | .max => schedCapacityScale

/-- `uclamp_se_set`. -/
def uclampSeSet (buckets : ℕ) (se : UclampSe) (value : ℕ) (userDefined : Bool) : UclampSe :=
  { se with value := value, bucketId := uclampBucketId buckets value, userDefined := userDefined }

variable {buckets : ℕ}

theorem uclampBucketId_lt (h : 0 < buckets) (v : ℕ) : uclampBucketId buckets v < buckets := by
  unfold uclampBucketId
  exact lt_of_le_of_lt (Nat.min_le_right _ _) (by omega)

theorem uclampBucketId_mono {v w : ℕ} (h : v ≤ w) :
    uclampBucketId buckets v ≤ uclampBucketId buckets w :=
  min_le_min_right _ (Nat.div_le_div_right h)

/-! ### The effective clamp of a task -/

/-- What the effective clamp of a task comes from: its own request, the effective
clamp of its group, unless that is the root group or an autogroup, and the
default of the system. All of them have been set by `uclamp_se_set`. -/
structure Sources (buckets : ℕ) where
  req : UclampSe
  group : Option UclampSe
  default : UclampSe
  req_bucket : req.bucketId = uclampBucketId buckets req.value
  group_bucket : ∀ se ∈ group, se.bucketId = uclampBucketId buckets se.value
  default_bucket : default.bucketId = uclampBucketId buckets default.value

def uclampTgRestrict (x : Sources buckets) : UclampSe :=
  match x.group with
  | none => x.req
  | some ucMax => if ucMax.value < x.req.value ∨ x.req.userDefined = false then ucMax else x.req

def uclampEffGet (x : Sources buckets) : UclampSe :=
  if x.default.value < (uclampTgRestrict x).value then x.default else uclampTgRestrict x

theorem uclampTgRestrict_bucket (x : Sources buckets) :
    (uclampTgRestrict x).bucketId = uclampBucketId buckets (uclampTgRestrict x).value := by
  unfold uclampTgRestrict
  split
  · exact x.req_bucket
  · rename_i ucMax hgroup
    split
    · exact x.group_bucket ucMax hgroup
    · exact x.req_bucket

theorem uclampEffGet_bucket (x : Sources buckets) :
    (uclampEffGet x).bucketId = uclampBucketId buckets (uclampEffGet x).value := by
  unfold uclampEffGet
  split
  · exact x.default_bucket
  · exact uclampTgRestrict_bucket x

/-! ### The clamps of a runqueue -/

/-- `struct uclamp_rq`. -/
abbrev UclampRq := Table ℕ

/-- The clamps of a runqueue; `idle` is `UCLAMP_FLAG_IDLE` of `uclamp_flags`. -/
structure Rq where
  uclamp : ClampId → UclampRq
  idle : Bool

def Rq.setUclamp (rq : Rq) (id : ClampId) (t : UclampRq) : Rq :=
  { rq with uclamp := Function.update rq.uclamp id t }

def Rq.setValue (rq : Rq) (id : ClampId) (value : ℕ) : Rq :=
  rq.setUclamp id { rq.uclamp id with value := value }

def Rq.setBucket (rq : Rq) (id : ClampId) (i : ℕ) (bucket : Bucket ℕ) : Rq :=
  rq.setUclamp id { rq.uclamp id with bucket := Function.update (rq.uclamp id).bucket i bucket }

def initUclampRq : Rq where
  uclamp id := ⟨uclampNone id, fun _ => ⟨0, 0⟩⟩
  idle := false

/-- `uclamp_idle_value`, with the runqueue it leaves. -/
def uclampIdleValue (rq : Rq) (id : ClampId) (clampValue : ℕ) : ℕ × Rq :=
  match id with
  | .max => (clampValue, { rq with idle := true })
  | .min => (uclampNone .min, rq)

def uclampIdleReset (rq : Rq) (id : ClampId) (clampValue : ℕ) : Rq :=
  if rq.idle = false then rq else rq.setValue id clampValue

/-- `uclamp_rq_max_value`: `top` is its loop, from the last bucket down. -/
def uclampRqMaxValue (buckets : ℕ) (rq : Rq) (id : ClampId) (clampValue : ℕ) : ℕ × Rq :=
  match top (rq.uclamp id).bucket buckets with
  | some value => (value, rq)
  | none => uclampIdleValue rq id clampValue

/-- `uclamp_rq_inc_id`; `eff` is the effective clamp of the task. -/
def uclampRqIncId (rq : Rq) (eff : UclampSe) (id : ClampId) : Rq × UclampSe :=
  let ucSe := { eff with active := true }
  let bucket := (rq.uclamp id).bucket ucSe.bucketId
  let tasks := bucket.tasks + 1
  let rq := uclampIdleReset rq id ucSe.value
  -- local max aggregation
  let value := if tasks = 1 ∨ bucket.value < ucSe.value then ucSe.value else bucket.value
  let rq := rq.setBucket id ucSe.bucketId ⟨value, tasks⟩
  (if (rq.uclamp id).value < ucSe.value then rq.setValue id ucSe.value else rq, ucSe)

/-- The two `SCHED_WARN_ON` of `uclamp_rq_dec_id`. -/
inductive Warning where
  | noTasks
  | aboveRq
  deriving DecidableEq

/-- `uclamp_rq_dec_id`, with the warnings. -/
def uclampRqDecId (buckets : ℕ) (rq : Rq) (ucSe : UclampSe) (id : ClampId) :
    Rq × UclampSe × List Warning :=
  if ucSe.active = false then (rq, ucSe, []) else
  let bucket := (rq.uclamp id).bucket ucSe.bucketId
  let warnings := if bucket.tasks = 0 then [Warning.noTasks] else []
  let tasks := if bucket.tasks ≠ 0 then bucket.tasks - 1 else bucket.tasks
  let rq := rq.setBucket id ucSe.bucketId { bucket with tasks := tasks }
  let ucSe := { ucSe with active := false }
  if tasks ≠ 0 then (rq, ucSe, warnings) else
  let rqClamp := (rq.uclamp id).value
  let warnings := warnings ++ if rqClamp < bucket.value then [Warning.aboveRq] else []
  if rqClamp ≤ bucket.value then
    let (bktClamp, rq) := uclampRqMaxValue buckets rq id ucSe.value
    (rq.setValue id bktClamp, ucSe, warnings)
  else (rq, ucSe, warnings)

/-- The table after `uclamp_idle_reset`. -/
def Rq.reset (rq : Rq) (id : ClampId) (value : ℕ) : UclampRq :=
  if rq.idle then { rq.uclamp id with value := value } else rq.uclamp id

theorem Rq.reset_bucket (rq : Rq) (id : ClampId) (value : ℕ) :
    (rq.reset id value).bucket = (rq.uclamp id).bucket := by
  unfold Rq.reset
  split
  · rfl
  · rfl

/-- The runqueue after a task has been counted. -/
theorem uclampRqIncId_eq (rq : Rq) (eff : UclampSe) (id : ClampId) :
    uclampRqIncId rq eff id =
      (rq.setUclamp id ((rq.reset id eff.value).insert eff.bucketId eff.value),
        { eff with active := true }) := by
  unfold uclampRqIncId uclampIdleReset Rq.reset
  cases h : rq.idle
  · simp [Rq.setBucket, Rq.setValue, Rq.setUclamp, Table.insert, Bucket.add]
    split <;> simp_all
  · simp [Rq.setBucket, Rq.setValue, Rq.setUclamp, Table.insert, Bucket.add]

/-- The value that is left when no task is counted any more. -/
def restValue : ClampId → ℕ → ℕ
  | .min, _ => uclampNone .min
  | .max, clampValue => clampValue

/-- The flag is set when the last task that is counted goes, and the value for the
runqueue was no greater than its bucket's. -/
def Rq.Idles (buckets : ℕ) (rq : Rq) (id : ClampId) (i : ℕ) : Prop :=
  id = .max ∧ ((rq.uclamp id).bucket i).drop.tasks = 0 ∧
    (rq.uclamp id).value ≤ ((rq.uclamp id).bucket i).value ∧
      top (Function.update (rq.uclamp id).bucket i ((rq.uclamp id).bucket i).drop) buckets = none

instance (buckets : ℕ) (rq : Rq) (id : ClampId) (i : ℕ) : Decidable (rq.Idles buckets id i) :=
  inferInstanceAs (Decidable (_ ∧ _))

/-- The runqueue after a task that was counted has left. -/
theorem uclampRqDecId_eq (buckets : ℕ) (rq : Rq) {ucSe : UclampSe} {id : ClampId}
    (hactive : ucSe.active = true) (htasks : ((rq.uclamp id).bucket ucSe.bucketId).tasks ≠ 0) :
    uclampRqDecId buckets rq ucSe id =
      ({ rq.setUclamp id ((rq.uclamp id).remove buckets ucSe.bucketId (restValue id ucSe.value)) with
          idle := rq.idle || decide (rq.Idles buckets id ucSe.bucketId) },
        { ucSe with active := false },
        if ((rq.uclamp id).bucket ucSe.bucketId).drop.tasks = 0 ∧
          (rq.uclamp id).value < ((rq.uclamp id).bucket ucSe.bucketId).value then [.aboveRq]
        else []) := by
  unfold uclampRqDecId Rq.Idles
  simp only [hactive, htasks, Bool.true_eq_false, if_false, ne_eq, not_false_eq_true, if_true,
    List.nil_append, Bucket.drop_tasks, Rq.setBucket, Rq.setUclamp, Function.update_self,
    Table.remove]
  have hdrop : ((rq.uclamp id).bucket ucSe.bucketId).drop =
    { (rq.uclamp id).bucket ucSe.bucketId with
      tasks := ((rq.uclamp id).bucket ucSe.bucketId).tasks - 1 } := rfl
  rw [← hdrop]
  by_cases hleft : ((rq.uclamp id).bucket ucSe.bucketId).tasks - 1 = 0
  · by_cases hlt : (rq.uclamp id).value ≤ ((rq.uclamp id).bucket ucSe.bucketId).value
    · simp only [hleft, hlt, not_lt.mpr hlt, not_true_eq_false, if_false, if_true, or_self, true_and,
        uclampRqMaxValue, Function.update_self]
      cases htop : top (Function.update (rq.uclamp id).bucket ucSe.bucketId
        ((rq.uclamp id).bucket ucSe.bucketId).drop) buckets with
      | some value => simp [Rq.setValue, Rq.setUclamp]
      | none => cases id <;> simp [Rq.setValue, Rq.setUclamp, uclampIdleValue, restValue]
    · simp [hleft, hlt, not_le.mp hlt, (not_le.mp hlt).not_gt]
  · simp [hleft]

end Clamps
end Sched
end LinuxProg
