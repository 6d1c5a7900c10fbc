/-
# What wake queues do to the tasks

Each waker wakes the tasks that it added, in the order in which it added them
(`woken_in_order`). A request for a task that is already queued is refused, and
still the task is woken after the request (`no_lost_wakeup`). The references
that the queues hold are all given back (`usage_of_trace`), so that a task is
not freed before it has been woken.
-/
import Mathlib
import LinuxProg.Sched.WakeQueue

namespace LinuxProg
namespace Sched
namespace WakeQueue

open Chains Transition

variable {W T : Type*} [DecidableEq W] [DecidableEq T] {s s' : State W T} {l l' : List (Event W T)}
  {e : Event W T} {w v : W} {t : T} {pc pc' : Pc T} {d : T → ℤ}

/-- An event says nothing of the other wakers. -/
theorem Local.other (h : Local s w pc e pc' d) (hv : v ≠ w) (l : List (Event W T)) :
    addedBy v (e :: l) = addedBy v l ∧ wokenBy v (e :: l) = wokenBy v l ∧
      queue v (e :: l) = queue v l := by
  have hv' : w ≠ v := hv.symm
  cases h <;> simp [addedBy, wokenBy, queue, hv']

/-- The task that has been taken off the queue and is not woken yet. -/
def waking : Pc T → List T
  | .wake task _ => [task]
  | _ => []

/-- The tasks added by a waker are those woken, the one on its way and those
still queued, in this order. -/
def Account (s : State W T) (l : List (Event W T)) (w : W) : Prop :=
  addedBy w l = wokenBy w l ++ waking (s.pc w) ++ queue w l

omit [DecidableEq T] in
theorem Refines.clear_eq {x : Ptr T} (hr : Refines s l) (hpc : s.pc w = .clear t x) :
    queue w l = t :: (queue w l).tail := by
  have ht := hr.tied w
  rw [hpc] at ht
  obtain ⟨q, hq, -⟩ := ht
  rw [hq, List.tail_cons]

theorem Refines.account_self (hr : Refines s l) (hacc : Account s l w)
    (h : Local s w (s.pc w) e (s'.pc w) d) : Account s' (e :: l) w := by
  unfold Account at hacc ⊢
  generalize hpc : s.pc w = pc at h hacc
  generalize s'.pc w = pc' at h
  cases h with
  | added safe _ =>
    simp only [addedBy, wokenBy, queue, waking, if_true, List.append_nil] at hacc ⊢
    rw [hacc, List.append_assoc]
  | refused safe _ =>
    cases safe <;> exact hacc
  | clear t x =>
    have hq := hr.clear_eq hpc
    simp only [addedBy, wokenBy, queue, waking, if_true, List.append_nil] at hacc ⊢
    rw [hacc, List.append_assoc, List.singleton_append, ← hq]
  | wake t x =>
    simp only [addedBy, wokenBy, queue, waking, if_true, List.append_nil] at hacc ⊢
    exact hacc
  | advance t safe => cases safe <;> exact hacc
  | _ => exact hacc

/-- Each task that a waker adds is woken by it exactly once, in the order in
which they are added: those woken so far, the one on its way and those still
queued are all that it added, and after `wake_up_q` none is left. -/
theorem woken_in_order {usage : T → ℤ} {heads : W → Head T}
    (h : Trace (start usage heads) Step l s) (w : W) :
    addedBy w l = wokenBy w l ++ waking (s.pc w) ++ queue w l ∧
      (s.pc w = .closed → wokenBy w l = addedBy w l) := by
  have hacc : ∀ w, Account s l w := by
    induction h with
    | init =>
      intro w
      rfl
    | step h hstep ih =>
      intro v
      obtain ⟨w, d, -, hpc, hlocal⟩ := step_cases hstep
      by_cases hv : v = w
      · subst hv
        exact (refines_of_trace h).account_self (ih v) hlocal
      · obtain ⟨hadded, hwoken, hqueue⟩ := hlocal.other hv _
        unfold Account
        rw [hadded, hwoken, hqueue, hpc v hv]
        exact ih v
  refine ⟨hacc w, fun hclosed => ?_⟩
  have ht := (refines_of_trace h).tied w
  rw [hclosed] at ht
  have hw := hacc w
  unfold Account at hw
  rw [hw, hclosed, show queue w l = [] from ht]
  simp [waking]

theorem woken_in_order_refused : ∃ s, Trace (start (fun _ => 2) fun _ => ⟨.null, .first⟩) Step
    refusedRun s ∧ wokenBy false refusedRun = addedBy false refusedRun := by
  obtain ⟨s, h, -, hclosed, -⟩ := refusedRun_trace
  exact ⟨s, h, (woken_in_order h false).2 hclosed⟩

/-! ### Requests -/

/-- An event asks for the task to be woken. -/
def Requests (t : T) : Event W T → Prop
  | .added _ u _ | .refused _ u _ => u = t
  | _ => False

/-- The task is in a queue or has just been taken off one to be woken. -/
def Pending (s : State W T) (l : List (Event W T)) (t : T) : Prop :=
  (∃ w, t ∈ queue w l) ∨ ∃ w, t ∈ waking (s.pc w)

/-- A request leaves the task pending, be it refused. -/
theorem Refines.pending_of_request (hr : Refines s l) (hstep : Step s e s') (hreq : Requests t e) :
    Pending s' (e :: l) t := by
  obtain ⟨w, d, -, -, h⟩ := step_cases hstep
  left
  generalize s.pc w = pc at h
  generalize s'.pc w = pc' at h
  cases h with
  | added safe hnull =>
    cases hreq
    refine ⟨w, ?_⟩
    simp [queue]
  | refused safe hnull =>
    cases hreq
    have hmem : ¬ ∀ w, t ∉ queue w l := fun h => hnull ((hr.null t).mpr h)
    push Not at hmem
    exact hmem
  | _ => cases hreq

/-- A pending task stays so until it is woken. -/
theorem Refines.pending_step (hr : Refines s l) (hstep : Step s e s') (hp : Pending s l t) :
    (∃ w, e = .woken w t) ∨ Pending s' (e :: l) t := by
  obtain ⟨w, d, -, hpc, h⟩ := step_cases hstep
  rcases hp with ⟨v, hv⟩ | ⟨v, hv⟩
  · right
    by_cases hvw : v = w
    · subst hvw
      generalize hpcv : s.pc v = pc at h
      generalize hpcv' : s'.pc v = pc' at h
      cases h with
      | clear u x =>
        rw [hr.clear_eq hpcv] at hv
        rcases List.mem_cons.mp hv with rfl | hv
        · exact .inr ⟨v, by rw [hpcv']; exact List.mem_cons_self⟩
        · exact .inl ⟨v, by simpa [queue] using hv⟩
      | added safe _ => exact .inl ⟨v, by simp [queue, hv]⟩
      | _ => exact .inl ⟨v, hv⟩
    · exact .inl ⟨v, by rw [(h.other hvw l).2.2]; exact hv⟩
  · by_cases hvw : v = w
    · subst hvw
      generalize s.pc v = pc at h hv
      generalize s'.pc v = pc' at h
      cases h with
      | wake u x =>
        left
        exact ⟨v, by rw [List.mem_singleton.mp hv]⟩
      | _ => cases hv
    · right
      exact .inr ⟨v, by rw [hpc v hvw]; exact hv⟩

/-- After a request for a task, be it added or refused, the task is pending
until it is woken. -/
theorem woken_or_pending {usage : T → ℤ} {heads : W → Head T}
    (h : Trace (start usage heads) Step (l' ++ e :: l) s) (hreq : Requests t e) :
    (∃ w, .woken w t ∈ l') ∨ Pending s (l' ++ e :: l) t := by
  induction l' generalizing s with
  | nil =>
    cases h with
    | step h hstep => exact .inr ((refines_of_trace h).pending_of_request hstep hreq)
  | cons a l' ih =>
    cases h with
    | step h hstep =>
      rcases ih h with ⟨w, hw⟩ | hp
      · exact .inl ⟨w, List.mem_cons_of_mem a hw⟩
      · rcases (refines_of_trace h).pending_step hstep hp with ⟨w, rfl⟩ | hp
        · exact .inl ⟨w, List.mem_cons_self⟩
        · exact .inr hp

/-- No wakeup is lost: once a task is in no queue and nobody is about to wake
it, it has been woken after every request for it, the refused ones included. -/
theorem no_lost_wakeup {usage : T → ℤ} {heads : W → Head T}
    (h : Trace (start usage heads) Step (l' ++ e :: l) s) (hreq : Requests t e)
    (hnull : s.next t = .null) (hidle : ∀ w, t ∉ waking (s.pc w)) : ∃ w, .woken w t ∈ l' := by
  rcases woken_or_pending h hreq with hwoken | ⟨w, hw⟩ | ⟨w, hw⟩
  · exact hwoken
  · exact absurd hw (((refines_of_trace h).null t).mp hnull w)
  · exact absurd hw (hidle w)

theorem no_lost_wakeup_refused : ∃ w, Event.woken w () ∈ refusedRun.take 9 := by
  obtain ⟨s, h, hnull, hfirst, hsecond⟩ := refusedRun_trace
  have hidle : ∀ w, () ∉ waking (s.pc w) := by
    intro w
    cases w with
    | false => rw [hfirst]; exact List.not_mem_nil
    | true => rw [hsecond]; exact List.not_mem_nil
  have hsplit : Trace (start (fun _ => 2) fun _ => ⟨.null, .first⟩) Step
      (refusedRun.take 9 ++ .refused true () true :: refusedRun.drop 10) s := h
  exact no_lost_wakeup hsplit rfl hnull hidle

/-! ### References -/

/-- The references to a task that a waker has to give back, less the one that
it is still to take for its queue. -/
def owed (t : T) : Pc T → ℤ
  | .link u safe | .advance u safe => if u = t ∧ safe = false then -1 else 0
  | .get u => if u = t then -1 else 0
  | .drop u | .wake u _ | .put u _ => if u = t then 1 else 0
  | _ => 0

/-- What a step does to the usage count is what the waker owes more, less what
callers gave away. -/
theorem Refines.owed_step (hr : Refines s l) (h : Local s w (s.pc w) e (s'.pc w) d) (t : T) :
    owed t (s'.pc w) + (queue w (e :: l)).count t + given t l =
      owed t (s.pc w) + (queue w l).count t + given t (e :: l) + d t := by
  generalize hpc : s.pc w = pc at h
  generalize s'.pc w = pc' at h
  have hsingle : ∀ (u : T) (n : ℤ), (Pi.single u n : T → ℤ) t = if u = t then n else 0 := by
    intro u n
    rw [Pi.single_apply]
    simp only [eq_comm]
  cases h with
  | @added u safe _ =>
    by_cases hu : u = t
    · cases safe <;> simp [hu, owed, queue, given]
      ring
    · cases safe <;> simp [hu, owed, queue, given]
  | @refused u safe _ =>
    by_cases hu : u = t
    · cases safe <;> simp [hu, owed, queue, given]
      ring
    · cases safe <;> simp [hu, owed, queue, given]
  | advance u safe => cases safe <;> by_cases hu : u = t <;> simp [hu, owed, queue, given]
  | clear u x =>
    simp only [owed, queue, given, if_true]
    rw [hr.clear_eq hpc, List.tail_cons, List.count_cons]
    by_cases hu : u = t <;> simp [hu]
    omega
  | get u =>
    simp only [owed, queue, given, hsingle]
    split_ifs <;> omega
  | drop u =>
    simp only [owed, queue, given, hsingle]
    split_ifs <;> omega
  | put u x =>
    simp only [owed, queue, given, hsingle]
    split_ifs <;> omega
  | _ => simp [owed, queue, given]

section

variable [Fintype W]

/-- What the wakers have to give back of a task. -/
def owedAll (s : State W T) (l : List (Event W T)) (t : T) : ℤ :=
  ∑ w, (owed t (s.pc w) + (queue w l).count t)

/-- The usage count of a task is what it was at the start, less the references
that callers gave away, and what the wakers have to give back. -/
theorem usage_eq {usage : T → ℤ} {heads : W → Head T}
    (h : Trace (start usage heads) Step l s) (t : T) :
    s.usage t + given t l = usage t + owedAll s l t := by
  induction h with
  | init => simp [start, given, owedAll, owed, queue]
  | @step l s s' e h hstep ih =>
    obtain ⟨w, d, husage, hpc, hlocal⟩ := step_cases hstep
    have hw := (refines_of_trace h).owed_step hlocal t
    -- only the summand of the waker that makes the step changes
    have hsum : owedAll s' (e :: l) t - owedAll s l t =
        owed t (s'.pc w) + (queue w (e :: l)).count t -
          (owed t (s.pc w) + (queue w l).count t) := by
      unfold owedAll
      rw [← Finset.sum_sub_distrib]
      apply Finset.sum_eq_single w
      · intro v _ hv
        rw [(hlocal.other hv l).2.2, hpc v hv, sub_self]
      · intro hw
        exact absurd (Finset.mem_univ w) hw
    rw [husage, Pi.add_apply]
    linarith

end

/-- A waker never has to give back less than nothing: the reference that it is
still to take is for a task in its queue. -/
theorem Refines.owed_nonneg (hr : Refines s l) (w : W) (t : T) :
    0 ≤ owed t (s.pc w) + (queue w l).count t := by
  have ht := hr.tied w
  -- before `get_task_struct` the task is the last of the queue
  have hpos : t ∈ queue w l → (1 : ℤ) ≤ (queue w l).count t := fun h => by
    exact_mod_cast List.count_pos_iff.mpr h
  cases hpc : s.pc w with
  | link u safe =>
    rw [hpc] at ht
    obtain ⟨q, hq, -⟩ := ht
    simp only [owed]
    split
    · rename_i hu
      have hmem : t ∈ queue w l := hq ▸ hu.1 ▸ List.mem_append_right q List.mem_cons_self
      have := hpos hmem
      omega
    · omega
  | advance u safe =>
    rw [hpc] at ht
    obtain ⟨q, hq, -⟩ := ht
    simp only [owed]
    split
    · rename_i hu
      have hmem : t ∈ queue w l := hq ▸ hu.1 ▸ List.mem_append_right q List.mem_cons_self
      have := hpos hmem
      omega
    · omega
  | get u =>
    rw [hpc] at ht
    simp only [owed]
    split
    · rename_i hu
      have := hpos (hu ▸ ht.1)
      omega
    · omega
  | _ =>
    simp only [owed]
    try split
    all_goals omega

/-- The task is the one that the waker is at in `wake_up_q`. -/
def Handles (t : T) : Pc T → Prop
  | .clear u _ | .wake u _ | .put u _ => u = t
  | _ => False

theorem Refines.owed_of_handles (hr : Refines s l) (h : Handles t (s.pc w)) :
    1 ≤ owed t (s.pc w) + (queue w l).count t := by
  have ht := hr.tied w
  cases hpc : s.pc w with
  | clear u x =>
    rw [hpc] at ht h
    obtain ⟨q, hq, -⟩ := ht
    cases (show u = t from h)
    rw [hq]
    simp [owed]
  | wake u x =>
    rw [hpc] at h
    cases (show u = t from h)
    simp [owed]
  | put u x =>
    rw [hpc] at h
    cases (show u = t from h)
    simp [owed]
  | _ =>
    rw [hpc] at h
    cases h

/-- The references that wake queues hold. A task never loses a reference that
no caller of `wake_q_add_safe` gave away; while `wake_up_q` is at a task there
is one more, so that the task is not freed before it is woken; and once nobody
deals with the task, all references taken for it are given back. -/
theorem usage_of_trace [Fintype W] {usage : T → ℤ} {heads : W → Head T}
    (h : Trace (start usage heads) Step l s) (t : T) :
    usage t ≤ s.usage t + given t l ∧
      (∀ w, Handles t (s.pc w) → usage t + 1 ≤ s.usage t + given t l) ∧
      (s.next t = .null → (∀ w, owed t (s.pc w) = 0) → s.usage t + given t l = usage t) := by
  have hr := refines_of_trace h
  have heq := usage_eq h t
  have hnonneg : ∀ w ∈ Finset.univ, 0 ≤ owed t (s.pc w) + (queue w l).count t :=
    fun w _ => hr.owed_nonneg w t
  refine ⟨?_, fun w hw => ?_, fun hnull hpc => ?_⟩
  · have hall : 0 ≤ owedAll s l t := Finset.sum_nonneg hnonneg
    omega
  · have hle : owed t (s.pc w) + (queue w l).count t ≤ owedAll s l t :=
      Finset.single_le_sum hnonneg (Finset.mem_univ w)
    have hone := hr.owed_of_handles hw
    omega
  · have hall : owedAll s l t = 0 := by
      apply Finset.sum_eq_zero
      intro w _
      rw [hpc w, List.count_eq_zero.mpr ((hr.null t).mp hnull w)]
      rfl
    omega

/-- The second waker is still to give back the reference of its refused
request, and the task has lost none yet. -/
theorem usage_of_trace_refused : ∃ s, Trace (start (fun _ => 2) fun _ => ⟨.null, .first⟩) Step
    refusedRun s ∧ 2 ≤ s.usage () + given () refusedRun := by
  obtain ⟨s, h, -⟩ := refusedRun_trace
  exact ⟨s, h, (usage_of_trace h ()).1⟩

end WakeQueue
end Sched
end LinuxProg
