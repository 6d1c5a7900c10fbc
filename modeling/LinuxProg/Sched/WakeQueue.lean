/-
# Wake queues

`wake_q_add` and `wake_q_add_safe` put tasks on a queue of the caller, linked
through the field `wake_q` that each task has once, and `wake_up_q` wakes the
tasks of the queue. Any number of wakers run at the same time, each with a
`wake_q_head` of its own; what they share is `task->wake_q.next`, which the
`cmpxchg` of `__wake_q_add` claims, and `task->usage`. A step is one access to
what is shared, in any order of the wakers (the memory is sequentially
consistent: the barriers are not modelled).

`wake_q_init`, `get_task_struct` and `put_task_struct` are in headers of the
kernel: an empty queue has the tail value in `first` and its place in `lastp`,
and the other two count. A queue is used again only after `wake_q_init`.

A history tells what is in the queues: the tasks added and not yet taken
(`queue`). The memory at the end of a run is the one that its history says
(`refines_of_trace`).
-/
import Mathlib
import LinuxProg.Lib.Chains
import LinuxProg.Lib.Transition

namespace LinuxProg
namespace Sched
namespace WakeQueue

open Chains Transition

/-! ### The wakers -/

/-- Where a waker is. -/
inductive Pc (T : Type*) where
  /-- Between two calls, with a queue that takes tasks. -/
  | ready
  /-- Before `*head->lastp = node`. -/
  | link (task : T) (safe : Bool)
  /-- Before `head->lastp = &node->next`. -/
  | advance (task : T) (safe : Bool)
  /-- Before `get_task_struct(task)`. -/
  | get (task : T)
  /-- Before the `put_task_struct(task)` of `wake_q_add_safe`. -/
  | drop (task : T)
  /-- Before `while (node != WAKE_Q_TAIL)`. -/
  | loop (node : Ptr T)
  /-- Before `task->wake_q.next = NULL`. -/
  | clear (task : T) (node : Ptr T)
  /-- Before `wake_up_process(task)`. -/
  | wake (task : T) (node : Ptr T)
  /-- Before the `put_task_struct(task)` of `wake_up_q`. -/
  | put (task : T) (node : Ptr T)
  /-- After `wake_up_q`, before the next `wake_q_init`. -/
  | closed
  deriving DecidableEq

structure State (W T : Type*) where
  /-- `task->wake_q.next`. -/
  next : T → Ptr T
  /-- `task->usage`. -/
  usage : T → ℤ
  heads : W → Head T
  pc : W → Pc T

inductive Act (W T : Type*) where
  | init (w : W)
  | add (w : W) (task : T) (safe : Bool)
  | wakeUp (w : W)
  /-- The next access of the call that the waker is in. -/
  | go (w : W)

/-- What a step does that others are told of. -/
inductive Event (W T : Type*) where
  | added (w : W) (task : T) (safe : Bool)
  | refused (w : W) (task : T) (safe : Bool)
  | taken (w : W) (task : T)
  | woken (w : W) (task : T)
  | quiet
  deriving DecidableEq

variable {W T : Type*} [DecidableEq W] [DecidableEq T]

def State.setPc (s : State W T) (w : W) (pc : Pc T) : State W T :=
  { s with pc := Function.update s.pc w pc }

def State.setHead (s : State W T) (w : W) (h : Head T) : State W T :=
  { s with heads := Function.update s.heads w h }

def State.setNext (s : State W T) (t : T) (x : Ptr T) : State W T :=
  { s with next := Function.update s.next t x }

def State.addUsage (s : State W T) (t : T) (n : ℤ) : State W T :=
  { s with usage := Function.update s.usage t (s.usage t + n) }

/-- `wake_q_init`. -/
def wakeQInit (s : State W T) (w : W) : State W T :=
  (s.setHead w ⟨.tail, .first⟩).setPc w .ready

/-- `wake_q_add` and `wake_q_add_safe` up to the end of the `cmpxchg` in
`__wake_q_add`. -/
def wakeQAdd (s : State W T) (w : W) (task : T) (safe : Bool) : Event W T × State W T :=
  if s.next task = .null then
    (.added w task safe, (s.setNext task .tail).setPc w (.link task safe))
  else (.refused w task safe, s.setPc w (if safe then .drop task else .ready))

/-- `*head->lastp = node`. -/
def linkNode (s : State W T) (w : W) (task : T) : State W T :=
  { s with
    next := ((s.heads w).store s.next (.node task)).2
    heads := Function.update s.heads w ((s.heads w).store s.next (.node task)).1 }

/-- The rest of the calls; to look at the node that a null pointer stands for
is not possible. -/
def advanceCall (s : State W T) (w : W) : Pc T → Option (Event W T × State W T)
  | .link task safe => some (.quiet, (linkNode s w task).setPc w (.advance task safe))
  | .advance task safe =>
    some (.quiet, (s.setHead w { s.heads w with lastp := .next task }).setPc w
      (if safe then .ready else .get task))
  | .get task => some (.quiet, (s.addUsage task 1).setPc w .ready)
  | .drop task => some (.quiet, (s.addUsage task (-1)).setPc w .ready)
  | .loop .null => none
  | .loop .tail => some (.quiet, s.setPc w .closed)
  | .loop (.node task) => some (.quiet, s.setPc w (.clear task (s.next task)))
  | .clear task node => some (.taken w task, (s.setNext task .null).setPc w (.wake task node))
  | .wake task node => some (.woken w task, s.setPc w (.put task node))
  | .put task node => some (.quiet, (s.addUsage task (-1)).setPc w (.loop node))
  | .ready => none
  | .closed => none

/-- One step of the system. -/
def exec (s : State W T) : Act W T → Option (Event W T × State W T)
  | .init w => if s.pc w = .closed then some (.quiet, wakeQInit s w) else none
  | .add w task safe => if s.pc w = .ready then some (wakeQAdd s w task safe) else none
  | .wakeUp w =>
    if s.pc w = .ready then some (.quiet, s.setPc w (.loop (s.heads w).first)) else none
  | .go w => advanceCall s w (s.pc w)

def Step (s : State W T) (e : Event W T) (s' : State W T) : Prop :=
  ∃ a, exec s a = some (e, s')

/-- No task is in a queue, and every waker has to call `wake_q_init` first. -/
def start (usage : T → ℤ) (heads : W → Head T) : State W T where
  next _ := .null
  usage := usage
  heads := heads
  pc _ := .closed

/-! ### What a history says -/

/-- The tasks added by the waker and not yet taken by it, in order; the last
event of a history stands first. -/
def queue (w : W) : List (Event W T) → List T
  | [] => []
  | .added v task _ :: l => if v = w then queue w l ++ [task] else queue w l
  | .taken v _ :: l => if v = w then (queue w l).tail else queue w l
  | .refused _ _ _ :: l | .woken _ _ :: l | .quiet :: l => queue w l

/-- The tasks that the waker added, in order. -/
def addedBy (w : W) : List (Event W T) → List T
  | [] => []
  | .added v task _ :: l => if v = w then addedBy w l ++ [task] else addedBy w l
  | _ :: l => addedBy w l

/-- The tasks that the waker woke, in order. -/
def wokenBy (w : W) : List (Event W T) → List T
  | [] => []
  | .woken v task :: l => if v = w then wokenBy w l ++ [task] else wokenBy w l
  | _ :: l => wokenBy w l

/-- The references that callers of `wake_q_add_safe` gave away. -/
def given (task : T) : List (Event W T) → ℤ
  | [] => 0
  | .added _ t safe :: l | .refused _ t safe :: l =>
    given task l + if t = task ∧ safe = true then 1 else 0
  | _ :: l => given task l

/-! ### The memory of a run -/

/-- What the place of a waker says of its queue. -/
def Tied (next : T → Ptr T) (h : Head T) (q : List T) : Pc T → Prop
  | .ready | .drop _ => Holds next h q
  | .link task _ => ∃ q', q = q' ++ [task] ∧ Holds next h q' ∧ next task = .tail
  | .advance task _ => ∃ q', q = q' ++ [task] ∧ Chain next h.first q
  | .get task => task ∈ q ∧ Holds next h q
  | .loop node | .wake _ node | .put _ node => Chain next node q
  | .clear task node => ∃ q', q = task :: q' ∧ Chain next node q'
  | .closed => q = []

/-- The memory is the one that the history says. -/
structure Refines (s : State W T) (l : List (Event W T)) : Prop where
  nodup : ∀ w, (queue w l).Nodup
  apart : ∀ w v t, t ∈ queue w l → t ∈ queue v l → w = v
  null : ∀ t, s.next t = .null ↔ ∀ w, t ∉ queue w l
  tied : ∀ w, Tied s.next (s.heads w) (queue w l) (s.pc w)

variable {s s' : State W T} {l l' : List (Event W T)} {e : Event W T} {w v : W} {task t : T}
  {next next' : T → Ptr T} {h : Head T} {q : List T} {pc : Pc T}

section

omit [DecidableEq T]

theorem Tied.congr (ht : Tied next h q pc) (heq : ∀ t ∈ q, next' t = next t) :
    Tied next' h q pc := by
  cases pc with
  | ready => exact Holds.congr ht heq
  | drop _ => exact Holds.congr ht heq
  | link task _ =>
    obtain ⟨q', rfl, hq', htail⟩ := ht
    have hmem : task ∈ q' ++ [task] := List.mem_append_right q' List.mem_cons_self
    refine ⟨q', rfl, hq'.congr fun t ht => heq t (List.mem_append_left _ ht), ?_⟩
    rw [heq task hmem]
    exact htail
  | advance task _ =>
    obtain ⟨q', hq', hc⟩ := ht
    exact ⟨q', hq', hc.congr heq⟩
  | get _ => exact ⟨ht.1, ht.2.congr heq⟩
  | loop _ => exact Chain.congr ht heq
  | wake _ _ => exact Chain.congr ht heq
  | put _ _ => exact Chain.congr ht heq
  | clear _ _ =>
    obtain ⟨q', rfl, hc⟩ := ht
    exact ⟨q', rfl, hc.congr fun t ht => heq t (List.mem_cons_of_mem _ ht)⟩
  | closed => exact ht

/-- A task that no other waker has is in no queue if the waker does not have it. -/
theorem notMem_queue_iff {t : T} (hother : ∀ v, v ≠ w → t ∉ queue v l) :
    (∀ v, t ∉ queue v l) ↔ t ∉ queue w l := by
  refine ⟨fun h => h w, fun h v => ?_⟩
  by_cases hv : v = w
  · exact hv ▸ h
  · exact hother v hv

/-- A step of one waker that leaves the tasks of the others as they are. -/
theorem Refines.of_own (hr : Refines s l) (w : W)
    (hq : ∀ v, v ≠ w → queue v l' = queue v l)
    (hheads : ∀ v, v ≠ w → s'.heads v = s.heads v) (hpc : ∀ v, v ≠ w → s'.pc v = s.pc v)
    (hnext : ∀ v, v ≠ w → ∀ t ∈ queue v l, s'.next t = s.next t)
    (hnodup : (queue w l').Nodup) (hapart : ∀ v, v ≠ w → ∀ t ∈ queue w l', t ∉ queue v l)
    (hnull : ∀ t, (∀ v, v ≠ w → t ∉ queue v l) → (s'.next t = .null ↔ t ∉ queue w l'))
    (htied : Tied s'.next (s'.heads w) (queue w l') (s'.pc w)) : Refines s' l' where
  nodup v := by
    by_cases hv : v = w
    · exact hv ▸ hnodup
    · rw [hq v hv]
      exact hr.nodup v
  apart v u t hvt hut := by
    by_cases hv : v = w <;> by_cases hu : u = w
    · rw [hv, hu]
    · subst hv
      rw [hq u hu] at hut
      exact absurd hut (hapart u hu t hvt)
    · subst hu
      rw [hq v hv] at hvt
      exact absurd hvt (hapart v hv t hut)
    · rw [hq v hv] at hvt
      rw [hq u hu] at hut
      exact hr.apart v u t hvt hut
  null t := by
    by_cases hother : ∀ v, v ≠ w → t ∉ queue v l
    · have hother' : ∀ v, v ≠ w → t ∉ queue v l' := by
        intro v hv
        rw [hq v hv]
        exact hother v hv
      rw [hnull t hother, notMem_queue_iff hother']
    · push Not at hother
      obtain ⟨v, hv, ht⟩ := hother
      rw [hnext v hv t ht]
      refine ⟨fun h => absurd ht ((hr.null t).mp h v), fun h => absurd ht ?_⟩
      rw [← hq v hv]
      exact h v
  tied v := by
    by_cases hv : v = w
    · exact hv ▸ htied
    · rw [hq v hv, hheads v hv, hpc v hv]
      exact (hr.tied v).congr (hnext v hv)

@[simp]
theorem State.setPc_pc_self (s : State W T) (w : W) (pc : Pc T) : (s.setPc w pc).pc w = pc := by
  simp [State.setPc]

theorem State.setPc_pc_of_ne (s : State W T) (pc : Pc T) (hv : v ≠ w) :
    (s.setPc w pc).pc v = s.pc v := by
  simp [State.setPc, hv]

@[simp]
theorem State.setHead_heads_self (s : State W T) (w : W) (h : Head T) :
    (s.setHead w h).heads w = h := by
  simp [State.setHead]

theorem State.setHead_heads_of_ne (s : State W T) (h : Head T) (hv : v ≠ w) :
    (s.setHead w h).heads v = s.heads v := by
  simp [State.setHead, hv]

/-- A step that changes no queue and no link. -/
theorem Refines.of_quiet (hr : Refines s l) (hq : ∀ v, queue v l' = queue v l)
    (hnext : s'.next = s.next) (hheads : ∀ v, v ≠ w → s'.heads v = s.heads v)
    (hpc : ∀ v, v ≠ w → s'.pc v = s.pc v)
    (htied : Tied s.next (s'.heads w) (queue w l) (s'.pc w)) : Refines s' l' := by
  apply hr.of_own w (fun v _ => hq v) hheads hpc
  · intro v _ t _
    rw [hnext]
  · rw [hq w]
    exact hr.nodup w
  · intro v hv t ht htv
    rw [hq w] at ht
    exact hv (hr.apart v w t htv ht)
  · intro t hother
    rw [hnext, hq w, hr.null t]
    exact notMem_queue_iff hother
  · rw [hnext, hq w]
    exact htied

/-- A step that moves a waker and changes no memory of the queues. -/
theorem Refines.of_setPc {s₁ : State W T} {pc : Pc T} (hr : Refines s l)
    (hq : ∀ v, queue v l' = queue v l) (hnext : s₁.next = s.next) (hheads : s₁.heads = s.heads)
    (hpc : s₁.pc = s.pc) (htied : Tied s.next (s.heads w) (queue w l) pc) :
    Refines (s₁.setPc w pc) l' := by
  refine hr.of_quiet (w := w) hq hnext (fun v _ => congrFun hheads v) (fun v hv => ?_) ?_
  · rw [State.setPc_pc_of_ne _ _ hv, hpc]
  · rw [State.setPc_pc_self]
    show Tied s.next (s₁.heads w) (queue w l) pc
    rw [hheads]
    exact htied

theorem Refines.init (hr : Refines s l) (hpc : s.pc w = .closed) :
    Refines (wakeQInit s w) (.quiet :: l) := by
  have hq : queue w l = [] := by
    have ht := hr.tied w
    rw [hpc] at ht
    exact ht
  refine hr.of_quiet (w := w) (fun _ => ?_) ?_ (fun v hv => ?_) (fun v hv => ?_) ?_
  · rfl
  · rfl
  · exact State.setHead_heads_of_ne s _ hv
  · exact State.setPc_pc_of_ne _ _ hv
  · rw [hq]
    simp only [wakeQInit, State.setPc_pc_self]
    show Holds s.next ((s.setHead w ⟨.tail, .first⟩).heads w) []
    rw [State.setHead_heads_self]
    exact holds_nil s.next

theorem Refines.wakeUp (hr : Refines s l) (hpc : s.pc w = .ready) :
    Refines (s.setPc w (.loop (s.heads w).first)) (.quiet :: l) := by
  have ht := hr.tied w
  rw [hpc] at ht
  exact hr.of_setPc (fun _ => rfl) rfl rfl rfl ht.chain

end

/-- The `cmpxchg` takes a task that is in no queue. -/
theorem Refines.add (hr : Refines s l) (hpc : s.pc w = .ready) (task : T) (safe : Bool) :
    Refines (wakeQAdd s w task safe).2 ((wakeQAdd s w task safe).1 :: l) := by
  have hw : Holds s.next (s.heads w) (queue w l) := by
    have ht := hr.tied w
    rw [hpc] at ht
    exact ht
  unfold wakeQAdd
  split
  · rename_i hfree
    have hout := (hr.null task).mp hfree
    have hself : queue w (.added w task safe :: l) = queue w l ++ [task] := if_pos rfl
    have hother : ∀ v, v ≠ w → queue v (.added w task safe :: l) = queue v l :=
      fun v hv => if_neg hv.symm
    have hnext : ∀ t, t ≠ task → Function.update s.next task .tail t = s.next t :=
      fun t ht => Function.update_of_ne ht .tail s.next
    have hne : ∀ v, ∀ t ∈ queue v l, t ≠ task := fun v t ht h => hout v (h ▸ ht)
    apply hr.of_own w hother
    · intro v _
      rfl
    · intro v hv
      exact State.setPc_pc_of_ne _ _ hv
    · intro v _ t ht
      exact hnext t (hne v t ht)
    · rw [hself]
      exact List.nodup_append.mpr ⟨hr.nodup w, List.nodup_singleton task, fun a ha b hb =>
        (List.mem_singleton.mp hb) ▸ hne w a ha⟩
    · intro v hv t ht htv
      rw [hself] at ht
      rcases List.mem_append.mp ht with ht | ht
      · exact hv (hr.apart v w t htv ht)
      · exact hout v ((List.mem_singleton.mp ht) ▸ htv)
    · intro t hnot
      show Function.update s.next task .tail t = .null ↔ _
      rw [hself]
      by_cases ht : t = task
      · subst ht
        simp
      · rw [hnext t ht, hr.null t, List.mem_append, List.mem_singleton]
        refine ⟨fun h => not_or.mpr ⟨h w, ht⟩, fun h v => ?_⟩
        by_cases hv : v = w
        · exact hv ▸ fun hmem => h (Or.inl hmem)
        · exact hnot v hv
    · rw [hself, State.setPc_pc_self]
      refine ⟨queue w l, rfl, hw.congr fun t ht => hnext t (hne w t ht), ?_⟩
      show Function.update s.next task .tail task = .tail
      rw [Function.update_self]
  · refine hr.of_setPc (w := w) (fun _ => ?_) ?_ ?_ ?_ ?_
    · rfl
    · rfl
    · rfl
    · rfl
    · cases safe with
      | false => exact hw
      | true => exact hw

/-- `*head->lastp = node` writes to a node of the waker's own queue, or to its head. -/
theorem Refines.link {safe : Bool} (hr : Refines s l) (hpc : s.pc w = .link task safe) :
    Refines ((linkNode s w task).setPc w (.advance task safe)) (.quiet :: l) := by
  have ht := hr.tied w
  rw [hpc] at ht
  obtain ⟨q', hq', hholds, htail⟩ := ht
  have hnodup := hr.nodup w
  rw [hq'] at hnodup
  obtain ⟨hnodup', -, hdisj⟩ := List.nodup_append.mp hnodup
  have htask : task ∉ q' := fun h => hdisj task h task List.mem_cons_self rfl
  have hchain := hholds.store hnodup' htask htail
  have hnext : ∀ t, t ∉ q' → ((s.heads w).store s.next (.node task)).2 t = s.next t :=
    fun t ht => hholds.store_of_notMem ht _
  refine hr.of_own w (fun _ _ => ?_) (fun v hv => ?_) (fun v hv => ?_) ?_ ?_ ?_ ?_ ?_
  · rfl
  · exact Function.update_of_ne hv _ s.heads
  · exact State.setPc_pc_of_ne _ _ hv
  · intro v hv t ht
    apply hnext t
    intro htq
    exact hv (hr.apart v w t ht (hq' ▸ List.mem_append_left _ htq))
  · exact hr.nodup w
  · intro v hv t ht htv
    exact hv (hr.apart v w t htv ht)
  · intro t hother
    show ((s.heads w).store s.next (.node task)).2 t = .null ↔ t ∉ queue w l
    rw [hq']
    by_cases htq : t ∈ q'
    · have hmem := List.mem_append_left [task] htq
      exact iff_of_false (hchain.ne_null t hmem) (fun h => h hmem)
    · rw [hnext t htq, hr.null t, ← hq']
      exact notMem_queue_iff hother
  · rw [State.setPc_pc_self]
    refine ⟨q', hq', ?_⟩
    show Chain ((s.heads w).store s.next (.node task)).2
      (Function.update s.heads w ((s.heads w).store s.next (.node task)).1 w).first (queue w l)
    rw [Function.update_self, hq']
    exact hchain

/-- The first task of the queue is taken off. -/
theorem Refines.clear {node : Ptr T} (hr : Refines s l) (hpc : s.pc w = .clear task node) :
    Refines ((s.setNext task .null).setPc w (.wake task node)) (.taken w task :: l) := by
  have ht := hr.tied w
  rw [hpc] at ht
  obtain ⟨q', hq', hchain⟩ := ht
  have hself : queue w (.taken w task :: l) = q' := by
    show (if w = w then (queue w l).tail else queue w l) = q'
    rw [if_pos rfl, hq', List.tail_cons]
  have hother : ∀ v, v ≠ w → queue v (.taken w task :: l) = queue v l :=
    fun v hv => if_neg hv.symm
  have hmem : task ∈ queue w l := hq' ▸ List.mem_cons_self
  have hsub : ∀ t ∈ q', t ∈ queue w l := fun t ht => hq' ▸ List.mem_cons_of_mem task ht
  have hnodup := hr.nodup w
  rw [hq'] at hnodup
  obtain ⟨htask, hnodup'⟩ := List.nodup_cons.mp hnodup
  have hnext : ∀ t, t ≠ task → Function.update s.next task .null t = s.next t :=
    fun t ht => Function.update_of_ne ht .null s.next
  refine hr.of_own w hother (fun v hv => ?_) (fun v hv => ?_) ?_ ?_ ?_ ?_ ?_
  · rfl
  · exact State.setPc_pc_of_ne _ _ hv
  · intro v hv t ht
    apply hnext t
    rintro rfl
    exact hv (hr.apart v w t ht hmem)
  · rw [hself]
    exact hnodup'
  · intro v hv t ht htv
    rw [hself] at ht
    exact hv (hr.apart v w t htv (hsub t ht))
  · intro t hnot
    show Function.update s.next task .null t = .null ↔ _
    rw [hself]
    by_cases ht : t = task
    · subst ht
      rw [Function.update_self]
      exact iff_of_true rfl htask
    · rw [hnext t ht, hr.null t]
      refine ⟨fun h htq => h w (hsub t htq), fun h v => ?_⟩
      by_cases hv : v = w
      · rw [hv, hq']
        exact List.not_mem_cons_of_ne_of_not_mem ht h
      · exact hnot v hv
  · rw [hself, State.setPc_pc_self]
    apply hchain.congr
    intro t ht
    exact hnext t fun h => htask (h ▸ ht)

omit [DecidableEq T] in
/-- `head->lastp = &node->next`, for the node that is now the last. -/
theorem Refines.advance {safe : Bool} (hr : Refines s l) (hpc : s.pc w = .advance task safe) :
    Refines ((s.setHead w { s.heads w with lastp := .next task }).setPc w
      (if safe then .ready else .get task)) (.quiet :: l) := by
  have ht := hr.tied w
  rw [hpc] at ht
  obtain ⟨q', hq', hchain⟩ := ht
  have hholds : Holds s.next { s.heads w with lastp := .next task } (queue w l) := by
    rw [hq'] at hchain ⊢
    exact hchain.holds_snoc
  refine hr.of_quiet (w := w) (fun _ => ?_) ?_ (fun v hv => ?_) (fun v hv => ?_) ?_
  · rfl
  · rfl
  · exact State.setHead_heads_of_ne s _ hv
  · exact State.setPc_pc_of_ne _ _ hv
  · rw [State.setPc_pc_self]
    show Tied s.next ((s.setHead w _).heads w) _ _
    rw [State.setHead_heads_self]
    cases safe with
    | true => exact hholds
    | false => exact ⟨hq' ▸ List.mem_append_right q' List.mem_cons_self, hholds⟩

/-- What the next access of a call does. -/
theorem Refines.go (hr : Refines s l) (hstep : exec s (.go w) = some (e, s')) :
    Refines s' (e :: l) := by
  have ht := hr.tied w
  simp only [exec] at hstep
  cases hpc : s.pc w with
  | ready => rw [hpc] at hstep; cases hstep
  | closed => rw [hpc] at hstep; cases hstep
  | link task safe =>
    rw [hpc] at hstep
    cases hstep
    exact hr.link hpc
  | clear task node =>
    rw [hpc] at hstep
    cases hstep
    exact hr.clear hpc
  | advance task safe =>
    rw [hpc] at hstep
    cases hstep
    exact hr.advance hpc
  | get task =>
    rw [hpc] at hstep ht
    cases hstep
    exact hr.of_setPc (fun _ => rfl) rfl rfl rfl ht.2
  | drop task =>
    rw [hpc] at hstep ht
    cases hstep
    exact hr.of_setPc (fun _ => rfl) rfl rfl rfl ht
  | wake task node =>
    rw [hpc] at hstep ht
    cases hstep
    exact hr.of_setPc (fun _ => rfl) rfl rfl rfl ht
  | put task node =>
    rw [hpc] at hstep ht
    cases hstep
    exact hr.of_setPc (fun _ => rfl) rfl rfl rfl ht
  | loop node =>
    rw [hpc] at hstep ht
    cases node with
    | null => cases hstep
    | tail =>
      cases hstep
      exact hr.of_setPc (fun _ => rfl) rfl rfl rfl (Chain.nil_iff.mp ht)
    | node task =>
      cases hstep
      exact hr.of_setPc (fun _ => rfl) rfl rfl rfl (Chain.node ht)

theorem Refines.step (hr : Refines s l) (hstep : Step s e s') : Refines s' (e :: l) := by
  obtain ⟨a, ha⟩ := hstep
  cases a with
  | init w =>
    simp only [exec] at ha
    split at ha
    · rename_i hpc
      cases ha
      exact hr.init hpc
    · cases ha
  | add w task safe =>
    simp only [exec] at ha
    split at ha
    · rename_i hpc
      have hadd := hr.add hpc task safe
      rw [Option.some.inj ha] at hadd
      exact hadd
    · cases ha
  | wakeUp w =>
    simp only [exec] at ha
    split at ha
    · rename_i hpc
      cases ha
      exact hr.wakeUp hpc
    · cases ha
  | go w => exact hr.go ha

/-- The memory at the end of a run is the one that its history says. -/
theorem refines_of_trace {usage : T → ℤ} {heads : W → Head T}
    (h : Trace (start usage heads) Step l s) : Refines s l := by
  induction h with
  | init =>
    exact {
      nodup := fun _ => List.nodup_nil
      apart := fun _ _ _ ht _ => absurd ht List.not_mem_nil
      null := fun _ => iff_of_true rfl fun _ => List.not_mem_nil
      tied := fun _ => rfl }
  | step _ hstep ih => exact ih.step hstep

/-- At every time each queue that takes tasks is a proper list, no task is in
two queues or twice in one, `next` is null exactly for the tasks in no queue,
and no call comes to look at the node of a null pointer. -/
theorem queues_proper {usage : T → ℤ} {heads : W → Head T}
    (h : Trace (start usage heads) Step l s) :
    (∀ w, s.pc w = .ready → Holds s.next (s.heads w) (queue w l)) ∧
      (∀ w v t, t ∈ queue w l → t ∈ queue v l → w = v) ∧ (∀ w, (queue w l).Nodup) ∧
      (∀ t, s.next t = .null ↔ ∀ w, t ∉ queue w l) ∧
      ∀ w, s.pc w ≠ .ready → s.pc w ≠ .closed → (exec s (.go w)).isSome = true := by
  have hr := refines_of_trace h
  refine ⟨fun w hpc => ?_, hr.apart, hr.nodup, hr.null, fun w hready hclosed => ?_⟩
  · have ht := hr.tied w
    rw [hpc] at ht
    exact ht
  · have ht := hr.tied w
    simp only [exec]
    cases hpc : s.pc w with
    | ready => exact absurd hpc hready
    | closed => exact absurd hpc hclosed
    | loop node =>
      rw [hpc] at ht
      cases node with
      | null => exact absurd ht Chain.not_null
      | tail => rfl
      | node _ => rfl
    | _ => rfl

/-- The history of two wakers that ask for one task: the second is refused, and
the first wakes it. -/
def refusedRun : List (Event Bool Unit) :=
  [.quiet, .quiet, .woken false (), .taken false (), .quiet, .quiet, .quiet, .quiet, .quiet,
    .refused true () true, .added false () false, .quiet, .quiet]

theorem refusedRun_trace : ∃ s, Trace (start (fun _ => 2) fun _ => ⟨.null, .first⟩) Step refusedRun
    s ∧ s.next () = .null ∧ s.pc false = .closed ∧ s.pc true = .drop () :=
  ⟨_, .step (.step (.step (.step (.step (.step (.step (.step (.step (.step (.step (.step (.step .init
      ⟨.init false, rfl⟩) ⟨.init true, rfl⟩) ⟨.add false () false, rfl⟩) ⟨.add true () true, rfl⟩)
      ⟨.go false, rfl⟩) ⟨.go false, rfl⟩) ⟨.go false, rfl⟩) ⟨.wakeUp false, rfl⟩) ⟨.go false, rfl⟩)
      ⟨.go false, rfl⟩) ⟨.go false, rfl⟩) ⟨.go false, rfl⟩) ⟨.go false, rfl⟩,
    rfl, rfl, rfl⟩

theorem queues_proper_refused : ∃ s, Trace (start (fun _ => 2) fun _ => ⟨.null, .first⟩) Step
    refusedRun s ∧ (exec s (.go true)).isSome = true := by
  obtain ⟨s, h, -, -, hdrop⟩ := refusedRun_trace
  obtain ⟨-, -, -, -, hgo⟩ := queues_proper h
  exact ⟨s, h, hgo true (by rw [hdrop]; simp) (by rw [hdrop]; simp)⟩

/-! ### What one step does -/

/-- What a waker does in a step: the event, its next place and the change of
the usage counts. -/
inductive Local (s : State W T) (w : W) : Pc T → Event W T → Pc T → (T → ℤ) → Prop where
  | init : Local s w .closed .quiet .ready 0
  | added {t : T} (safe : Bool) (h : s.next t = .null) :
      Local s w .ready (.added w t safe) (.link t safe) 0
  | refused {t : T} (safe : Bool) (h : s.next t ≠ .null) :
      Local s w .ready (.refused w t safe) (if safe then .drop t else .ready) 0
  | wakeUp (x : Ptr T) : Local s w .ready .quiet (.loop x) 0
  | link (t : T) (safe : Bool) : Local s w (.link t safe) .quiet (.advance t safe) 0
  | advance (t : T) (safe : Bool) :
      Local s w (.advance t safe) .quiet (if safe then .ready else .get t) 0
  | get (t : T) : Local s w (.get t) .quiet .ready (Pi.single t 1)
  | drop (t : T) : Local s w (.drop t) .quiet .ready (Pi.single t (-1))
  | finish : Local s w (.loop .tail) .quiet .closed 0
  | look (t : T) : Local s w (.loop (.node t)) .quiet (.clear t (s.next t)) 0
  | clear (t : T) (x : Ptr T) : Local s w (.clear t x) (.taken w t) (.wake t x) 0
  | wake (t : T) (x : Ptr T) : Local s w (.wake t x) (.woken w t) (.put t x) 0
  | put (t : T) (x : Ptr T) : Local s w (.put t x) .quiet (.loop x) (Pi.single t (-1))

omit [DecidableEq W] in
theorem State.addUsage_usage (s : State W T) (t : T) (n : ℤ) :
    (s.addUsage t n).usage = s.usage + Pi.single t n := by
  funext u
  unfold addUsage
  by_cases hu : u = t
  · subst hu
    simp
  · simp [hu]

theorem Local.setPc {s'' : State W T} {pc' : Pc T} {d : T → ℤ} (hpc : s''.pc = s.pc)
    (husage : s''.usage = s.usage + d) (h : Local s w (s.pc w) e pc' d) :
    ∃ d, (s''.setPc w pc').usage = s.usage + d ∧ (∀ v, v ≠ w → (s''.setPc w pc').pc v = s.pc v) ∧
      Local s w (s.pc w) e ((s''.setPc w pc').pc w) d := by
  refine ⟨d, husage, fun v hv => ?_, ?_⟩
  · rw [State.setPc_pc_of_ne s'' pc' hv, hpc]
  · rw [State.setPc_pc_self]
    exact h

theorem go_cases (h : exec s (.go w) = some (e, s')) :
    ∃ d, s'.usage = s.usage + d ∧ (∀ v, v ≠ w → s'.pc v = s.pc v) ∧
      Local s w (s.pc w) e (s'.pc w) d := by
  simp only [exec] at h
  have hzero := (add_zero s.usage).symm
  cases hw : s.pc w <;> rw [hw] at h <;> rw [← hw]
  case ready => cases h
  case closed => cases h
  case link t safe =>
    cases h
    exact Local.setPc rfl hzero (hw ▸ .link t safe)
  case advance t safe =>
    cases h
    exact Local.setPc rfl hzero (hw ▸ .advance t safe)
  case get t =>
    cases h
    exact Local.setPc rfl (State.addUsage_usage s t 1) (hw ▸ .get t)
  case drop t =>
    cases h
    exact Local.setPc rfl (State.addUsage_usage s t (-1)) (hw ▸ .drop t)
  case clear t x =>
    cases h
    exact Local.setPc rfl hzero (hw ▸ .clear t x)
  case wake t x =>
    cases h
    exact Local.setPc rfl hzero (hw ▸ .wake t x)
  case put t x =>
    cases h
    exact Local.setPc rfl (State.addUsage_usage s t (-1)) (hw ▸ .put t x)
  case loop x =>
    cases x with
    | null => cases h
    | tail =>
      cases h
      exact Local.setPc rfl hzero (hw ▸ .finish)
    | node t =>
      cases h
      exact Local.setPc rfl hzero (hw ▸ .look t)

/-- A step is one of a single waker. -/
theorem step_cases (h : Step s e s') :
    ∃ w d, s'.usage = s.usage + d ∧ (∀ v, v ≠ w → s'.pc v = s.pc v) ∧
      Local s w (s.pc w) e (s'.pc w) d := by
  obtain ⟨a, ha⟩ := h
  have hzero := (add_zero s.usage).symm
  cases a with
  | go w => exact ⟨w, go_cases ha⟩
  | init w =>
    simp only [exec] at ha
    split at ha
    · rename_i hw
      cases ha
      exact ⟨w, Local.setPc rfl hzero (hw ▸ .init)⟩
    · cases ha
  | wakeUp w =>
    simp only [exec] at ha
    split at ha
    · rename_i hw
      cases ha
      exact ⟨w, Local.setPc rfl hzero (hw ▸ .wakeUp _)⟩
    · cases ha
  | add w t safe =>
    simp only [exec, wakeQAdd] at ha
    split at ha
    · rename_i hw
      split at ha
      · rename_i hnull
        cases ha
        exact ⟨w, Local.setPc rfl hzero (hw ▸ .added safe hnull)⟩
      · rename_i hnull
        cases ha
        refine ⟨w, Local.setPc rfl hzero ?_⟩
        rw [hw]
        exact .refused safe hnull
    · cases ha

end WakeQueue
end Sched
end LinuxProg
