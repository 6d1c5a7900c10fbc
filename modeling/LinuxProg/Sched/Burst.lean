/-
# `cpu_burst` is the time on the CPUs

The history of a run says which task was current on which runqueue, from which
clock value to which (`intervals`). Two invariants hold of every run: the
counters are the times of the stays that are over (`Accounts`), and a task is
current on at most one runqueue and never again once it is dead and off its CPU
(`Places`).
-/
import Mathlib
import LinuxProg.Sched.Effects

namespace LinuxProg
namespace Sched

open Occupancy Transition

variable {R T : Type*} [DecidableEq R] [DecidableEq T]

/-- The changes of `curr`, from the calls of `__schedule` alone; the last one first. -/
def handovers (idle : R → T) : List (Event R T) → List (Handover R T)
  | [] => []
  | .schedule r next clock :: es =>
    if next = holder idle (handovers idle es) r then handovers idle es
    else ⟨r, next, clock.toNat⟩ :: handovers idle es
  | .fork _ _ :: es => handovers idle es
  | .other :: es => handovers idle es

/-- The intervals in which a task was current, with the clock of the runqueue at
the switch to it and at the switch away from it. -/
def intervals (idle : R → T) (es : List (Event R T)) : List (Stay R T) :=
  stays idle (handovers idle es)

/-! ### The invariants -/

/-- A task that may be current on `r`: its idle task, or one that is idle nowhere. -/
def MayRun (idle : R → T) (r : R) (t : T) : Prop := t = idle r ∨ ∀ r', t ≠ idle r'

/-- The counters are the times of the stays that are over, and `last_arrival`
of a current task is the clock at the switch to it. -/
structure Accounts (idle : R → T) (hs : List (Handover R T)) (σ : System R T) : Prop where
  idle_eq : ∀ r, (σ.rq r).idle = idle r
  idle_mem : ∀ r, idle r ∈ σ.tasks
  holder_eq : ∀ r, holder idle hs r = (σ.rq r).curr
  curr_mem : ∀ r, (σ.rq r).curr ∈ σ.tasks
  curr_mayRun : ∀ r, MayRun idle r (σ.rq r).curr
  arrival : ∀ r, (σ.rq r).curr ≠ idle r →
    (σ.task (σ.rq r).curr).schedInfo.lastArrival.toNat = since hs r
  clock : ∀ r, since hs r ≤ (σ.rq r).clock.toNat
  stay_mem : ∀ s ∈ stays idle hs, s.holder ∈ σ.tasks ∧ MayRun idle s.place s.holder
  cpuBurst : ∀ t ∈ σ.tasks, (∀ r, t ≠ idle r) →
    (σ.task t).cpuBurst.toNat = stayed (stays idle hs) t % 2 ^ 64
  rqCpuTime : ∀ r, (σ.rq r).rqCpuTime.toNat = busy idle (stays idle hs) r % 2 ^ 64

/-- The accounts do not depend on the rest of the system. -/
theorem Accounts.congr {σ σ' : System R T} {idle : R → T} {hs : List (Handover R T)}
    (hA : Accounts idle hs σ) (hcurr : ∀ r, (σ'.rq r).curr = (σ.rq r).curr)
    (hidle : ∀ r, (σ'.rq r).idle = (σ.rq r).idle) (hclock : ∀ r, (σ.rq r).clock ≤ (σ'.rq r).clock)
    (htime : ∀ r, (σ'.rq r).rqCpuTime = (σ.rq r).rqCpuTime) (htasks : σ'.tasks = σ.tasks)
    (hburst : ∀ t, (σ'.task t).cpuBurst = (σ.task t).cpuBurst)
    (harrival : ∀ t, (σ'.task t).schedInfo.lastArrival = (σ.task t).schedInfo.lastArrival) :
    Accounts idle hs σ' where
  idle_eq r := by rw [hidle, hA.idle_eq]
  idle_mem r := by rw [htasks]; exact hA.idle_mem r
  holder_eq r := by rw [hcurr, hA.holder_eq]
  curr_mem r := by rw [hcurr, htasks]; exact hA.curr_mem r
  curr_mayRun r := by rw [hcurr]; exact hA.curr_mayRun r
  arrival r := by rw [hcurr, harrival]; exact hA.arrival r
  clock r := (hA.clock r).trans (UInt64.le_iff_toNat_le.mp (hclock r))
  stay_mem s hs := by rw [htasks]; exact hA.stay_mem s hs
  cpuBurst t := by rw [htasks, hburst]; exact hA.cpuBurst t
  rqCpuTime r := by rw [htime]; exact hA.rqCpuTime r

theorem Touches.accounts {σ σ' : System R T} {p : T} {idle : R → T} {hs : List (Handover R T)}
    (h : Touches σ p σ') (hA : Accounts idle hs σ) : Accounts idle hs σ' :=
  hA.congr (fun r => (h.rq r).curr) (fun r => (h.rq r).idle) (fun r => (h.rq r).clock)
    (fun r => (h.rq r).rqCpuTime) h.tasks h.cpuBurst_eq h.lastArrival_eq

/-- A task is current on one runqueue at a time, and is not taken by another
before its switch is over; a dead task does not come back. -/
structure Places (idle : R → T) (σ : System R T) : Prop where
  curr_injective : Function.Injective fun r => (σ.rq r).curr
  curr_onCpu : ∀ r, (σ.task (σ.rq r).curr).onCpu = true
  switched_onCpu : ∀ r t, (σ.rq r).phase = .switched t → (σ.task t).onCpu = true
  switched_mem : ∀ r t, (σ.rq r).phase = .switched t → t ∈ σ.tasks
  switched_curr : ∀ r t, (σ.rq r).phase = .switched t → ∀ r', (σ.rq r').curr ≠ t
  switched_unique : ∀ r r' t, (σ.rq r).phase = .switched t → (σ.rq r').phase = .switched t → r = r'
  switched_dead : ∀ r t, (σ.rq r).phase = .switched t → (σ.task t).state = taskDead →
    (σ.task t).onRq = .off
  dropped_dead : ∀ r t, (σ.rq r).phase = .dropped t taskDead → Gone σ t
  idle_state : ∀ r, (σ.task (idle r)).state ≠ taskDead
  report : ∀ l ∈ σ.printk, Gone σ l.prev ∧ l.cpuBurst = (σ.task l.prev).cpuBurst

theorem Touches.places {σ σ' : System R T} {p : T} {idle : R → T} {hs : List (Handover R T)}
    (h : Touches σ p σ') (hA : Accounts idle hs σ) (hP : Places idle σ) : Places idle σ' where
  curr_injective r r' hr := by
    simp only [(h.rq _).curr] at hr
    exact hP.curr_injective hr
  curr_onCpu r := by rw [(h.rq r).curr, h.onCpu_eq]; exact hP.curr_onCpu r
  switched_onCpu r t := by rw [(h.rq r).phase, h.onCpu_eq]; exact hP.switched_onCpu r t
  switched_mem r t := by rw [(h.rq r).phase, h.tasks]; exact hP.switched_mem r t
  switched_curr r t ht r' := by
    rw [(h.rq r).phase] at ht
    rw [(h.rq r').curr]
    exact hP.switched_curr r t ht r'
  switched_unique r r' t := by
    rw [(h.rq r).phase, (h.rq r').phase]
    exact hP.switched_unique r r' t
  switched_dead r t ht hd := by
    rw [(h.rq r).phase] at ht
    have hc := hP.switched_curr r t ht
    rcases h.dead hd with hd' | ⟨r', hr', -⟩
    · have hG : Gone σ t := ⟨hP.switched_mem r t ht, hd', hP.switched_dead r t ht hd', hc⟩
      exact (h.gone hG).onRq
    · exact absurd hr' (hc r')
  dropped_dead r t ht := by
    rw [(h.rq r).phase] at ht
    exact h.gone (hP.dropped_dead r t ht)
  idle_state r hd := by
    rcases h.dead hd with hd' | ⟨r', hr', hne⟩
    · exact hP.idle_state r hd'
    · rw [hA.idle_eq] at hne
      rcases hA.curr_mayRun r' with hi | hi
      · exact hne (hr'.symm.trans hi)
      · exact hi r hr'
  report l hl := by
    rw [h.printk] at hl
    obtain ⟨hG, hb⟩ := hP.report l hl
    exact ⟨h.gone hG, by rw [h.cpuBurst_eq]; exact hb⟩
section

variable {σ σ' : System R T} {r : R} {next : T} {idle : R → T} {hs : List (Handover R T)}

/-- The stay that ends is as long as `sched_info_depart` finds it. -/
theorem Accounts.delta (hA : Accounts idle hs σ) (hc : (σ.rq r).curr ≠ idle r) :
    ((σ.rq r).clock - (σ.task (σ.rq r).curr).schedInfo.lastArrival).toNat =
      (σ.rq r).clock.toNat - since hs r := by
  have ha := hA.arrival r hc
  have hle : (σ.task (σ.rq r).curr).schedInfo.lastArrival ≤ (σ.rq r).clock := by
    rw [UInt64.le_iff_toNat_le, ha]
    exact hA.clock r
  rw [UInt64.toNat_sub_of_le _ _ hle, ha]

theorem Switches.accounts (h : Switches σ r next σ') (hA : Accounts idle hs σ)
    (hfresh : ∀ x, (σ.rq x).curr ≠ next) (hmem : next ∈ σ.tasks) (hrun : MayRun idle r next) :
    Accounts idle (⟨r, next, (σ.rq r).clock.toNat⟩ :: hs) σ' where
  idle_eq x := by rw [h.idle, hA.idle_eq]
  idle_mem x := by rw [h.tasks]; exact hA.idle_mem x
  holder_eq x := by rw [h.curr, holder, hA.holder_eq]
  curr_mem x := by
    rw [h.curr, h.tasks]
    split
    · exact hmem
    · exact hA.curr_mem x
  curr_mayRun x := by
    rw [h.curr]
    by_cases hx : x = r
    · rw [if_pos hx, hx]
      exact hrun
    · rw [if_neg hx]
      exact hA.curr_mayRun x
  arrival x hne := by
    rw [h.lastArrival, since, hA.idle_eq]
    rw [h.curr] at hne ⊢
    by_cases hx : x = r
    · rw [if_pos hx, hx] at hne
      rw [if_pos hx, if_pos hx, if_pos ⟨rfl, hne⟩]
    · rw [if_neg hx] at hne ⊢
      rw [if_neg hx, if_neg fun hn => hfresh x hn.1]
      exact hA.arrival x hne
  clock x := by
    rw [h.clock, since]
    by_cases hx : x = r
    · rw [if_pos hx, hx]
    · rw [if_neg hx]
      exact hA.clock x
  stay_mem s hsm := by
    rw [h.tasks]
    rcases List.mem_cons.mp hsm with rfl | hsm
    · rw [hA.holder_eq]
      exact ⟨hA.curr_mem r, hA.curr_mayRun r⟩
    · exact hA.stay_mem s hsm
  cpuBurst t ht hidle := by
    rw [h.tasks] at ht
    have hb := hA.cpuBurst t ht hidle
    rw [h.cpuBurst, stays, stayed_cons, hA.holder_eq, hA.idle_eq]
    by_cases hc : (σ.rq r).curr = t
    · have hne : (σ.rq r).curr ≠ idle r := by
        rw [hc]
        exact hidle r
      rw [if_pos ⟨hc.symm, hne⟩, if_pos hc, UInt64.toNat_add, hb, ← hc, hA.delta hne, Nat.mod_add_mod,
        Nat.add_comm]
      rfl
    · rw [if_neg fun hn => hc hn.1.symm, if_neg hc, hb, Nat.zero_add]
  rqCpuTime x := by
    have hb := hA.rqCpuTime x
    rw [h.rqCpuTime, stays, busy_cons, hA.holder_eq, hA.idle_eq]
    by_cases hx : x = r ∧ (σ.rq r).curr ≠ idle r
    · rw [if_pos hx, if_pos ⟨hx.1.symm, hx.2⟩, UInt64.toNat_add, hb, hA.delta hx.2, Nat.mod_add_mod,
        Nat.add_comm]
      rfl
    · rw [if_neg hx, if_neg fun hn => hx ⟨hn.1.symm, hn.2⟩, hb, Nat.zero_add]

theorem Switches.gone {t : T} (h : Switches σ r next σ') (hne : next ≠ t) (hG : Gone σ t) :
    Gone σ' t := by
  refine ⟨?_, ?_, ?_, ?_⟩
  · rw [h.tasks]
    exact hG.mem
  · rw [h.state]
    exact hG.state
  · rw [h.onRq]
    exact hG.onRq
  · intro x
    rw [h.curr]
    split
    · exact hne
    · exact hG.curr x

/-- A switched-out task is the one that was current on the runqueue, or has been
switched out before. -/
theorem Switches.switched {x : R} {t : T} (h : Switches σ r next σ')
    (ht : (σ'.rq x).phase = .switched t) :
    x = r ∧ t = (σ.rq r).curr ∨ x ≠ r ∧ (σ.rq x).phase = .switched t := by
  rw [h.phase] at ht
  by_cases hx : x = r
  · rw [if_pos hx] at ht
    injection ht with ht
    exact .inl ⟨hx, ht.symm⟩
  · rw [if_neg hx] at ht
    exact .inr ⟨hx, ht⟩

omit [DecidableEq R] [DecidableEq T] in
theorem Places.not_curr (hP : Places idle σ) (hoff : (σ.task next).onCpu = false) (x : R) :
    (σ.rq x).curr ≠ next := by
  intro hx
  have hon := hP.curr_onCpu x
  rw [hx, hoff] at hon
  exact absurd hon (by decide)

omit [DecidableEq R] [DecidableEq T] in
theorem Places.not_switched (hP : Places idle σ) (hoff : (σ.task next).onCpu = false) {x : R} {t : T}
    (ht : (σ.rq x).phase = .switched t) : t ≠ next := by
  rintro rfl
  have hon := hP.switched_onCpu x t ht
  rw [hoff] at hon
  exact absurd hon (by decide)

theorem Switches.places (h : Switches σ r next σ') (hA : Accounts idle hs σ) (hP : Places idle σ)
    (hne : next ≠ (σ.rq r).curr) (hoff : (σ.task next).onCpu = false) (hng : ¬ Gone σ next)
    (hdead : (σ.task (σ.rq r).curr).state = taskDead → (σ.task (σ.rq r).curr).onRq = .off) :
    Places idle σ' where
  curr_injective x y hxy := by
    simp only [h.curr] at hxy
    by_cases hx : x = r <;> by_cases hy : y = r
    · rw [hx, hy]
    · rw [if_pos hx, if_neg hy] at hxy
      exact absurd hxy.symm (hP.not_curr hoff y)
    · rw [if_neg hx, if_pos hy] at hxy
      exact absurd hxy (hP.not_curr hoff x)
    · rw [if_neg hx, if_neg hy] at hxy
      exact hP.curr_injective hxy
  curr_onCpu x := by
    rw [h.onCpu, h.curr]
    by_cases hx : x = r
    · rw [if_pos hx, if_pos rfl]
    · rw [if_neg hx, if_neg (hP.not_curr hoff x)]
      exact hP.curr_onCpu x
  switched_onCpu x t ht := by
    rw [h.onCpu]
    split
    · rfl
    · rcases h.switched ht with ⟨-, rfl⟩ | ⟨-, ht⟩
      · exact hP.curr_onCpu r
      · exact hP.switched_onCpu x t ht
  switched_mem x t ht := by
    rw [h.tasks]
    rcases h.switched ht with ⟨-, rfl⟩ | ⟨-, ht⟩
    · exact hA.curr_mem r
    · exact hP.switched_mem x t ht
  switched_curr x t ht y := by
    rw [h.curr]
    rcases h.switched ht with ⟨-, rfl⟩ | ⟨-, ht⟩
    · by_cases hy : y = r
      · rw [if_pos hy]
        exact hne
      · rw [if_neg hy]
        exact fun he => hy (hP.curr_injective he)
    · split
      · exact (hP.not_switched hoff ht).symm
      · exact hP.switched_curr x t ht y
  switched_unique x y t hx hy := by
    rcases h.switched hx with ⟨rfl, rfl⟩ | ⟨hxr, hx⟩ <;> rcases h.switched hy with ⟨rfl, hy⟩ | ⟨hyr, hy⟩
    · rfl
    · exact absurd rfl (hP.switched_curr y _ hy x)
    · rw [hy] at hx
      exact absurd rfl (hP.switched_curr x _ hx y)
    · exact hP.switched_unique x y t hx hy
  switched_dead x t ht hd := by
    rw [h.state] at hd
    rw [h.onRq]
    rcases h.switched ht with ⟨-, rfl⟩ | ⟨-, ht⟩
    · exact hdead hd
    · exact hP.switched_dead x t ht hd
  dropped_dead x t ht := by
    rw [h.phase] at ht
    by_cases hx : x = r
    · rw [if_pos hx] at ht
      cases ht
    · rw [if_neg hx] at ht
      have hG := hP.dropped_dead x t ht
      exact h.gone (fun he => hng (he ▸ hG)) hG
  idle_state x := by
    rw [h.state]
    exact hP.idle_state x
  report l hl := by
    rw [h.printk] at hl
    obtain ⟨hG, hb⟩ := hP.report l hl
    refine ⟨h.gone (fun he => hng (he ▸ hG)) hG, ?_⟩
    rw [h.cpuBurst, if_neg fun hn => hG.curr r hn.1.symm]
    exact hb

end

/-! ### Runs -/

section

variable {σ σ' : System R T} {r : R} {idle : R → T} {hs : List (Handover R T)}

/-- A fork adds a task that has not run. -/
theorem fork_accounts {p : T} {new : Task R} (hA : Accounts idle hs σ) (hp : p ∉ σ.tasks)
    (hnew : new.cpuBurst = 0) :
    Accounts idle hs (σ.addTask p new) := by
  have hold : ∀ t ∈ σ.tasks, (σ.setTask p new).task t = σ.task t := fun t => setTask_of_mem hp
  refine ⟨hA.idle_eq, fun x => Finset.mem_insert_of_mem (hA.idle_mem x), hA.holder_eq,
    fun x => Finset.mem_insert_of_mem (hA.curr_mem x), hA.curr_mayRun, ?_, hA.clock, ?_, ?_,
    hA.rqCpuTime⟩
  · intro x hne
    show ((σ.setTask p new).task (σ.rq x).curr).schedInfo.lastArrival.toNat = since hs x
    rw [hold _ (hA.curr_mem x)]
    exact hA.arrival x hne
  · intro s hsm
    exact ⟨Finset.mem_insert_of_mem (hA.stay_mem s hsm).1, (hA.stay_mem s hsm).2⟩
  · intro t ht hidle
    show ((σ.setTask p new).task t).cpuBurst.toNat = stayed (stays idle hs) t % 2 ^ 64
    rcases Finset.mem_insert.mp ht with rfl | ht
    · rw [setTask_task, if_pos rfl, hnew, stayed_eq_zero]
      · rfl
      · rintro s hsm rfl
        exact hp (hA.stay_mem s hsm).1
    · rw [hold t ht]
      exact hA.cpuBurst t ht hidle

theorem fork_places {p : T} {new : Task R} (hA : Accounts idle hs σ) (hP : Places idle σ)
    (hp : p ∉ σ.tasks) : Places idle (σ.addTask p new) := by
  have hold : ∀ t ∈ σ.tasks, (σ.setTask p new).task t = σ.task t := fun t => setTask_of_mem hp
  have hgone : ∀ t, Gone σ t → Gone (σ.addTask p new) t := by
    intro t hG
    refine ⟨Finset.mem_insert_of_mem hG.mem, ?_, ?_, hG.curr⟩
    · exact (congrArg Task.state (hold t hG.mem)).trans hG.state
    · exact (congrArg Task.onRq (hold t hG.mem)).trans hG.onRq
  refine ⟨hP.curr_injective, ?_, ?_, ?_, hP.switched_curr, hP.switched_unique, ?_, ?_, ?_, ?_⟩
  · intro x
    exact (congrArg Task.onCpu (hold _ (hA.curr_mem x))).trans (hP.curr_onCpu x)
  · intro x t ht
    exact (congrArg Task.onCpu (hold t (hP.switched_mem x t ht))).trans (hP.switched_onCpu x t ht)
  · exact fun x t ht => Finset.mem_insert_of_mem (hP.switched_mem x t ht)
  · intro x t ht hd
    have hm := hold t (hP.switched_mem x t ht)
    exact (congrArg Task.onRq hm).trans
      (hP.switched_dead x t ht ((congrArg Task.state hm).symm.trans hd))
  · exact fun x t ht => hgone t (hP.dropped_dead x t ht)
  · intro x hd
    exact hP.idle_state x ((congrArg Task.state (hold _ (hA.idle_mem x))).symm.trans hd)
  · intro l hl
    obtain ⟨hG, hb⟩ := hP.report l hl
    exact ⟨hgone _ hG, hb.trans (congrArg Task.cpuBurst (hold _ hG.mem)).symm⟩

/-- The end of a switch changes nothing that is accounted. -/
theorem finishTask_accounts {prev : T} (hA : Accounts idle hs σ) :
    Accounts idle hs (finishTask σ r prev) := by
  have hrq := fun x => finishTask_rq σ r x prev
  refine hA.congr ?_ ?_ ?_ ?_ rfl ?_ ?_
  · exact fun x => by rw [hrq]
  · exact fun x => by rw [hrq]
  · exact fun x => by rw [hrq]; exact UInt64.le_refl _
  · exact fun x => by rw [hrq]
  · exact fun t => by rw [finishTask_task]
  · exact fun t => by rw [finishTask_task]

theorem finishTaskSwitch_accounts {prev : T} {prevState : ℕ} (hA : Accounts idle hs σ) :
    Accounts idle hs (finishTaskSwitch σ r prev prevState) := by
  have hrq := fun x => finishTaskSwitch_rq σ r x prev prevState
  refine hA.congr ?_ ?_ ?_ ?_ (finishTaskSwitch_tasks ..) ?_ ?_
  · exact fun x => by rw [hrq]
  · exact fun x => by rw [hrq]
  · exact fun x => by rw [hrq]; exact UInt64.le_refl _
  · exact fun x => by rw [hrq]
  · exact fun t => by rw [finishTaskSwitch_task]
  · exact fun t => by rw [finishTaskSwitch_task]

omit [DecidableEq R] [DecidableEq T] in
/-- A step that leaves the tasks and who is current, and switches nobody out. -/
theorem Places.settle {σ' : System R T} (hP : Places idle σ)
    (hcurr : ∀ x, (σ'.rq x).curr = (σ.rq x).curr) (htasks : σ'.tasks = σ.tasks)
    (hstate : ∀ t, (σ'.task t).state = (σ.task t).state)
    (honRq : ∀ t, (σ'.task t).onRq = (σ.task t).onRq)
    (honCpu : ∀ x, (σ'.task (σ.rq x).curr).onCpu = (σ.task (σ.rq x).curr).onCpu)
    (hswitched : ∀ x t, (σ'.rq x).phase = .switched t →
      (σ.rq x).phase = .switched t ∧ (σ'.task t).onCpu = (σ.task t).onCpu)
    (hdropped : ∀ x t, (σ'.rq x).phase = .dropped t taskDead → Gone σ t)
    (hreport : ∀ l ∈ σ'.printk, Gone σ l.prev ∧ l.cpuBurst = (σ'.task l.prev).cpuBurst) :
    Places idle σ' := by
  have hgone : ∀ t, Gone σ t → Gone σ' t := fun t hG =>
    hG.congr hcurr htasks (hstate t) (honRq t)
  constructor
  case curr_injective =>
    intro x y hxy
    simp only [hcurr] at hxy
    exact hP.curr_injective hxy
  case curr_onCpu =>
    intro x
    rw [hcurr, honCpu]
    exact hP.curr_onCpu x
  case switched_onCpu =>
    intro x t ht
    obtain ⟨ht, hon⟩ := hswitched x t ht
    rw [hon]
    exact hP.switched_onCpu x t ht
  case switched_mem =>
    intro x t ht
    rw [htasks]
    exact hP.switched_mem x t (hswitched x t ht).1
  case switched_curr =>
    intro x t ht y
    rw [hcurr]
    exact hP.switched_curr x t (hswitched x t ht).1 y
  case switched_unique =>
    intro x y t hx hy
    exact hP.switched_unique x y t (hswitched x t hx).1 (hswitched y t hy).1
  case switched_dead =>
    intro x t ht hd
    rw [hstate] at hd
    rw [honRq]
    exact hP.switched_dead x t (hswitched x t ht).1 hd
  case dropped_dead => exact fun x t ht => hgone t (hdropped x t ht)
  case idle_state =>
    intro x
    rw [hstate]
    exact hP.idle_state x
  case report =>
    intro l hl
    obtain ⟨hG, hb⟩ := hreport l hl
    exact ⟨hgone _ hG, hb⟩

theorem finishTask_places {prev : T} (hP : Places idle σ) (hr : (σ.rq r).phase = .switched prev) :
    Places idle (finishTask σ r prev) := by
  have hrq := fun x => finishTask_rq σ r x prev
  have htask := fun t => finishTask_task σ r prev t
  apply hP.settle
  · exact fun x => by rw [hrq]
  · rfl
  · exact fun t => by rw [htask]
  · exact fun t => by rw [htask]
  · exact fun x => by rw [htask, if_neg (hP.switched_curr r prev hr x)]
  · intro x t ht
    rw [hrq] at ht
    by_cases hx : x = r
    · rw [if_pos hx] at ht
      cases ht
    · rw [if_neg hx] at ht
      have hne : t ≠ prev := by
        rintro rfl
        exact hx (hP.switched_unique x r t ht hr)
      exact ⟨ht, by rw [htask, if_neg hne]⟩
  · intro x t ht
    rw [hrq] at ht
    by_cases hx : x = r
    · rw [if_pos hx] at ht
      injection ht with ht hd
      subst ht
      exact ⟨hP.switched_mem r prev hr, hd, hP.switched_dead r prev hr hd, hP.switched_curr r prev hr⟩
    · rw [if_neg hx] at ht
      exact hP.dropped_dead x t ht
  · intro l hl
    rw [htask]
    exact hP.report l hl

omit [DecidableEq T] in
theorem finishTaskSwitch_places {prev : T} {prevState : ℕ} (hP : Places idle σ)
    (hr : (σ.rq r).phase = .dropped prev prevState) :
    Places idle (finishTaskSwitch σ r prev prevState) := by
  have hrq := fun x => finishTaskSwitch_rq σ r x prev prevState
  have hph : ∀ x f, ((finishTaskSwitch σ r prev prevState).rq x).phase = f → f ≠ .running →
      (σ.rq x).phase = f := by
    intro x f hf hne
    rw [hrq] at hf
    by_cases hx : x = r
    · rw [if_pos hx] at hf
      exact absurd hf.symm hne
    · rw [if_neg hx] at hf
      exact hf
  apply hP.settle
  · exact fun x => by rw [hrq]
  · exact finishTaskSwitch_tasks ..
  · exact fun t => by rw [finishTaskSwitch_task]
  · exact fun t => by rw [finishTaskSwitch_task]
  · exact fun x => by rw [finishTaskSwitch_task]
  · exact fun x t ht => ⟨hph x _ ht (by simp), by rw [finishTaskSwitch_task]⟩
  · exact fun x t ht => hP.dropped_dead x t (hph x _ ht (by simp))
  · intro l hl
    rw [finishTaskSwitch_task]
    rcases finishTaskSwitch_printk hl with hl | ⟨rfl, hp, hb⟩
    · exact hP.report l hl
    · rw [hp]
      exact ⟨hP.dropped_dead r prev hr, hb⟩

/-- `__schedule`: the current task stays, or `r` is handed over to `next`. -/
theorem schedule_inv {now : UInt64} {preempt pending : Bool} {next : T} (hA : Accounts idle hs σ)
    (hP : Places idle σ) (hclock : (σ.rq r).clock ≤ (updateRqClock now (σ.rq r)).clock)
    (hpre : preempt = true → (σ.task (σ.rq r).curr).state ≠ taskDead)
    (hpick : Pickable (blockPrev (σ.updateClock r now) r (σ.rq r).curr preempt pending) r next)
    (hoff : next ≠ (σ.rq r).curr → (σ.task next).onCpu = false) :
    Accounts idle (if next = holder idle hs r then hs
        else ⟨r, next, (updateRqClock now (σ.rq r)).clock.toNat⟩ :: hs)
      (schedule σ r now preempt pending next) ∧
    Places idle (schedule σ r now preempt pending next) := by
  have hT₀ : Touches σ (σ.rq r).curr (σ.updateClock r now) := updateClock_touches _ hclock
  have hcurr : ((σ.updateClock r now).rq r).curr = (σ.rq r).curr := (hT₀.rq r).curr
  have hT : Touches σ (σ.rq r).curr
      (blockPrev (σ.updateClock r now) r (σ.rq r).curr preempt pending) :=
    hT₀.trans (blockPrev_touches hcurr preempt pending)
  have hdead : ((blockPrev (σ.updateClock r now) r (σ.rq r).curr preempt pending).task
      (σ.rq r).curr).state = taskDead →
      ((blockPrev (σ.updateClock r now) r (σ.rq r).curr preempt pending).task
        (σ.rq r).curr).onRq = .off := blockPrev_dead hpre
  have hck := blockPrev_clock (σ.updateClock r now) r r (σ.rq r).curr preempt pending
  have hck' : ((σ.updateClock r now).rq r).clock = (updateRqClock now (σ.rq r)).clock := by
    unfold System.updateClock
    rw [setRq_rq, if_pos rfl]
  unfold schedule
  dsimp only
  rw [hcurr, hA.holder_eq]
  rw [hck'] at hck
  generalize blockPrev (σ.updateClock r now) r (σ.rq r).curr preempt pending = σ₁ at *
  have hA₁ := hT.accounts hA
  have hP₁ := hT.places hA hP
  by_cases hn : (σ.rq r).curr = next
  · rw [if_neg (not_not.mpr hn), if_pos hn.symm]
    exact ⟨hA₁, hP₁⟩
  · have hn' : next ≠ (σ.rq r).curr := fun he => hn he.symm
    rw [if_pos hn, if_neg hn', ← (hT.rq r).curr, ← hck]
    have hS := contextSwitch_switches σ₁ r next
    have hoff₁ : (σ₁.task next).onCpu = false := by
      rw [hT.onCpu_eq]
      exact hoff hn'
    rw [← (hT.rq r).curr] at hn' hdead
    have hfresh : ∀ x, (σ₁.rq x).curr ≠ next := by
      rintro x rfl
      rw [hP₁.curr_onCpu x] at hoff₁
      cases hoff₁
    rcases hpick with hi | ⟨hm, hi, hq, -⟩
    · rw [hA₁.idle_eq] at hi
      have hng : ¬ Gone σ₁ next := fun hG => hP₁.idle_state r (hi ▸ hG.state)
      exact ⟨hS.accounts hA₁ hfresh (hi ▸ hA₁.idle_mem r) (.inl hi),
        hS.places hA₁ hP₁ hn' hoff₁ hng hdead⟩
    · have hng : ¬ Gone σ₁ next := by
        intro hG
        rw [hG.onRq] at hq
        cases hq
      simp only [hA₁.idle_eq] at hi
      exact ⟨hS.accounts hA₁ hfresh hm (.inr hi), hS.places hA₁ hP₁ hn' hoff₁ hng hdead⟩

end

/-- The two invariants across one step. -/
theorem step_inv {σ σ' : System R T} {idle : R → T} {es : List (Event R T)} {e : Event R T}
    (hA : Accounts idle (handovers idle es) σ) (hP : Places idle σ) (h : Step σ e σ') :
    Accounts idle (handovers idle (e :: es)) σ' ∧ Places idle σ' := by
  -- every step of the kind `Touches` keeps both
  have touched : ∀ {p : T} {σ' : System R T}, Touches σ p σ' →
      Accounts idle (handovers idle es) σ' ∧ Places idle σ' :=
    fun hT => ⟨hT.accounts hA, hT.places hA hP⟩
  cases h with
  | fork r p orig _ hp hnew =>
    exact ⟨fork_accounts hA hp (schedFork_cpuBurst hnew), fork_places hA hP hp⟩
  | tick r now hclock => exact touched (updateClock_touches (σ.rq r).curr hclock)
  | wakeNew r p _ hs => exact touched (wakeUpNewTask_touches hs)
  | wake r p state _ hs _ => exact touched (tryToWakeUp_touches hs)
  | migrate src dst p _ hq _ => exact touched (moveQueuedTask_touches hq)
  | setState r state _ hne _ =>
    refine touched (touches_of (fun _ => SameRq.refl _) rfl rfl rfl rfl rfl rfl ?_ ?_)
    · exact fun _ _ hc => absurd rfl (hc r)
    · exact fun _ => .inr ⟨r, rfl, hne⟩
  | schedule r now preempt pending next _ hclock hpre hpick hoff =>
    exact schedule_inv hA hP hclock hpre hpick hoff
  | finish r prev hr => exact ⟨finishTask_accounts hA, finishTask_places hP hr⟩
  | report r prev prevState hr =>
    exact ⟨finishTaskSwitch_accounts hA, finishTaskSwitch_places hP hr⟩

theorem initial_accounts {σ : System R T} (h : Initial σ) :
    Accounts (fun r => (σ.rq r).idle) [] σ := by
  refine ⟨fun _ => rfl, h.idle_mem, fun r => (h.curr r).symm, ?_, fun r => .inl (h.curr r), ?_,
    fun _ => Nat.zero_le _, ?_, ?_, ?_⟩
  · intro r
    rw [h.curr]
    exact h.idle_mem r
  · exact fun r hne => absurd (h.curr r) hne
  · exact fun s hs => absurd hs List.not_mem_nil
  · intro t ht _
    rw [h.cpuBurst t ht]
    rfl
  · intro r
    rw [h.rqCpuTime r]
    rfl

omit [DecidableEq R] [DecidableEq T] in
theorem initial_places {σ : System R T} (h : Initial σ) : Places (fun r => (σ.rq r).idle) σ := by
  have hrun : ∀ r t, (σ.rq r).phase ≠ .switched t := by
    intro r t ht
    rw [h.phase] at ht
    cases ht
  refine ⟨?_, ?_, fun r t ht => absurd ht (hrun r t), fun r t ht => absurd ht (hrun r t),
    fun r t ht => absurd ht (hrun r t), fun r _ t ht => absurd ht (hrun r t),
    fun r t ht => absurd ht (hrun r t), ?_, ?_, ?_⟩
  · intro r r' hr
    simp only [h.curr] at hr
    exact h.idle_injective hr
  · intro r
    rw [h.curr]
    exact h.idle_onCpu r
  · intro r t ht
    rw [h.phase] at ht
    cases ht
  · intro r
    rw [h.idle_state]
    exact taskRunning_ne_dead
  · intro l hl
    rw [h.printk] at hl
    exact absurd hl List.not_mem_nil

theorem run_inv {σ₀ σ : System R T} {es : List (Event R T)} (h₀ : Initial σ₀)
    (hrun : Trace σ₀ Step es σ) :
    Accounts (fun r => (σ₀.rq r).idle) (handovers (fun r => (σ₀.rq r).idle) es) σ ∧
      Places (fun r => (σ₀.rq r).idle) σ := by
  induction hrun with
  | init => exact ⟨initial_accounts h₀, initial_places h₀⟩
  | step _ hstep ih => exact step_inv ih.1 ih.2 hstep

/-- The tasks that are not the idle task of a CPU. -/
def nonIdle [Fintype R] (idle : R → T) (tasks : Finset T) : Finset T :=
  tasks.filter fun t => ∀ r, t ≠ idle r

/-- **CPU-burst accounting**: in every run, what `finish_task_switch` has printed
of a task is, modulo `2^64`, the time of all intervals in which it was current,
and there are no others to come, since it is current nowhere and stays so; and
the `cpu_burst`s of the tasks that are not idle add up to the `rq_cpu_time`s. -/
theorem cpuBurst_accounts [Fintype R] {σ₀ σ : System R T} {es : List (Event R T)}
    (h₀ : Initial σ₀) (hrun : Trace σ₀ Step es σ) :
    (∀ l ∈ σ.printk, (∀ r, (σ.rq r).curr ≠ l.prev) ∧
      l.cpuBurst.toNat = stayed (intervals (fun r => (σ₀.rq r).idle) es) l.prev % 2 ^ 64) ∧
    ∑ t ∈ nonIdle (fun r => (σ₀.rq r).idle) σ.tasks, (σ.task t).cpuBurst.toNat ≡
      ∑ r, (σ.rq r).rqCpuTime.toNat [MOD 2 ^ 64] := by
  obtain ⟨hA, hP⟩ := run_inv h₀ hrun
  refine ⟨?_, ?_⟩
  · intro l hl
    obtain ⟨hG, hb⟩ := hP.report l hl
    have hidle : ∀ r, l.prev ≠ (σ₀.rq r).idle := fun r he => hP.idle_state r (he ▸ hG.state)
    rw [hb]
    exact ⟨hG.curr, hA.cpuBurst l.prev hG.mem hidle⟩
  · set idle := fun r => (σ₀.rq r).idle
    set S := nonIdle idle σ.tasks with hS
    have hsum := sum_stayed_eq_sum_busy idle S (stays idle (handovers idle es)) ?_
    · calc ∑ t ∈ S, (σ.task t).cpuBurst.toNat
          ≡ ∑ t ∈ S, stayed (stays idle (handovers idle es)) t [MOD 2 ^ 64] := by
            apply Nat.ModEq.sum
            intro t ht
            obtain ⟨hm, hi⟩ := Finset.mem_filter.mp ht
            rw [hA.cpuBurst t hm hi]
            exact Nat.mod_modEq _ _
        _ = ∑ r, busy idle (stays idle (handovers idle es)) r := hsum
        _ ≡ ∑ r, (σ.rq r).rqCpuTime.toNat [MOD 2 ^ 64] := by
            apply Nat.ModEq.sum
            intro r _
            rw [hA.rqCpuTime r]
            exact (Nat.mod_modEq _ _).symm
    · intro s hs
      obtain ⟨hm, hr⟩ := hA.stay_mem s hs
      rw [hS, nonIdle, Finset.mem_filter]
      constructor
      · exact fun h => h.2 s.place
      · intro hne
        rcases hr with hr | hr
        · exact absurd hr hne
        · exact ⟨hm, hr⟩

/-- A task of the normal class with id `pid`; what was copied into `sched_info` stays in it. -/
def bootTask (pid : ℕ) : Task (Fin 2) where
  pid := pid
  state := taskRunning
  onRq := .queued
  onCpu := true
  cpu := 0
  prio := defaultPrio
  staticPrio := defaultPrio
  normalPrio := defaultPrio
  rtPriority := 0
  policy := schedNormal
  schedResetOnFork := false
  schedInfo := ⟨3, 5, 90, 0⟩
  cpuBurst := 0

/-- Two CPUs with their idle tasks. -/
def boot : System (Fin 2) ℕ where
  rq r := ⟨100, r, r, 0, 0, 0, .running⟩
  task := bootTask
  tasks := {0, 1}
  printk := []

theorem boot_initial : Initial boot where
  idle_injective := by decide
  idle_mem := by decide
  idle_state := by decide
  idle_onCpu := by decide
  curr _ := rfl
  phase _ := rfl
  rqCpuTime _ := rfl
  cpuBurst _ _ := rfl
  printk := rfl

/-- Task 2 is forked on CPU 0, runs there from 110 to 117, is preempted and moved
to CPU 1, runs there from 205 to 209 and dies: 11 is printed. -/
theorem two_cpus_run : ∃ (es : List (Event (Fin 2) ℕ)) (σ : System (Fin 2) ℕ),
    Trace boot Step es σ ∧ σ.printk.map (fun l => (l.prev, l.cpuBurst.toNat)) = [(2, 11)] := by
  have h : Trace boot Step [] boot := .init
  have h := h.step (.fork 0 2 (bootTask 2) rfl (by decide) rfl)
  have h := h.step (.wakeNew 0 2 (by decide) (by decide))
  have h := h.step (.schedule 0 110 false false 2 rfl (by decide) (by decide)
    (.inr ⟨by decide, by decide, by decide, by decide⟩) (by decide))
  have h := h.step (.finish 0 0 rfl)
  have h := h.step (.report 0 0 taskRunning rfl)
  have h := h.step (.schedule 0 117 true false 0 rfl (by decide) (by decide) (.inl rfl) (by decide))
  have h := h.step (.finish 0 2 rfl)
  have h := h.step (.migrate 0 1 2 (by decide) (by decide) (by decide))
  have h := h.step (.schedule 1 205 false false 2 rfl (by decide) (by decide)
    (.inr ⟨by decide, by decide, by decide, by decide⟩) (by decide))
  have h := h.step (.finish 1 1 rfl)
  have h := h.step (.report 1 1 taskRunning (by decide +kernel))
  have h := h.step (.setState 1 taskDead (by decide +kernel) (by decide +kernel) (by decide +kernel))
  have h := h.step (.schedule 1 209 false false 1 (by decide +kernel) (by decide +kernel)
    (by decide +kernel) (.inl (by decide +kernel)) (by decide +kernel))
  have h := h.step (.finish 1 2 (by decide +kernel))
  have h := h.step (.report 1 2 taskDead (by decide +kernel))
  exact ⟨_, _, h, by decide +kernel⟩

theorem cpuBurst_two_cpus : ∃ (es : List (Event (Fin 2) ℕ)) (σ : System (Fin 2) ℕ),
    Trace boot Step es σ ∧ σ.printk.map (fun l => (l.prev, l.cpuBurst.toNat)) = [(2, 11)] ∧
    (∀ l ∈ σ.printk, (∀ r, (σ.rq r).curr ≠ l.prev) ∧
      l.cpuBurst.toNat = stayed (intervals (fun r => (boot.rq r).idle) es) l.prev % 2 ^ 64) ∧
    ∑ t ∈ nonIdle (fun r => (boot.rq r).idle) σ.tasks, (σ.task t).cpuBurst.toNat ≡
      ∑ r, (σ.rq r).rqCpuTime.toNat [MOD 2 ^ 64] := by
  obtain ⟨es, σ, h, hp⟩ := two_cpus_run
  exact ⟨es, σ, h, hp, cpuBurst_accounts boot_initial h⟩

end Sched
end LinuxProg
