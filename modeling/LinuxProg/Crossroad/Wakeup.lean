/-
# Lost wakeups

`pthread_cond_signal` has no effect if its thread is not inside
`pthread_cond_wait`, and nothing in the program remembers that it was sent.
`main` may send the first signal before the thread it is for waits, a thread
may hand the turn to one that is still on its way back, and so may the exit
branch. If every signal of a run is heard (`Heard`) and its set stays within its
slots (`InSlots`), somebody is always able to go on or all threads have exited
(`not_stuck_of_heard`).
-/
import Mathlib
import LinuxProg.Crossroad.Safety

namespace LinuxProg
namespace Crossroad

variable {startList : List Road} {sh : Shared} {σ σ' : State} {k j : Road} {rand : ℕ}
  {ret : Option Road} {p : Pc} {e : Effect} {a : Actor}

/-- All that have not exited wait, and `main` has sent its signal: nobody is
left to go on. -/
def Stuck (σ : State) : Prop :=
  σ.main.sent = true ∧ (∃ k, σ.pc k ≠ .exited) ∧ ∀ k, σ.pc k = .exited ∨ σ.pc k = .waiting

instance (σ : State) : Decidable (Stuck σ) :=
  inferInstanceAs (Decidable (_ ∧ _ ∧ _))

/-- A statement that sends its signal to a thread inside `pthread_cond_wait`, and
writes within the slots of the set. -/
def HeardInSlots (startList : List Road) (σ : State) (a : Actor) : Prop :=
  Heard startList σ a ∧ InSlots startList σ a

/-! ### Runs without lost signals -/

/-- The end of a run without lost signals: the threads signalled by the exit
branch are on their way out. -/
structure Releasing (startList : List Road) (σ : State) (k : Road) : Prop
    extends Finishing startList σ k where
  released : ∀ i, i ≠ k → i ∉ pending k (σ.pc k) → (σ.pc i).released = true

inductive Live (startList : List Road) (σ : State) : Prop where
  | starting : Starting σ → Live startList σ
  | turning (j : Road) : Turning startList σ j → Live startList σ
  | releasing (k : Road) : Releasing startList σ k → Live startList σ

theorem Live.not_stuck (h : Live startList σ) : ¬ Stuck σ := by
  rintro ⟨hsent, ⟨m, hm⟩, hall⟩
  cases h with
  | starting h =>
    rw [h.sent] at hsent
    cases hsent
  | turning j h =>
    have hact := h.turn.active
    rcases hall j with hc | hc <;> rw [hc] at hact <;> cases hact
  | releasing k h =>
    have hk : σ.pc k = .exited := by
      rcases h.exiter with hex | hex
      · rcases hall k with hc | hc <;> rw [hc] at hex <;> cases hex
      · exact hex
    by_cases hmk : m = k
    · exact hm (hmk ▸ hk)
    · have hrel := h.released m hmk (by rw [hk]; exact List.not_mem_nil)
      rcases hall m with hc | hc
      · exact hm hc
      · rw [hc] at hrel
        cases hrel

theorem live_thread (hi : Live startList σ) (hh : Heard startList σ (.thread k))
    (h : threadStep startList k rand ret σ = some σ') : Live startList σ' := by
  cases hi with
  | starting hi => exact .starting (starting_thread hi h)
  | turning j hi =>
    rcases turning_step hi h with ⟨i, ht⟩ | ⟨-, hnot⟩ | ⟨hf, hpend⟩
    · exact .turning i ht
    · exact absurd hh hnot
    · refine .releasing j ⟨hf, fun i hij hmem => absurd ?_ hmem⟩
      rw [hpend]
      exact (others_spec j).2.2 i hij
  | releasing j hi =>
    by_cases hkj : k = j
    · subst hkj
      have hx := hi.toFinishing.exitStep h
      refine .releasing k ⟨hi.toFinishing.exit hx, fun i hik hmem => hx.released hh hik hmem ?_⟩
      by_cases hold : i ∈ pending k (σ.pc k)
      · exact Or.inl hold
      · exact Or.inr (hi.released i hik hold)
    · obtain ⟨hf, hpc, -, hrel⟩ := finishing_other hi.toFinishing hkj h
      refine .releasing j ⟨hf, fun i hij hmem => hrel i (hi.released i hij ?_)⟩
      rwa [hpc] at hmem

theorem live_main (hne : startList ≠ []) (hi : Live startList σ) (hh : Heard startList σ .main)
    (h : mainStep startList σ = some σ') : Live startList σ' := by
  have hstart : σ.main.sent = false → Starting σ := by
    intro hs
    cases hi with
    | starting hi => exact hi
    | turning j hi => exact absurd (hi.sent.symm.trans hs) (by decide)
    | releasing k hi => exact absurd (hi.sent.symm.trans hs) (by decide)
  rcases mainStep_cases h with ⟨k, m, hm, hs, rfl⟩ | ⟨hmain, rfl⟩ | ⟨m, hm, hs, rfl⟩
  · exact .starting (starting_create (hstart hs) hm k)
  · rcases starting_signal hne (hstart (by rw [hmain]; rfl)) hmain with ⟨j, ht⟩ | ⟨-, hnot⟩
    · exact .turning j ht
    · exact absurd hh hnot
  · cases hi with
    | starting hi => exact absurd (hi.sent.symm.trans hs) (by decide)
    | turning j hi => exact .turning j (hi.of_main hm)
    | releasing k hi => exact .releasing k ⟨hi.toFinishing.of_main hm, hi.released⟩

/-! ### After a lost signal -/

/-- Threads are created in order, before the first signal. -/
def Created (σ : State) : Prop :=
  ∀ i, σ.pc i = .notCreated → ∃ k, σ.main = .create k ∧ k ≤ i

theorem effect_created (h : threadFunction k startList rand ret sh p = some e) :
    e.pc ≠ .notCreated := by
  rw [threadFunction_eq] at h
  cases p
  case broadcast rest => cases rest <;> cases h <;> simp
  case dispatch item =>
    simp only [threadBody] at h
    split at h <;> cases h <;> simp
  all_goals cases h
  case test => simp only; split <;> simp
  case findOpposite => simp only; split <;> simp
  case test2 => simp only; split <;> simp
  all_goals simp

theorem signal_notCreated {pc : Road → Pc} {s : Option Road} {i : Road}
    (h : signal s pc i = .notCreated) : pc i = .notCreated := by
  rw [signal_apply] at h
  split at h
  · cases h
  · exact h

theorem next_road : ∀ k i : Road, i ≠ k → k ≤ i → k ≠ 3 ∧ k + 1 ≤ i := by decide

theorem created_reachable (hr : Reachable startList σ) : Created σ := by
  refine hr.invariant ?_ fun σ a σ' hi _ hstep => ?_
  · exact fun i _ => ⟨0, rfl, Fin.zero_le i⟩
  · intro i hpc
    cases hstep with
    | main h =>
      unfold mainStep at h
      split at h
      · rename_i k hmain
        cases h
        have hik : i ≠ k := by
          rintro rfl
          simp at hpc
        simp only [Function.update_of_ne hik] at hpc
        obtain ⟨k', hk', hle⟩ := hi i hpc
        obtain rfl : k = k' := by
          rw [hmain] at hk'
          cases hk'
          rfl
        obtain ⟨hk3, hle'⟩ := next_road k i hik hle
        exact ⟨k + 1, if_neg hk3, hle'⟩
      · rename_i hmain
        cases h
        obtain ⟨k, hk, -⟩ := hi i (signal_notCreated hpc)
        rw [hmain] at hk
        cases hk
      · rename_i hmain
        split at h <;> cases h
        obtain ⟨k, hk, -⟩ := hi i hpc
        rw [hmain] at hk
        cases hk
      · cases h
    | thread k rand ret h =>
      obtain ⟨e, he, rfl⟩ := threadStep_eq h
      have hpc' := signal_notCreated hpc
      by_cases hik : i = k
      · subst hik
        rw [Function.update_self] at hpc'
        exact absurd hpc' (effect_created he)
      · rw [Function.update_of_ne hik] at hpc'
        exact hi i hpc'

/-- Nobody will signal thread `r`, which is on its way to `pthread_cond_wait`
or inside it. -/
structure Doomed (startList : List Road) (σ : State) (r : Road) : Prop where
  sent : σ.main.sent = true
  created : ∀ i, σ.pc i ≠ .notCreated
  idle : (σ.pc r).idle = true
  phase : Lost σ ∨ ∃ k, Finishing startList σ k ∧ r ≠ k ∧ r ∉ pending k (σ.pc k)

/-- The statements a thread has left, with room for the threads it signals. -/
def Pc.rank : Pc → ℕ
  | .unlock | .woken => 3
  | .top | .test => 2
  | .locked | .leave => 1
  | .print3 => 15
  | .unlockExit => 14
  | .broadcast rest => 4 * rest.length + 1
  | _ => 0

def rank (pc : Road → Pc) : ℕ := ∑ k, (pc k).rank

theorem sum_update (w : Pc → ℕ) (pc : Road → Pc) (k : Road) (q : Pc) :
    ∑ i, w (Function.update pc k q i) + w (pc k) = ∑ i, w (pc i) + w q := by
  simp only [Fin.sum_univ_four]
  fin_cases k <;> simp [Function.update_of_ne] <;> omega

theorem sum_signal (w : Pc → ℕ) (pc : Road → Pc) (s : Option Road) :
    ∑ i, w (signal s pc i) ≤ ∑ i, w (pc i) + w .woken * s.toList.length := by
  cases s with
  | none => simp
  | some r =>
    by_cases hw : pc r = .waiting
    · have := sum_update w pc r .woken
      rw [signal_heard hw, Option.toList_some, List.length_singleton]
      omega
    · rw [signal_unheard hw]
      omega

theorem length_others : ∀ k : Road, (others k).length = 3 := by decide

/-- A thread that does not wait and has not exited goes on, and its rank pays
for the signal it sends. -/
theorem late_effect (hp : p.late) (hn : p ≠ .notCreated) (hw : p ≠ .waiting) (hx : p ≠ .exited)
    (htotal : p = .test → sh.total = startList.length) :
    ∃ e, threadFunction k startList 0 none sh p = some e ∧
      e.pc.rank + 3 * e.signal.toList.length < p.rank := by
  rw [threadFunction_eq]
  cases p
  case broadcast rest =>
    cases rest with
    | nil => exact ⟨_, rfl, by simp [Pc.rank]⟩
    | cons j js => exact ⟨_, rfl, by simp [Pc.rank]; omega⟩
  case test => exact ⟨_, rfl, by simp [Pc.rank, htotal rfl]⟩
  case unlockExit =>
    exact ⟨_, rfl, by simp [Pc.rank, length_others]⟩
  case notCreated => exact absurd rfl hn
  case waiting => exact absurd rfl hw
  case exited => exact absurd rfl hx
  case top | locked | woken | leave | print3 | unlock => exact ⟨_, rfl, by simp [Pc.rank]⟩
  all_goals
    rcases hp with hp | hp | hp <;> cases hp

theorem Doomed.thread {r : Road} (hd : Doomed startList σ r)
    (h : threadStep startList k rand ret σ = some σ') : Doomed startList σ' r := by
  have hmain : σ'.main = σ.main := by
    obtain ⟨e, -, rfl⟩ := threadStep_eq h
    rfl
  have hcreated : ∀ i, σ'.pc i ≠ .notCreated := by
    obtain ⟨e, he, rfl⟩ := threadStep_eq h
    intro i hi
    have hi' := signal_notCreated hi
    by_cases hik : i = k
    · subst hik
      rw [Function.update_self] at hi'
      exact effect_created he hi'
    · rw [Function.update_of_ne hik] at hi'
      exact hd.created i hi'
  have hsent : σ'.main.sent = true := by
    rw [hmain]
    exact hd.sent
  rcases hd.phase with hl | ⟨m, hf, hrm, hmem⟩
  · have hl' := lost_thread hl h
    exact ⟨hsent, hcreated, hl'.idle r, Or.inl hl'⟩
  · by_cases hkm : k = m
    · subst hkm
      have hx := hf.exitStep h
      obtain ⟨hmem', hpc⟩ := hx.left_alone hrm hmem
      exact ⟨hsent, hcreated, by rw [hpc]; exact hd.idle, Or.inr ⟨k, hf.exit hx, hrm, hmem'⟩⟩
    · obtain ⟨hf', hpc, hidle, -⟩ := finishing_other hf hkm h
      exact ⟨hsent, hcreated, hidle r hd.idle, Or.inr ⟨m, hf', hrm, by rwa [hpc]⟩⟩

theorem Doomed.late {r : Road} (hd : Doomed startList σ r) (k : Road) :
    (σ.pc k).late ∧ (σ.pc k = .test → σ.shared.total = startList.length) := by
  rcases hd.phase with hl | ⟨m, hf, -, -⟩
  · refine ⟨Or.inl (hl.idle k), fun hc => ?_⟩
    have := hl.idle k
    rw [hc] at this
    cases this
  · exact ⟨hf.late k, fun _ => hf.passed.total⟩

/-- A thread that waits, leaves or is in its exit branch writes nothing to the set. -/
theorem inSlots_of_late (h : (σ.pc k).late) : InSlots startList σ (.thread k) := by
  rintro ⟨hp | hp, -⟩ <;> rw [hp] at h <;> rcases h with h | h | h <;> cases h

/-- A run with a thread nobody will signal gets stuck, and writes nothing more
to the set. -/
theorem Doomed.stuck {r : Road} : ∀ {σ : State}, Doomed startList σ r →
    ∃ τ, Transition.Reach σ (Step startList) (InSlots startList) τ ∧ Stuck τ := by
  intro σ hd
  -- by the statements left: somebody can go on, or all wait or have exited
  induction hn : rank σ.pc using Nat.strong_induction_on generalizing σ with
  | _ n ih =>
    by_cases hall : ∀ k, σ.pc k = .exited ∨ σ.pc k = .waiting
    · refine ⟨σ, .init, hd.sent, ⟨r, fun hc => ?_⟩, hall⟩
      have := hd.idle
      rw [hc] at this
      cases this
    · simp only [not_forall, not_or] at hall
      obtain ⟨k, hx, hw⟩ := hall
      obtain ⟨hlate, htotal⟩ := hd.late k
      obtain ⟨e, he, hlt⟩ := late_effect (k := k) hlate (hd.created k) hw hx htotal
      have hstep : threadStep startList k 0 none σ = some { σ with
          shared := e.shared, pc := signal e.signal (Function.update σ.pc k e.pc) } := by
        rw [threadStep, he]
        rfl
      have hrank : rank (signal e.signal (Function.update σ.pc k e.pc)) < n := by
        have h1 := sum_update Pc.rank σ.pc k e.pc
        have h2 := sum_signal Pc.rank (Function.update σ.pc k e.pc) e.signal
        have hwoken : Pc.rank .woken = 3 := rfl
        rw [hwoken] at h2
        unfold rank at hn ⊢
        omega
      obtain ⟨τ, hτ, hst⟩ := ih _ hrank (hd.thread hstep) rfl
      have hfirst : Transition.Reach σ (Step startList) (InSlots startList) _ :=
        .step .init (inSlots_of_late hlate) (.thread k 0 none hstep)
      exact ⟨τ, hfirst.trans hτ, hst⟩

theorem created_of_sent (hr : Reachable startList σ) (hs : σ.main.sent = true) (i : Road) :
    σ.pc i ≠ .notCreated := by
  intro hc
  obtain ⟨k, hk, -⟩ := created_reachable hr i hc
  rw [hk] at hs
  cases hs

/-- `main`'s signal is not heard. -/
theorem doomed_main (hr : Reachable startList σ) (hi : Inv startList σ)
    (h : mainStep startList σ = some σ') (hsig : signalled startList σ .main = some j)
    (hw : σ.pc j ≠ .waiting) : Doomed startList σ' j := by
  have hmain : σ.main = .signal := by
    by_contra hc
    rw [signalled, if_neg hc] at hsig
    cases hsig
  rw [signalled, if_pos hmain] at hsig
  have hst := hi.starting_of_sent (by rw [hmain]; rfl)
  rw [mainStep, hmain] at h
  cases h
  rw [hsig, signal_unheard hw]
  refine ⟨rfl, fun i hc => ?_, hst.idle j, Or.inl ⟨rfl, hst.idle⟩⟩
  obtain ⟨k, hk, -⟩ := created_reachable hr i hc
  rw [hmain] at hk
  cases hk

/-- Idle threads and those on their way out signal nobody. -/
theorem signalAt_none (h : p.idle = true ∨ p.released = true) : signalAt k p = none := by
  rcases h with h | h <;> cases p <;> first | rfl | cases h

/-- The turn is handed to a thread that is not waiting. -/
theorem doomed_turning (hr : Reachable startList σ') (hi : Turning startList σ k)
    (h : threadStep startList k rand ret σ = some σ') (hsig : signalAt k (σ.pc k) = some j)
    (hw : σ.pc j ≠ .waiting) : Doomed startList σ' j := by
  obtain ⟨e, he, hσ'⟩ := threadStep_eq h
  rw [signalAt_eq he] at hsig
  rcases turn_effect hi.turn he with ⟨hn, -⟩ | ⟨r, hr', hrk, hun, -⟩ | ⟨hn, -⟩
  · rw [hn] at hsig
    cases hsig
  · obtain rfl : r = j := Option.some.inj (hr'.symm.trans hsig)
    have hl : Lost σ' := by
      rw [hσ', hsig, signal_unheard (by rwa [Function.update_of_ne hrk])]
      refine ⟨hi.sent, fun i => ?_⟩
      by_cases hik : i = k
      · subst hik
        simp only [Function.update_self, hun]
        rfl
      · simp only [Function.update_of_ne hik]
        exact hi.idle i hik
    exact ⟨hl.sent, created_of_sent hr hl.sent, hl.idle r, Or.inl hl⟩
  · rw [hn] at hsig
    cases hsig

/-- A signal of the exit branch is not heard. -/
theorem doomed_finishing (hr : Reachable startList σ') (hi : Finishing startList σ k)
    (h : threadStep startList k rand ret σ = some σ') (hsig : signalAt k (σ.pc k) = some j)
    (hw : σ.pc j ≠ .waiting) : Doomed startList σ' j := by
  have hx := hi.exitStep h
  have hf := hi.exit hx
  have hmem : j ∈ pending k (σ.pc k) := by
    rw [hx.pending, hsig]
    exact List.mem_cons_self
  have hjk : j ≠ k := fun hc => hi.own (hc ▸ hmem)
  refine ⟨hf.sent, created_of_sent hr hf.sent, ?_, Or.inr ⟨k, hf, hjk, ?_⟩⟩
  · rw [hx.others j hjk, if_neg fun hc => hw hc.2]
    exact hi.idle j hmem
  · exact fun hc => hi.not_signalled hx hc hsig

/-- A thread's signal is not heard. -/
theorem doomed_thread (hr : Reachable startList σ') (hi : Inv startList σ)
    (h : threadStep startList k rand ret σ = some σ') (hsig : signalAt k (σ.pc k) = some j)
    (hw : σ.pc j ≠ .waiting) : Doomed startList σ' j := by
  have hnot : ¬ ((σ.pc k).idle = true ∨ (σ.pc k).released = true) := fun hc => by
    rw [signalAt_none hc] at hsig
    cases hsig
  rcases hi.turning_or_finishing fun hc => hnot (Or.inl hc) with hi | ⟨m, hi⟩
  · exact doomed_turning hr hi h hsig hw
  · obtain rfl : k = m := by_contra fun hkm => hnot (hi.outgoing k hkm)
    exact doomed_finishing hr hi h hsig hw

/-- **After a signal that is not heard** the run gets stuck. -/
theorem stuck_of_unheard (hne : startList ≠ []) (hr : Reachable startList σ)
    (hs : Step startList σ a σ') (hu : ¬ Heard startList σ a) :
    ∃ τ, Transition.Reach σ' (Step startList) (InSlots startList) τ ∧ Stuck τ := by
  have hi := inv_reachable hne hr
  simp only [Heard, not_forall] at hu
  obtain ⟨j, hsig, hw⟩ := hu
  cases hs with
  | main h => exact (doomed_main hr hi h hsig hw).stuck
  | thread k rand ret h =>
    exact (doomed_thread (hr.step trivial (.thread k rand ret h)) hi h hsig hw).stuck

/-! ### Main results -/

theorem live_reachable (hne : startList ≠ [])
    (hr : Transition.Reach initial (Step startList) (HeardInSlots startList) σ) :
    Live startList σ := by
  refine hr.invariant ?_ fun σ a σ' hi hh hstep => ?_
  · exact .starting ⟨rfl, rfl, fun _ => rfl⟩
  · cases hstep with
    | main h => exact live_main hne hi hh.1 h
    | thread k rand ret h => exact live_thread hi hh.1 h

/-- **No lost wakeup, no stuck state.** In a run whose signals are all sent to
a thread inside `pthread_cond_wait`, and whose writes to the set are all to one
of its slots, no state is stuck; a run within the slots in which a signal is not
heard goes on within them to a stuck state. -/
theorem not_stuck_of_heard (hne : startList ≠ []) :
    (∀ σ, Transition.Reach initial (Step startList) (HeardInSlots startList) σ → ¬ Stuck σ) ∧
      ∀ σ a σ', Transition.Reach initial (Step startList) (InSlots startList) σ →
        Step startList σ a σ' → ¬ Heard startList σ a →
          ∃ τ, Transition.Reach σ' (Step startList) (InSlots startList) τ ∧ Stuck τ :=
  ⟨fun _ hr => (live_reachable hne hr).not_stuck, fun _ _ _ hr hs hu =>
    stuck_of_unheard hne (hr.mono fun _ _ _ => trivial) hs hu⟩

instance (σ : State) (a : Actor) : Decidable (Heard startList σ a) :=
  inferInstanceAs (Decidable (∀ _, _))

instance (σ : State) : ∀ a, Decidable (InSlots startList σ a)
  | .main => inferInstanceAs (Decidable True)
  | .thread _ => inferInstanceAs (Decidable ((_ ∨ _) ∧ _ → _))

instance (σ : State) (a : Actor) : Decidable (HeardInSlots startList σ a) :=
  inferInstanceAs (Decidable (_ ∧ _))

/-- A step with `rand()` and the uninitialised value fixed. -/
def next (startList : List Road) (σ : State) (a : Actor) : Option State := exec startList [a] σ

theorem step_of_exec (h : exec startList [a] σ = some σ') : Step startList σ a σ' := by
  cases a with
  | main =>
    obtain ⟨τ, hτ, h⟩ := Option.bind_eq_some_iff.mp h
    cases h
    exact .main hτ
  | thread k =>
    obtain ⟨τ, hτ, h⟩ := Option.bind_eq_some_iff.mp h
    cases h
    exact .thread k 0 none hτ

/-- One vehicle from the first road, all threads waiting before `main` signals:
thread `1` has exited and the others are on their way out. -/
theorem not_stuck_of_heard_one : ∃ σ, Transition.Reach initial (Step [0]) (HeardInSlots [0]) σ ∧
    σ.pc 0 = .exited ∧ ¬ Stuck σ := by
  have hany : (Transition.runAlong (next [0]) (HeardInSlots [0]) (([.main, .main, .main, .main,
      .thread 0, .thread 0, .thread 1, .thread 1, .thread 2, .thread 2, .thread 3, .thread 3,
      .main] : List Actor) ++ List.replicate 19 (Actor.thread 0)) initial).any
      (fun σ => σ.pc 0 = .exited) = true := by
    decide +kernel
  obtain ⟨σ, hσ, hex⟩ := (Option.any_eq_true _ _).mp hany
  have hr := Transition.Reach.runAlong (fun _ _ _ => step_of_exec) .init hσ
  exact ⟨σ, hr, of_decide_eq_true hex, (not_stuck_of_heard (by decide)).1 σ hr⟩

/-- One vehicle from the first road: `main` signals before thread `1` waits,
and all four threads wait for ever. -/
theorem stuck_reachable : ∃ σ, Reachable [0] σ ∧ Stuck σ := by
  have hany : (exec [0] [.main, .main, .main, .main, .main, .thread 0, .thread 0, .thread 1,
      .thread 1, .thread 2, .thread 2, .thread 3, .thread 3] initial).any (Stuck ·) = true := by
    decide +kernel
  obtain ⟨σ, hσ, hst⟩ := (Option.any_eq_true _ _).mp hany
  exact ⟨σ, exec_reachable .init hσ, of_decide_eq_true hst⟩

end Crossroad
end LinuxProg
