/-
# Labelled transition systems

A system is a step relation with labels. `Reach init step ok` are the states
of the runs from `init` each of whose steps is `ok` before it is taken; with
no condition these are the reachable states. An invariant is shown of the
initial state and across one step (`Reach.invariant`). `Trace` keeps the labels
of a run, the last one first, `PeakStep` the greatest value that a measure had
in a run, `SumStep` the sum of what its steps count and `LogStep` what they put
out, for what is said of its history. A run that cannot go on ends in a `Final`
state.
-/
import Mathlib

namespace LinuxProg
namespace Transition

variable {S A : Type*} {init : S} {step : S → A → S → Prop} {ok : S → A → Prop}

/-- The states of the runs whose steps are all `ok`. -/
inductive Reach (init : S) (step : S → A → S → Prop) (ok : S → A → Prop) : S → Prop where
  | init : Reach init step ok init
  | step {s s' : S} {a : A} : Reach init step ok s → ok s a → step s a s' → Reach init step ok s'

/-- Invariant rule. -/
theorem Reach.invariant {P : S → Prop} {s : S} (hs : Reach init step ok s) (h0 : P init)
    (h : ∀ s a s', P s → ok s a → step s a s' → P s') : P s := by
  induction hs with
  | init => exact h0
  | step _ hok hstep ih => exact h _ _ _ ih hok hstep

theorem Reach.mono {ok' : S → A → Prop} {s : S} (hs : Reach init step ok s)
    (h : ∀ s a, ok s a → ok' s a) : Reach init step ok' s := by
  induction hs with
  | init => exact .init
  | step _ hok hstep ih => exact .step ih (h _ _ hok) hstep

/-- A run of a system with more in its states is a run of the system. -/
theorem Reach.map {T : Type*} {f : T → S} {init' : T} {step' : T → A → T → Prop}
    {ok' : T → A → Prop} (hinit : f init' = init) (hok : ∀ x a, ok' x a → ok (f x) a)
    (hstep : ∀ x a y, step' x a y → step (f x) a (f y)) {x : T} (hx : Reach init' step' ok' x) :
    Reach init step ok (f x) := by
  induction hx with
  | init => exact hinit ▸ .init
  | step _ hx hxy ih => exact .step ih (hok _ _ hx) (hstep _ _ _ hxy)

/-- A run goes on from where another one ends. -/
theorem Reach.trans {s s' : S} (hs : Reach init step ok s) (hs' : Reach s step ok s') :
    Reach init step ok s' := by
  induction hs' with
  | init => exact hs
  | step _ hok hstep ih => exact .step ih hok hstep

/-- A run along given labels, as long as its steps are `ok`. -/
def runAlong (next : S → A → Option S) (ok : S → A → Prop) [∀ s a, Decidable (ok s a)] :
    List A → S → Option S
  | [], s => some s
  | a :: as, s => if ok s a then (next s a).bind (runAlong next ok as) else none

theorem Reach.runAlong {next : S → A → Option S} [∀ s a, Decidable (ok s a)]
    (hnext : ∀ s a s', next s a = some s' → step s a s') :
    ∀ {as : List A} {s s' : S}, Reach init step ok s → runAlong next ok as s = some s' →
      Reach init step ok s'
  | [], s, s', hs, h => Option.some.inj h ▸ hs
  | a :: as, s, s', hs, h => by
    unfold Transition.runAlong at h
    split at h
    · rename_i hok
      obtain ⟨t, ht, h⟩ := Option.bind_eq_some_iff.mp h
      exact Reach.runAlong hnext (hs.step hok (hnext s a t ht)) h
    · cases h

/-- No step leads out of the state. -/
def Final (step : S → A → S → Prop) (s : S) : Prop := ∀ a s', ¬ step s a s'

/-- With a measure that every step lowers, a run goes on to a final state. -/
theorem exists_final {f : S → ℕ}
    (hf : ∀ s a s', Reach init step (fun _ _ => True) s → step s a s' → f s' < f s) :
    ∃ s, Reach init step (fun _ _ => True) s ∧ Final step s := by
  -- of the states reached, one of the least measure
  obtain ⟨s, hs, hmin⟩ := exists_minimalFor_of_wellFoundedLT
    (Reach init step (fun _ _ => True)) f ⟨init, .init⟩
  refine ⟨s, hs, fun a s' hstep => ?_⟩
  have hlt := hf s a s' hs hstep
  exact hlt.not_ge (hmin (hs.step trivial hstep) hlt.le)

/-- The steps, with the greatest value of `f` so far. -/
def PeakStep (f : S → ℕ) (step : S → A → S → Prop) (x : S × ℕ) (a : A) (y : S × ℕ) : Prop :=
  step x.1 a y.1 ∧ y.2 = max x.2 (f y.1)

theorem Reach.of_peak {f : S → ℕ} {m : ℕ} {x : S × ℕ}
    (h : Reach (init, m) (PeakStep f step) (fun x => ok x.1) x) : Reach init step ok x.1 :=
  Reach.map (f := Prod.fst) rfl (fun _ _ hok => hok) (fun _ _ _ hstep => hstep.1) h

/-- A bound of the measure bounds its greatest value. -/
theorem Reach.peak_le {f : S → ℕ} {b : ℕ} (hb : ∀ s, Reach init step ok s → f s ≤ b) {x : S × ℕ}
    (h : Reach (init, f init) (PeakStep f step) (fun x => ok x.1) x) : x.2 ≤ b := by
  induction h with
  | init => exact hb _ .init
  | step h hok hstep ih =>
    rw [hstep.2]
    exact Nat.max_le.mpr ⟨ih, hb _ (h.of_peak.step hok hstep.1)⟩

/-- The greatest value of the measure is that of a state of the run. -/
theorem Reach.peak_attained {f : S → ℕ} {x : S × ℕ}
    (h : Reach (init, f init) (PeakStep f step) (fun x => ok x.1) x) :
    ∃ s, Reach init step ok s ∧ f s = x.2 := by
  induction h with
  | init => exact ⟨init, .init, rfl⟩
  | @step x y a h hok hstep ih =>
    obtain ⟨hs, hm⟩ := hstep
    rcases max_choice x.2 (f y.1) with hmax | hmax
    · obtain ⟨s, hs, hf⟩ := ih
      exact ⟨s, hs, by rw [hf, hm, hmax]⟩
    · exact ⟨y.1, h.of_peak.step hok hs, by rw [hm, hmax]⟩

/-- The steps, with the sum of what they count so far. -/
def SumStep (w : S → A → ℕ) (step : S → A → S → Prop) (x : S × ℕ) (a : A) (y : S × ℕ) : Prop :=
  step x.1 a y.1 ∧ y.2 = x.2 + w x.1 a

theorem Reach.of_sum {w : S → A → ℕ} {m : ℕ} {x : S × ℕ}
    (h : Reach (init, m) (SumStep w step) (fun x => ok x.1) x) : Reach init step ok x.1 :=
  Reach.map (f := Prod.fst) rfl (fun _ _ hok => hok) (fun _ _ _ hstep => hstep.1) h

/-- Every run has a sum. -/
theorem Reach.exists_sum (w : S → A → ℕ) {s : S} (hs : Reach init step ok s) :
    ∃ n, Reach (init, 0) (SumStep w step) (fun x => ok x.1) (s, n) := by
  induction hs with
  | init => exact ⟨0, .init⟩
  | step _ hok hstep ih =>
    obtain ⟨n, hn⟩ := ih
    exact ⟨_, hn.step hok ⟨hstep, rfl⟩⟩

/-- The steps, with what they put out so far, in order. -/
def LogStep {B : Type*} (w : S → A → List B) (step : S → A → S → Prop) (x : S × List B) (a : A)
    (y : S × List B) : Prop :=
  step x.1 a y.1 ∧ y.2 = x.2 ++ w x.1 a

theorem Reach.of_log {B : Type*} {w : S → A → List B} {l : List B} {x : S × List B}
    (h : Reach (init, l) (LogStep w step) (fun x => ok x.1) x) : Reach init step ok x.1 :=
  Reach.map (f := Prod.fst) rfl (fun _ _ hok => hok) (fun _ _ _ hstep => hstep.1) h

/-- The runs with their labels. -/
inductive Trace (init : S) (step : S → A → S → Prop) : List A → S → Prop where
  | init : Trace init step [] init
  | step {l : List A} {s s' : S} {a : A} :
      Trace init step l s → step s a s' → Trace init step (a :: l) s'

theorem Trace.reach {l : List A} {s : S} (h : Trace init step l s) :
    Reach init step (fun _ _ => True) s := by
  induction h with
  | init => exact .init
  | step _ hstep ih => exact .step ih trivial hstep

/-- A measure that every step lowers bounds the steps of a run. -/
theorem Trace.length_le {f : S → ℕ}
    (hf : ∀ s a s', Reach init step (fun _ _ => True) s → step s a s' → f s' < f s)
    {l : List A} {s : S} (h : Trace init step l s) : l.length + f s ≤ f init := by
  induction h with
  | init => exact (Nat.zero_add _).le
  | step h hstep ih =>
    have hlt := hf _ _ _ h.reach hstep
    rw [List.length_cons]
    omega

/-! ### Functions that are repeated -/

/-- At most `n` rounds lead from `x` to `y`. -/
def Within (f : S → S) (n : ℕ) (x y : S) : Prop := ∃ m ≤ n, f^[m] x = y

theorem Within.refl (f : S → S) (x : S) : Within f 0 x x := ⟨0, le_rfl, rfl⟩

theorem Within.head {f : S → S} {n : ℕ} {x y : S} (h : Within f n (f x) y) :
    Within f (n + 1) x y := by
  obtain ⟨m, hm, heq⟩ := h
  exact ⟨m + 1, Nat.succ_le_succ hm, heq⟩

theorem Within.trans {f : S → S} {m n : ℕ} {x y z : S} (h : Within f m x y)
    (h' : Within f n y z) : Within f (m + n) x z := by
  obtain ⟨i, hi, rfl⟩ := h
  obtain ⟨j, hj, rfl⟩ := h'
  refine ⟨i + j, Nat.add_le_add hi hj, ?_⟩
  rw [Nat.add_comm, Function.iterate_add_apply]

theorem Within.mono {f : S → S} {m n : ℕ} {x y : S} (h : Within f m x y) (hmn : m ≤ n) :
    Within f n x y := by
  obtain ⟨i, hi, heq⟩ := h
  exact ⟨i, hi.trans hmn, heq⟩

/-- Where a function stays, more rounds lead to the same end. -/
theorem Within.iterate {f : S → S} {n k : ℕ} {x y : S} (h : Within f n x y) (hy : f y = y)
    (hk : n ≤ k) : f^[k] x = y := by
  obtain ⟨m, hm, rfl⟩ := h
  obtain ⟨d, rfl⟩ := Nat.exists_eq_add_of_le (hm.trans hk)
  rw [Nat.add_comm, Function.iterate_add_apply]
  exact Function.iterate_fixed hy d

end Transition
end LinuxProg
