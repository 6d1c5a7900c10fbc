/-
# The clock

What `tick` counts. A turn that finds an opposite vehicle after its first
`addSet` takes one tick, any other turn two, so with `h` turns of the first kind
those of `input` vehicles take `2 * input - h` ticks, and one vehicle arrives a
tick until all have. `flow` says this once, of each statement; `OnTime` is what
follows at every place of the thread on turn. A turn of the first kind has one
after it, so the last turn is of the second kind and the run does not end before
tick `input + 2` (`clock_law`).

The vehicle that `getItem` picks after the second `addSet` may be an opposite
one too; that turn takes two ticks all the same (`opposite_picked`).
-/
import Mathlib
import LinuxProg.Crossroad.Slots

namespace LinuxProg
namespace Crossroad

variable {startList : List Road} {sh : Shared} {σ σ' : State} {k j : Road} {rand n : ℕ}
  {ret : Option Road} {p : Pc} {e : Effect} {a : Actor}

/-! ### What a statement counts -/

/-- `tick++`. -/
def Pc.ticks : Pc → ℕ
  | .tick1 | .tick2 => 1
  | _ => 0

/-- `P1++` and so on. -/
def Pc.counts : Pc → ℕ
  | .count => 1
  | _ => 0

/-- `addSet(start_list[indx])`. -/
def Pc.adds : Pc → ℕ
  | .add1 | .add2 => 1
  | _ => 0

/-- The signal to the opposite vehicle that was found. -/
def Pc.hands : Pc → ℕ
  | .signalOpposite => 1
  | _ => 0

/-- What a statement does to the clock, the vehicles that have passed and those
that have arrived. -/
theorem clock_effect (h : threadFunction k startList rand ret sh p = some e) :
    e.shared.tick = sh.tick + p.ticks ∧ e.shared.total = sh.total + p.counts ∧
      (sh.indx ≤ startList.length →
        e.shared.indx = min startList.length (sh.indx + p.adds)) := by
  have hindx : sh.indx ≤ startList.length → sh.indx = min startList.length sh.indx :=
    fun hle => (Nat.min_eq_right hle).symm
  have harrive : (arrive startList sh).tick = sh.tick := by
    unfold arrive addSet
    split <;> rfl
  rw [threadFunction_eq] at h
  cases p
  case count =>
    cases h
    exact ⟨rfl, total_count sh k, hindx⟩
  case add1 | add2 =>
    cases h
    exact ⟨harrive, (length_arrive startList sh).2, indx_arrive⟩
  case broadcast rest => cases rest <;> cases h <;> exact ⟨rfl, rfl, hindx⟩
  case dispatch item =>
    simp only [threadBody] at h
    split at h <;> cases h <;> exact ⟨rfl, rfl, hindx⟩
  all_goals cases h
  all_goals exact ⟨rfl, rfl, hindx⟩

/-! ### The law at each place -/

/-- The ticks beyond two for each vehicle that has passed. -/
def Pc.ahead : Pc → ℕ
  | .count => 2
  | .add1 | .setPassed | .findOpposite | .remove | .signalOpposite | .print2 | .tick2 => 0
  | _ => 1

/-- From the count of a vehicle to the end of its turn. -/
def Pc.counted : Pc → ℕ
  | .add1 | .setPassed | .findOpposite | .remove | .signalOpposite | .print2 | .tick2 | .add2
  | .get | .test2 _ | .print3 | .dispatch _ => 1
  | _ => 0

/-- From a tick to its `addSet`. -/
def Pc.due : Pc → ℕ
  | .count | .add1 | .add2 => 1
  | _ => 0

/-- At a place of the thread on turn, after `h` turns that handed over to an
opposite vehicle they had found. -/
structure OnTime (input h : ℕ) (sh : Shared) (p : Pc) : Prop where
  time : sh.tick + h = 2 * sh.total + p.ahead
  handed : h + p.counted ≤ sh.total
  arrived : ∃ m, sh.tick = m + p.due ∧ sh.indx = min input m

/-- The ticks, counts and arrivals along the statements. -/
theorem flow (h : threadFunction k startList rand ret sh p = some e) :
    p.ahead + p.ticks + p.hands = 2 * p.counts + e.pc.ahead ∧
      e.pc.counted + p.hands ≤ p.counts + p.counted ∧
      p.due + p.ticks = e.pc.due + p.adds := by
  rw [threadFunction_eq] at h
  cases p
  case test =>
    cases h
    simp only
    split <;> decide
  case findOpposite =>
    cases h
    simp only
    split <;> decide
  case test2 item =>
    cases h
    simp only
    split <;> simp [Pc.ahead, Pc.ticks, Pc.hands, Pc.counts, Pc.counted, Pc.due, Pc.adds]
  case broadcast rest => cases rest <;> cases h <;> exact ⟨rfl, Nat.le_refl 0, rfl⟩
  case dispatch item =>
    simp only [threadBody] at h
    split at h <;> cases h <;> exact ⟨rfl, Nat.zero_le 1, rfl⟩
  all_goals cases h
  all_goals simp [Pc.ahead, Pc.ticks, Pc.hands, Pc.counts, Pc.counted, Pc.due, Pc.adds]

/-- A statement of the thread on turn. -/
theorem OnTime.step (hc : OnTime startList.length n sh p)
    (h : threadFunction k startList rand ret sh p = some e) :
    OnTime startList.length (n + p.hands) e.shared e.pc := by
  obtain ⟨htime, hhanded, m, hm, hindx'⟩ := hc
  have hle : sh.indx ≤ startList.length := hindx' ▸ Nat.min_le_left _ _
  obtain ⟨htick, htotal, hindx⟩ := clock_effect h
  have hindx := hindx hle
  obtain ⟨hahead, hcounted, hdue⟩ := flow h
  exact ⟨by omega, by omega, m + p.adds, by omega, by omega⟩

/-- Off the turn there are no ticks. -/
theorem late_counts (h : p.late) : p.ticks = 0 ∧ p.hands = 0 := by
  rcases h with h | h | h <;> cases p <;> first | exact ⟨rfl, rfl⟩ | cases h

/-! ### Runs -/

/-- The turns that end with this statement and hand over to an opposite vehicle
they have found. -/
def handsOver (σ : State) : Actor → ℕ
  | .main => 0
  | .thread k => (σ.pc k).hands

/-- The phases of a run, and the turns so far that handed over. -/
inductive Clocked (startList : List Road) (x : State × ℕ) : Prop where
  | starting : Starting x.1 → x.2 = 0 → Clocked startList x
  | turning (j : Road) : Turning startList x.1 j →
      OnTime startList.length x.2 x.1.shared (x.1.pc j) → Clocked startList x
  | lost : Lost x.1 → Clocked startList x
  | finishing (k : Road) : Finishing startList x.1 k →
      x.1.shared.tick + x.2 = 2 * startList.length + 1 → x.2 + 1 ≤ startList.length →
      Clocked startList x

/-- The thread on turn takes a step. -/
theorem clocked_turn (hi : Turning startList σ j) (hc : OnTime startList.length n σ.shared (σ.pc j))
    (h : threadStep startList j rand ret σ = some σ') :
    Clocked startList (σ', n + (σ.pc j).hands) := by
  -- the law of the unlock is that of the thread woken
  have hwoken : ∀ sh, OnTime startList.length (n + (σ.pc j).hands) sh .unlock →
      OnTime startList.length (n + (σ.pc j).hands) sh .woken :=
    fun _ h => ⟨h.time, h.handed, h.arrived⟩
  rcases Turning.law hwoken hi (fun e he => hc.step he) h with ⟨i, ht, hc'⟩ | ⟨hl, -⟩ | ⟨hf, -, hc'⟩
  · exact .turning i ht hc'
  · exact .lost hl
  · have htime := hc'.time
    have hhanded := hc'.handed
    rw [hf.passed.total] at htime hhanded
    exact .finishing j hf htime hhanded

theorem clocked_thread (hx : Clocked startList (σ, n))
    (h : threadStep startList k rand ret σ = some σ') :
    Clocked startList (σ', n + (σ.pc k).hands) := by
  cases hx with
  | starting hi hn =>
    obtain ⟨-, hhands⟩ := late_counts (.inl (hi.idle k))
    exact .starting (starting_thread hi h) (by simp only [hhands]; exact hn)
  | turning j hi hc =>
    by_cases hkj : k = j
    · subst hkj
      exact clocked_turn hi hc h
    · obtain ⟨-, hhands⟩ := late_counts (.inl (hi.idle k hkj))
      obtain ⟨q, hq, rfl⟩ := idle_step (hi.idle k hkj) h
      refine .turning j (hi.other hkj hq) ?_
      simp only [hhands, Function.update_of_ne (Ne.symm hkj)]
      exact hc
  | lost hi => exact .lost (lost_thread hi h)
  | finishing j hi htime hhanded =>
    obtain ⟨hticks, hhands⟩ := late_counts (hi.late k)
    have htick : σ'.shared.tick = σ.shared.tick := by
      obtain ⟨e, he, rfl⟩ := threadStep_eq h
      have htick := (clock_effect he).1
      rwa [hticks] at htick
    refine .finishing j (hi.step h) ?_ ?_
    · simp only [htick, hhands]
      exact htime
    · simp only [hhands]
      exact hhanded

theorem Clocked.inv {x : State × ℕ} (hx : Clocked startList x) : Inv startList x.1 := by
  cases hx with
  | starting hi _ => exact .starting hi
  | turning j hi _ => exact .turning j hi
  | lost hi => exact .lost hi
  | finishing k hi _ _ => exact .finishing k hi

theorem clocked_main (hne : startList ≠ []) (hx : Clocked startList (σ, n))
    (h : mainStep startList σ = some σ') : Clocked startList (σ', n) := by
  have hzero : Starting σ → n = 0 := by
    intro hst
    cases hx with
    | starting _ hn => exact hn
    | turning j hi _ => exact absurd (hi.sent.symm.trans hst.sent) (by decide)
    | lost hi => exact absurd (hi.sent.symm.trans hst.sent) (by decide)
    | finishing k hi _ _ => exact absurd (hi.sent.symm.trans hst.sent) (by decide)
  rcases mainStep_cases h with ⟨k, m, hm, hs, rfl⟩ | ⟨hmain, rfl⟩ | ⟨m, hm, hs, rfl⟩
  · have hst := hx.inv.starting_of_sent hs
    exact .starting (starting_create hst hm k) (hzero hst)
  · have hst := hx.inv.starting_of_sent (by rw [hmain]; rfl)
    rcases starting_signal hne hst hmain with ⟨j, ht⟩ | ⟨hl, -⟩
    · refine .turning j ht ?_
      simp only [woken_of_turning hst.idle ht, hzero hst]
      rw [hst.shared]
      have hpos := List.length_pos_iff.mpr hne
      exact ⟨rfl, Nat.le_refl 0, 1, rfl, (Nat.min_eq_right hpos).symm⟩
    · exact .lost hl
  · cases hx with
    | starting hi _ => exact absurd (hi.sent.symm.trans hs) (by decide)
    | turning j hi hc => exact .turning j (hi.of_main hm) hc
    | lost hi => exact .lost ⟨hm, hi.idle⟩
    | finishing k hi htime hhanded => exact .finishing k (hi.of_main hm) htime hhanded

theorem clocked_reach (hne : startList ≠ []) {x : State × ℕ}
    (hx : Transition.Reach (initial, 0) (Transition.SumStep handsOver (Step startList))
      (fun _ _ => True) x) : Clocked startList x := by
  refine hx.invariant (.starting ⟨rfl, rfl, fun _ => rfl⟩ rfl) ?_
  rintro ⟨σ, m⟩ a ⟨σ', m'⟩ hc - ⟨hstep, hm⟩
  obtain rfl : m' = m + handsOver σ a := hm
  cases hstep with
  | main h => exact clocked_main hne hc h
  | thread k rand ret h => exact clocked_thread hc h

/-- A thread that neither waits nor leaves is on turn, and on time. -/
theorem Clocked.onTime {x : State × ℕ} (hx : Clocked startList x) (hk : ¬ (x.1.pc k).late) :
    OnTime startList.length x.2 x.1.shared (x.1.pc k) := by
  cases hx with
  | starting hi _ => exact absurd (.inl (hi.idle k)) hk
  | turning j hi hc =>
    obtain rfl : k = j := by_contra fun hkj => hk (.inl (hi.idle k hkj))
    exact hc
  | lost hi => exact absurd (.inl (hi.idle k)) hk
  | finishing m hi _ _ => exact absurd (hi.late k) hk

/-! ### The end of the run -/

/-- Has `main` seen thread `1` exit? -/
def MainPc.joined : MainPc → Bool
  | .join k => k.val != 0
  | .done => true
  | _ => false

theorem exited_step {i : Road} (h : threadStep startList k rand ret σ = some σ')
    (hx : σ.pc i = .exited) : σ'.pc i = .exited := by
  obtain ⟨e, he, rfl⟩ := threadStep_eq h
  have hik : i ≠ k := by
    rintro rfl
    rw [hx, threadFunction_eq] at he
    cases he
  simp only [signal_apply, Function.update_of_ne hik, hx, reduceCtorEq, and_false, if_false]

theorem joined_reachable (hr : Reachable startList σ) (hj : σ.main.joined = true) :
    σ.pc 0 = .exited := by
  refine hr.invariant (P := fun σ => σ.main.joined = true → σ.pc 0 = .exited) ?_
    (fun σ a σ' ih _ hstep hj => ?_) hj
  · intro h
    cases h
  · cases hstep with
    | main h =>
      unfold mainStep at h
      split at h
      · obtain rfl := Option.some.inj h
        simp only at hj
        split at hj <;> cases hj
      · obtain rfl := Option.some.inj h
        cases hj
      · rename_i k hmain
        split at h
        · rename_i hex
          obtain rfl := Option.some.inj h
          by_cases hk : k = 0
          · rwa [← hk]
          · exact ih (by rw [hmain]; simpa [MainPc.joined] using hk)
        · cases h
      · cases h
    | thread k rand ret h =>
      obtain ⟨e, -, hσ'⟩ := threadStep_eq h
      refine exited_step h (ih ?_)
      rw [hσ'] at hj
      exact hj

/-- When thread `1` has exited the run is at its end. -/
theorem Clocked.exited {x : State × ℕ} (hx : Clocked startList x) (hex : x.1.pc k = .exited) :
    x.1.shared.tick + x.2 = 2 * startList.length + 1 ∧ x.2 + 1 ≤ startList.length := by
  have hidle : ¬ (x.1.pc k).idle = true := by
    rw [hex]
    exact Bool.false_ne_true
  cases hx with
  | starting hi _ => exact absurd (hi.idle k) hidle
  | turning j hi _ =>
    have hact := hi.turn.active
    obtain rfl : k = j := by_contra fun hkj => hidle (hi.idle k hkj)
    rw [hex] at hact
    cases hact
  | lost hi => exact absurd (hi.idle k) hidle
  | finishing m _ htime hhanded => exact ⟨htime, hhanded⟩

/-- **The clock.** After every `addSet` one vehicle has arrived a tick, or all
have. The total time printed is `1 + 2 * input - h` ticks, where `h` turns handed
over to an opposite vehicle they had found after their first `addSet`; it is
`input + 2` at least and `2 * input + 1` at most, an `int` for fewer than `2 ^ 30`
vehicles. -/
theorem clock_law (hne : startList ≠ []) :
    (∀ σ k σ', Reachable startList σ → σ.pc k = .add1 ∨ σ.pc k = .add2 →
      Step startList σ (.thread k) σ' →
        σ'.shared.indx = min startList.length σ'.shared.tick) ∧
    ∀ x, Transition.Reach (initial, 0) (Transition.SumStep handsOver (Step startList))
      (fun _ _ => True) x → x.1.main = .done →
        x.1.shared.tick + x.2 = 1 + 2 * startList.length ∧
        startList.length + 2 ≤ x.1.shared.tick ∧
        x.1.shared.tick ≤ 2 * startList.length + 1 := by
  constructor
  · intro σ k σ' hr hadd hstep
    obtain ⟨h, hx⟩ := hr.exists_sum handsOver
    have hlate : ¬ (σ.pc k).late := by
      rcases hadd with hadd | hadd <;> rw [hadd, Pc.late] <;> decide
    have htime := (clocked_reach hne hx).onTime hlate
    cases hstep with
    | thread k rand ret hstep =>
      obtain ⟨e, he, rfl⟩ := threadStep_eq hstep
      obtain ⟨m, htick, hindx⟩ := (htime.step he).arrived
      have hdue : e.pc.due = 0 := by
        rw [threadFunction_eq] at he
        rcases hadd with hadd | hadd <;> rw [hadd] at he <;> cases he <;> rfl
      rw [hdue, Nat.add_zero] at htick
      simp only [htick]
      exact hindx
  · intro x hx hdone
    have hex : x.1.pc 0 = .exited := joined_reachable hx.of_sum (by rw [hdone]; rfl)
    obtain ⟨htime, hhanded⟩ := (clocked_reach hne hx).exited hex
    omega

/-- The step of `SumStep` with `rand()` and the uninitialised value fixed. -/
def sumNext (w : State → Actor → ℕ) (startList : List Road) (rand : ℕ) (x : State × ℕ)
    (a : Actor) : Option (State × ℕ) :=
  (match a with
    | .main => mainStep startList x.1
    | .thread k => threadStep startList k rand none x.1).map fun σ => (σ, x.2 + w x.1 a)

theorem sumNext_step {w : State → Actor → ℕ} {x y : State × ℕ}
    (h : sumNext w startList rand x a = some y) :
    Transition.SumStep w (Step startList) x a y := by
  obtain ⟨σ, hσ, rfl⟩ := Option.map_eq_some_iff.mp h
  cases a with
  | main => exact ⟨.main hσ, rfl⟩
  | thread k => exact ⟨.thread k rand none hσ, rfl⟩

/-- A vehicle from each of two opposite roads: the first turn hands over, and
the total time is 4 ticks. -/
theorem clock_law_two : ∃ x, Transition.Reach (initial, 0)
    (Transition.SumStep handsOver (Step [0, 2])) (fun _ _ => True) x ∧ x.2 = 1 ∧
      x.1.shared.tick + x.2 = 1 + 2 * 2 ∧ 2 + 2 ≤ x.1.shared.tick ∧
      x.1.shared.tick ≤ 2 * 2 + 1 := by
  have hany : (Transition.runAlong (sumNext handsOver [0, 2] 0) (fun _ _ => True)
      (([.main, .main, .main, .main, .thread 0, .thread 0, .thread 1, .thread 1, .thread 2,
      .thread 2, .thread 3, .thread 3, .main] : List Actor) ++
      List.replicate 13 (Actor.thread 0) ++ List.replicate 19 (Actor.thread 2) ++
      List.replicate 3 (Actor.thread 0) ++ List.replicate 3 (Actor.thread 1) ++
      List.replicate 3 (Actor.thread 3) ++ List.replicate 4 Actor.main) (initial, 0)).any
      (fun x => x.1.main = .done ∧ x.2 = 1) = true := by
    decide +kernel
  obtain ⟨x, hx, hfin⟩ := (Option.any_eq_true _ _).mp hany
  obtain ⟨hdone, hone⟩ := of_decide_eq_true hfin
  have hr : Transition.Reach (initial, 0) (Transition.SumStep handsOver (Step [0, 2]))
      (fun _ _ => True) x := Transition.Reach.runAlong (fun _ _ _ => sumNext_step) .init hx
  exact ⟨x, hr, hone, (clock_law (by decide)).2 x hr hdone⟩

/-- The turns that end with this statement and hand over to an opposite vehicle,
found or picked. -/
def handsToOpposite (σ : State) : Actor → ℕ
  | .main => 0
  | .thread k => if handsTo k (σ.pc k) = some (opposite k) then 1 else 0

/-- Vehicles from the roads `1`, `2` and `3`: `getItem` picks that from road `3`
after the turn of road `1` has taken two ticks. -/
theorem opposite_picked : ¬ ∀ startList : List Road, startList ≠ [] → ∀ x,
    Transition.Reach (initial, 0) (Transition.SumStep handsToOpposite (Step startList))
      (fun x a => Heard startList x.1 a ∧ x.1.shared.arr.length ≤ slots) x → x.1.main = .done →
        x.1.shared.tick + x.2 = 1 + 2 * startList.length := by
  intro hall
  have hany : (Transition.runAlong (sumNext handsToOpposite [0, 1, 2] 1)
      (fun x a => Heard [0, 1, 2] x.1 a ∧ x.1.shared.arr.length ≤ slots)
      (([.main, .main, .main, .main, .thread 0, .thread 0, .thread 1, .thread 1, .thread 2,
      .thread 2, .thread 3, .thread 3, .main] : List Actor) ++
      List.replicate 17 (Actor.thread 0) ++ List.replicate 17 (Actor.thread 2) ++
      List.replicate 19 (Actor.thread 1) ++ List.replicate 3 (Actor.thread 0) ++
      List.replicate 3 (Actor.thread 2) ++ List.replicate 3 (Actor.thread 3) ++
      List.replicate 4 Actor.main) (initial, 0)).any
      (fun x => x.1.main = .done ∧ x.1.shared.tick + x.2 = 8) = true := by
    decide +kernel
  obtain ⟨x, hx, hfin⟩ := (Option.any_eq_true _ _).mp hany
  obtain ⟨hdone, htime⟩ := of_decide_eq_true hfin
  have hr := hall [0, 1, 2] (by decide) x
    (Transition.Reach.runAlong (fun _ _ _ => sumNext_step) .init hx) hdone
  rw [htime] at hr
  cases hr

end Crossroad
end LinuxProg
