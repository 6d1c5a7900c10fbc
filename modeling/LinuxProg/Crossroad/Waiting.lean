/-
# The waiting set

How many vehicles wait at a time. When a turn begins no more wait than have
passed; a turn adds two at most and takes one out, and lets one pass
(`Behind`). Those that have passed or wait have arrived, so at no time more
than half of the vehicles wait, rounded up (`waiting_le`).

Every run is finite (`run_le`). With all vehicles from one road every turn is of
the same thread, nobody finds an opposite vehicle, and the bound is attained
when half of them have passed (`OneRoad`), in every run whose first signal is
heard; if it is not heard nobody ever waits (`waiting_worst_case`). The runs are
those without spurious wakeups.
-/
import Mathlib
import LinuxProg.Crossroad.Wakeup

namespace LinuxProg
namespace Crossroad

variable {startList : List Road} {sh : Shared} {σ σ' : State} {k j : Road} {rand : ℕ}
  {ret : Option Road} {p : Pc} {e : Effect} {a : Actor}

/-! ### No more wait than have passed -/

/-- The vehicles that wait against those that have passed, at the statements of
the thread on turn. -/
def Behind (sh : Shared) : Pc → Prop
  | .add1 | .signalOpposite => sh.arr.length + 1 ≤ sh.total
  | .get => sh.arr.length ≤ sh.total + 1
  | _ => sh.arr.length ≤ sh.total

theorem Behind.le (h : Behind sh p) : sh.arr.length ≤ sh.total + 1 := by
  cases p <;> simp only [Behind] at h <;> omega

theorem total_count (sh : Shared) (j : Road) :
    Shared.total { sh with P := Function.update sh.P j (sh.P j + 1) } = sh.total + 1 := by
  unfold Shared.total
  fin_cases j <;> simp [Function.update] <;> omega

theorem length_arrive (startList : List Road) (sh : Shared) :
    (arrive startList sh).arr.length ≤ sh.arr.length + 1 ∧
      (arrive startList sh).total = sh.total := by
  unfold arrive addSet
  split
  · exact ⟨by rw [List.length_append]; exact le_rfl, rfl⟩
  · exact ⟨Nat.le_succ _, rfl⟩

/-- One vehicle arrives, until all have. -/
theorem indx_arrive (hle : sh.indx ≤ startList.length) :
    (arrive startList sh).indx = min startList.length (sh.indx + 1) := by
  unfold arrive addSet
  split
  · rename_i hlt
    exact (Nat.min_eq_right hlt).symm
  · omega

/-- A statement of the thread on turn. -/
theorem behind_effect (ht : Turn startList j sh p) (hb : Behind sh p)
    (h : threadFunction j startList rand ret sh p = some e) : Behind e.shared e.pc := by
  rw [threadFunction_eq] at h
  cases p <;> first | exact absurd ht id | skip
  all_goals simp only [threadBody, Option.some.injEq] at h
  case test => subst h; split <;> exact hb
  case count =>
    subst h
    show sh.arr.length + 1 ≤ Shared.total _
    rw [total_count]
    exact Nat.succ_le_succ hb
  case add1 =>
    subst h
    obtain ⟨hlen, htotal⟩ := length_arrive startList sh
    show (arrive startList sh).arr.length ≤ (arrive startList sh).total
    rw [htotal]
    exact hlen.trans hb
  case findOpposite => subst h; split <;> exact hb
  case remove =>
    subst h
    show (removeItem (opposite j) sh.arr).length + 1 ≤ sh.total
    have hpos : 0 < sh.arr.length := List.length_pos_of_mem ht.2
    rw [removeItem, if_pos ht.2, List.length_erase_of_mem ht.2, Nat.sub_add_cancel hpos]
    exact hb
  case signalOpposite => subst h; exact Nat.le_of_succ_le hb
  case add2 =>
    subst h
    obtain ⟨hlen, htotal⟩ := length_arrive startList sh
    show (arrive startList sh).arr.length ≤ (arrive startList sh).total + 1
    rw [htotal]
    exact hlen.trans (Nat.succ_le_succ hb)
  case get =>
    subst h
    show (getItem rand ret sh.arr).2.length ≤ sh.total
    have hle : sh.arr.length ≤ sh.total + 1 := hb
    unfold getItem
    split
    · rename_i h0
      rw [h0]
      exact Nat.zero_le _
    · rename_i h0
      rw [List.length_eraseIdx_of_lt (Nat.mod_lt _ (by omega))]
      omega
  case test2 item => subst h; split <;> exact hb
  case dispatch item =>
    split at h
    · obtain rfl := Option.some.inj h
      exact hb
    · obtain rfl := Option.some.inj h
      exact hb
  all_goals
    subst h
    exact hb

/-- Those that have passed or wait have arrived. -/
theorem Balance.half {turn : Option Road} (h : Balance startList sh turn)
    (hle : sh.arr.length ≤ sh.total + 1) : 2 * sh.arr.length ≤ startList.length + 1 := by
  have htotal := h.total
  have hindx := h.1
  omega

/-- At most half of the vehicles wait, and on a turn no more than have passed. -/
structure Half (startList : List Road) (σ : State) : Prop where
  bound : 2 * σ.shared.arr.length ≤ startList.length + 1
  behind : ∀ j, Turning startList σ j → Behind σ.shared (σ.pc j)

theorem Turning.not_idle (h : Turning startList σ j) : ¬ (σ.pc j).idle = true :=
  not_idle_of_active h.turn.active

/-- Nobody is on turn when the run ends. -/
theorem Finishing.not_turning (h : Finishing startList σ k) : ¬ Turning startList σ j := by
  intro ht
  have hk : ¬ (σ.pc k).idle = true := by
    intro hid
    rcases h.exiter with hx | hx
    · cases hp : σ.pc k <;> rw [hp] at hx hid <;> cases hx <;> cases hid
    · rw [hx] at hid
      cases hid
  obtain rfl : k = j := by_contra fun hkj => hk (ht.idle k hkj)
  have hact := ht.turn.active
  rcases h.exiter with hx | hx
  · cases hp : σ.pc k <;> rw [hp] at hx hact <;> cases hx <;> cases hact
  · rw [hx] at hact
    cases hact

/-- Whoever is on turn after a signal, with all threads idle before, has just
been woken. -/
theorem woken_of_turning {pc : Road → Pc} {m : MainPc} {s : Option Road}
    (hidle : ∀ i, (pc i).idle = true) (ht : Turning startList ⟨sh, signal s pc, m⟩ j) :
    signal s pc j = .woken := by
  have hact := ht.not_idle
  simp only [signal_apply] at hact ⊢
  split
  · rfl
  · rename_i hno
    rw [if_neg hno] at hact
    exact absurd (hidle j) hact

/-- A law that the statements of the thread on turn keep holds at the place of
the thread on turn after its step, and when there is none any more. -/
theorem Turning.law {Q : Shared → Pc → Prop} (hwoken : ∀ sh, Q sh .unlock → Q sh .woken)
    (hi : Turning startList σ j)
    (hQ : ∀ e, threadFunction j startList rand ret σ.shared (σ.pc j) = some e → Q e.shared e.pc)
    (h : threadStep startList j rand ret σ = some σ') :
    (∃ i, Turning startList σ' i ∧ Q σ'.shared (σ'.pc i)) ∨
      (Lost σ' ∧ (∃ r, Balance startList σ'.shared (some r)) ∧ Q σ'.shared .unlock) ∨
      (Finishing startList σ' j ∧ σ'.shared.arr = [] ∧ Q σ'.shared .print3) := by
  obtain ⟨e, he, rfl⟩ := threadStep_eq h
  have hq := hQ e he
  rcases turn_effect hi.turn he with ⟨hsig, ht⟩ | ⟨r, hsig, -, hpc, hb⟩ | ⟨hsig, hpc, hall, harr, hb⟩
  · rw [hsig]
    refine Or.inl ⟨j, hi.keep ht, ?_⟩
    simp only [signal_none, Function.update_self]
    exact hq
  · rw [hpc] at hq
    rw [hsig]
    rcases signal_cases hi.sent (hi.back hpc) hb with ht | ⟨hl, -⟩
    · refine Or.inl ⟨r, ht, ?_⟩
      simp only [woken_of_turning (hi.back hpc) ht]
      exact hwoken e.shared hq
    · exact Or.inr (Or.inl ⟨hl, ⟨r, hb⟩, hq⟩)
  · rw [hpc] at hq
    rw [hsig]
    exact Or.inr (Or.inr ⟨hi.finish hpc hall hb, harr, hq⟩)

theorem Turning.unique {i : Road} (hi : Turning startList σ i) (hj : Turning startList σ j) :
    i = j := by
  by_contra hij
  exact hi.not_idle (hj.idle i hij)

/-- The thread on turn takes a step. -/
theorem half_turn (hs : Half startList σ) (hi : Turning startList σ j)
    (h : threadStep startList j rand ret σ = some σ') : Half startList σ' := by
  have hQ : ∀ e, threadFunction j startList rand ret σ.shared (σ.pc j) = some e →
      Behind e.shared e.pc := fun _ he => behind_effect hi.turn (hs.behind j hi) he
  rcases Turning.law (fun _ hb => hb) hi hQ h with ⟨i, ht, hb⟩ | ⟨hl, ⟨r, hbal⟩, hb⟩ |
    ⟨hf, harr, -⟩
  · obtain ⟨turn, hbal⟩ := ht.turn.balance
    refine ⟨hbal.half hb.le, fun i' hti => ?_⟩
    rw [hti.unique ht]
    exact hb
  · exact ⟨hbal.half hb.le, fun i hti => absurd (hl.idle i) hti.not_idle⟩
  · exact ⟨by simp [harr], fun i hti => absurd hti hf.not_turning⟩

/-- A step that leaves the waiting set alone, and after which nobody is on turn. -/
theorem half_of_arr (hs : Half startList σ) (harr : σ'.shared.arr = σ.shared.arr)
    (hno : ∀ j, ¬ Turning startList σ' j) : Half startList σ' :=
  ⟨by rw [harr]; exact hs.bound, fun j ht => absurd ht (hno j)⟩

/-- The end of the run leaves the waiting set alone. -/
theorem Finishing.arr (hi : Finishing startList σ j)
    (h : threadFunction k startList rand ret σ.shared (σ.pc k) = some e) :
    e.shared.arr = σ.shared.arr := by
  by_cases hkj : k = j
  · subst hkj
    apply effect_arr ?_ h
    rcases hi.exiter with hx | hx
    · cases hp : σ.pc k <;> rw [hp] at hx <;> cases hx <;> rfl
    · rw [hx]
      rfl
  · rcases hi.outgoing k hkj with hp | hp
    · rw [(idle_effect hp h).1]
    · rw [(released_effect hi.passed.total hp h).1]

theorem half_thread (hi : Inv startList σ) (hs : Half startList σ)
    (h : threadStep startList k rand ret σ = some σ') : Half startList σ' := by
  cases hi with
  | starting hi =>
    have hst := starting_thread hi h
    apply half_of_arr hs (by rw [hst.shared, hi.shared])
    exact fun j ht => ht.not_idle (hst.idle j)
  | turning j hi =>
    by_cases hkj : k = j
    · subst hkj
      exact half_turn hs hi h
    · obtain ⟨q, hq, rfl⟩ := idle_step (hi.idle k hkj) h
      refine ⟨hs.bound, fun i hti => ?_⟩
      obtain rfl : i = j := hti.unique (hi.other hkj hq)
      simp only [Function.update_of_ne (Ne.symm hkj)]
      exact hs.behind i hi
  | lost hi =>
    have hlost := lost_thread hi h
    obtain ⟨q, -, hσ'⟩ := idle_step (hi.idle k) h
    apply half_of_arr hs (by rw [hσ'])
    exact fun j ht => ht.not_idle (hlost.idle j)
  | finishing m hi =>
    have hfin := hi.step h
    obtain ⟨e, he, rfl⟩ := threadStep_eq h
    exact half_of_arr hs (hi.arr he) fun j => hfin.not_turning

theorem half_main (hi : Inv startList σ) (hs : Half startList σ)
    (h : mainStep startList σ = some σ') : Half startList σ' := by
  rcases mainStep_cases h with ⟨k, m, hm, -, rfl⟩ | ⟨hmain, rfl⟩ | ⟨m, -, hsent, rfl⟩
  · refine ⟨hs.bound, fun j ht => ?_⟩
    have := ht.sent
    rw [hm] at this
    cases this
  · have hst := hi.starting_of_sent (by rw [hmain]; rfl)
    refine ⟨hs.bound, fun j ht => ?_⟩
    simp only [woken_of_turning hst.idle ht, hst.shared]
    exact Nat.zero_le _
  · exact ⟨hs.bound, fun j ht => hs.behind j ⟨hsent, ht.turn, ht.idle⟩⟩

theorem half_reachable (hne : startList ≠ []) (hr : Reachable startList σ) : Half startList σ := by
  have h : Inv startList σ ∧ Half startList σ := by
    refine Transition.Reach.invariant (P := fun σ => Inv startList σ ∧ Half startList σ) hr ?_
      fun σ a σ' hi _ hstep => ?_
    · refine ⟨.starting ⟨rfl, rfl, fun _ => rfl⟩, Nat.zero_le _, fun j ht => ?_⟩
      cases ht.sent
    · cases hstep with
      | main h => exact ⟨inv_main hne hi.1 h, half_main hi.1 hi.2 h⟩
      | thread k rand ret h => exact ⟨inv_thread hi.1 h, half_thread hi.1 hi.2 h⟩
  exact h.2

/-- **At most half of the vehicles wait**, rounded up, in every run. -/
theorem waiting_le (hne : startList ≠ []) (hr : Reachable startList σ) :
    σ.shared.arr.length ≤ (startList.length + 1) / 2 := by
  have := (half_reachable hne hr).bound
  omega

/-! ### Runs are finite -/

/-- The statements a thread has left in its turn, and what it pays for those it
signals. -/
def Pc.left : Pc → ℕ
  | .locked | .leave => 1
  | .top | .count => 2
  | .unlock | .tick1 => 3
  | .go => 4
  | .test => 5
  | .woken => 6
  | .broadcast rest => 7 * rest.length + 1
  | .unlockExit => 23
  | .print3 => 24
  | .signalOpposite | .dispatch _ => 10
  | .remove => 11
  | .test2 _ => 25
  | .get => 26
  | .add2 => 27
  | .tick2 => 28
  | .print2 => 29
  | .findOpposite => 30
  | .setPassed => 31
  | .add1 => 32
  | _ => 0

/-- The statements of `main` that are left. -/
def MainPc.left : MainPc → ℕ
  | .create k => 23 - 3 * k.val
  | .signal => 11
  | .join k => 4 - k.val
  | .done => 0

/-- A bound of the statements left; a vehicle that has not passed pays for a turn. -/
def left (startList : List Road) (σ : State) : ℕ :=
  σ.main.left + ∑ k, (σ.pc k).left + 31 * (startList.length - σ.shared.total)

theorem left_effect (hcount : p = .count → sh.total < startList.length)
    (h : threadFunction k startList rand ret sh p = some e) :
    e.pc.left + 6 * e.signal.toList.length + 31 * (startList.length - e.shared.total) <
      p.left + 31 * (startList.length - sh.total) := by
  by_cases hp : p = .count
  · subst hp
    have hlt := hcount rfl
    rw [threadFunction_eq] at h
    obtain rfl := Option.some.inj h
    simp only [total_count, Pc.left, Option.toList_none, List.length_nil]
    omega
  · rw [total_of_P (effect_P hp h)]
    suffices hs : e.pc.left + 6 * e.signal.toList.length < p.left by omega
    rw [threadFunction_eq] at h
    cases p <;> simp only [threadBody, Option.some.injEq, reduceCtorEq] at h
    case count => exact absurd rfl hp
    case test => subst h; simp only; split <;> simp [Pc.left]
    case findOpposite => subst h; simp only; split <;> simp [Pc.left]
    case test2 item => subst h; simp only; split <;> simp [Pc.left]
    case unlockExit => subst h; simp [Pc.left, length_others]
    case broadcast rest =>
      cases rest with
      | nil => obtain rfl := Option.some.inj h; simp [Pc.left]
      | cons r rest =>
        obtain rfl := Option.some.inj h
        simp only [Pc.left, List.length_cons, Option.toList_some, List.length_nil]
        omega
    case dispatch item =>
      split at h
      · obtain rfl := Option.some.inj h
        simp [Pc.left]
      · obtain rfl := Option.some.inj h
        cases item <;> simp [Pc.left]
    all_goals
      subst h
      simp [Pc.left]

/-- A vehicle that is about to be counted is left. -/
theorem Inv.total_lt_of_count (hi : Inv startList σ) (hp : σ.pc k = .count) :
    σ.shared.total < startList.length := by
  have hb := (hi.turning_of_not_late (by rw [hp, Pc.late]; decide)).turn
  rw [hp] at hb
  exact hb.total_lt

theorem left_create : ∀ k : Road,
    (if k = 3 then MainPc.signal else .create (k + 1)).left + 3 ≤ (MainPc.create k).left := by
  decide

theorem left_join : ∀ k : Road,
    (if k = 3 then MainPc.done else .join (k + 1)).left < (MainPc.join k).left := by
  decide

theorem left_main (h : mainStep startList σ = some σ') : left startList σ' < left startList σ := by
  unfold mainStep at h
  split at h
  · rename_i k hmain
    obtain rfl := Option.some.inj h
    have hsum := sum_update Pc.left σ.pc k .top
    have htop : Pc.left .top = 2 := rfl
    have hlt := left_create k
    simp only [left, hmain]
    omega
  · rename_i hmain
    obtain rfl := Option.some.inj h
    have hsum := sum_signal Pc.left σ.pc startList.head?
    have hwoken : Pc.left .woken = 6 := rfl
    have hlen : startList.head?.toList.length ≤ 1 := by
      cases startList.head? <;> simp
    have hjoin : (MainPc.join 0).left + 7 = MainPc.signal.left := rfl
    rw [hwoken] at hsum
    simp only [left, hmain]
    omega
  · rename_i k hmain
    split at h
    · obtain rfl := Option.some.inj h
      have hlt := left_join k
      simp only [left, hmain]
      omega
    · cases h
  · cases h

/-- Every statement leaves fewer of them. -/
theorem left_step (hne : startList ≠ []) (hr : Reachable startList σ)
    (h : Step startList σ a σ') : left startList σ' < left startList σ := by
  cases h with
  | main h => exact left_main h
  | thread k rand ret h =>
    obtain ⟨e, he, rfl⟩ := threadStep_eq h
    have hlt := left_effect (inv_reachable hne hr).total_lt_of_count he
    have hsum := sum_update Pc.left σ.pc k e.pc
    have hsig := sum_signal Pc.left (Function.update σ.pc k e.pc) e.signal
    have hwoken : Pc.left .woken = 6 := rfl
    rw [hwoken] at hsig
    simp only [left]
    omega

/-- The steps of a run, from the number of vehicles. -/
theorem run_le (hne : startList ≠ []) {l : List Actor}
    (h : Transition.Trace initial (Step startList) l σ) :
    l.length ≤ 31 * startList.length + 23 := by
  have hle := h.length_le fun _ _ _ hr hs => left_step hne hr hs
  have hinit : left startList initial = 23 + 31 * startList.length := by
    simp [left, initial, Pc.left, MainPc.left, Shared.total]
  omega

/-! ### All vehicles from one road -/

/-- `n` vehicles from road `r`. -/
def oneRoad (r : Road) (n : ℕ) : List Road := List.replicate n r

section OneRoad

variable {n m : ℕ} {r : Road}

theorem length_oneRoad : (oneRoad r n).length = n := List.length_replicate

theorem count_oneRoad {i : Road} (hi : i ≠ r) (l : ℕ) : ((oneRoad r n).take l).count i = 0 := by
  rw [List.count_eq_zero, oneRoad, List.take_replicate]
  exact fun hmem => hi (List.eq_of_mem_replicate hmem)

theorem Balance.road {i : Road} (h : Balance (oneRoad r n) sh (some i)) : i = r := by
  by_contra hr
  have hbal := h.2 i
  rw [count_oneRoad hr, if_pos rfl] at hbal
  omega

theorem Balance.no_opposite {turn : Option Road} (h : Balance (oneRoad r n) sh turn) :
    opposite r ∉ sh.arr := by
  intro hmem
  have hbal := h.2 (opposite r)
  have hpos := List.count_pos_iff.mpr hmem
  rw [count_oneRoad (opposite_ne r)] at hbal
  omega

/-- The arrivals against the vehicles that have passed: one at each `addSet`. -/
def Clock (n : ℕ) (sh : Shared) : Pc → Prop
  | .add1 => 1 ≤ sh.total ∧ sh.indx = min n (2 * sh.total - 1)
  | .setPassed | .findOpposite | .print2 | .tick2 | .add2 => sh.indx = min n (2 * sh.total)
  | _ => sh.indx = min n (2 * sh.total + 1)

/-- Once half of the vehicles have passed, half of them, rounded up, have
waited; `m` is the most that have waited so far. -/
def Attained (n m : ℕ) (sh : Shared) : Pc → Prop
  | .add1 | .setPassed | .findOpposite | .print2 | .tick2 | .add2 =>
    n / 2 < sh.total → (n + 1) / 2 ≤ m
  | _ => n / 2 ≤ sh.total → (n + 1) / 2 ≤ m

theorem Attained.mono {m' : ℕ} (h : Attained n m sh p) (hm : m ≤ m') : Attained n m' sh p := by
  cases p <;> exact fun ht => (h ht).trans hm

/-- A statement of the thread on turn. -/
theorem oneRoad_effect (ht : Turn (oneRoad r n) r sh p) (hc : Clock n sh p) (ha : Attained n m sh p)
    (h : threadFunction r (oneRoad r n) rand ret sh p = some e) :
    Clock n e.shared e.pc ∧ Attained n (max m e.shared.arr.length) e.shared e.pc := by
  rw [threadFunction_eq] at h
  have ha' := ha.mono (Nat.le_max_left m e.shared.arr.length)
  cases p <;> first | exact absurd ht id | skip
  all_goals simp only [threadBody, Option.some.injEq] at h
  case test => subst h; split <;> exact ⟨hc, ha'⟩
  case count =>
    subst h
    simp only [Clock, Attained, total_count] at hc ha' ⊢
    exact ⟨⟨by omega, by rw [hc]; congr 1⟩, fun hlt => ha' (by omega)⟩
  case add1 =>
    subst h
    obtain ⟨hpos, hindx⟩ := hc
    have htotal := (length_arrive (oneRoad r n) sh).2
    refine ⟨?_, fun hlt => ha' (by rw [← htotal]; exact hlt)⟩
    show (arrive (oneRoad r n) sh).indx = min n (2 * (arrive (oneRoad r n) sh).total)
    rw [indx_arrive ht.1, length_oneRoad, htotal]
    omega
  case findOpposite =>
    subst h
    have hno : find (opposite r) sh.arr = false := by
      rw [Bool.eq_false_iff]
      exact fun hf => (Balance.no_opposite ht) (List.contains_iff_mem.mp hf)
    rw [hno]
    exact ⟨hc, ha'⟩
  case remove => exact absurd ht.2 ht.1.no_opposite
  case signalOpposite => exact absurd (Balance.road ht) (opposite_ne r)
  case add2 =>
    subst h
    have hc : sh.indx = min n (2 * sh.total) := hc
    have htotal := (length_arrive (oneRoad r n) sh).2
    have hindx : (arrive (oneRoad r n) sh).indx = min n (2 * (arrive (oneRoad r n) sh).total + 1) := by
      rw [indx_arrive ht.1, length_oneRoad, htotal]
      omega
    refine ⟨hindx, fun hhalf => ?_⟩
    rcases Nat.lt_or_eq_of_le hhalf with hlt | heq
    · exact ha' (by rw [← htotal]; exact hlt)
    · -- half have passed, and all have arrived: the others wait
      have heq : n / 2 = (arrive (oneRoad r n) sh).total := heq
      have hbal := (Balance.arrive ht).1.total
      rw [Option.toList_none, List.length_nil] at hbal
      refine Nat.le_trans ?_ (Nat.le_max_right _ _)
      simp only
      omega
  case test2 item => subst h; split <;> exact ⟨hc, ha'⟩
  case dispatch item =>
    split at h
    · obtain rfl := Option.some.inj h
      exact ⟨hc, ha'⟩
    · obtain rfl := Option.some.inj h
      exact ⟨hc, ha'⟩
  all_goals
    subst h
    exact ⟨hc, ha'⟩

/-- The runs with all vehicles from the first road, and the most that have
waited. -/
inductive OneRoad (r : Road) (n : ℕ) (x : State × ℕ) : Prop where
  | starting : Starting x.1 → OneRoad r n x
  | turning : Turning (oneRoad r n) x.1 r → Clock n x.1.shared (x.1.pc r) →
      Attained n x.2 x.1.shared (x.1.pc r) → OneRoad r n x
  | finishing (k : Road) : Finishing (oneRoad r n) x.1 k → (n + 1) / 2 ≤ x.2 → OneRoad r n x

/-- The first signal, if it is the next statement, is sent to a thread inside
`pthread_cond_wait`. -/
def FirstHeard (startList : List Road) (σ : State) (a : Actor) : Prop :=
  a = .main → Heard startList σ a

theorem oneRoad_ne (hn : 2 ≤ n) : oneRoad r n ≠ [] := by
  intro h
  have := congrArg List.length h
  rw [length_oneRoad, List.length_nil] at this
  omega

theorem oneRoad_turn (hn : 2 ≤ n) (hi : Turning (oneRoad r n) σ r) (hc : Clock n σ.shared (σ.pc r))
    (ha : Attained n m σ.shared (σ.pc r))
    (h : threadStep (oneRoad r n) r rand ret σ = some σ') :
    OneRoad r n (σ', max m σ'.shared.arr.length) := by
  obtain ⟨e, he, rfl⟩ := threadStep_eq h
  obtain ⟨hc', ha'⟩ := oneRoad_effect hi.turn hc ha he
  rcases turn_effect hi.turn he with ⟨hsig, ht⟩ | ⟨i, -, hi', -, hb⟩ | ⟨hsig, hpc, hall, -, hb⟩
  · rw [hsig]
    refine .turning (hi.keep ht) ?_ ?_
    · simp only [signal_none, Function.update_self]
      exact hc'
    · simp only [signal_none, Function.update_self]
      exact ha'
  · exact absurd hb.road hi'
  · rw [hsig]
    refine .finishing r (hi.finish hpc hall hb) ?_
    rw [hpc] at ha'
    apply ha'
    rw [hall.total, length_oneRoad]
    omega

theorem oneRoad_thread (hn : 2 ≤ n) (hx : OneRoad r n (σ, m))
    (h : threadStep (oneRoad r n) k rand ret σ = some σ') :
    OneRoad r n (σ', max m σ'.shared.arr.length) := by
  cases hx with
  | starting hi => exact .starting (starting_thread hi h)
  | turning hi hc ha =>
    by_cases hk : k = r
    · subst hk
      exact oneRoad_turn hn hi hc ha h
    · obtain ⟨q, hq, rfl⟩ := idle_step (hi.idle k hk) h
      refine .turning (hi.other hk hq) ?_ ?_
      · simp only [Function.update_of_ne (Ne.symm hk)]
        exact hc
      · simp only [Function.update_of_ne (Ne.symm hk)]
        exact ha.mono (Nat.le_max_left _ _)
  | finishing j hi hm => exact .finishing j (hi.step h) (hm.trans (Nat.le_max_left m σ'.shared.arr.length))

theorem oneRoad_main (hn : 2 ≤ n) (hx : OneRoad r n (σ, m)) (hh : Heard (oneRoad r n) σ .main)
    (h : mainStep (oneRoad r n) σ = some σ') : OneRoad r n (σ', max m σ'.shared.arr.length) := by
  have hstarting : σ.main.sent = false → Starting σ := by
    intro hs
    cases hx with
    | starting hi => exact hi
    | turning hi => exact absurd (hi.sent.symm.trans hs) (by decide)
    | finishing k hi => exact absurd (hi.sent.symm.trans hs) (by decide)
  rcases mainStep_cases h with ⟨k, m, hm, hs, rfl⟩ | ⟨hmain, rfl⟩ | ⟨m, hm, hs, rfl⟩
  · exact .starting (starting_create (hstarting hs) hm k)
  · have hst := hstarting (by rw [hmain]; rfl)
    obtain ⟨j, ht⟩ := (starting_signal (oneRoad_ne hn) hst hmain).resolve_right fun hl => hl.2 hh
    have hw := woken_of_turning hst.idle ht
    obtain rfl : j = r := by
      have hb := ht.turn
      simp only [hw] at hb
      exact Balance.road hb
    refine .turning ht ?_ ?_
    · simp only [hw, hst.shared]
      show 1 = min n (2 * 0 + 1)
      omega
    · simp only [hw, hst.shared]
      intro hhalf
      have : n / 2 ≤ 0 := hhalf
      omega
  · cases hx with
    | starting hi => exact absurd (hi.sent.symm.trans hs) (by decide)
    | turning hi hc ha => exact .turning (hi.of_main hm) hc (ha.mono (Nat.le_max_left _ _))
    | finishing k hi hle => exact .finishing k (hi.of_main hm) (hle.trans (Nat.le_max_left _ _))

/-- The runs of a crossroad with the most vehicles that have waited so far. -/
def MostWaiting (startList : List Road) : State × ℕ → Actor → State × ℕ → Prop :=
  Transition.PeakStep (fun σ => σ.shared.arr.length) (Step startList)

theorem oneRoad_reach (hn : 2 ≤ n) {x : State × ℕ}
    (hr : Transition.Reach (initial, 0) (MostWaiting (oneRoad r n))
      (fun x => FirstHeard (oneRoad r n) x.1) x) : OneRoad r n x := by
  refine hr.invariant (.starting ⟨rfl, rfl, fun _ => rfl⟩) ?_
  rintro ⟨σ, m⟩ a ⟨σ', m'⟩ hx hh ⟨hstep, hm⟩
  obtain rfl : m' = max m σ'.shared.arr.length := hm
  cases hstep with
  | main h => exact oneRoad_main hn hx (hh rfl) h
  | thread k rand ret h => exact oneRoad_thread hn hx h

/-- A thread on turn can go on. -/
theorem effect_of_active (k : Road) (startList : List Road) (rand : ℕ) (ret : Option Road)
    (sh : Shared) (hp : p.active = true) :
    ∃ e, threadFunction k startList rand ret sh p = some e := by
  rw [threadFunction_eq]
  cases p <;> cases hp <;> first | exact ⟨_, rfl⟩ | skip
  case dispatch item =>
    by_cases hi : item = some k
    · exact ⟨_, if_pos hi⟩
    · exact ⟨_, if_neg hi⟩

/-- A run that cannot go on has come to its end. -/
theorem OneRoad.final {x : State × ℕ} (h : OneRoad r n x)
    (hfinal : Transition.Final (Step (oneRoad r n)) x.1) : (n + 1) / 2 ≤ x.2 := by
  cases h with
  | starting hi =>
    have hsent := hi.sent
    cases hmain : x.1.main with
    | create k => exact absurd (Step.main (by rw [mainStep, hmain])) (hfinal _ _)
    | signal => exact absurd (Step.main (by rw [mainStep, hmain])) (hfinal _ _)
    | join k => rw [hmain] at hsent; cases hsent
    | done => rw [hmain] at hsent; cases hsent
  | turning hi =>
    obtain ⟨e, he⟩ := effect_of_active r (oneRoad r n) 0 none x.1.shared hi.turn.active
    exact absurd (Step.thread r 0 none (by rw [threadStep, he, Option.map_some])) (hfinal _ _)
  | finishing k hi hle => exact hle

end OneRoad

/-! ### A first signal that is not heard -/

/-- Before `main` has sent its signal nobody has waited. -/
theorem none_before_signal (hne : startList ≠ []) {x : State × ℕ}
    (hr : Transition.Reach (initial, 0) (MostWaiting startList) (fun _ _ => True) x) :
    x.1.main.sent = false → x.2 = 0 := by
  induction hr with
  | init => exact fun _ => rfl
  | @step x y a hr _ hstep ih =>
    intro hs
    have hy : Reachable startList y.1 := (hr.step trivial hstep).of_peak
    have hst := (inv_reachable hne hy).starting_of_sent hs
    have hx : x.1.main.sent = false := by
      cases hstep.1 with
      | main h =>
        rcases mainStep_cases h with ⟨k, m, -, hx, -⟩ | ⟨hmain, -⟩ | ⟨m, hm, -, he⟩
        · exact hx
        · rw [hmain]
          rfl
        · rw [he, hm] at hs
          cases hs
      | thread k rand ret h =>
        obtain ⟨e, -, he⟩ := threadStep_eq h
        rw [he] at hs
        exact hs
    have hnone : y.1.shared.arr = [] := by rw [hst.shared]; rfl
    have hpeak : y.2 = max x.2 y.1.shared.arr.length := hstep.2
    rw [hpeak, ih hx, hnone]
    rfl

/-- Nobody has waited, and nobody ever will. -/
structure Silent (x : State × ℕ) : Prop where
  lost : Lost x.1
  shared : x.1.shared = initial.shared
  none : x.2 = 0

theorem Silent.step {x y : State × ℕ} (h : Silent x) (hs : MostWaiting startList x a y) :
    Silent y := by
  obtain ⟨hstep, hm⟩ := hs
  have hy : Lost y.1 ∧ y.1.shared = initial.shared := by
    cases hstep with
    | main hmain =>
      rcases mainStep_cases hmain with ⟨k, m, -, hx, -⟩ | ⟨hmain, -⟩ | ⟨m, hm, -, he⟩
      · exact absurd (h.lost.sent.symm.trans hx) (by decide)
      · have := h.lost.sent
        rw [hmain] at this
        cases this
      · rw [he]
        exact ⟨⟨hm, h.lost.idle⟩, h.shared⟩
    | thread k rand ret ht =>
      obtain ⟨q, -, he⟩ := idle_step (h.lost.idle k) ht
      refine ⟨lost_thread h.lost ht, ?_⟩
      rw [he]
      exact h.shared
  refine ⟨hy.1, hy.2, ?_⟩
  have hpeak : y.2 = max x.2 y.1.shared.arr.length := hm
  rw [hpeak, h.none, hy.2]
  rfl

/-- `main`'s signal, if it is not heard, changes nothing. -/
theorem silent_of_unheard (hne : startList ≠ []) {x y : State × ℕ}
    (hr : Transition.Reach (initial, 0) (MostWaiting startList) (fun _ _ => True) x)
    (hs : MostWaiting startList x .main y) (hh : ¬ Heard startList x.1 .main) : Silent y := by
  obtain ⟨hstep, hm⟩ := hs
  simp only [Heard, not_forall] at hh
  obtain ⟨r, hr', hw⟩ := hh
  have hmain : x.1.main = .signal := by
    by_contra hno
    rw [signalled, if_neg hno] at hr'
    cases hr'
  have hsent : x.1.main.sent = false := by rw [hmain]; rfl
  have hst := (inv_reachable hne hr.of_peak).starting_of_sent hsent
  have hy : y.1 = { x.1 with main := .join 0 } := by
    cases hstep with
    | main h =>
      rw [signalled, if_pos hmain] at hr'
      rw [mainStep, hmain, hr', signal_unheard hw] at h
      exact (Option.some.inj h).symm
  have hpeak : y.2 = max x.2 y.1.shared.arr.length := hm
  refine ⟨?_, ?_, ?_⟩
  · rw [hy]
    exact ⟨rfl, hst.idle⟩
  · rw [hy]
    exact hst.shared
  · rw [hpeak, none_before_signal hne hr hsent, hy, hst.shared]
    rfl

/-- **The most that wait.** At most half of the vehicles wait, rounded up, in
every run without spurious wakeups. With all vehicles from one road every run comes to an end; one whose
first signal is heard has by then had that many waiting, and in one whose first
signal is not heard nobody ever waits. -/
theorem waiting_worst_case {input : ℕ} (hin : 1 ≤ input) :
    (∀ startList : List Road, startList.length = input → ∀ σ, Reachable startList σ →
      σ.shared.arr.length ≤ (input + 1) / 2) ∧
    (2 ≤ input → ∀ r, (oneRoad r input).length = input ∧
      (∀ l σ, Transition.Trace initial (Step (oneRoad r input)) l σ →
        l.length ≤ 31 * input + 23) ∧
      (∀ x, Transition.Reach (initial, 0) (MostWaiting (oneRoad r input))
        (fun x => FirstHeard (oneRoad r input) x.1) x →
        Transition.Final (Step (oneRoad r input)) x.1 → x.2 = (input + 1) / 2) ∧
      ∀ x y z, Transition.Reach (initial, 0) (MostWaiting (oneRoad r input)) (fun _ _ => True) x →
        MostWaiting (oneRoad r input) x .main y → ¬ Heard (oneRoad r input) x.1 .main →
        Transition.Reach y (MostWaiting (oneRoad r input)) (fun _ _ => True) z → z.2 = 0) := by
  constructor
  · rintro startList rfl σ hr
    exact waiting_le (List.length_pos_iff.mp hin) hr
  · intro hn r
    have hne : oneRoad r input ≠ [] := oneRoad_ne hn
    refine ⟨length_oneRoad, fun l σ hl => ?_, fun x hx hfinal => ?_, fun x y z hx hxy hh hz => ?_⟩
    · have hle := run_le hne hl
      rwa [length_oneRoad] at hle
    · apply Nat.le_antisymm
      · have hpeak := hx.peak_le fun σ hσ => waiting_le hne (hσ.mono fun _ _ _ => trivial)
        rwa [length_oneRoad] at hpeak
      · exact (oneRoad_reach hn hx).final hfinal
    · have hsilent := silent_of_unheard hne hx hxy hh
      exact (hz.invariant hsilent fun _ _ _ hs _ hstep => hs.step hstep).none

instance (startList : List Road) (σ : State) (a : Actor) :
    Decidable (FirstHeard startList σ a) :=
  inferInstanceAs (Decidable (_ → _))

/-- The step of `MostWaiting` with `rand()` and the uninitialised value fixed. -/
def mostWaitingNext (startList : List Road) (x : State × ℕ) (a : Actor) : Option (State × ℕ) :=
  (exec startList [a] x.1).map fun σ => (σ, max x.2 σ.shared.arr.length)

theorem mostWaitingNext_step {x y : State × ℕ} (h : mostWaitingNext startList x a = some y) :
    MostWaiting startList x a y := by
  obtain ⟨σ, hσ, rfl⟩ := Option.map_eq_some_iff.mp h
  exact ⟨step_of_exec hσ, rfl⟩

/-- Nobody can go on when all threads wait or have exited, and `main` does not
wait for one that has. -/
theorem final_of_stopped (hpc : ∀ k, σ.pc k = .waiting ∨ σ.pc k = .exited)
    (hmain : (mainStep startList σ).isNone = true) : Transition.Final (Step startList) σ := by
  intro a σ' h
  cases h with
  | main h =>
    rw [h] at hmain
    cases hmain
  | thread k rand ret h =>
    obtain ⟨e, he, -⟩ := threadStep_eq h
    rw [threadFunction_eq] at he
    rcases hpc k with hk | hk <;> rw [hk] at he <;> cases he

/-- Two vehicles from the first road, all threads waiting before `main` signals:
in the end one has waited. -/
theorem waiting_worst_case_two : ∃ x, Transition.Reach (initial, 0) (MostWaiting (oneRoad 0 2))
    (fun x => FirstHeard (oneRoad 0 2) x.1) x ∧ Transition.Final (Step (oneRoad 0 2)) x.1 ∧
    x.2 = 1 := by
  have hany : (Transition.runAlong (mostWaitingNext (oneRoad 0 2))
      (fun x => FirstHeard (oneRoad 0 2) x.1) (([.main, .main, .main, .main, .thread 0, .thread 0,
      .thread 1, .thread 1, .thread 2, .thread 2, .thread 3, .thread 3, .main] : List Actor) ++
      List.replicate 31 (Actor.thread 0) ++ List.replicate 3 (Actor.thread 1) ++
      List.replicate 3 (Actor.thread 2) ++ List.replicate 3 (Actor.thread 3) ++
      List.replicate 4 Actor.main) (initial, 0)).any
      (fun x => (∀ k, x.1.pc k = .waiting ∨ x.1.pc k = .exited) ∧
        (mainStep (oneRoad 0 2) x.1).isNone = true) = true := by
    decide +kernel
  obtain ⟨x, hx, hfin⟩ := (Option.any_eq_true _ _).mp hany
  obtain ⟨hpc, hmain⟩ := of_decide_eq_true hfin
  have hr := Transition.Reach.runAlong (fun _ _ _ => mostWaitingNext_step) .init hx
  have hfinal := final_of_stopped hpc hmain
  have hin : 1 ≤ 2 := by decide
  have hworst := (waiting_worst_case hin).2 (by decide) 0
  exact ⟨x, hr, hfinal, hworst.2.2.1 x hr hfinal⟩

/-- Two vehicles from any two roads: `main` signals before any thread waits, and
in the end nobody has waited. -/
theorem not_attained_two : ¬ ∃ startList : List Road, startList.length = 2 ∧
    ∀ x, Transition.Reach (initial, 0) (MostWaiting startList) (fun _ _ => True) x →
      Transition.Final (Step startList) x.1 → x.2 = (2 + 1) / 2 := by
  rintro ⟨startList, hlen, hall⟩
  obtain ⟨r, s, rfl⟩ := List.length_eq_two.mp hlen
  have hany : ∀ r s, (Transition.runAlong (mostWaitingNext [r, s]) (fun _ _ => True)
      [.main, .main, .main, .main, .main, .thread 0, .thread 0, .thread 1, .thread 1, .thread 2,
        .thread 2, .thread 3, .thread 3] (initial, 0)).any
      (fun x => (∀ k, x.1.pc k = .waiting ∨ x.1.pc k = .exited) ∧
        (mainStep [r, s] x.1).isNone = true ∧ x.2 = 0) = true := by
    decide +kernel
  obtain ⟨x, hx, hfin⟩ := (Option.any_eq_true _ _).mp (hany r s)
  obtain ⟨hpc, hmain, hnone⟩ := of_decide_eq_true hfin
  have hr : Transition.Reach (initial, 0) (MostWaiting [r, s]) (fun _ _ => True) x :=
    Transition.Reach.runAlong (fun _ _ _ => mostWaitingNext_step) .init hx
  have hpeak := hall x hr (final_of_stopped hpc hmain)
  rw [hnone] at hpeak
  cases hpeak

end Crossroad
end LinuxProg
