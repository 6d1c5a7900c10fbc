/-
# The slots of the set

`addSet` writes to `s.arr[s.howMany]` without a look at the 15 slots, and
`getItem` takes an item without a look whether there is one. The set grows by
those writes only, so the slots are enough if and only if no more than 15
vehicles ever wait, that is, for up to 30 vehicles (`slots_suffice_iff`). A
thread that calls `getItem` on an empty set finds at the test after it that all
vehicles have passed, and nobody comes between (`getItem_empty`).
-/
import Mathlib
import LinuxProg.Crossroad.Waiting

namespace LinuxProg
namespace Crossroad

variable {startList : List Road} {sh : Shared} {σ σ' : State} {k j : Road} {rand n : ℕ}
  {ret : Option Road} {p : Pc} {e : Effect} {a : Actor}

/-! ### Writes to the set -/

/-- Every write to the set, of every run with `input` vehicles, is to a slot of it.
`pthread_cond_wait` returns in these runs after a signal only. -/
def SlotsSuffice (input : ℕ) : Prop :=
  ∀ startList : List Road, startList.length = input → ∀ σ k, Reachable startList σ →
    Writes startList σ k → σ.shared.arr.length < slots

theorem length_removeItem (r : Road) (arr : List Road) : (removeItem r arr).length ≤ arr.length := by
  unfold removeItem
  split
  · exact List.length_erase_le
  · rw [List.length_dropLast]
    exact Nat.sub_le _ _

theorem length_getItem (rand : ℕ) (ret : Option Road) (arr : List Road) :
    (getItem rand ret arr).2.length ≤ arr.length := by
  unfold getItem
  split
  · exact le_rfl
  · exact List.length_eraseIdx_le _ _

/-- The set grows by a write to it, by one. -/
theorem grows_effect (h : threadFunction k startList rand ret sh p = some e)
    (hlt : sh.arr.length < e.shared.arr.length) :
    (p = .add1 ∨ p = .add2) ∧ sh.indx < startList.length ∧
      e.shared.arr.length = sh.arr.length + 1 := by
  have harrive : sh.arr.length < (arrive startList sh).arr.length → sh.indx < startList.length ∧
      (arrive startList sh).arr.length = sh.arr.length + 1 := by
    unfold arrive addSet
    split
    · rename_i hindx
      exact fun _ => ⟨hindx, List.length_append⟩
    · exact fun hc => absurd hc (Nat.lt_irrefl _)
  rw [threadFunction_eq] at h
  cases p <;> simp only [threadBody, Option.some.injEq, reduceCtorEq] at h
  case add1 => subst h; exact ⟨.inl rfl, harrive hlt⟩
  case add2 => subst h; exact ⟨.inr rfl, harrive hlt⟩
  case remove => subst h; exact absurd hlt (length_removeItem _ _).not_gt
  case get => subst h; exact absurd hlt (length_getItem _ _ _).not_gt
  case broadcast rest =>
    cases rest <;>
    · obtain rfl := Option.some.inj h
      exact absurd hlt (Nat.lt_irrefl _)
  case dispatch item =>
    split at h <;>
    · obtain rfl := Option.some.inj h
      exact absurd hlt (Nat.lt_irrefl _)
  all_goals
    subst h
    exact absurd hlt (Nat.lt_irrefl _)

theorem grows_step (h : Step startList σ a σ')
    (hlt : σ.shared.arr.length < σ'.shared.arr.length) :
    ∃ k, Writes startList σ k ∧ σ'.shared.arr.length = σ.shared.arr.length + 1 := by
  cases h with
  | main h =>
    rcases mainStep_cases h with ⟨k, m, -, -, rfl⟩ | ⟨-, rfl⟩ | ⟨m, -, -, rfl⟩
    all_goals exact absurd hlt (Nat.lt_irrefl _)
  | thread k rand ret h =>
    obtain ⟨e, he, rfl⟩ := threadStep_eq h
    obtain ⟨hp, hindx, hlen⟩ := grows_effect he hlt
    exact ⟨k, ⟨hp, hindx⟩, hlen⟩

/-- If no write is past the slots, the set stays within them. -/
theorem within_slots
    (hw : ∀ σ k, Reachable startList σ → Writes startList σ k → σ.shared.arr.length < slots)
    (hr : Reachable startList σ) : σ.shared.arr.length ≤ slots := by
  induction hr with
  | init => exact Nat.zero_le _
  | @step σ σ' a hr _ hstep ih =>
    by_cases hlt : σ.shared.arr.length < σ'.shared.arr.length
    · obtain ⟨k, hwrites, hlen⟩ := grows_step hstep hlt
      rw [hlen]
      exact hw σ k hr hwrites
    · exact (not_lt.mp hlt).trans ih

/-- A write fills a slot more. -/
theorem Writes.step (h : Writes startList σ k) : ∃ σ', Step startList σ (.thread k) σ' ∧
    σ'.shared.arr.length = σ.shared.arr.length + 1 := by
  obtain ⟨hp, hindx⟩ := h
  have hact : (σ.pc k).active = true := by
    rcases hp with hp | hp <;> rw [hp] <;> rfl
  obtain ⟨e, he⟩ := effect_of_active k startList 0 none σ.shared hact
  refine ⟨_, .thread k 0 none (by rw [threadStep, he, Option.map_some]), ?_⟩
  have hsh : e.shared = arrive startList σ.shared := by
    rw [threadFunction_eq] at he
    rcases hp with hp | hp <;> rw [hp] at he <;> cases he <;> rfl
  simp only [hsh]
  rw [arrive, addSet, if_pos hindx]
  exact List.length_append

/-! ### A run in which half of the vehicles wait -/

/-- `main` signals thread `1` inside its `pthread_cond_wait`. -/
theorem heard_start (hn : 1 ≤ n) : ∃ x, Transition.Reach (initial, 0) (MostWaiting (oneRoad 0 n))
    (fun x => FirstHeard (oneRoad 0 n) x.1) x ∧ x.1.main = .join 0 := by
  obtain ⟨m, rfl⟩ := Nat.exists_eq_add_of_le' hn
  have h : ∃ x, Transition.runAlong (mostWaitingNext (oneRoad 0 (m + 1)))
      (fun x => FirstHeard (oneRoad 0 (m + 1)) x.1)
      [.main, .main, .main, .main, .thread 0, .thread 0, .main] (initial, 0) = some x ∧
      x.1.main = .join 0 := ⟨_, rfl, rfl⟩
  obtain ⟨x, hx, hmain⟩ := h
  exact ⟨x, Transition.Reach.runAlong (fun _ _ _ => mostWaitingNext_step) .init hx, hmain⟩

theorem sent_step (h : Step startList σ a σ') (hs : σ.main.sent = true) :
    σ'.main.sent = true := by
  cases h with
  | main h =>
    rcases mainStep_cases h with ⟨k, m, -, hno, -⟩ | ⟨-, rfl⟩ | ⟨m, hm, -, rfl⟩
    · rw [hs] at hno
      cases hno
    · rfl
    · exact hm
  | thread k rand ret h =>
    obtain ⟨e, -, rfl⟩ := threadStep_eq h
    exact hs

theorem heard_of_sent (hs : σ.main.sent = true) : Heard startList σ .main := by
  intro j hj
  have hmain : σ.main ≠ .signal := by
    intro hc
    rw [hc] at hs
    cases hs
  rw [signalled, if_neg hmain] at hj
  cases hj

/-- How a run goes on whose first signal was heard. -/
theorem OneRoad.run {r : Road} (hn : 2 ≤ n) {x y : State × ℕ} (hx : OneRoad r n x) (hs : x.1.main.sent = true)
    (hr : Transition.Reach x (MostWaiting (oneRoad r n)) (fun _ _ => True) y) : OneRoad r n y := by
  have h : OneRoad r n y ∧ y.1.main.sent = true := by
    refine hr.invariant (P := fun y => OneRoad r n y ∧ y.1.main.sent = true) ⟨hx, hs⟩ ?_
    rintro ⟨σ, m⟩ a ⟨σ', m'⟩ ⟨hi, hsent⟩ - ⟨hstep, hm⟩
    refine ⟨?_, sent_step hstep hsent⟩
    obtain rfl : m' = max m σ'.shared.arr.length := hm
    cases hstep with
    | main h => exact oneRoad_main hn hi (heard_of_sent hsent) h
    | thread k rand ret h => exact oneRoad_thread hn hi h
  exact h.1

/-- With all vehicles from the first road there is a run in which half of them
wait, rounded up. -/
theorem oneRoad_attained (hn : 2 ≤ n) :
    ∃ σ, Reachable (oneRoad 0 n) σ ∧ (n + 1) / 2 ≤ σ.shared.arr.length := by
  have hne : oneRoad 0 n ≠ [] := oneRoad_ne hn
  obtain ⟨x, hx, hmain⟩ := heard_start (Nat.le_of_succ_le hn)
  have hreach : Transition.Reach (initial, 0) (MostWaiting (oneRoad 0 n)) (fun _ _ => True) x :=
    hx.mono fun _ _ _ => trivial
  have hend : ∃ y, Transition.Reach x (MostWaiting (oneRoad 0 n)) (fun _ _ => True) y ∧
      Transition.Final (MostWaiting (oneRoad 0 n)) y := by
    refine Transition.exists_final (f := fun y => left (oneRoad 0 n) y.1) fun y a z hy hstep => ?_
    exact left_step hne (hreach.trans hy).of_peak hstep.1
  obtain ⟨y, hy, hfinal⟩ := hend
  have hle : (n + 1) / 2 ≤ y.2 := by
    refine ((oneRoad_reach hn hx).run hn (by rw [hmain]; rfl) hy).final fun a σ' h => ?_
    exact hfinal a (σ', max y.2 σ'.shared.arr.length) ⟨h, rfl⟩
  obtain ⟨σ, hσ, hpeak⟩ : ∃ σ, Reachable (oneRoad 0 n) σ ∧ σ.shared.arr.length = y.2 :=
    Transition.Reach.peak_attained (f := fun σ : State => σ.shared.arr.length) (hreach.trans hy)
  exact ⟨σ, hσ, by rw [hpeak]; exact hle⟩

/-- **The slots are enough for up to 30 vehicles**, and for no more, in the runs
without spurious wakeups. -/
theorem slots_suffice_iff {input : ℕ} (hin : 1 ≤ input) : SlotsSuffice input ↔ input ≤ 30 := by
  constructor
  · intro hsuf
    by_contra hlt
    obtain ⟨σ, hσ, hle⟩ := oneRoad_attained (n := input) (by omega)
    have hwithin := within_slots (hsuf (oneRoad 0 input) length_oneRoad) hσ
    rw [slots] at hwithin
    omega
  · intro hle startList hlen σ k hr hw
    have hne : startList ≠ [] := by
      rintro rfl
      rw [List.length_nil] at hlen
      omega
    obtain ⟨σ', hstep, hgrow⟩ := hw.step
    have hmost := waiting_le hne (hr.step trivial hstep)
    rw [slots]
    omega

/-- Four vehicles are few enough. -/
theorem slots_suffice_four : SlotsSuffice 4 := (slots_suffice_iff (by decide)).2 (by decide)

/-- 31 vehicles from the first road: 15 wait when a 16th is added. -/
theorem not_slots_suffice : ¬ SlotsSuffice 31 := by
  have hany : (exec (oneRoad 0 31) (([.main, .main, .main, .main, .thread 0, .thread 0,
      .main] : List Actor) ++ List.replicate 178 (Actor.thread 0)) initial).any
      (fun σ => σ.pc 0 = .add2 ∧ σ.shared.indx = 30 ∧ σ.shared.arr.length = 15) = true := by
    decide +kernel
  obtain ⟨σ, hσ, hall⟩ := (Option.any_eq_true _ _).mp hany
  obtain ⟨hpc, hindx, hlen⟩ := of_decide_eq_true hall
  intro hsuf
  have hlt := hsuf (oneRoad 0 31) rfl σ 0 (exec_reachable .init hσ)
    ⟨.inr hpc, by rw [hindx]; decide⟩
  rw [hlen] at hlt
  exact absurd hlt (by decide)

/-! ### Taking an item -/

/-- As long as the thread on turn takes no step nobody else has an effect. -/
theorem Turning.undisturbed (h : Turning startList σ k)
    (hr : Transition.Reach σ (Step startList) (fun _ a => a ≠ .thread k) σ') :
    Turning startList σ' k ∧ σ'.shared = σ.shared ∧ σ'.pc k = σ.pc k := by
  induction hr with
  | init => exact ⟨h, rfl, rfl⟩
  | @step τ τ' a _ hne hstep ih =>
    obtain ⟨ht, hsh, hpc⟩ := ih
    rw [← hsh, ← hpc]
    cases hstep with
    | main hstep =>
      rcases mainStep_cases hstep with ⟨i, m, -, hno, -⟩ | ⟨hmain, -⟩ | ⟨m, hm, -, rfl⟩
      · exact absurd (ht.sent.symm.trans hno) (by decide)
      · have hno := ht.sent
        rw [hmain] at hno
        cases hno
      · exact ⟨ht.of_main hm, rfl, rfl⟩
    | thread i rand ret hi =>
      have hik : i ≠ k := fun hc => hne (by rw [hc])
      obtain ⟨q, hq, rfl⟩ := idle_step (ht.idle i hik) hi
      exact ⟨ht.other hik hq, rfl, Function.update_of_ne (Ne.symm hik) _ _⟩

/-- What `getItem` returns is waiting, or the set is empty and all vehicles have
passed. -/
theorem getItem_cases (rand : ℕ) (ret : Option Road) (h : Turn startList k sh .get) :
    (∃ r ∈ sh.arr, (getItem rand ret sh.arr).1 = some r ∧ sh.total < startList.length) ∨
      (sh.arr = [] ∧ sh.total = startList.length ∧ sh.indx = startList.length) := by
  obtain ⟨hb, hindx⟩ := h
  by_cases harr : sh.arr = []
  · exact .inr ⟨harr, (hb.allPassed harr (hindx harr)).total, hindx harr⟩
  · obtain ⟨r, hmem, hitem, hb'⟩ : ∃ r ∈ sh.arr, (getItem rand ret sh.arr).1 = some r ∧ _ :=
      hb.get harr
    exact .inl ⟨r, hmem, hitem, hb'.total_lt⟩

/-- The call of `getItem`. -/
theorem get_step {σ₁ : State} (hi : Turning startList σ k) (hget : σ.pc k = .get)
    (h : threadStep startList k rand ret σ = some σ₁) : Turning startList σ₁ k ∧
      σ₁.pc k = .test2 (getItem rand ret σ.shared.arr).1 ∧
      σ₁.shared.total = σ.shared.total ∧ σ₁.shared.indx = σ.shared.indx := by
  obtain ⟨e, he, rfl⟩ := threadStep_eq h
  have heq : e = ⟨{ σ.shared with arr := (getItem rand ret σ.shared.arr).2 },
      .test2 (getItem rand ret σ.shared.arr).1, none⟩ := by
    have he' := he
    rw [hget, threadFunction_eq] at he'
    exact (Option.some.inj he').symm
  have hpc : e.pc = .test2 (getItem rand ret σ.shared.arr).1 := by rw [heq]
  rcases turn_effect hi.turn he with ⟨hsig, ht⟩ | ⟨r, -, -, hun, -⟩ | ⟨-, hpr, -⟩
  · rw [hsig]
    refine ⟨hi.keep ht, ?_, ?_, ?_⟩
    · simp only [signal_none, Function.update_self, hpc]
    · simp only [heq]
      rfl
    · simp only [heq]
  · rw [hpc] at hun
    cases hun
  · rw [hpc] at hpr
    cases hpr

/-- The test after the call. -/
theorem test2_step {item : Option Road} (hpc : σ.pc k = .test2 item)
    (h : Step startList σ (.thread k) σ') :
    σ'.pc k = if σ.shared.total = startList.length then .print3 else .dispatch item := by
  cases h with
  | thread k rand ret h =>
    obtain ⟨e, he, rfl⟩ := threadStep_eq h
    rw [hpc, threadFunction_eq] at he
    obtain rfl := Option.some.inj he
    simp

/-- **`getItem` on an empty set.** A thread calls `getItem`, then takes the test
after it, with any steps of the others between. If the set is empty all vehicles
have passed right after the call and at the test, and the thread goes on to the
exit branch. If all have passed at the test, the set was empty and all vehicles
had arrived. If the thread goes on to look at the item, that is one that was
waiting. -/
theorem getItem_empty (hne : startList ≠ []) (hr : Reachable startList σ) (hget : σ.pc k = .get)
    {σ₁ σ₂ σ₃ : State} (hcall : threadStep startList k rand ret σ = some σ₁)
    (hothers : Transition.Reach σ₁ (Step startList) (fun _ a => a ≠ .thread k) σ₂)
    (htest : Step startList σ₂ (.thread k) σ₃) :
    (σ.shared.arr = [] → σ₁.shared.total = startList.length ∧
      σ₂.shared.total = startList.length ∧ σ₃.pc k = .print3) ∧
    (σ₂.shared.total = startList.length → σ.shared.arr = [] ∧
      σ₂.shared.indx = startList.length) ∧
    ∀ item, σ₃.pc k = .dispatch item → ∃ r ∈ σ.shared.arr, item = some r := by
  have hturn := (inv_reachable hne hr).turning_of_not_late (by rw [hget, Pc.late]; decide)
  obtain ⟨hturn₁, hpc₁, htotal₁, hindx₁⟩ := get_step hturn hget hcall
  obtain ⟨-, hsh₂, hpc₂⟩ := hturn₁.undisturbed hothers
  have hpc₃ := test2_step (hpc₂.trans hpc₁) htest
  have hb := hturn.turn
  rw [hget] at hb
  rw [hsh₂] at hpc₃ ⊢
  rw [htotal₁] at hpc₃ ⊢
  rw [hindx₁]
  rcases getItem_cases rand ret hb with ⟨r, hmem, hitem, hlt⟩ | ⟨harr, hall, hindx⟩
  · rw [if_neg (Nat.ne_of_lt hlt), hitem] at hpc₃
    refine ⟨fun harr => ?_, fun hc => absurd hc (Nat.ne_of_lt hlt), fun item hd => ?_⟩
    · rw [harr] at hmem
      cases hmem
    · rw [hpc₃] at hd
      exact ⟨r, hmem, (Pc.dispatch.inj hd).symm⟩
  · rw [if_pos hall] at hpc₃
    refine ⟨fun _ => ⟨hall, hall, hpc₃⟩, fun _ => ⟨harr, hindx⟩, fun item hd => ?_⟩
    rw [hpc₃] at hd
    cases hd

/-- One vehicle from the first road: thread `1` calls `getItem` on the empty
set, thread `2` locks its mutex, and thread `1` goes on to its exit branch. -/
theorem getItem_empty_one : ∃ σ σ₁ σ₂ σ₃, Reachable [0] σ ∧ σ.pc 0 = .get ∧
    threadStep [0] 0 0 none σ = some σ₁ ∧ threadStep [0] 1 0 none σ₁ = some σ₂ ∧
    threadStep [0] 0 0 none σ₂ = some σ₃ ∧ σ.shared.arr = [] ∧ σ₃.pc 0 = .print3 := by
  have h : ∃ σ σ₁ σ₂ σ₃, exec [0] ([.main, .main, .main, .main, .thread 0, .thread 0, .main] ++
      List.replicate 11 (Actor.thread 0)) initial = some σ ∧ σ.pc 0 = .get ∧
      threadStep [0] 0 0 none σ = some σ₁ ∧ threadStep [0] 1 0 none σ₁ = some σ₂ ∧
      threadStep [0] 0 0 none σ₂ = some σ₃ ∧ σ.shared.arr = [] :=
    ⟨_, _, _, _, rfl, rfl, rfl, rfl, rfl, rfl⟩
  obtain ⟨σ, σ₁, σ₂, σ₃, hσ, hget, h₁, h₂, h₃, harr⟩ := h
  have hr := exec_reachable .init hσ
  have hother : Transition.Reach σ₁ (Step [0]) (fun _ a => a ≠ .thread 0) σ₂ :=
    .step .init (by decide) (.thread 1 0 none h₂)
  exact ⟨σ, σ₁, σ₂, σ₃, hr, hget, h₁, h₂, h₃, harr,
    ((getItem_empty (by decide) hr hget h₁ hother (.thread 0 0 none h₃)).1 harr).2.2⟩

end Crossroad
end LinuxProg
