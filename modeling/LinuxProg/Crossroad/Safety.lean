/-
# Safety of the crossroad

Each thread locks a mutex of its own, so nothing but the turns keeps two of
them from changing the shared variables at once, and nothing but the accounts
of `Turns` keeps a vehicle from being lost or counted twice. Both hold in every
run: as long as vehicles are left at most one thread is moving
(`token_unique`), and at the end of each turn a vehicle that has arrived has
passed, waits, or is the one the turn goes to (`conservation`).
-/
import Mathlib
import LinuxProg.Crossroad.Turns

namespace LinuxProg
namespace Crossroad

variable {startList : List Road} {sh : Shared} {σ σ' : State} {k j : Road} {rand : ℕ}
  {ret : Option Road} {p : Pc} {e : Effect} {a : Actor}

/-! ### One thread at a time -/

/-- As long as vehicles are left, a thread that is not idle is on turn. -/
theorem Inv.turning_of_active (hi : Inv startList σ) (hlt : σ.shared.total < startList.length)
    (hk : ¬ (σ.pc k).idle = true) : Turning startList σ k := by
  rcases hi.turning_or_finishing hk with h | ⟨m, h⟩
  · exact h
  · exact absurd h.passed.total (Nat.ne_of_lt hlt)

theorem not_idle_of_active (h : p.active = true) : ¬ p.idle = true := by
  intro hc
  rw [idle_not_active hc] at h
  cases h

/-- At most one thread is signalled or moving. -/
theorem Inv.unique (hi : Inv startList σ) (hlt : σ.shared.total < startList.length) {i j : Road}
    (hact : (σ.pc i).active = true) (hact' : (σ.pc j).active = true) : i = j := by
  have ht := hi.turning_of_active hlt (not_idle_of_active hact)
  by_contra hij
  exact not_idle_of_active hact' (ht.idle j (Ne.symm hij))

/-- A statement that signals changes no shared variable. -/
theorem signal_effect {r : Road} (h : threadFunction k startList rand ret sh p = some e)
    (hsig : e.signal = some r) : e.shared = sh := by
  rw [threadFunction_eq] at h
  cases p
  case broadcast rest =>
    cases rest with
    | nil => cases h; rfl
    | cons j js => cases h; rfl
  case dispatch item =>
    simp only [threadBody] at h
    split at h <;> cases h <;> rfl
  all_goals cases h
  all_goals first | rfl | cases hsig

/-- A thread that is signalled is signalled by `main`, before anybody moves, or
by a thread that is not idle; no shared variable changes. -/
theorem wake_step (hs : Step startList σ a σ') (hw : σ.pc j = .waiting) (hw' : σ'.pc j = .woken) :
    σ'.shared = σ.shared ∧
      ((a = .main ∧ σ.main = .signal) ∨ ∃ k, a = .thread k ∧ ¬ (σ.pc k).idle = true) := by
  cases hs with
  | main h =>
    rcases mainStep_cases h with ⟨k, m, -, -, rfl⟩ | ⟨hmain, rfl⟩ | ⟨m, -, -, rfl⟩
    · refine absurd hw' ?_
      by_cases hjk : j = k
      · subst hjk
        simp
      · simp [Function.update_of_ne hjk, hw]
    · exact ⟨rfl, Or.inl ⟨rfl, hmain⟩⟩
    · rw [hw] at hw'
      cases hw'
  | thread k rand ret h =>
    obtain ⟨e, he, rfl⟩ := threadStep_eq h
    cases hsig : e.signal with
    | none =>
      -- only the thread itself has moved, and it was not waiting
      simp only [hsig, signal_none] at hw'
      by_cases hjk : j = k
      · subst hjk
        rw [hw, threadFunction_eq] at he
        cases he
      · rw [Function.update_of_ne hjk, hw] at hw'
        cases hw'
    | some r =>
      refine ⟨signal_effect he hsig, Or.inr ⟨k, rfl, fun hid => ?_⟩⟩
      have := (idle_effect hid he).2.2
      rw [hsig] at this
      cases this

/-- A statement that changes a shared variable is one of the moving section. -/
theorem shared_step (hi : Inv startList σ) (hlt : σ.shared.total < startList.length)
    (hs : Step startList σ a σ') (hne : σ'.shared ≠ σ.shared) :
    ∃ k, a = .thread k ∧ (σ.pc k).moving = true := by
  cases hs with
  | main h =>
    refine absurd ?_ hne
    rcases mainStep_cases h with ⟨k, m, -, -, rfl⟩ | ⟨-, rfl⟩ | ⟨m, -, -, rfl⟩ <;> rfl
  | thread k rand ret h =>
    obtain ⟨e, he, rfl⟩ := threadStep_eq h
    refine ⟨k, rfl, ?_⟩
    have hid : ¬ (σ.pc k).idle = true := fun hid => hne (idle_effect hid he).1
    have hact := (hi.turning_of_active hlt hid).turn.active
    rw [Pc.active, Bool.or_eq_true, beq_iff_eq] at hact
    refine hact.resolve_left fun hwoken => hne ?_
    rw [hwoken, threadFunction_eq] at he
    cases he
    rfl

/-- **Token uniqueness.** In every run, as long as vehicles are left: at most
one thread is signalled or moving; when a signal is delivered nobody but its
sender is, and afterwards only the thread signalled; and a shared variable is
changed only by a thread in its moving section while no other is signalled or
moving. -/
theorem token_unique (hne : startList ≠ []) (hr : Reachable startList σ)
    (hlt : σ.shared.total < startList.length) :
    (∀ i j, (σ.pc i).active = true → (σ.pc j).active = true → i = j) ∧
      ∀ a σ', Step startList σ a σ' →
        (∀ j, σ.pc j = .waiting → σ'.pc j = .woken →
          (∀ i, a ≠ .thread i → (σ.pc i).active = false) ∧
            ∀ i, i ≠ j → (σ'.pc i).active = false) ∧
        (σ'.shared ≠ σ.shared → ∃ k, a = .thread k ∧ (σ.pc k).moving = true ∧
          ∀ i, i ≠ k → (σ.pc i).active = false) := by
  have hi := inv_reachable hne hr
  refine ⟨fun i j => hi.unique hlt, fun a σ' hs => ⟨fun j hw hw' => ⟨fun i hai => ?_, fun i hij => ?_⟩,
    fun hsh => ?_⟩⟩
  · -- the sender is `main` before its signal, or the thread on turn
    obtain ⟨-, ⟨rfl, hmain⟩ | ⟨k, rfl, hk⟩⟩ := wake_step hs hw hw'
    · exact idle_not_active ((hi.starting_of_sent (by rw [hmain]; rfl)).idle i)
    · have hik : i ≠ k := fun hc => hai (by rw [hc])
      exact idle_not_active ((hi.turning_of_active hlt hk).idle i hik)
  · obtain ⟨hsh, -⟩ := wake_step hs hw hw'
    have hi' : Inv startList σ' := inv_reachable hne (hr.step trivial hs)
    by_contra hact
    refine hij (hi'.unique (by rw [hsh]; exact hlt) (Bool.not_eq_false _ ▸ hact) ?_)
    rw [hw']
    rfl
  · obtain ⟨k, rfl, hmov⟩ := shared_step hi hlt hs hsh
    have hid : ¬ (σ.pc k).idle = true :=
      not_idle_of_active (by rw [Pc.active, hmov, Bool.or_true])
    exact ⟨k, rfl, hmov, fun i hik =>
      idle_not_active ((hi.turning_of_active hlt hid).idle i hik)⟩

/-- Vehicles from the first and the third road, the first one moving. -/
theorem token_unique_moving : ∃ σ, Reachable [0, 2] σ ∧ (σ.pc 0).moving = true ∧
    ∀ i j, (σ.pc i).active = true → (σ.pc j).active = true → i = j := by
  have hany : (exec [0, 2] (([.main, .main, .main, .main, .thread 0, .thread 0, .main] : List Actor) ++
      List.replicate 2 (Actor.thread 0)) initial).any
      (fun σ => (σ.pc 0).moving && decide (σ.shared.total < 2)) = true := by
    decide +kernel
  obtain ⟨σ, hσ, hmov⟩ := (Option.any_eq_true _ _).mp hany
  rw [Bool.and_eq_true, decide_eq_true_eq] at hmov
  have hr := exec_reachable .init hσ
  exact ⟨σ, hr, hmov.1, (token_unique (by decide) hr hmov.2).1⟩

/-! ### No vehicle is lost or doubled -/

/-- The statements that end a turn: the signal to the thread opposite, the
branches on `item`, and the first one of the exit branch. -/
def Pc.endsTurn : Pc → Bool
  | .signalOpposite | .dispatch _ | .print3 => true
  | _ => false

/-- The vehicle a thread hands the turn to by its next statement. -/
def handsTo (k : Road) : Pc → Option Road
  | .signalOpposite => some (opposite k)
  | .dispatch item => item
  | _ => none

/-- In the exit branch all have passed, and nobody waits or is on turn. -/
theorem Inv.allPassed (hi : Inv startList σ) (h : (σ.pc k).inExitBranch = true) :
    AllPassed startList σ.shared ∧ Balance startList σ.shared none := by
  have hidle : ¬ (σ.pc k).idle = true := by
    intro hc
    cases hp : σ.pc k <;> rw [hp] at h hc <;> cases h <;> cases hc
  rcases hi.turning_or_finishing hidle with hi | ⟨m, hi⟩
  · have hact := hi.turn.active
    cases hp : σ.pc k <;> rw [hp] at h hact <;> cases h <;> cases hact
  · exact ⟨hi.passed, hi.balance⟩

/-- The account of a thread about to end its turn. -/
theorem Inv.balance_of_endsTurn (hi : Inv startList σ) (h : (σ.pc k).endsTurn = true) :
    Balance startList σ.shared (handsTo k (σ.pc k)) := by
  have hturn : ¬ (σ.pc k).late → Turn startList k σ.shared (σ.pc k) := fun hlate =>
    (hi.turning_of_not_late hlate).turn
  cases hp : σ.pc k <;> rw [hp] at h hturn <;> cases h
  case signalOpposite => exact hturn (by rw [Pc.late]; decide)
  case dispatch item =>
    obtain ⟨r, rfl, hb⟩ := hturn (by rintro (hc | hc | hc) <;> cases hc)
    exact hb
  case print3 => exact (hi.allPassed (by rw [hp]; rfl)).2

/-- A statement that ends a turn changes no account. -/
theorem endsTurn_effect (hp : p.endsTurn = true)
    (h : threadFunction k startList rand ret sh p = some e) : SameAccounts sh e.shared := by
  rw [threadFunction_eq] at h
  cases p <;> cases hp
  case dispatch item =>
    simp only [threadBody] at h
    split at h <;> cases h <;> exact ⟨rfl, rfl, rfl⟩
  all_goals
    cases h
    exact ⟨rfl, rfl, rfl⟩

/-- **Conservation.** When a turn ends, by a signal, by `goto GO` or in the exit
branch, then for each road the vehicles that have passed, those that wait and the
next one on turn, if there is one, are those that have arrived; and in the exit
branch nobody waits, all have arrived and every vehicle of the list has passed. -/
theorem conservation (hne : startList ≠ []) (hr : Reachable startList σ) :
    (∀ k σ', Step startList σ (.thread k) σ' → (σ.pc k).endsTurn = true → ∀ i,
      σ'.shared.P i + σ'.shared.arr.count i + (if handsTo k (σ.pc k) = some i then 1 else 0) =
        (startList.take σ'.shared.indx).count i) ∧
      ∀ k, (σ.pc k).inExitBranch = true → σ.shared.arr = [] ∧
        σ.shared.indx = startList.length ∧ ∀ i, σ.shared.P i = startList.count i := by
  have hi := inv_reachable hne hr
  refine ⟨fun k σ' hs hend => ?_, fun k hex => ?_⟩
  · cases hs with
    | thread _ rand ret h =>
      obtain ⟨e, he, rfl⟩ := threadStep_eq h
      exact ((hi.balance_of_endsTurn hend).same (endsTurn_effect hend he)).2
  · obtain ⟨hall, hb⟩ := hi.allPassed hex
    obtain ⟨harr, hindx⟩ := hb.settled hall.total
    exact ⟨harr, hindx, hall⟩

/-- The first one has passed and hands the turn to the one opposite. -/
theorem conservation_opposite : ∃ σ, Reachable [0, 2] σ ∧ handsTo 0 (σ.pc 0) = some 2 ∧
    ∀ σ', Step [0, 2] σ (.thread 0) σ' → ∀ i,
      σ'.shared.P i + σ'.shared.arr.count i + (if handsTo 0 (σ.pc 0) = some i then 1 else 0) =
        (List.take σ'.shared.indx [0, 2]).count i := by
  have hany : (exec [0, 2] (([.main, .main, .main, .main, .thread 0, .thread 0, .main] : List Actor) ++
      List.replicate 9 (Actor.thread 0)) initial).any
      (fun σ => (σ.pc 0).endsTurn && decide (handsTo 0 (σ.pc 0) = some 2)) = true := by
    decide +kernel
  obtain ⟨σ, hσ, hto⟩ := (Option.any_eq_true _ _).mp hany
  have hr := exec_reachable .init hσ
  rw [Bool.and_eq_true, decide_eq_true_eq] at hto
  exact ⟨σ, hr, hto.2, fun σ' hs => (conservation (by decide) hr).1 0 σ' hs hto.1⟩

end Crossroad
end LinuxProg
