/-
# Turns

The right to move is a token: `main` sends it to the first vehicle, a thread
takes it out of `pthread_cond_wait` and hands it to the next one by a signal,
or keeps it by `goto GO`. The thread that has it is the only one that is not
idle (`Turning`), and at each of its statements the vehicles are accounted for
(`Turn`): of those that have arrived each one has passed, waits, or is the one
whose turn it is. A signal that nobody hears loses the token (`Lost`); the
thread that finds all vehicles passed ends the run (`Finishing`).

`inv_reachable` is the invariant of all runs; `token_unique` and `conservation`
read it off.
-/
import Mathlib
import LinuxProg.Crossroad.Model

namespace LinuxProg
namespace Crossroad

variable {startList : List Road} {sh : Shared} {σ σ' : State}

/-! ### Places of a thread -/

/-- Not running, or on the way back to `pthread_cond_wait`. -/
def Pc.idle : Pc → Bool
  | .notCreated | .top | .locked | .waiting | .unlock => true
  | _ => false

/-- The moving section: from the return of `pthread_cond_wait`, or the label
`GO`, to the next `pthread_cond_signal`. -/
def Pc.moving : Pc → Bool
  | .test | .go | .tick1 | .count | .add1 | .setPassed | .findOpposite | .remove
  | .signalOpposite | .print2 | .tick2 | .add2 | .get | .test2 _ | .dispatch _ => true
  | _ => false

/-- Signalled or moving. -/
def Pc.active (p : Pc) : Bool := p == .woken || p.moving

/-- The exit branch, up to `pthread_exit`. -/
def Pc.inExitBranch : Pc → Bool
  | .print3 | .unlockExit | .broadcast _ => true
  | _ => false

/-- Has `main` sent its signal? -/
def MainPc.sent : MainPc → Bool
  | .create _ | .signal => false
  | .join _ | .done => true

theorem idle_not_active {p : Pc} (h : p.idle = true) : p.active = false := by
  cases p <;> first | rfl | cases h

/-! ### Accounting -/

/-- Of the vehicles that have arrived each one has passed, waits, or is the
one on `turn`. -/
def Balance (startList : List Road) (sh : Shared) (turn : Option Road) : Prop :=
  sh.indx ≤ startList.length ∧ ∀ i,
    sh.P i + sh.arr.count i + (if turn = some i then 1 else 0) = (startList.take sh.indx).count i

theorem sum_count : ∀ l : List Road, l.count 0 + l.count 1 + l.count 2 + l.count 3 = l.length
  | [] => rfl
  | x :: l => by
    have ih := sum_count l
    simp only [List.count_cons, List.length_cons]
    fin_cases x <;> simp <;> omega

/-- The vehicles counted. -/
theorem Balance.total {turn : Option Road} (h : Balance startList sh turn) :
    sh.total + sh.arr.length + turn.toList.length = sh.indx := by
  have hlen : (startList.take sh.indx).length = sh.indx := List.length_take_of_le h.1
  have h0 := h.2 0
  have h1 := h.2 1
  have h2 := h.2 2
  have h3 := h.2 3
  have harr := sum_count sh.arr
  have hst := sum_count (startList.take sh.indx)
  have hturn : (if turn = some 0 then 1 else 0) + (if turn = some 1 then 1 else 0) +
      (if turn = some 2 then 1 else 0) + (if turn = some 3 then 1 else 0) =
      turn.toList.length := by
    cases turn with
    | none => rfl
    | some r => fin_cases r <;> rfl
  rw [Shared.total]
  omega

theorem Balance.count {j : Road} (h : Balance startList sh (some j)) :
    Balance startList { sh with P := Function.update sh.P j (sh.P j + 1) } none := by
  refine ⟨h.1, fun i => ?_⟩
  have hi := h.2 i
  by_cases hij : i = j
  · subst hij
    rw [if_pos rfl] at hi
    simp only [Function.update_self, if_neg (Option.some_ne_none i).symm]
    omega
  · rw [if_neg fun hc => hij (Option.some.inj hc).symm] at hi
    simp only [Function.update_of_ne hij, if_neg (Option.some_ne_none i).symm]
    exact hi

/-- An arrival. After it somebody waits, or all have arrived. -/
theorem Balance.arrive {turn : Option Road} (h : Balance startList sh turn) :
    Balance startList (arrive startList sh) turn ∧
      ((arrive startList sh).arr = [] → (arrive startList sh).indx = startList.length) := by
  unfold Crossroad.arrive addSet
  split
  · rename_i hlt
    refine ⟨⟨hlt, fun i => ?_⟩, fun hc => absurd hc (by simp)⟩
    have hi := h.2 i
    rw [List.getD_eq_getElem _ _ hlt]
    simp only [List.take_succ_eq_append_getElem hlt, List.count_append]
    omega
  · have := h.1
    exact ⟨h, fun _ => by omega⟩

theorem Balance.remove {r : Road} (h : Balance startList sh none) (hr : r ∈ sh.arr) :
    Balance startList { sh with arr := removeItem r sh.arr } (some r) := by
  refine ⟨h.1, fun i => ?_⟩
  have hi := h.2 i
  rw [if_neg (Option.some_ne_none i).symm] at hi
  simp only [removeItem, if_pos hr, Option.some.injEq]
  have hpos := List.count_pos_iff.mpr hr
  by_cases hir : r = i
  · subst hir
    rw [List.count_erase_self, if_pos rfl]
    omega
  · rw [List.count_erase_of_ne (Ne.symm hir), if_neg hir]
    exact hi

/-- `getItem` on a set that is not empty takes one vehicle out of it. -/
theorem Balance.get {rand : ℕ} {ret : Option Road} (h : Balance startList sh none)
    (hne : sh.arr ≠ []) : ∃ r ∈ sh.arr, (getItem rand ret sh.arr).1 = some r ∧
      Balance startList { sh with arr := (getItem rand ret sh.arr).2 } (some r) := by
  have hpos : 0 < sh.arr.length := List.length_pos_iff.mpr hne
  have hlt : rand % sh.arr.length < sh.arr.length := Nat.mod_lt _ hpos
  rw [getItem, if_neg (by omega)]
  refine ⟨_, List.getElem_mem hlt, List.getElem?_eq_getElem hlt, h.1, fun i => ?_⟩
  have hi := h.2 i
  have hperm := List.getElem_cons_eraseIdx_perm hlt
  have hc := hperm.count_eq i
  rw [List.count_cons] at hc
  rw [if_neg (Option.some_ne_none i).symm] at hi
  simp only [Option.some.injEq, beq_iff_eq] at hc ⊢
  omega

/-! ### What a statement does -/

/-- The accounts at the statements of the thread on turn. -/
def Turn (startList : List Road) (j : Road) (sh : Shared) : Pc → Prop
  | .woken | .test | .go | .tick1 | .count => Balance startList sh (some j)
  | .add1 | .setPassed | .findOpposite | .print2 | .tick2 | .add2 => Balance startList sh none
  | .remove => Balance startList sh none ∧ opposite j ∈ sh.arr
  | .signalOpposite => Balance startList sh (some (opposite j))
  | .get => Balance startList sh none ∧ (sh.arr = [] → sh.indx = startList.length)
  | .test2 item =>
    (∃ r, item = some r ∧ Balance startList sh (some r)) ∨
      (Balance startList sh none ∧ sh.arr = [] ∧ sh.indx = startList.length)
  | .dispatch item => ∃ r, item = some r ∧ Balance startList sh (some r)
  | _ => False

theorem Turn.active {j : Road} {p : Pc} (h : Turn startList j sh p) : p.active = true := by
  cases p <;> first | rfl | exact absurd h id

/-- On a turn the vehicles are accounted for. -/
theorem Turn.balance {j : Road} {p : Pc} (h : Turn startList j sh p) :
    ∃ turn, Balance startList sh turn := by
  cases p <;> first | exact absurd h id | exact ⟨_, h⟩ | skip
  case remove => exact ⟨_, h.1⟩
  case get => exact ⟨_, h.1⟩
  case test2 item =>
    rcases h with ⟨r, -, hb⟩ | ⟨hb, -⟩
    · exact ⟨_, hb⟩
    · exact ⟨_, hb⟩
  case dispatch item =>
    obtain ⟨r, -, hb⟩ := h
    exact ⟨_, hb⟩

variable {k j : Road} {rand : ℕ} {ret : Option Road} {p : Pc} {e : Effect}

/-- An idle thread touches nothing and stays idle. -/
theorem idle_effect (hp : p.idle = true)
    (h : threadFunction k startList rand ret sh p = some e) :
    e.shared = sh ∧ e.pc.idle = true ∧ e.signal = none := by
  rw [threadFunction_eq] at h
  cases p <;> cases hp
  all_goals
    simp only [threadBody, Option.some.injEq, reduceCtorEq] at h
  all_goals
    subst h
    exact ⟨rfl, rfl, rfl⟩

/-- The thread a statement signals. -/
theorem signalAt_eq (h : threadFunction k startList rand ret sh p = some e) :
    signalAt k p = e.signal := by
  rw [threadFunction_eq] at h
  cases p
  case broadcast rest =>
    cases rest with
    | nil => cases h; rfl
    | cons j js => cases h; rfl
  case dispatch item =>
    simp only [threadBody] at h
    simp only [signalAt]
    split at h
    · rename_i hc
      rw [if_pos hc]
      cases h
      rfl
    · rename_i hc
      rw [if_neg hc]
      cases h
      rfl
  all_goals cases h
  all_goals rfl

/-- Only the statement `count` counts. -/
theorem effect_P (hp : p ≠ .count) (h : threadFunction k startList rand ret sh p = some e) :
    e.shared.P = sh.P := by
  rw [threadFunction_eq] at h
  cases p
  case broadcast rest => cases rest <;> cases h <;> rfl
  case dispatch item =>
    simp only [threadBody] at h
    split at h <;> cases h <;> rfl
  case count => exact absurd rfl hp
  case add1 | add2 =>
    cases h
    show (arrive startList sh).P = sh.P
    unfold arrive addSet
    split <;> rfl
  all_goals cases h
  all_goals rfl

theorem total_of_P {sh' : Shared} (h : sh'.P = sh.P) : sh'.total = sh.total := by
  unfold Shared.total
  rw [h]

/-- The statements outside the turn leave the waiting set alone. -/
theorem effect_arr (hp : p.active = false) (h : threadFunction k startList rand ret sh p = some e) :
    e.shared.arr = sh.arr := by
  rw [threadFunction_eq] at h
  cases p <;> cases hp
  case broadcast rest => cases rest <;> cases h <;> rfl
  all_goals cases h
  all_goals rfl

/-- Every vehicle of the list has passed. -/
def AllPassed (startList : List Road) (sh : Shared) : Prop := ∀ i, sh.P i = startList.count i

theorem AllPassed.total (h : AllPassed startList sh) : sh.total = startList.length := by
  rw [Shared.total, h 0, h 1, h 2, h 3, sum_count]

/-- A vehicle on turn has not passed. -/
theorem Balance.total_lt {r : Road} (h : Balance startList sh (some r)) :
    sh.total < startList.length := by
  have htotal := h.total
  have := h.1
  rw [Option.toList_some, List.length_singleton] at htotal
  omega

/-- With nobody waiting and all arrived, all have passed. -/
theorem Balance.allPassed (h : Balance startList sh none) (harr : sh.arr = [])
    (hindx : sh.indx = startList.length) : AllPassed startList sh := by
  intro i
  have := h.2 i
  rw [harr, hindx, List.take_length, if_neg (Option.some_ne_none i).symm, List.count_nil] at this
  omega

/-- With all counted nobody waits, and all have arrived. -/
theorem Balance.settled (h : Balance startList sh none) (htotal : sh.total = startList.length) :
    sh.arr = [] ∧ sh.indx = startList.length := by
  have hsum := h.total
  have hle := h.1
  rw [Option.toList_none, List.length_nil] at hsum
  exact ⟨List.eq_nil_of_length_eq_zero (by omega), by omega⟩

/-- The variables the accounts are made of. -/
structure SameAccounts (sh sh' : Shared) : Prop where
  P : sh'.P = sh.P
  arr : sh'.arr = sh.arr
  indx : sh'.indx = sh.indx

theorem Balance.same {sh' : Shared} {turn : Option Road} (h : Balance startList sh turn)
    (hs : SameAccounts sh sh') : Balance startList sh' turn := by
  refine ⟨hs.indx ▸ h.1, fun i => ?_⟩
  rw [hs.P, hs.arr, hs.indx]
  exact h.2 i

theorem opposite_ne : ∀ r : Road, opposite r ≠ r := by decide

/-- **A statement of the thread on turn**: it keeps the turn, or hands it to
the thread it signals, or enters the exit branch with all vehicles passed,
nobody waiting and nobody on turn. -/
theorem turn_effect (ht : Turn startList j sh p)
    (h : threadFunction j startList rand ret sh p = some e) :
    (e.signal = none ∧ Turn startList j e.shared e.pc) ∨
      (∃ r, e.signal = some r ∧ r ≠ j ∧ e.pc = .unlock ∧ Balance startList e.shared (some r)) ∨
      (e.signal = none ∧ e.pc = .print3 ∧ AllPassed startList e.shared ∧ e.shared.arr = [] ∧
        Balance startList e.shared none) := by
  rw [threadFunction_eq] at h
  cases p <;> first | exact absurd ht id | skip
  all_goals
    simp only [threadBody, Option.some.injEq] at h
  case woken => subst h; exact Or.inl ⟨rfl, ht⟩
  case test =>
    subst h
    rw [if_neg (Nat.ne_of_lt (Balance.total_lt ht))]
    exact Or.inl ⟨rfl, ht⟩
  case go => subst h; exact Or.inl ⟨rfl, ht⟩
  case tick1 => subst h; exact Or.inl ⟨rfl, ht⟩
  case count => subst h; exact Or.inl ⟨rfl, Balance.count ht⟩
  case add1 => subst h; exact Or.inl ⟨rfl, (Balance.arrive ht).1⟩
  case setPassed => subst h; exact Or.inl ⟨rfl, ht⟩
  case findOpposite =>
    subst h
    left
    refine ⟨rfl, ?_⟩
    by_cases hf : find (opposite j) sh.arr = true
    · rw [if_pos hf]
      exact ⟨ht, List.contains_iff_mem.mp hf⟩
    · rw [if_neg hf]
      exact ht
  case remove => subst h; exact Or.inl ⟨rfl, Balance.remove ht.1 ht.2⟩
  case signalOpposite => subst h; exact Or.inr (Or.inl ⟨_, rfl, opposite_ne j, rfl, ht⟩)
  case print2 => subst h; exact Or.inl ⟨rfl, ht⟩
  case tick2 => subst h; exact Or.inl ⟨rfl, ht⟩
  case add2 => subst h; exact Or.inl ⟨rfl, Balance.arrive ht⟩
  case get =>
    subst h
    left
    refine ⟨rfl, ?_⟩
    by_cases harr : sh.arr = []
    · right
      rw [getItem, if_pos (by rw [harr]; rfl)]
      exact ⟨ht.1, harr, ht.2 harr⟩
    · left
      obtain ⟨r, -, hitem, hb⟩ := Balance.get ht.1 harr
      exact ⟨r, hitem, hb⟩
  case test2 item =>
    subst h
    rcases ht with ⟨r, rfl, hb⟩ | ⟨hb, harr, hindx⟩
    · rw [if_neg (Nat.ne_of_lt hb.total_lt)]
      exact Or.inl ⟨rfl, r, rfl, hb⟩
    · have hall := hb.allPassed harr hindx
      rw [if_pos hall.total]
      exact Or.inr (Or.inr ⟨rfl, rfl, hall, harr, hb⟩)
  case dispatch item =>
    obtain ⟨r, rfl, hb⟩ := ht
    by_cases hr : r = j
    · subst hr
      rw [if_pos rfl, Option.some.injEq] at h
      subst h
      exact Or.inl ⟨rfl, hb⟩
    · rw [if_neg fun hc => hr (Option.some.inj hc), Option.some.injEq] at h
      subst h
      exact Or.inr (Or.inl ⟨r, rfl, hr, rfl, hb⟩)

/-! ### The phases of a run -/

/-- `main` has not sent its signal. -/
structure Starting (σ : State) : Prop where
  sent : σ.main.sent = false
  shared : σ.shared = initial.shared
  idle : ∀ i, (σ.pc i).idle = true

/-- Thread `j` is on turn, the others are idle. -/
structure Turning (startList : List Road) (σ : State) (j : Road) : Prop where
  sent : σ.main.sent = true
  turn : Turn startList j σ.shared (σ.pc j)
  idle : ∀ i, i ≠ j → (σ.pc i).idle = true

/-- A signal was not heard: all are idle. -/
structure Lost (σ : State) : Prop where
  sent : σ.main.sent = true
  idle : ∀ i, (σ.pc i).idle = true

/-- The signals the exit branch of thread `k` has still to send. -/
def pending (k : Road) : Pc → List Road
  | .print3 | .unlockExit => others k
  | .broadcast rest => rest
  | _ => []

/-- Signalled by the exit branch, or gone. -/
def Pc.released : Pc → Bool
  | .woken | .test | .leave | .exited => true
  | _ => false

/-- Thread `k` ends the run. The threads it has not signalled yet are idle;
the others are on their way out, or idle if they did not hear it. -/
structure Finishing (startList : List Road) (σ : State) (k : Road) : Prop where
  sent : σ.main.sent = true
  passed : AllPassed startList σ.shared
  balance : Balance startList σ.shared none
  exiter : (σ.pc k).inExitBranch = true ∨ σ.pc k = .exited
  own : k ∉ pending k (σ.pc k)
  nodup : (pending k (σ.pc k)).Nodup
  idle : ∀ i ∈ pending k (σ.pc k), (σ.pc i).idle = true
  outgoing : ∀ i, i ≠ k → (σ.pc i).idle = true ∨ (σ.pc i).released = true

inductive Inv (startList : List Road) (σ : State) : Prop where
  | starting : Starting σ → Inv startList σ
  | turning (j : Road) : Turning startList σ j → Inv startList σ
  | lost : Lost σ → Inv startList σ
  | finishing (k : Road) : Finishing startList σ k → Inv startList σ

/-! ### Steps -/

/-- A statement of a thread, unfolded. -/
theorem threadStep_eq (h : threadStep startList k rand ret σ = some σ') :
    ∃ e, threadFunction k startList rand ret σ.shared (σ.pc k) = some e ∧
      σ' = { σ with shared := e.shared, pc := signal e.signal (Function.update σ.pc k e.pc) } := by
  obtain ⟨e, he, rfl⟩ := Option.map_eq_some_iff.mp h
  exact ⟨e, he, rfl⟩

/-- An idle thread's step changes its place only. -/
theorem idle_step (hp : (σ.pc k).idle = true) (h : threadStep startList k rand ret σ = some σ') :
    ∃ p, p.idle = true ∧ σ' = { σ with pc := Function.update σ.pc k p } := by
  obtain ⟨e, he, rfl⟩ := threadStep_eq h
  obtain ⟨hsh, hpc, hsig⟩ := idle_effect hp he
  exact ⟨e.pc, hpc, by rw [hsh, hsig]; rfl⟩

theorem update_idle {pc : Road → Pc} {q : Pc} (hq : q.idle = true) {S : Road → Prop}
    (h : ∀ i, S i → (pc i).idle = true) : ∀ i, S i → (Function.update pc k q i).idle = true := by
  intro i hi
  by_cases hik : i = k
  · subst hik
    rwa [Function.update_self]
  · rw [Function.update_of_ne hik]
    exact h i hi

/-- Who hears a signal: with all threads idle, the one signalled gets the turn
or the turn is lost. -/
theorem signal_cases {pc : Road → Pc} {m : MainPc} {r : Road} (hm : m.sent = true)
    (hidle : ∀ i, (pc i).idle = true) (hb : Balance startList sh (some r)) :
    Turning startList ⟨sh, signal (some r) pc, m⟩ r ∨
      (Lost ⟨sh, signal (some r) pc, m⟩ ∧ pc r ≠ .waiting) := by
  by_cases hw : pc r = .waiting
  · rw [signal_heard hw]
    refine Or.inl ⟨hm, ?_, fun i hi => ?_⟩
    · simp only [Function.update_self]
      exact hb
    · simp only [Function.update_of_ne hi]
      exact hidle i
  · rw [signal_unheard hw]
    exact Or.inr ⟨⟨hm, hidle⟩, hw⟩

theorem starting_thread (hi : Starting σ) (h : threadStep startList k rand ret σ = some σ') :
    Starting σ' := by
  obtain ⟨p, hp, rfl⟩ := idle_step (hi.idle k) h
  refine ⟨hi.sent, hi.shared, fun i => ?_⟩
  exact update_idle hp (fun i (_ : True) => hi.idle i) i trivial

theorem lost_thread (hi : Lost σ) (h : threadStep startList k rand ret σ = some σ') : Lost σ' := by
  obtain ⟨p, hp, rfl⟩ := idle_step (hi.idle k) h
  refine ⟨hi.sent, fun i => ?_⟩
  exact update_idle hp (fun i (_ : True) => hi.idle i) i trivial

theorem others_spec (k : Road) : k ∉ others k ∧ (others k).Nodup ∧ ∀ i, i ≠ k → i ∈ others k := by
  revert k
  decide

/-- The thread on turn keeps it. -/
theorem Turning.keep (hi : Turning startList σ j) (ht : Turn startList j e.shared e.pc) :
    Turning startList { σ with shared := e.shared, pc := Function.update σ.pc j e.pc } j := by
  refine ⟨hi.sent, ?_, fun i hij => ?_⟩
  · simp only [Function.update_self]
    exact ht
  · simp only [Function.update_of_ne hij]
    exact hi.idle i hij

/-- The thread on turn goes back to its wait: all are idle. -/
theorem Turning.back (hi : Turning startList σ j) (hpc : e.pc = .unlock) (i : Road) :
    (Function.update σ.pc j e.pc i).idle = true := by
  by_cases hij : i = j
  · subst hij
    rw [Function.update_self, hpc]
    rfl
  · rw [Function.update_of_ne hij]
    exact hi.idle i hij

/-- The thread on turn enters its exit branch. -/
theorem Turning.finish (hi : Turning startList σ j) (hpc : e.pc = .print3)
    (hall : AllPassed startList e.shared) (hb : Balance startList e.shared none) :
    Finishing startList { σ with shared := e.shared, pc := Function.update σ.pc j e.pc } j := by
  obtain ⟨hown, hnodup, -⟩ := others_spec j
  have hj : Function.update σ.pc j e.pc j = .print3 := by rw [Function.update_self, hpc]
  have hrest : ∀ i, i ≠ j → (Function.update σ.pc j e.pc i).idle = true := fun i hij => by
    rw [Function.update_of_ne hij]
    exact hi.idle i hij
  refine ⟨hi.sent, hall, hb, ?_, ?_, ?_, ?_, fun i hij => .inl (hrest i hij)⟩
  all_goals simp only [hj]
  · exact .inl rfl
  · exact hown
  · exact hnodup
  · exact fun i hmem => hrest i fun hc => hown (hc ▸ hmem)

/-- Another thread takes a step. -/
theorem Turning.other (hi : Turning startList σ j) (hkj : k ≠ j) {q : Pc} (hq : q.idle = true) :
    Turning startList { σ with pc := Function.update σ.pc k q } j := by
  refine ⟨hi.sent, ?_, update_idle hq hi.idle⟩
  simp only [Function.update_of_ne (Ne.symm hkj)]
  exact hi.turn

/-- **A step while thread `j` is on turn**: somebody is on turn, or a signal
was not heard and the turn is lost, or `j` has entered its exit branch. -/
theorem turning_step (hi : Turning startList σ j)
    (h : threadStep startList k rand ret σ = some σ') :
    (∃ i, Turning startList σ' i) ∨ (Lost σ' ∧ ¬ Heard startList σ (.thread k)) ∨
      (Finishing startList σ' j ∧ pending j (σ'.pc j) = others j) := by
  by_cases hkj : k = j
  · subst hkj
    obtain ⟨e, he, rfl⟩ := threadStep_eq h
    rcases turn_effect hi.turn he with ⟨hsig, ht⟩ | ⟨r, hsig, hrk, hpc, hb⟩ | ⟨hsig, hpc, hall, -, hb⟩
    · rw [hsig]
      exact Or.inl ⟨k, hi.keep ht⟩
    · rw [hsig]
      rcases signal_cases hi.sent (hi.back hpc) hb with ht | ⟨hl, hw⟩
      · exact Or.inl ⟨r, ht⟩
      · refine Or.inr (Or.inl ⟨hl, fun hh => hw ?_⟩)
        rw [Function.update_of_ne hrk]
        exact hh r ((signalAt_eq he).trans hsig)
    · rw [hsig]
      refine Or.inr (Or.inr ⟨hi.finish hpc hall hb, ?_⟩)
      simp only [signal_none, Function.update_self, hpc]
      rfl
  · obtain ⟨p, hp, rfl⟩ := idle_step (hi.idle k hkj) h
    exact Or.inl ⟨j, hi.other hkj hp⟩

/-- Threads on their way out. -/
theorem released_effect (htotal : sh.total = startList.length) (hp : p.released = true)
    (h : threadFunction k startList rand ret sh p = some e) :
    e.shared = sh ∧ e.pc.released = true ∧ e.signal = none := by
  rw [threadFunction_eq] at h
  cases p <;> cases hp
  all_goals
    simp only [threadBody, Option.some.injEq, reduceCtorEq] at h
  case test =>
    subst h
    rw [if_pos htotal]
    exact ⟨rfl, rfl, rfl⟩
  all_goals
    subst h
    exact ⟨rfl, rfl, rfl⟩

/-- A statement of the exit branch: on the way to its signals, or one of them. -/
theorem exit_effect (hp : p.inExitBranch = true)
    (h : threadFunction k startList rand ret sh p = some e) :
    SameAccounts sh e.shared ∧ (e.pc.inExitBranch = true ∨ e.pc = .exited) ∧
      pending k p = e.signal.toList ++ pending k e.pc := by
  rw [threadFunction_eq] at h
  cases p <;> cases hp
  case print3 | unlockExit =>
    simp only [threadBody, Option.some.injEq] at h
    subst h
    exact ⟨⟨rfl, rfl, rfl⟩, Or.inl rfl, rfl⟩
  case broadcast rest =>
    cases rest with
    | nil =>
      simp only [threadBody, Option.some.injEq] at h
      subst h
      exact ⟨⟨rfl, rfl, rfl⟩, Or.inr rfl, rfl⟩
    | cons r rs =>
      simp only [threadBody, Option.some.injEq] at h
      subst h
      exact ⟨⟨rfl, rfl, rfl⟩, Or.inl rfl, rfl⟩

/-- A signal reaches its thread only, and only inside `pthread_cond_wait`. -/
theorem signal_apply {pc : Road → Pc} (s : Option Road) (i : Road) :
    signal s pc i = if s = some i ∧ pc i = .waiting then .woken else pc i := by
  cases s with
  | none => rw [if_neg fun hc => Option.some_ne_none i hc.1.symm, signal_none]
  | some r =>
    by_cases hw : pc r = .waiting
    · rw [signal_heard hw]
      by_cases hir : i = r
      · subst hir
        rw [Function.update_self, if_pos ⟨rfl, hw⟩]
      · rw [Function.update_of_ne hir, if_neg fun hc => hir (Option.some.inj hc.1).symm]
    · rw [signal_unheard hw]
      by_cases hir : i = r
      · subst hir
        rw [if_neg fun hc => hw hc.2]
      · rw [if_neg fun hc => hir (Option.some.inj hc.1).symm]

/-- What a statement of the thread `k` in its exit branch does. -/
structure ExitStep (σ σ' : State) (k : Road) : Prop where
  main : σ'.main = σ.main
  accounts : SameAccounts σ.shared σ'.shared
  exiter : (σ'.pc k).inExitBranch = true ∨ σ'.pc k = .exited
  others : ∀ i, i ≠ k → σ'.pc i =
    if signalAt k (σ.pc k) = some i ∧ σ.pc i = .waiting then .woken else σ.pc i
  pending : pending k (σ.pc k) = (signalAt k (σ.pc k)).toList ++ pending k (σ'.pc k)

theorem Finishing.exitStep (hi : Finishing startList σ k)
    (h : threadStep startList k rand ret σ = some σ') : ExitStep σ σ' k := by
  obtain ⟨e, he, rfl⟩ := threadStep_eq h
  have hex : (σ.pc k).inExitBranch = true := by
    refine hi.exiter.resolve_right fun hc => ?_
    rw [hc, threadFunction_eq] at he
    cases he
  obtain ⟨hsame, hpc, hpend⟩ := exit_effect hex he
  have hk : signal e.signal (Function.update σ.pc k e.pc) k = e.pc := by
    rw [signal_apply, Function.update_self, if_neg fun hc => ?_]
    rw [hc.2] at hpc
    rcases hpc with hpc | hpc <;> cases hpc
  refine ⟨rfl, hsame, ?_, fun i hik => ?_, ?_⟩
  · simp only [hk]
    exact hpc
  · change signal e.signal (Function.update σ.pc k e.pc) i = _
    rw [signal_apply, Function.update_of_ne hik, signalAt_eq he]
  · simp only [hk, signalAt_eq he]
    exact hpend

/-- A thread whose signal is still to be sent is not the one signalled now. -/
theorem Finishing.not_signalled (hi : Finishing startList σ k) (hx : ExitStep σ σ' k) {i : Road}
    (hmem : i ∈ Crossroad.pending k (σ'.pc k)) : signalAt k (σ.pc k) ≠ some i := by
  intro hc
  have hnd := hi.nodup
  rw [hx.pending, hc, Option.toList_some, List.singleton_append, List.nodup_cons] at hnd
  exact hnd.1 hmem

theorem Finishing.exit (hi : Finishing startList σ k) (hx : ExitStep σ σ' k) :
    Finishing startList σ' k := by
  have hsub : ∀ i ∈ Crossroad.pending k (σ'.pc k), i ∈ Crossroad.pending k (σ.pc k) := fun i hmem =>
    hx.pending ▸ List.mem_append_right _ hmem
  refine ⟨hx.main ▸ hi.sent, fun i => by rw [hx.accounts.P]; exact hi.passed i,
    hi.balance.same hx.accounts, hx.exiter, ?_, ?_, ?_, ?_⟩
  · exact fun hmem => hi.own (hsub k hmem)
  · have hnd := hi.nodup
    rw [hx.pending] at hnd
    exact (List.nodup_append.mp hnd).2.1
  · intro i hmem
    have hold := hsub i hmem
    rw [hx.others i fun hc => hi.own (hc ▸ hold), if_neg fun hc => hi.not_signalled hx hmem hc.1]
    exact hi.idle i hold
  · intro i hik
    rw [hx.others i hik]
    split
    · exact Or.inr rfl
    · exact hi.outgoing i hik

/-- A thread that hears its signal is released. -/
theorem ExitStep.released (hx : ExitStep σ σ' k) (hh : Heard startList σ (.thread k)) {i : Road}
    (hik : i ≠ k) (hnew : i ∉ Crossroad.pending k (σ'.pc k))
    (hold : i ∈ Crossroad.pending k (σ.pc k) ∨ (σ.pc i).released = true) :
    (σ'.pc i).released = true := by
  rw [hx.others i hik]
  split
  · rfl
  · rename_i hnot
    refine hold.resolve_left fun hmem => hnot ?_
    rw [hx.pending, List.mem_append] at hmem
    have hsig : signalAt k (σ.pc k) = some i := by simpa using hmem.resolve_right hnew
    exact ⟨hsig, hh i hsig⟩

/-- One that is not signalled any more is left alone. -/
theorem ExitStep.left_alone (hx : ExitStep σ σ' k) {i : Road} (hik : i ≠ k)
    (hnot : i ∉ Crossroad.pending k (σ.pc k)) :
    i ∉ Crossroad.pending k (σ'.pc k) ∧ σ'.pc i = σ.pc i := by
  rw [hx.pending, List.mem_append, not_or] at hnot
  refine ⟨hnot.2, ?_⟩
  rw [hx.others i hik, if_neg fun hc => hnot.1 ?_]
  rw [hc.1]
  exact List.mem_cons_self

/-- A statement of another thread at the end of the run. -/
theorem finishing_other (hi : Finishing startList σ j) (hkj : k ≠ j)
    (h : threadStep startList k rand ret σ = some σ') :
    Finishing startList σ' j ∧ σ'.pc j = σ.pc j ∧
      (∀ i, (σ.pc i).idle = true → (σ'.pc i).idle = true) ∧
      ∀ i, (σ.pc i).released = true → (σ'.pc i).released = true := by
  obtain ⟨e, he, rfl⟩ := threadStep_eq h
  have heff : e.shared = σ.shared ∧ e.signal = none ∧
      ((σ.pc k).idle = true → e.pc.idle = true) ∧
      ((σ.pc k).released = true → e.pc.released = true) := by
    rcases hi.outgoing k hkj with hp | hp
    · obtain ⟨h1, h2, h3⟩ := idle_effect hp he
      refine ⟨h1, h3, fun _ => h2, fun hr => ?_⟩
      cases hpk : σ.pc k <;> rw [hpk] at hp hr <;> cases hp <;> cases hr
    · obtain ⟨h1, h2, h3⟩ := released_effect hi.passed.total hp he
      refine ⟨h1, h3, fun hid => ?_, fun _ => h2⟩
      cases hpk : σ.pc k <;> rw [hpk] at hp hid <;> cases hp <;> cases hid
  obtain ⟨hsh, hsig, hid, hrel⟩ := heff
  have hj : Function.update σ.pc k e.pc j = σ.pc j := Function.update_of_ne (Ne.symm hkj) _ _
  have hkeep : ∀ (q : Pc → Bool), (q (σ.pc k) = true → q e.pc = true) → ∀ i,
      q (σ.pc i) = true → q (Function.update σ.pc k e.pc i) = true := by
    intro q hq i hi
    by_cases hik : i = k
    · subst hik
      rw [Function.update_self]
      exact hq hi
    · rwa [Function.update_of_ne hik]
  simp only [hsig, signal_none, hsh]
  refine ⟨⟨hi.sent, hi.passed, hi.balance, ?_, ?_, ?_, ?_, ?_⟩, hj, hkeep Pc.idle hid,
    hkeep Pc.released hrel⟩
  all_goals simp only [hj]
  · exact hi.exiter
  · exact hi.own
  · exact hi.nodup
  · exact fun i hmem => hkeep Pc.idle hid i (hi.idle i hmem)
  · exact fun i hij => (hi.outgoing i hij).imp (hkeep Pc.idle hid i) (hkeep Pc.released hrel i)

theorem Finishing.step (hi : Finishing startList σ j)
    (h : threadStep startList k rand ret σ = some σ') : Finishing startList σ' j := by
  by_cases hkj : k = j
  · subst hkj
    exact hi.exit (hi.exitStep h)
  · exact (finishing_other hi hkj h).1

/-! ### The invariant -/

/-- What a statement of `main` does. -/
theorem mainStep_cases (h : mainStep startList σ = some σ') :
    (∃ k m, m.sent = false ∧ σ.main.sent = false ∧
      σ' = { σ with pc := Function.update σ.pc k .top, main := m }) ∨
    (σ.main = .signal ∧ σ' = { σ with pc := signal startList.head? σ.pc, main := .join 0 }) ∨
    (∃ m, m.sent = true ∧ σ.main.sent = true ∧ σ' = { σ with main := m }) := by
  unfold mainStep at h
  split at h
  · rename_i k hmain
    cases h
    refine Or.inl ⟨k, _, ?_, by rw [hmain]; rfl, rfl⟩
    split <;> rfl
  · rename_i hmain
    cases h
    exact Or.inr (Or.inl ⟨hmain, rfl⟩)
  · rename_i k hmain
    split at h <;> cases h
    refine Or.inr (Or.inr ⟨_, ?_, by rw [hmain]; rfl, rfl⟩)
    split <;> rfl
  · cases h

/-- `main` matters to the phases only by its signal. -/
theorem Turning.of_main {m : MainPc} (h : Turning startList σ j) (hm : m.sent = true) :
    Turning startList { σ with main := m } j := ⟨hm, h.turn, h.idle⟩

theorem Finishing.of_main {m : MainPc} (h : Finishing startList σ k) (hm : m.sent = true) :
    Finishing startList { σ with main := m } k :=
  ⟨hm, h.passed, h.balance, h.exiter, h.own, h.nodup, h.idle, h.outgoing⟩

theorem starting_create {m : MainPc} (h : Starting σ) (hm : m.sent = false) (k : Road) :
    Starting { σ with pc := Function.update σ.pc k .top, main := m } := by
  refine ⟨hm, h.shared, fun i => ?_⟩
  exact update_idle rfl (fun i (_ : True) => h.idle i) i trivial

/-- The first vehicle of the list is on turn at the start. -/
theorem balance_initial {r : Road} {rest : List Road} :
    Balance (r :: rest) initial.shared (some r) := by
  refine ⟨?_, fun i => ?_⟩
  · simp [initial]
  · simp [initial, List.count_singleton]

/-- The first signal. -/
theorem starting_signal (hne : startList ≠ []) (h : Starting σ) (hmain : σ.main = .signal) :
    (∃ j, Turning startList { σ with pc := signal startList.head? σ.pc, main := .join 0 } j) ∨
      (Lost { σ with pc := signal startList.head? σ.pc, main := .join 0 } ∧
        ¬ Heard startList σ .main) := by
  obtain ⟨r, rest, rfl⟩ := List.exists_cons_of_ne_nil hne
  have hb : Balance (r :: rest) σ.shared (some r) := by
    rw [h.shared]
    exact balance_initial
  rw [List.head?_cons]
  rcases signal_cases (show MainPc.sent (.join 0) = true from rfl) h.idle hb with ht | ⟨hl, hw⟩
  · exact Or.inl ⟨r, ht⟩
  · refine Or.inr ⟨hl, fun hh => hw (hh r ?_)⟩
    rw [signalled, if_pos hmain, List.head?_cons]

theorem Inv.starting_of_sent (h : Inv startList σ) (hs : σ.main.sent = false) : Starting σ := by
  cases h with
  | starting h => exact h
  | turning j h => exact absurd (h.sent.symm.trans hs) (by decide)
  | lost h => exact absurd (h.sent.symm.trans hs) (by decide)
  | finishing k h => exact absurd (h.sent.symm.trans hs) (by decide)

/-- A thread that is not idle is on turn, or the run ends. -/
theorem Inv.turning_or_finishing (h : Inv startList σ) (hk : ¬ (σ.pc k).idle = true) :
    Turning startList σ k ∨ ∃ m, Finishing startList σ m := by
  cases h with
  | starting h => exact absurd (h.idle k) hk
  | turning m h =>
    obtain rfl : k = m := by_contra fun hkm => hk (h.idle k hkm)
    exact Or.inl h
  | lost h => exact absurd (h.idle k) hk
  | finishing m h => exact Or.inr ⟨m, h⟩

/-- Places of a thread after a signal was lost. -/
def Pc.late (p : Pc) : Prop := p.idle = true ∨ p.released = true ∨ p.inExitBranch = true

theorem Finishing.late (h : Finishing startList σ k) (i : Road) : (σ.pc i).late := by
  by_cases hik : i = k
  · subst hik
    rcases h.exiter with hex | hex
    · exact Or.inr (Or.inr hex)
    · rw [hex]
      exact Or.inr (Or.inl rfl)
  · exact (h.outgoing i hik).imp id Or.inl

/-- A thread that neither waits nor leaves is on turn. -/
theorem Inv.turning_of_not_late (hi : Inv startList σ) (h : ¬ (σ.pc k).late) :
    Turning startList σ k := by
  rcases hi.turning_or_finishing fun hc => h (.inl hc) with ht | ⟨m, hf⟩
  · exact ht
  · exact absurd (hf.late k) h

theorem inv_main (hne : startList ≠ []) (hi : Inv startList σ)
    (h : mainStep startList σ = some σ') : Inv startList σ' := by
  rcases mainStep_cases h with ⟨k, m, hm, hs, rfl⟩ | ⟨hmain, rfl⟩ | ⟨m, hm, hs, rfl⟩
  · exact .starting (starting_create (hi.starting_of_sent hs) hm k)
  · have hst := hi.starting_of_sent (by rw [hmain]; rfl)
    rcases starting_signal hne hst hmain with ⟨j, ht⟩ | ⟨hl, -⟩
    · exact .turning j ht
    · exact .lost hl
  · cases hi with
    | starting hi => exact absurd (hi.sent.symm.trans hs) (by decide)
    | turning j hi => exact .turning j (hi.of_main hm)
    | lost hi => exact .lost ⟨hm, hi.idle⟩
    | finishing k hi => exact .finishing k (hi.of_main hm)

theorem inv_thread (hi : Inv startList σ) (h : threadStep startList k rand ret σ = some σ') :
    Inv startList σ' := by
  cases hi with
  | starting hi => exact .starting (starting_thread hi h)
  | turning j hi =>
    rcases turning_step hi h with ⟨i, ht⟩ | ⟨hl, -⟩ | ⟨hf, -⟩
    · exact .turning i ht
    · exact .lost hl
    · exact .finishing j hf
  | lost hi => exact .lost (lost_thread hi h)
  | finishing j hi => exact .finishing j (hi.step h)

/-- **The invariant of the crossroad** holds in every run. -/
theorem inv_reachable (hne : startList ≠ []) (hr : Reachable startList σ) : Inv startList σ := by
  refine hr.invariant ?_ fun σ a σ' hi _ hstep => ?_
  · exact .starting ⟨rfl, rfl, fun _ => rfl⟩
  · cases hstep with
    | main h => exact inv_main hne hi h
    | thread k rand ret h => exact inv_thread hi h

end Crossroad
end LinuxProg
