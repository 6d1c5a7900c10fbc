/-
# Spurious wakeups

`pthread_cond_wait` may return although nobody has sent a signal. The only test
after it is whether all vehicles have passed, so a thread that returns while
vehicles are left moves one of its own that nobody has handed to it. Here a run
may contain such returns (`LooseStep`), and a thread is marked from a return of
this kind to its test. As long as a marked thread finds all vehicles passed at
its test (`Justified`), and the set stays within its slots, no vehicle is counted
that has not arrived (`counted_of_justified`).
-/
import Mathlib
import LinuxProg.Crossroad.Wakeup

namespace LinuxProg
namespace Crossroad

variable {startList : List Road} {sh : Shared} {k j : Road} {rand : ℕ} {ret : Option Road} {p : Pc}
  {e : Effect}

/-! ### Runs with spurious wakeups -/

/-- A state with the threads that have left `pthread_cond_wait` without a signal
and are before their test. -/
structure Loose where
  state : State
  stray : Road → Bool

/-- A statement, or a return of `pthread_cond_wait` on its own. -/
inductive Cause where
  | step (a : Actor)
  | spurious (k : Road)
deriving DecidableEq, Repr

/-- Between the return of `pthread_cond_wait` and the test. -/
def Pc.returned (p : Pc) : Bool := p == .woken || p == .test

/-- A mark lasts until the test. -/
def keepMarks (stray : Road → Bool) (pc : Road → Pc) : Road → Bool :=
  fun i => stray i && (pc i).returned

inductive LooseStep (startList : List Road) (s : Loose) : Cause → Loose → Prop where
  | step {a : Actor} {σ' : State} :
      Step startList s.state a σ' →
      LooseStep startList s (.step a) ⟨σ', keepMarks s.stray σ'.pc⟩
  | spurious (k : Road) :
      s.state.pc k = .waiting →
      LooseStep startList s (.spurious k)
        ⟨{ s.state with pc := Function.update s.state.pc k .woken },
          Function.update s.stray k true⟩

def looseInitial : Loose := ⟨initial, fun _ => false⟩

/-- A thread that has left `pthread_cond_wait` without a signal finds all
vehicles passed at its test. -/
def Justified (startList : List Road) (s : Loose) : Cause → Prop
  | .step (.thread k) => s.state.pc k = .test → s.stray k = true →
      s.state.shared.total = startList.length
  | .step .main => True
  | .spurious _ => True

/-- The statement, if it writes to the set, writes to a slot of it. -/
def Loose.InSlots (startList : List Road) (s : Loose) : Cause → Prop
  | .step a => Crossroad.InSlots startList s.state a
  | .spurious _ => True

def JustifiedInSlots (startList : List Road) (s : Loose) (c : Cause) : Prop :=
  Justified startList s c ∧ s.InSlots startList c

/-! ### Threads that are out of the way -/

/-- Idle, returned without a signal, or on the way out after all have passed. -/
def Aside (startList : List Road) (sh : Shared) (stray : Bool) (p : Pc) : Prop :=
  p.idle = true ∨ (stray = true ∧ p.returned = true) ∨
    (p.released = true ∧ sh.total = startList.length)

theorem Pc.returned_iff : p.returned = true ↔ p = .woken ∨ p = .test := by
  unfold Pc.returned
  rw [Bool.or_eq_true, beq_iff_eq, beq_iff_eq]

/-- Such a thread touches nothing and stays out of the way. -/
theorem aside_effect {stray : Bool} (ha : Aside startList sh stray p)
    (hok : p = .test → stray = true → sh.total = startList.length)
    (h : threadFunction k startList rand ret sh p = some e) :
    e.shared = sh ∧ e.signal = none ∧ Aside startList sh (stray && e.pc.returned) e.pc := by
  rcases ha with hp | ⟨hs, hp⟩ | ⟨hp, htotal⟩
  · obtain ⟨hsh, hpc, hsig⟩ := idle_effect hp h
    exact ⟨hsh, hsig, .inl hpc⟩
  · rcases Pc.returned_iff.mp hp with rfl | rfl
    · rw [threadFunction_eq] at h
      cases h
      refine ⟨rfl, rfl, .inr (.inl ⟨?_, rfl⟩)⟩
      rw [hs]
      rfl
    · have htotal := hok rfl hs
      obtain ⟨hsh, hpc, hsig⟩ := released_effect htotal rfl h
      exact ⟨hsh, hsig, .inr (.inr ⟨hpc, htotal⟩)⟩
  · obtain ⟨hsh, hpc, hsig⟩ := released_effect htotal hp h
    exact ⟨hsh, hsig, .inr (.inr ⟨hpc, htotal⟩)⟩

theorem Aside.of_total {sh' : Shared} {stray : Bool} (ha : Aside startList sh stray p)
    (htotal : sh.total = startList.length → sh'.total = startList.length) :
    Aside startList sh' stray p :=
  ha.imp id fun ha => ha.imp id fun h => ⟨h.1, htotal h.2⟩

/-- The mark of a thread that does not move stays as long as it matters. -/
theorem Aside.keep {stray : Bool} (ha : Aside startList sh stray p) :
    Aside startList sh (stray && p.returned) p := by
  rcases ha with hp | ⟨hs, hp⟩ | h
  · exact .inl hp
  · exact .inr (.inl ⟨by rw [hs, hp]; rfl, hp⟩)
  · exact .inr (.inr h)

theorem Aside.late {stray : Bool} (ha : Aside startList sh stray p) : p.late := by
  rcases ha with hp | ⟨-, hp⟩ | ⟨hp, -⟩
  · exact .inl hp
  · rcases Pc.returned_iff.mp hp with rfl | rfl
    · exact .inr (.inl rfl)
    · exact .inr (.inl rfl)
  · exact .inr (.inl hp)

/-! ### Counted vehicles -/

/-- No vehicle is counted that is not on the list. -/
def Within (startList : List Road) (sh : Shared) : Prop := ∀ i, sh.P i ≤ startList.count i

theorem Within.total (h : Within startList sh) : sh.total ≤ startList.length := by
  have h0 := h 0
  have h1 := h 1
  have h2 := h 2
  have h3 := h 3
  have hs := sum_count startList
  rw [Shared.total]
  omega

theorem Balance.within {turn : Option Road} (h : Balance startList sh turn) :
    Within startList sh := by
  intro i
  have hi := h.2 i
  have hle : (startList.take sh.indx).count i ≤ startList.count i :=
    (List.take_sublist _ _).count_le i
  omega

theorem Turn.within (h : Turn startList j sh p) : Within startList sh := by
  obtain ⟨turn, hb⟩ := h.balance
  exact hb.within

/-- After all have passed the thread on turn counts nobody. -/
theorem Turn.total (ht : Turn startList j sh p)
    (h : threadFunction j startList rand ret sh p = some e)
    (htotal : sh.total = startList.length) : e.shared.total = startList.length := by
  by_cases hp : p = .count
  · subst hp
    exact absurd htotal (Nat.ne_of_lt (Balance.total_lt ht))
  · rw [total_of_P (effect_P hp h), htotal]

/-! ### The invariant -/

/-- The phases of `Turns`, with threads that are out of the way instead of idle ones. -/
inductive LoosePhase (startList : List Road) (s : Loose) : Prop where
  | starting : s.state.main.sent = false → s.state.shared = initial.shared →
      (∀ i, Aside startList s.state.shared (s.stray i) (s.state.pc i)) → LoosePhase startList s
  | turning (j : Road) : s.state.main.sent = true →
      Turn startList j s.state.shared (s.state.pc j) → s.stray j = false →
      (∀ i, i ≠ j → Aside startList s.state.shared (s.stray i) (s.state.pc i)) →
      LoosePhase startList s
  | lost : s.state.main.sent = true →
      (∀ i, Aside startList s.state.shared (s.stray i) (s.state.pc i)) → LoosePhase startList s
  | finishing : s.state.main.sent = true → s.state.shared.total = startList.length →
      (∀ i, (s.state.pc i).late) → LoosePhase startList s

structure LooseInv (startList : List Road) (s : Loose) : Prop where
  within : Within startList s.state.shared
  marked : ∀ i, s.stray i = true → (s.state.pc i).returned = true
  phase : LoosePhase startList s

/-- With all threads out of the way a signal gives the turn to a thread, or is lost. -/
theorem loose_signal {stray : Road → Bool} {pc : Road → Pc} {m : MainPc} {r : Road}
    (hm : m.sent = true) (haside : ∀ i, Aside startList sh (stray i) (pc i))
    (hr : pc r = .waiting → stray r = false) (hb : Balance startList sh (some r)) :
    LoosePhase startList ⟨⟨sh, signal (some r) pc, m⟩, keepMarks stray (signal (some r) pc)⟩ := by
  by_cases hw : pc r = .waiting
  · rw [signal_heard hw]
    refine .turning r hm ?_ ?_ ?_
    · show Turn startList r sh (Function.update pc r .woken r)
      rw [Function.update_self]
      exact hb
    · show (stray r && _) = false
      rw [hr hw]
      rfl
    · intro i hi
      show Aside startList sh (stray i && _) (Function.update pc r .woken i)
      rw [Function.update_of_ne hi]
      exact (haside i).keep
  · rw [signal_unheard hw]
    exact .lost hm fun i => (haside i).keep

/-- A thread that is out of the way moves: the others see nothing of it. -/
theorem aside_update {stray : Road → Bool} {pc : Road → Pc} {S : Road → Prop} {q : Pc}
    (haside : ∀ i, S i → Aside startList sh (stray i) (pc i))
    (hq : Aside startList sh (stray k && q.returned) q) :
    ∀ i, S i → Aside startList sh (keepMarks stray (Function.update pc k q) i)
      (Function.update pc k q i) := by
  intro i hi
  unfold keepMarks
  by_cases hik : i = k
  · rw [hik, Function.update_self]
    exact hq
  · rw [Function.update_of_ne hik]
    exact (haside i hi).keep

/-- A thread inside `pthread_cond_wait` is not marked. -/
theorem not_stray {stray : Road → Bool} {pc : Road → Pc} {r : Road}
    (hmarked : ∀ i, stray i = true → (pc i).returned = true) (hw : pc r = .waiting) :
    stray r = false := by
  by_contra hs
  have hret := hmarked r (Bool.not_eq_false _ ▸ hs)
  rw [hw] at hret
  cases hret

/-- A statement of the thread on turn. -/
theorem loose_turn {s : Loose} {σ' : State}
    (hmarked : ∀ i, s.stray i = true → (s.state.pc i).returned = true) (hsent : s.state.main.sent = true)
    (hturn : Turn startList j s.state.shared (s.state.pc j)) (hstray : s.stray j = false)
    (haside : ∀ i, i ≠ j → Aside startList s.state.shared (s.stray i) (s.state.pc i))
    (h : threadStep startList j rand ret s.state = some σ') :
    LoosePhase startList ⟨σ', keepMarks s.stray σ'.pc⟩ := by
  obtain ⟨e, he, rfl⟩ := threadStep_eq h
  have haside' : ∀ i, i ≠ j → Aside startList e.shared (s.stray i) (s.state.pc i) :=
    fun i hi => (haside i hi).of_total (hturn.total he)
  have hrest : ∀ i, i ≠ j → Function.update s.state.pc j e.pc i = s.state.pc i :=
    fun i hi => Function.update_of_ne hi _ _
  rcases turn_effect hturn he with ⟨hsig, ht⟩ | ⟨r, hsig, hrj, hpc, hb⟩ | ⟨hsig, hpc, hall, -⟩
  · rw [hsig]
    refine .turning j hsent ?_ ?_ ?_
    · show Turn startList j e.shared (Function.update s.state.pc j e.pc j)
      rw [Function.update_self]
      exact ht
    · show (s.stray j && _) = false
      rw [hstray]
      rfl
    · intro i hi
      show Aside startList e.shared (s.stray i && (Function.update s.state.pc j e.pc i).returned)
        (Function.update s.state.pc j e.pc i)
      rw [hrest i hi]
      exact (haside' i hi).keep
  · rw [hsig]
    refine loose_signal hsent ?_ ?_ hb
    · intro i
      by_cases hij : i = j
      · rw [hij, Function.update_self, hpc]
        exact .inl rfl
      · rw [hrest i hij]
        exact haside' i hij
    · intro hw
      rw [hrest r hrj] at hw
      exact not_stray hmarked hw
  · rw [hsig]
    refine .finishing hsent hall.total ?_
    intro i
    show (Function.update s.state.pc j e.pc i).late
    by_cases hij : i = j
    · rw [hij, Function.update_self, hpc]
      exact .inr (.inr rfl)
    · rw [hrest i hij]
      exact (haside i hij).late

/-- A statement of a thread that is out of the way. -/
theorem aside_step {s : Loose} {σ' : State}
    (ha : Aside startList s.state.shared (s.stray k) (s.state.pc k))
    (hok : Justified startList s (.step (.thread k)))
    (h : threadStep startList k rand ret s.state = some σ') :
    ∃ q, σ' = { s.state with pc := Function.update s.state.pc k q } ∧
      Aside startList s.state.shared (s.stray k && q.returned) q := by
  obtain ⟨e, he, rfl⟩ := threadStep_eq h
  obtain ⟨hsh, hsig, hq⟩ := aside_effect ha hok he
  exact ⟨e.pc, by rw [hsh, hsig]; rfl, hq⟩

/-- A statement after all have passed. -/
theorem late_step {σ σ' : State} (htotal : σ.shared.total = startList.length)
    (hlate : ∀ i, (σ.pc i).late) (h : threadStep startList k rand ret σ = some σ') :
    σ'.shared.P = σ.shared.P ∧ ∀ i, (σ'.pc i).late := by
  obtain ⟨e, he, rfl⟩ := threadStep_eq h
  have heff : e.shared.P = σ.shared.P ∧ e.pc.late := by
    rcases hlate k with hp | hp | hp
    · obtain ⟨hsh, hpc, -⟩ := idle_effect hp he
      exact ⟨by rw [hsh], .inl hpc⟩
    · obtain ⟨hsh, hpc, -⟩ := released_effect htotal hp he
      exact ⟨by rw [hsh], .inr (.inl hpc)⟩
    · obtain ⟨hsame, hpc, -⟩ := exit_effect hp he
      refine ⟨hsame.P, ?_⟩
      rcases hpc with hpc | hpc
      · exact .inr (.inr hpc)
      · rw [hpc]
        exact .inr (.inl rfl)
  refine ⟨heff.1, fun i => ?_⟩
  show (signal e.signal (Function.update σ.pc k e.pc) i).late
  rw [signal_apply]
  split
  · exact .inr (.inl rfl)
  · by_cases hik : i = k
    · rw [hik, Function.update_self]
      exact heff.2
    · rw [Function.update_of_ne hik]
      exact hlate i

theorem Within.of_P {sh' : Shared} (h : Within startList sh) (hP : sh'.P = sh.P) :
    Within startList sh' := fun i => by rw [hP]; exact h i

/-- A turn counts a vehicle of the list only. -/
theorem turn_within {σ σ' : State} (hturn : Turn startList j σ.shared (σ.pc j))
    (h : threadStep startList j rand ret σ = some σ') : Within startList σ'.shared := by
  obtain ⟨e, he, rfl⟩ := threadStep_eq h
  rcases turn_effect hturn he with ⟨-, ht⟩ | ⟨r, -, -, -, hb⟩ | ⟨-, -, hall, -⟩
  · exact ht.within
  · exact hb.within
  · exact fun i => (hall i).le

theorem loose_thread {s : Loose} {σ' : State} (hi : LooseInv startList s)
    (hok : Justified startList s (.step (.thread k)))
    (h : threadStep startList k rand ret s.state = some σ') :
    Within startList σ'.shared ∧ LoosePhase startList ⟨σ', keepMarks s.stray σ'.pc⟩ := by
  rcases hi.phase with ⟨hsent, hsh, haside⟩ | ⟨j, hsent, hturn, hstray, haside⟩ | ⟨hsent, haside⟩ |
    ⟨hsent, htotal, hlate⟩
  · obtain ⟨q, rfl, hq⟩ := aside_step (haside k) hok h
    refine ⟨hi.within, .starting hsent hsh fun i => ?_⟩
    exact aside_update (fun i (_ : True) => haside i) hq i trivial
  · by_cases hkj : k = j
    · subst hkj
      exact ⟨turn_within hturn h, loose_turn hi.marked hsent hturn hstray haside h⟩
    · obtain ⟨q, rfl, hq⟩ := aside_step (haside k hkj) hok h
      refine ⟨hi.within, .turning j hsent ?_ ?_ (aside_update haside hq)⟩
      · show Turn startList j s.state.shared (Function.update s.state.pc k q j)
        rw [Function.update_of_ne (Ne.symm hkj)]
        exact hturn
      · show (s.stray j && _) = false
        rw [hstray]
        rfl
  · obtain ⟨q, rfl, hq⟩ := aside_step (haside k) hok h
    refine ⟨hi.within, .lost hsent fun i => ?_⟩
    exact aside_update (fun i (_ : True) => haside i) hq i trivial
  · obtain ⟨hP, hlate'⟩ := late_step htotal hlate h
    have hmain : σ'.main = s.state.main := by
      obtain ⟨e, -, rfl⟩ := threadStep_eq h
      rfl
    refine ⟨hi.within.of_P hP, .finishing ?_ ?_ hlate'⟩
    · show σ'.main.sent = true
      rw [hmain]
      exact hsent
    · show σ'.shared.total = _
      rw [total_of_P hP, htotal]

/-- `main`: a thread is created, the first signal is sent, or a thread is joined. -/
theorem loose_main {s : Loose} {σ' : State} (hne : startList ≠ []) (hi : LooseInv startList s)
    (h : mainStep startList s.state = some σ') :
    Within startList σ'.shared ∧ LoosePhase startList ⟨σ', keepMarks s.stray σ'.pc⟩ := by
  have hstart : s.state.main.sent = false → s.state.shared = initial.shared ∧
      ∀ i, Aside startList s.state.shared (s.stray i) (s.state.pc i) := by
    intro hs
    rcases hi.phase with ⟨-, hsh, haside⟩ | ⟨j, hsent, -⟩ | ⟨hsent, -⟩ | ⟨hsent, -⟩
    · exact ⟨hsh, haside⟩
    all_goals exact absurd (hsent.symm.trans hs) (by decide)
  rcases mainStep_cases h with ⟨k, m, hm, hs, rfl⟩ | ⟨hmain, rfl⟩ | ⟨m, hm, hs, rfl⟩
  · obtain ⟨hsh, haside⟩ := hstart hs
    refine ⟨hi.within, .starting hm hsh fun i => ?_⟩
    exact aside_update (fun i (_ : True) => haside i) (.inl rfl) i trivial
  · obtain ⟨hsh, haside⟩ := hstart (by rw [hmain]; rfl)
    obtain ⟨r, rest, rfl⟩ := List.exists_cons_of_ne_nil hne
    refine ⟨hi.within, loose_signal rfl haside (not_stray hi.marked) ?_⟩
    rw [hsh]
    exact balance_initial
  · refine ⟨hi.within, ?_⟩
    rcases hi.phase with ⟨hsent, -⟩ | ⟨j, hsent, hturn, hstray, haside⟩ | ⟨hsent, haside⟩ |
      ⟨hsent, htotal, hlate⟩
    · exact absurd (hsent.symm.trans hs) (by decide)
    · refine .turning j hm hturn ?_ fun i hij => (haside i hij).keep
      show (s.stray j && _) = false
      rw [hstray]
      rfl
    · exact .lost hm fun i => (haside i).keep
    · exact .finishing hm htotal hlate

/-- A thread leaves `pthread_cond_wait` on its own. -/
theorem loose_spurious {s : Loose} (hi : LooseInv startList s) (hw : s.state.pc k = .waiting) :
    LoosePhase startList ⟨{ s.state with pc := Function.update s.state.pc k .woken },
      Function.update s.stray k true⟩ := by
  have haside : ∀ {S : Road → Prop},
      (∀ i, S i → Aside startList s.state.shared (s.stray i) (s.state.pc i)) →
      ∀ i, S i → Aside startList s.state.shared (Function.update s.stray k true i)
        (Function.update s.state.pc k .woken i) := by
    intro S ha i hi
    by_cases hik : i = k
    · rw [hik, Function.update_self, Function.update_self]
      exact .inr (.inl ⟨rfl, rfl⟩)
    · rw [Function.update_of_ne hik, Function.update_of_ne hik]
      exact ha i hi
  rcases hi.phase with ⟨hsent, hsh, ha⟩ | ⟨j, hsent, hturn, hstray, ha⟩ | ⟨hsent, ha⟩ |
    ⟨hsent, htotal, hlate⟩
  · exact .starting hsent hsh fun i => haside (fun i (_ : True) => ha i) i trivial
  · have hjk : j ≠ k := by
      rintro rfl
      have hact := hturn.active
      rw [hw] at hact
      cases hact
    refine .turning j hsent ?_ ?_ (haside ha)
    · show Turn startList j s.state.shared (Function.update s.state.pc k .woken j)
      rw [Function.update_of_ne hjk]
      exact hturn
    · show Function.update s.stray k true j = false
      rw [Function.update_of_ne hjk]
      exact hstray
  · exact .lost hsent fun i => haside (fun i (_ : True) => ha i) i trivial
  · refine .finishing hsent htotal fun i => ?_
    show (Function.update s.state.pc k .woken i).late
    by_cases hik : i = k
    · rw [hik, Function.update_self]
      exact .inr (.inl rfl)
    · rw [Function.update_of_ne hik]
      exact hlate i

theorem loose_inv (hne : startList ≠ []) {s : Loose}
    (hr : Transition.Reach looseInitial (LooseStep startList) (JustifiedInSlots startList) s) :
    LooseInv startList s := by
  refine hr.invariant ?_ fun s c s' hi hok hstep => ?_
  · refine ⟨fun i => Nat.zero_le _, fun i hi => ?_, .starting rfl rfl fun i => .inl rfl⟩
    cases hi
  · cases hstep with
    | @step a σ' h =>
      have hmarked : ∀ i, keepMarks s.stray σ'.pc i = true → (σ'.pc i).returned = true :=
        fun i hi => (Bool.and_eq_true_iff.mp hi).2
      cases h with
      | main h =>
        obtain ⟨hwithin, hphase⟩ := loose_main hne hi h
        exact ⟨hwithin, hmarked, hphase⟩
      | thread k rand ret h =>
        obtain ⟨hwithin, hphase⟩ := loose_thread hi hok.1 h
        exact ⟨hwithin, hmarked, hphase⟩
    | spurious k hw =>
      refine ⟨hi.within, fun i hm => ?_, loose_spurious hi hw⟩
      change Function.update s.stray k true i = true at hm
      show (Function.update s.state.pc k .woken i).returned = true
      by_cases hik : i = k
      · rw [hik, Function.update_self]
        rfl
      · rw [Function.update_of_ne hik] at hm ⊢
        exact hi.marked i hm

/-- **Spurious wakeups.** In every run in which each thread that has left
`pthread_cond_wait` without a signal finds all vehicles passed at its test, and
each write to the set is to one of its slots, no road counts more vehicles than
come from it. -/
theorem counted_of_justified (hne : startList ≠ []) {s : Loose}
    (hr : Transition.Reach looseInitial (LooseStep startList) (JustifiedInSlots startList) s) :
    (∀ k, s.state.shared.P k ≤ startList.count k) ∧ s.state.shared.total ≤ startList.length :=
  ⟨(loose_inv hne hr).within, (loose_inv hne hr).within.total⟩

/-- A step, or a return of `pthread_cond_wait`, with the random values fixed. -/
def looseNext (startList : List Road) (s : Loose) : Cause → Option Loose
  | .step a => (exec startList [a] s.state).map fun σ' => ⟨σ', keepMarks s.stray σ'.pc⟩
  | .spurious k =>
    if s.state.pc k = .waiting then
      some ⟨{ s.state with pc := Function.update s.state.pc k .woken },
        Function.update s.stray k true⟩
    else none

theorem looseNext_step {s s' : Loose} {c : Cause} (h : looseNext startList s c = some s') :
    LooseStep startList s c s' := by
  cases c with
  | step a =>
    obtain ⟨σ', hσ', rfl⟩ := Option.map_eq_some_iff.mp h
    exact .step (step_of_exec hσ')
  | spurious k =>
    simp only [looseNext] at h
    by_cases hw : s.state.pc k = .waiting
    · rw [if_pos hw] at h
      cases h
      exact .spurious k hw
    · rw [if_neg hw] at h
      cases h

instance (s : Loose) : ∀ c, Decidable (Justified startList s c)
  | .step (.thread _) => inferInstanceAs (Decidable (_ → _ → _))
  | .step .main => inferInstanceAs (Decidable True)
  | .spurious _ => inferInstanceAs (Decidable True)

instance (s : Loose) : ∀ c, Decidable (s.InSlots startList c)
  | .step a => inferInstanceAs (Decidable (Crossroad.InSlots startList s.state a))
  | .spurious _ => inferInstanceAs (Decidable True)

instance (s : Loose) (c : Cause) : Decidable (JustifiedInSlots startList s c) :=
  inferInstanceAs (Decidable (_ ∧ _))

/-- One vehicle from the first road. After it has passed thread 2 leaves its wait
without a signal, and exits. -/
theorem counted_of_justified_one : ∃ s, Transition.Reach looseInitial (LooseStep [0])
    (JustifiedInSlots [0]) s ∧ s.state.pc 1 = .exited ∧
      (∀ k, s.state.shared.P k ≤ List.count k [0]) ∧ s.state.shared.total ≤ 1 := by
  have hany : (Transition.runAlong (looseNext [0]) (JustifiedInSlots [0])
      (([.main, .main, .main, .main, .thread 0, .thread 0, .thread 1, .thread 1, .main] :
        List Actor).map Cause.step ++ List.replicate 6 (Cause.step (.thread 0)) ++
        [Cause.spurious 1] ++ List.replicate 3 (Cause.step (.thread 1))) looseInitial).any
      (fun s => s.state.pc 1 = .exited) = true := by
    decide +kernel
  obtain ⟨s, hs, hex⟩ := (Option.any_eq_true _ _).mp hany
  have hr := Transition.Reach.runAlong (fun _ _ _ => looseNext_step) .init hs
  exact ⟨s, hr, of_decide_eq_true hex, counted_of_justified (by decide) hr⟩

/-- One vehicle from the first road. Thread 2 leaves its wait without a signal
before anybody has passed: a vehicle from the second road is counted. -/
theorem spurious_counts : ∃ s, Transition.Reach looseInitial (LooseStep [0]) (fun _ _ => True) s ∧
    ¬ ((∀ k, s.state.shared.P k ≤ List.count k [0]) ∧ s.state.shared.total ≤ 1) := by
  have hany : (Transition.runAlong (looseNext [0]) (fun _ _ => True)
      (([.main, .main, .main, .main, .thread 1, .thread 1] : List Actor).map Cause.step ++
        [Cause.spurious 1] ++ List.replicate 5 (Cause.step (.thread 1))) looseInitial).any
      (fun s => s.state.shared.P 1 = 1) = true := by
    decide +kernel
  obtain ⟨s, hs, hP⟩ := (Option.any_eq_true _ _).mp hany
  have hr := Transition.Reach.runAlong (fun _ _ _ => looseNext_step) .init hs
  refine ⟨s, hr, fun hc => ?_⟩
  have h1 := hc.1 1
  rw [of_decide_eq_true hP] at h1
  exact absurd h1 (by decide)

end Crossroad
end LinuxProg
