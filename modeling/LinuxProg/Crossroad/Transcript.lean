/-
# The transcript

What the vehicle threads print. A report is one `printMovingCar` with the
`printWaitingList` after it; the transcript of a run is the list of its
reports. In every run, whoever goes on, the reports count the ticks from `1`
on, each once, and after each one every vehicle that has arrived by its tick
was shown as passed, is shown waiting, or is the next to go; a vehicle is shown
as passed once (`transcript_accounts`). This is said of the program as long as
its set stays within the 15 slots.

`Told` relates the transcript to the shared variables at the places of the
thread on turn: the last tick may still have to be shown, the last vehicle may
be in `passed`, and between its count and `passed = k` in neither.
-/
import Mathlib
import LinuxProg.Crossroad.Clock

namespace LinuxProg
namespace Crossroad

variable {startList : List Road} {sh : Shared} {σ σ' : State} {k j : Road} {rand n : ℕ}
  {ret : Option Road} {p : Pc} {e : Effect} {a : Actor}

/-- What `printMovingCar` and `printWaitingList` show: no vehicle if `car` is
`0`. -/
structure Report where
  tick : ℕ
  car : ℕ
  waiting : List Road
deriving DecidableEq, Repr

variable {log : List Report} {r : Report}

def report (sh : Shared) : Report :=
  ⟨sh.tick, sh.passed, if 1 < sh.tick then sh.arr else []⟩

/-- The calls of `printMovingCar` and `printWaitingList`. -/
def Pc.prints : Pc → Bool
  | .go | .print2 | .print3 => true
  | _ => false

def printed (σ : State) : Actor → List Report
  | .main => []
  | .thread k => if (σ.pc k).prints then [report σ.shared] else []

/-- How often a vehicle from road `i` is shown as passed. -/
def shown (log : List Report) (i : Road) : ℕ := log.countP fun r => r.car == i.val + 1

/-- The reports are those of the ticks from `1` on, and after each of them the
vehicles that have arrived by its tick were shown as passed, are shown waiting,
or are the next to go. -/
structure Accounts (startList : List Road) (log : List Report) : Prop where
  ticks : log.map Report.tick = List.range' 1 log.length
  vehicles : ∀ w r, w ++ [r] <+: log → ∃ next : Option Road, ∀ i,
    shown (w ++ [r]) i + r.waiting.count i + (if next = some i then 1 else 0) =
      (startList.take r.tick).count i

/-- The transcript at the end: all ticks are reported, every vehicle was shown
as passed, and none is shown waiting. -/
structure Complete (startList : List Road) (sh : Shared) (log : List Report) : Prop where
  length : log.length = sh.tick
  vehicles : ∀ i, shown log i = startList.count i
  empty : ∀ r, log.getLast? = some r → r.waiting = []

/-! ### One more report -/

@[simp] theorem shown_nil (i : Road) : shown [] i = 0 := rfl

theorem shown_snoc (log : List Report) (r : Report) (i : Road) :
    shown (log ++ [r]) i = shown log i + if r.car = i.val + 1 then 1 else 0 := by
  simp only [shown, List.countP_append, List.countP_singleton, beq_iff_eq]

theorem accounts_nil (startList : List Road) : Accounts startList [] where
  ticks := rfl
  vehicles w r h := absurd (List.prefix_nil.mp h) (by simp)

theorem Accounts.snoc (h : Accounts startList log) (htick : r.tick = log.length + 1)
    (hr : ∃ next : Option Road, ∀ i,
      shown (log ++ [r]) i + r.waiting.count i + (if next = some i then 1 else 0) =
        (startList.take r.tick).count i) : Accounts startList (log ++ [r]) where
  ticks := by
    rw [List.map_append, h.ticks, List.length_append, List.length_singleton, List.range'_1_concat,
      List.map_singleton, htick, Nat.add_comm 1]
  vehicles w r' hw := by
    rcases List.prefix_concat_iff.mp hw with hw | hw
    · obtain ⟨rfl, hr'⟩ := List.append_inj' hw rfl
      obtain rfl := List.singleton_inj.mp hr'
      exact hr
    · exact h.vehicles w r' hw

/-! ### The law at each place -/

/-- The last tick has not been reported. -/
def Pc.unshown : Pc → ℕ
  | .tick1 | .tick2 | .unlockExit | .broadcast _ | .exited => 0
  | _ => 1

/-- From the count of the vehicle to `passed = k`. -/
def Pc.unset : Pc → Bool
  | .add1 | .setPassed => true
  | _ => false

/-- From the report before the move to `passed = k`. -/
def Pc.clear : Pc → Bool
  | .tick1 | .count | .add1 | .setPassed => true
  | _ => false

/-- The transcript at a place of thread `j`, which is on turn. -/
structure Told (startList : List Road) (log : List Report) (j : Road) (sh : Shared) (p : Pc) :
    Prop where
  accounts : Accounts startList log
  time : log.length + p.unshown = sh.tick
  cars : ∀ i, shown log i + (if sh.passed = i.val + 1 then 1 else 0) +
    (if p.unset = true ∧ i = j then 1 else 0) = sh.P i
  cleared : p.clear = true → sh.passed = 0

/-- What a statement does to `passed`. -/
theorem passed_effect (h : threadFunction k startList rand ret sh p = some e) :
    e.shared.passed =
      if p.prints = true then 0 else if p = .setPassed then k.val + 1 else sh.passed := by
  have harrive : (arrive startList sh).passed = sh.passed := by
    unfold arrive addSet
    split <;> rfl
  rw [threadFunction_eq] at h
  cases p
  case add1 | add2 =>
    cases h
    exact harrive
  case broadcast rest => cases rest <;> cases h <;> rfl
  case dispatch item =>
    simp only [threadBody] at h
    split at h <;> cases h <;> rfl
  all_goals cases h
  all_goals rfl

/-- The reports along the statements. -/
theorem report_flow (hp : p ≠ .leave) (h : threadFunction k startList rand ret sh p = some e) :
    p.unshown + p.ticks = e.pc.unshown + (if p.prints = true then 1 else 0) ∧
      (e.pc.unset = true ↔ p = .count ∨ p = .add1) ∧
      (e.pc.clear = true → p = .go ∨ (p.clear = true ∧ p ≠ .setPassed)) := by
  rw [threadFunction_eq] at h
  cases p
  case leave => exact absurd rfl hp
  case test =>
    cases h
    simp only
    split <;> simp [Pc.unshown, Pc.ticks, Pc.prints, Pc.unset, Pc.clear]
  case findOpposite =>
    cases h
    simp only
    split <;> simp [Pc.unshown, Pc.ticks, Pc.prints, Pc.unset, Pc.clear]
  case test2 item =>
    cases h
    simp only
    split <;> simp [Pc.unshown, Pc.ticks, Pc.prints, Pc.unset, Pc.clear]
  case broadcast rest =>
    cases rest <;> cases h <;> simp [Pc.unshown, Pc.ticks, Pc.prints, Pc.unset, Pc.clear]
  case dispatch item =>
    simp only [threadBody] at h
    split at h <;> cases h <;> simp [Pc.unshown, Pc.ticks, Pc.prints, Pc.unset, Pc.clear]
  all_goals cases h
  all_goals simp [Pc.unshown, Pc.ticks, Pc.prints, Pc.unset, Pc.clear]

/-- The vehicles shown, in `passed`, or counted and in neither. -/
theorem cars_effect (ht : Told startList log j sh p) (hp : p ≠ .leave)
    (h : threadFunction j startList rand ret sh p = some e) (i : Road) :
    shown (log ++ if p.prints = true then [report sh] else []) i +
      (if e.shared.passed = i.val + 1 then 1 else 0) +
      (if e.pc.unset = true ∧ i = j then 1 else 0) = e.shared.P i := by
  have hcars := ht.cars i
  have hpassed := passed_effect h
  obtain ⟨-, hunset, -⟩ := report_flow hp h
  by_cases hcount : p = .count
  · subst hcount
    rw [threadFunction_eq] at h
    cases h
    simp only [Pc.prints, Pc.unset, Bool.false_eq_true, false_and, if_false, List.append_nil,
      true_and] at hcars ⊢
    by_cases hij : i = j
    · subst hij
      rw [Function.update_self, if_pos rfl]
      omega
    · rw [Function.update_of_ne hij, if_neg hij]
      exact hcars
  rw [effect_P hcount h, hpassed]
  by_cases hprints : p.prints = true
  · have hold : p.unset = false := by cases p <;> first | rfl | cases hprints
    have hnew : ¬ e.pc.unset = true := by
      rw [hunset]
      rintro (rfl | rfl) <;> cases hprints
    have hzero : (if e.pc.unset = true ∧ i = j then 1 else 0) = 0 := if_neg fun hc => hnew hc.1
    rw [if_pos hprints, if_pos hprints, if_neg (by omega), hzero, shown_snoc]
    rw [hold] at hcars
    simp only [Bool.false_eq_true, false_and, if_false] at hcars
    exact hcars
  rw [if_neg hprints, if_neg hprints, List.append_nil]
  by_cases hset : p = .setPassed
  · subst hset
    have hnew : ¬ e.pc.unset = true := by
      rw [hunset]
      rintro (hc | hc) <;> cases hc
    have hzero : (if e.pc.unset = true ∧ i = j then 1 else 0) = 0 := if_neg fun hc => hnew hc.1
    have hold : (if Pc.unset .setPassed = true ∧ i = j then 1 else 0) = if i = j then 1 else 0 := by
      simp [Pc.unset]
    rw [if_pos rfl, hzero, ← hcars, hold, ht.cleared rfl]
    by_cases hij : i = j
    · simp [hij]
    · have hne : ¬ j.val + 1 = i.val + 1 := fun h => hij (Fin.ext (by omega))
      rw [if_neg hne, if_neg (by omega), if_neg hij]
  · have hiff : e.pc.unset = true ↔ p.unset = true := by
      rw [hunset]
      cases p <;> simp [Pc.unset] at hcount hset ⊢
    rw [if_neg hset, ← hcars]
    simp only [hiff]

/-- **A statement of the thread on turn**, with what it prints. -/
theorem Told.step (ht : Told startList log j sh p) (hp : p ≠ .leave)
    (hsnoc : p.prints = true → Accounts startList (log ++ [report sh]))
    (h : threadFunction j startList rand ret sh p = some e) :
    Told startList (log ++ if p.prints = true then [report sh] else []) j e.shared e.pc := by
  obtain ⟨htime, -, hclear⟩ := report_flow hp h
  have htick := (clock_effect h).1
  refine ⟨?_, ?_, cars_effect ht hp h, fun hc => ?_⟩
  · by_cases hprints : p.prints = true
    · rw [if_pos hprints]
      exact hsnoc hprints
    · rw [if_neg hprints, List.append_nil]
      exact ht.accounts
  · have := ht.time
    have hlength : (if p.prints = true then [Crossroad.report sh] else []).length =
        if p.prints = true then 1 else 0 := by
      split <;> rfl
    rw [List.length_append, htick, hlength]
    omega
  · rw [passed_effect h]
    rcases hclear hc with rfl | ⟨hold, hset⟩
    · rfl
    · rw [if_neg hset, ht.cleared hold]
      split <;> rfl

/-! ### What a report accounts for -/

/-- The accounts by the tick, one vehicle a tick having arrived. -/
theorem Balance.at_tick {next : Option Road} (hb : Balance startList sh next)
    (hindx : sh.indx = min startList.length sh.tick) (i : Road) :
    sh.P i + sh.arr.count i + (if next = some i then 1 else 0) =
      (startList.take sh.tick).count i := by
  have htake : startList.take sh.indx = startList.take sh.tick := by
    rw [hindx, List.take_eq_take_iff]
    omega
  rw [← htake]
  exact hb.2 i

/-- A report of what is accounted for. -/
theorem Told.report (ht : Told startList log j sh p) (hprints : p.prints = true)
    {next : Option Road}
    (hb : ∀ i, sh.P i + sh.arr.count i + (if next = some i then 1 else 0) =
      (startList.take sh.tick).count i)
    (hfirst : sh.tick ≤ 1 → sh.arr = []) : Accounts startList (log ++ [Crossroad.report sh]) := by
  have hunset : p.unset = false := by cases p <;> first | rfl | cases hprints
  have hunshown : p.unshown = 1 := by cases p <;> first | rfl | cases hprints
  have harr : (Crossroad.report sh).waiting = sh.arr := by
    simp only [Crossroad.report]
    split
    · rfl
    · rename_i hle
      rw [hfirst (Nat.le_of_not_lt hle)]
  have htime := ht.time
  rw [hunshown] at htime
  refine ht.accounts.snoc htime.symm ⟨next, fun i => ?_⟩
  have hcars := ht.cars i
  have hcar : (if (Crossroad.report sh).car = i.val + 1 then 1 else 0) =
      if sh.passed = i.val + 1 then 1 else 0 := rfl
  rw [hunset] at hcars
  simp only [Bool.false_eq_true, false_and, if_false, Nat.add_zero] at hcars
  rw [shown_snoc, harr, hcar, hcars]
  exact hb i

/-- A report on a turn: the vehicle on turn is the next to go, or has just
passed. -/
theorem Told.report_turn (ht : Told startList log j sh p) (hturn : Turn startList j sh p)
    (hon : OnTime startList.length n sh p) (hprints : p.prints = true) :
    Accounts startList (log ++ [Crossroad.report sh]) := by
  obtain ⟨m, htick, hindx⟩ := hon.arrived
  have hhanded := hon.handed
  cases p <;> try cases hprints
  case go =>
    have hb : Balance startList sh (some j) := hturn
    have htotal := hb.total
    simp only [Pc.due, Nat.add_zero] at htick
    rw [Option.toList_some, List.length_singleton] at htotal
    refine ht.report rfl (hb.at_tick (by rw [hindx, htick])) fun hle => ?_
    apply List.length_eq_zero_iff.mp
    omega
  case print2 =>
    have hb : Balance startList sh none := hturn
    have htotal := hb.total
    simp only [Pc.due, Nat.add_zero] at htick
    simp only [Pc.counted] at hhanded
    refine ht.report rfl (hb.at_tick (by rw [hindx, htick])) fun hle => ?_
    apply List.length_eq_zero_iff.mp
    omega
  case print3 => exact absurd hturn id

/-! ### Runs -/

theorem idle_prints (h : p.idle = true) : p.prints = false := by
  cases p <;> first | rfl | cases h

theorem released_prints (h : p.released = true) : p.prints = false := by
  cases p <;> first | rfl | cases h

/-- The phases of a run, with the transcript so far. -/
inductive Logged (startList : List Road) (x : State × List Report) : Prop where
  | starting : Starting x.1 → x.2 = [] → Logged startList x
  | turning (j : Road) : Turning startList x.1 j → Told startList x.2 j x.1.shared (x.1.pc j) →
      Logged startList x
  | lost : Lost x.1 → Accounts startList x.2 → Logged startList x
  | ending (k : Road) : Finishing startList x.1 k → x.1.pc k = .print3 → x.1.shared.arr = [] →
      Told startList x.2 k x.1.shared .print3 → Logged startList x
  | finished (k : Road) : Finishing startList x.1 k → x.1.pc k ≠ .print3 →
      Accounts startList x.2 → Complete startList x.1.shared x.2 → Logged startList x

theorem Logged.accounts {x : State × List Report} (hx : Logged startList x) :
    Accounts startList x.2 := by
  cases hx with
  | starting _ hlog => exact hlog ▸ accounts_nil startList
  | turning j _ ht => exact ht.accounts
  | lost _ ha => exact ha
  | ending k _ _ _ ht => exact ht.accounts
  | finished k _ _ ha _ => exact ha

/-- The turn goes to a thread that has just been woken. -/
theorem woken_of_other {i : Road} (hi : Turning startList σ k)
    (h : threadStep startList k rand ret σ = some σ') (ht : Turning startList σ' i) (hik : i ≠ k) :
    σ'.pc i = .woken := by
  obtain ⟨e, -, rfl⟩ := threadStep_eq h
  have hact := ht.not_idle
  simp only [signal_apply, Function.update_of_ne hik] at hact ⊢
  split
  · rfl
  · rename_i hno
    rw [if_neg hno] at hact
    exact absurd (hi.idle i hik) hact

theorem Told.handed (h : Told startList log k sh .woken) (i : Road) :
    Told startList log i sh .woken where
  accounts := h.accounts
  time := h.time
  cars r := by simpa [Pc.unset] using h.cars r
  cleared hc := h.cleared hc

/-- A place that is not a wait is not changed by a signal. -/
theorem pc_of_print3 (h : threadStep startList k rand ret σ = some σ')
    (he : threadFunction k startList rand ret σ.shared (σ.pc k) = some e) (hpc : e.pc = .print3) :
    σ'.pc k = .print3 := by
  obtain ⟨e', he', rfl⟩ := threadStep_eq h
  obtain rfl : e' = e := Option.some.inj (he'.symm.trans he)
  simp only [signal_apply, Function.update_self, hpc, reduceCtorEq, and_false, if_false]

/-- The thread on turn takes a step. -/
theorem logged_turn (hi : Turning startList σ k) (ht : Told startList log k σ.shared (σ.pc k))
    (hon : OnTime startList.length n σ.shared (σ.pc k))
    (h : threadStep startList k rand ret σ = some σ') :
    Logged startList (σ', log ++ printed σ (.thread k)) := by
  have hleave : σ.pc k ≠ .leave := by
    intro hc
    have hact := hi.turn.active
    rw [hc] at hact
    cases hact
  have hQ : ∀ e, threadFunction k startList rand ret σ.shared (σ.pc k) = some e →
      Told startList (log ++ printed σ (.thread k)) k e.shared e.pc ∧
        (e.pc = .print3 → σ'.pc k = .print3) := fun e he =>
    ⟨ht.step hleave (ht.report_turn hi.turn hon) he, pc_of_print3 h he⟩
  have hwoken : ∀ sh, (Told startList (log ++ printed σ (.thread k)) k sh .unlock ∧
      (Pc.unlock = .print3 → σ'.pc k = .print3)) →
      Told startList (log ++ printed σ (.thread k)) k sh .woken ∧
        (Pc.woken = .print3 → σ'.pc k = .print3) := fun sh h =>
    ⟨⟨h.1.accounts, h.1.time, h.1.cars, fun hc => h.1.cleared hc⟩, fun hc => by cases hc⟩
  rcases Turning.law (Q := fun sh p => Told startList (log ++ printed σ (.thread k)) k sh p ∧
    (p = .print3 → σ'.pc k = .print3)) hwoken hi hQ h with ⟨i, hti, htold, -⟩ | ⟨hl, -, htold, -⟩ |
    ⟨hf, harr, htold, hpc⟩
  · refine .turning i hti ?_
    by_cases hik : i = k
    · subst hik
      exact htold
    · have hw := woken_of_other hi h hti hik
      simp only [hw] at htold ⊢
      exact htold.handed i
  · exact .lost hl htold.accounts
  · exact .ending k hf (hpc rfl) harr htold

/-- At the end of the run the other threads print nothing and change nothing. -/
theorem Finishing.quiet (hi : Finishing startList σ j) (hkj : k ≠ j)
    (h : threadStep startList k rand ret σ = some σ') :
    printed σ (.thread k) = [] ∧ σ'.shared = σ.shared ∧ σ'.pc j = σ.pc j := by
  refine ⟨?_, ?_, (finishing_other hi hkj h).2.1⟩
  · have hprints : (σ.pc k).prints = false := (hi.outgoing k hkj).elim idle_prints released_prints
    simp [printed, hprints]
  · obtain ⟨e, he, rfl⟩ := threadStep_eq h
    rcases hi.outgoing k hkj with hp | hp
    · exact (idle_effect hp he).1
    · exact (released_effect hi.passed.total hp he).1

/-- The last report. -/
theorem logged_last (hi : Finishing startList σ k) (hpc : σ.pc k = .print3)
    (harr : σ.shared.arr = []) (ht : Told startList log k σ.shared .print3)
    (htick : startList.length ≤ σ.shared.tick)
    (h : threadStep startList k rand ret σ = some σ') :
    Logged startList (σ', log ++ printed σ (.thread k)) := by
  have hfin := hi.step h
  have hb : ∀ i, σ.shared.P i + σ.shared.arr.count i + (if (none : Option Road) = some i then 1 else 0) =
      (startList.take σ.shared.tick).count i := by
    intro i
    rw [List.take_of_length_le htick, harr, hi.passed i]
    simp
  have hprinted : printed σ (.thread k) = [report σ.shared] := by simp [printed, hpc, Pc.prints]
  have he : threadFunction k startList rand ret σ.shared .print3 =
      some ⟨{ σ.shared with passed := 0 }, .unlockExit, none⟩ := by
    rw [threadFunction_eq]
    rfl
  have htold : Told startList (log ++ [report σ.shared]) k { σ.shared with passed := 0 } .unlockExit :=
    ht.step (by decide) (fun _ => ht.report rfl hb fun _ => harr) he
  have hσ' : σ' = { σ with
      shared := { σ.shared with passed := 0 }, pc := Function.update σ.pc k .unlockExit } := by
    rw [threadStep, hpc, he] at h
    exact (Option.some.inj h).symm
  have hpc' : σ'.pc k = .unlockExit := by
    rw [hσ']
    exact Function.update_self _ _ _
  rw [hprinted]
  refine .finished k hfin (by rw [hpc']; decide) htold.accounts ⟨?_, fun i => ?_, fun r hr => ?_⟩
  · rw [hσ']
    exact htold.time
  · have hcars := htold.cars i
    simp only [Pc.unset, Bool.false_eq_true, false_and, if_false, Nat.add_zero] at hcars
    rw [if_neg (Nat.succ_ne_zero _).symm] at hcars
    exact hcars.trans (hi.passed i)
  · rw [List.getLast?_concat, Option.some.injEq] at hr
    rw [← hr]
    simp [report, harr]

/-- The exit branch after its report. -/
theorem exit_quiet (hp : p.inExitBranch = true) (hne : p ≠ .print3)
    (h : threadFunction k startList rand ret sh p = some e) :
    p.prints = false ∧ e.shared = sh ∧ e.pc ≠ .print3 := by
  rw [threadFunction_eq] at h
  cases p <;> cases hp
  case print3 => exact absurd rfl hne
  case unlockExit =>
    cases h
    exact ⟨rfl, rfl, by simp⟩
  case broadcast rest =>
    cases rest <;> cases h <;> exact ⟨rfl, rfl, by simp⟩

/-- After its report the exit branch prints nothing and changes nothing. -/
theorem Finishing.after_report (hi : Finishing startList σ k) (hpc : σ.pc k ≠ .print3)
    (h : threadStep startList k rand ret σ = some σ') :
    printed σ (.thread k) = [] ∧ σ'.shared = σ.shared ∧ σ'.pc k ≠ .print3 := by
  obtain ⟨e, he, rfl⟩ := threadStep_eq h
  have hexit : (σ.pc k).inExitBranch = true := by
    refine hi.exiter.resolve_right fun hex => ?_
    rw [hex, threadFunction_eq] at he
    cases he
  obtain ⟨hprints, hshared, hpc'⟩ := exit_quiet hexit hpc he
  refine ⟨by simp [printed, hprints], hshared, ?_⟩
  simp only [signal_apply, Function.update_self]
  split
  · simp
  · exact hpc'

theorem Clocked.on_turn (hc : Clocked startList (σ, n)) (hi : Turning startList σ k) :
    OnTime startList.length n σ.shared (σ.pc k) := by
  cases hc with
  | starting hs _ => exact absurd (hs.idle k) hi.not_idle
  | turning j hj hon =>
    obtain rfl : k = j := hi.unique hj
    exact hon
  | lost hl => exact absurd (hl.idle k) hi.not_idle
  | finishing j hf _ _ => exact absurd hi hf.not_turning

/-- All vehicles have arrived when the run ends. -/
theorem Clocked.length_le_tick (hc : Clocked startList (σ, n)) (hi : Finishing startList σ k)
    (hpc : σ.pc k = .print3) : startList.length ≤ σ.shared.tick := by
  have hidle : ¬ (σ.pc k).idle = true := by
    rw [hpc]
    decide
  cases hc with
  | starting hs _ => exact absurd (hs.idle k) hidle
  | turning j hj _ => exact absurd hj hi.not_turning
  | lost hl => exact absurd (hl.idle k) hidle
  | finishing j _ htime hhanded =>
    simp only at htime hhanded
    omega

theorem logged_thread (hx : Logged startList (σ, log)) (hc : Clocked startList (σ, n))
    (h : threadStep startList k rand ret σ = some σ') :
    Logged startList (σ', log ++ printed σ (.thread k)) := by
  have hidle : ∀ i, (σ.pc i).idle = true → printed σ (.thread i) = [] := fun i hi => by
    simp [printed, idle_prints hi]
  cases hx with
  | starting hi hlog =>
    rw [hidle k (hi.idle k), List.append_nil]
    exact .starting (starting_thread hi h) hlog
  | turning j hi ht =>
    by_cases hkj : k = j
    · subst hkj
      exact logged_turn hi ht (hc.on_turn hi) h
    · rw [hidle k (hi.idle k hkj), List.append_nil]
      obtain ⟨q, hq, rfl⟩ := idle_step (hi.idle k hkj) h
      refine .turning j (hi.other hkj hq) ?_
      simp only [Function.update_of_ne (Ne.symm hkj)]
      exact ht
  | lost hi ha =>
    rw [hidle k (hi.idle k), List.append_nil]
    exact .lost (lost_thread hi h) ha
  | ending j hi hpc harr ht =>
    by_cases hkj : k = j
    · subst hkj
      exact logged_last hi hpc harr ht (hc.length_le_tick hi hpc) h
    · obtain ⟨hprinted, hshared, hpc'⟩ := hi.quiet hkj h
      rw [hprinted, List.append_nil]
      exact .ending j (hi.step h) (hpc'.trans hpc) (hshared ▸ harr) (hshared ▸ ht)
  | finished j hi hpc ha hcomplete =>
    by_cases hkj : k = j
    · subst hkj
      obtain ⟨hprinted, hshared, hpc'⟩ := hi.after_report hpc h
      rw [hprinted, List.append_nil]
      exact .finished k (hi.step h) hpc' ha (hshared ▸ hcomplete)
    · obtain ⟨hprinted, hshared, hpc'⟩ := hi.quiet hkj h
      rw [hprinted, List.append_nil]
      exact .finished j (hi.step h) (by rwa [hpc']) ha (hshared ▸ hcomplete)

theorem logged_main (hne : startList ≠ []) (hi : Inv startList σ) (hx : Logged startList (σ, log))
    (h : mainStep startList σ = some σ') : Logged startList (σ', log) := by
  have hlog : Starting σ → log = [] := by
    intro hst
    cases hx with
    | starting _ hlog => exact hlog
    | turning j hj _ => exact absurd (hst.idle j) hj.not_idle
    | lost hl _ => exact absurd (hl.sent.symm.trans hst.sent) (by decide)
    | ending k hf _ _ _ => exact absurd (hf.sent.symm.trans hst.sent) (by decide)
    | finished k hf _ _ _ => exact absurd (hf.sent.symm.trans hst.sent) (by decide)
  rcases mainStep_cases h with ⟨k, m, hm, hs, rfl⟩ | ⟨hmain, rfl⟩ | ⟨m, hm, hs, rfl⟩
  · have hst := hi.starting_of_sent hs
    exact .starting (starting_create hst hm k) (hlog hst)
  · have hst := hi.starting_of_sent (by rw [hmain]; rfl)
    obtain rfl := hlog hst
    rcases starting_signal hne hst hmain with ⟨j, ht⟩ | ⟨hl, -⟩
    · refine .turning j ht ?_
      simp only [woken_of_turning hst.idle ht, hst.shared]
      refine ⟨accounts_nil startList, rfl, fun i => ?_, fun _ => rfl⟩
      simp [initial, Pc.unset]
    · exact .lost hl (accounts_nil startList)
  · cases hx with
    | starting hst _ => exact absurd (hst.sent.symm.trans hs) (by decide)
    | turning j hj ht => exact .turning j (hj.of_main hm) ht
    | lost hl ha => exact .lost ⟨hm, hl.idle⟩ ha
    | ending k hf hpc harr ht => exact .ending k (hf.of_main hm) hpc harr ht
    | finished k hf hpc ha hcomplete => exact .finished k (hf.of_main hm) hpc ha hcomplete

/-- The runs with what they print. -/
abbrev PrintStep (startList : List Road) :
    State × List Report → Actor → State × List Report → Prop :=
  Transition.LogStep printed (Step startList)

theorem logged_reach (hne : startList ≠ []) {x : State × List Report}
    (hx : Transition.Reach (initial, []) (PrintStep startList) (fun _ _ => True) x) :
    Logged startList x := by
  have h : Reachable startList x.1 ∧ Logged startList x := by
    refine hx.invariant (P := fun x : State × List Report =>
      Reachable startList x.1 ∧ Logged startList x) ?_ ?_
    · exact ⟨.init, .starting ⟨rfl, rfl, fun _ => rfl⟩ rfl⟩
    rintro ⟨σ, l⟩ a ⟨σ', l'⟩ ⟨hr, hl⟩ - ⟨hstep, hl'⟩
    obtain rfl : l' = l ++ printed σ a := hl'
    obtain ⟨n, hn⟩ := hr.exists_sum handsOver
    refine ⟨hr.step trivial hstep, ?_⟩
    cases hstep with
    | main h =>
      rw [show printed σ .main = [] from rfl, List.append_nil]
      exact logged_main hne (inv_reachable hne hr) hl h
    | thread k rand ret h => exact logged_thread hl (clocked_reach hne hn) h
  exact h.2

/-- **The transcript accounts for the vehicles.** In every run, in whatever
order the threads go on, with the waiting set within its 15 slots, the reports
are those of the ticks from `1` on, each once and in order; after each of them
every vehicle that has arrived by its tick was shown as passed once, is shown
waiting, or is the only one of which neither holds, the next to go. When `main` comes to its summary, its total of
ticks is the number of reports, every vehicle was shown as passed, and none is
shown waiting in the last report. -/
theorem transcript_accounts (hne : startList ≠ []) (x : State × List Report)
    (hx : Transition.Reach (initial, []) (PrintStep startList) (fun _ _ => True) x) :
    Accounts startList x.2 ∧ (x.1.main = .done → Complete startList x.1.shared x.2) := by
  have hl := logged_reach hne hx
  refine ⟨hl.accounts, fun hdone => ?_⟩
  have hex : x.1.pc 0 = .exited := joined_reachable hx.of_log (by rw [hdone]; rfl)
  have hidle : ¬ (x.1.pc 0).idle = true := by
    rw [hex]
    decide
  cases hl with
  | starting hst _ => exact absurd (hst.idle 0) hidle
  | turning j hj _ =>
    obtain rfl : (0 : Road) = j := by_contra fun h => hidle (hj.idle 0 h)
    have hact := hj.turn.active
    rw [hex] at hact
    cases hact
  | lost hl _ => exact absurd (hl.idle 0) hidle
  | ending k hf hpc _ _ =>
    -- nobody was signalled by the exit branch yet
    by_cases hk : (0 : Road) = k
    · rw [← hk, hex] at hpc
      cases hpc
    · refine absurd (hf.idle 0 ?_) hidle
      rw [hpc]
      exact (others_spec k).2.2 0 hk
  | finished k _ _ _ hcomplete => exact hcomplete

/-- A step with what it prints, with `rand()` and the uninitialised value fixed. -/
def printNext (startList : List Road) (x : State × List Report) (a : Actor) :
    Option (State × List Report) :=
  (exec startList [a] x.1).map fun σ => (σ, x.2 ++ printed x.1 a)

theorem printNext_step {x y : State × List Report} (h : printNext startList x a = some y) :
    PrintStep startList x a y := by
  obtain ⟨σ, hσ, rfl⟩ := Option.map_eq_some_iff.mp h
  exact ⟨step_of_exec hσ, rfl⟩

/-- A vehicle from each of two opposite roads. -/
theorem transcript_accounts_two : ∃ x, Transition.Reach (initial, []) (PrintStep [0, 2])
    (fun _ _ => True) x ∧ x.2 = [⟨1, 0, []⟩, ⟨2, 1, []⟩, ⟨3, 3, []⟩, ⟨4, 0, []⟩] ∧
      Complete [0, 2] x.1.shared x.2 := by
  have hany : (Transition.runAlong (printNext [0, 2]) (fun _ _ => True)
      (([.main, .main, .main, .main, .thread 0, .thread 0, .thread 1, .thread 1, .thread 2,
      .thread 2, .thread 3, .thread 3, .main] : List Actor) ++
      List.replicate 13 (Actor.thread 0) ++ List.replicate 19 (Actor.thread 2) ++
      List.replicate 3 (Actor.thread 0) ++ List.replicate 3 (Actor.thread 1) ++
      List.replicate 3 (Actor.thread 3) ++ List.replicate 4 Actor.main) (initial, [])).any
      (fun x => x.1.main = .done ∧ x.2 = [⟨1, 0, []⟩, ⟨2, 1, []⟩, ⟨3, 3, []⟩, ⟨4, 0, []⟩]) = true := by
    decide +kernel
  obtain ⟨x, hx, hfin⟩ := (Option.any_eq_true _ _).mp hany
  obtain ⟨hdone, hlog⟩ := of_decide_eq_true hfin
  have hr : Transition.Reach (initial, []) (PrintStep [0, 2]) (fun _ _ => True) x :=
    Transition.Reach.runAlong (fun _ _ _ => printNext_step) .init hx
  exact ⟨x, hr, hlog, (transcript_accounts (by decide) x hr).2 hdone⟩

end Crossroad
end LinuxProg
