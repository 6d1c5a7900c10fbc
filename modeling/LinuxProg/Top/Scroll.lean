/-
# Scrolling in top

The event loop of `top.c`: a turn takes a key, and if it was an arrow key or
three seconds have passed it reads the processes again, sorts and prints them.
The keys move `row` and `col` before the list is read again.

`row` is held against the old number of processes, and `col` only from below.
So a turn that prints is right exactly if the processes it finds are at least
as many as the row it scrolls to, and fit `proc_list`, and the column it
scrolls to is at most 138 or no row is printed (`turn_ok_iff`); in a session of
such turns every call of `print` is (`session_ok`).
-/
import Mathlib
import LinuxProg.Lib.Transition
import LinuxProg.Top.Layout

namespace LinuxProg
namespace Top

open Transition

variable {P : Type*}

inductive Key
  | left | right | up | down | other
  deriving DecidableEq

/-- A turn of the loop: the key read, whether `now - before >= 3`, and the
processes `search_process` finds if it is called. -/
structure Turn (P : Type*) where
  key : Key
  late : Bool
  found : List (MyProc P)

/-- `row`, `col` and the table; `shown` if the last turn called `print`. -/
structure Session (P : Type*) where
  row : ℤ
  col : ℤ
  table : Table P
  shown : Bool

/-- The `switch` over the key: `row`, `col` and `check`. -/
def press (procCnt : ℕ) (key : Key) (row col : ℤ) : ℤ × ℤ × Bool :=
  match key with
  | .left => (row, if col - 1 < 0 then 0 else col - 1, true)
  | .right => (row, Int.bmod (col + 1) (2 ^ 32), true)
  | .up => (if row - 1 < 0 then 0 else row - 1, col, true)
  | .down => (if row + 1 > procCnt then procCnt else row + 1, col, true)
  | .other => (row, col, false)

/-- One turn; more processes than `proc_list` has cells are stored outside. -/
def turn [LT P] [DecidableLT P] (s : Session P) (t : Turn P) : Option (Session P) :=
  let (row, col, check) := press s.table.procList.length t.key s.row s.col
  if check || t.late then (sortCpu t.found).map fun table => ⟨row, col, table, true⟩
  else some ⟨row, col, s.table, false⟩

/-- The state after the first `print`. -/
def begin [LT P] [DecidableLT P] (found : List (MyProc P)) : Option (Session P) :=
  (sortCpu found).map fun table => ⟨0, 0, table, true⟩

/-- The call of `print` in this state is right: `row` and `col` are, and every
command is printed from an address inside `cmd`. -/
structure Session.Sound (s : Session P) : Prop where
  row_nonneg : 0 ≤ s.row
  row_le : s.row ≤ s.table.procList.length
  col_nonneg : 0 ≤ s.col
  inside : ∀ maxCmd, ∀ o ∈ printRows s.table s.row.toNat s.col maxCmd, 0 ≤ o.2 ∧ o.2 < bigLen

/-- What was printed last, if the last turn printed, was right. -/
def Session.Ok (s : Session P) : Prop := s.shown = true → s.Sound

/-! ### The condition -/

/-- How far a key scrolls. -/
def Key.drow : Key → ℤ
  | .up => -1
  | .down => 1
  | _ => 0

def Key.dcol : Key → ℤ
  | .left => -1
  | .right => 1
  | _ => 0

/-- The row and the column the key scrolls to, kept at least zero and the row
at most the old number of processes. -/
def Session.nextRow (s : Session P) (key : Key) : ℤ :=
  max 0 (min s.table.procList.length (s.row + key.drow))

def Session.nextCol (s : Session P) (key : Key) : ℤ := max 0 (s.col + key.dcol)

/-- If the turn prints, it finds at least as many processes as the row it
scrolls to and at most `MAX_LEN`; the column stays in `int`, and is at most 138
unless no row is printed. -/
def TurnFits (s : Session P) (t : Turn P) : Prop :=
  t.key ≠ .other ∨ t.late = true →
    t.found.length ≤ maxLen ∧ s.nextRow t.key ≤ t.found.length ∧ s.nextCol t.key < 2 ^ 31 ∧
      (s.nextCol t.key ≤ 138 ∨ (t.found.length : ℤ) ≤ s.nextRow t.key)

/-! ### One turn -/

/-- `row` and `col` between turns. -/
structure Session.Inv (s : Session P) : Prop where
  row_nonneg : 0 ≤ s.row
  row_le : s.row ≤ s.table.procList.length
  col_nonneg : 0 ≤ s.col
  col_lt : s.col < 2 ^ 31

theorem press_spec {s : Session P} (h : s.Inv) (key : Key) :
    ∃ col, press s.table.procList.length key s.row s.col =
        (s.nextRow key, col, decide (key ≠ .other)) ∧
      (s.nextCol key < 2 ^ 31 → col = s.nextCol key) ∧ (¬ s.nextCol key < 2 ^ 31 → col < 0) := by
  obtain ⟨hr, hn, hc, hlt⟩ := h
  have hwrap : Int.bmod (s.col + 1) (2 ^ 32) = if s.col + 1 < 2 ^ 31 then s.col + 1
      else s.col + 1 - 2 ^ 32 := by
    rw [Int.bmod_def]
    split <;> split <;> omega
  cases key with
  | left =>
    refine ⟨_, Prod.ext ?_ rfl, ?_⟩ <;>
      simp only [press, Session.nextRow, Session.nextCol, Key.drow, Key.dcol]
    · omega
    · split <;> omega
  | right =>
    refine ⟨_, Prod.ext ?_ rfl, ?_⟩ <;>
      simp only [press, Session.nextRow, Session.nextCol, Key.drow, Key.dcol]
    · omega
    · rw [hwrap]
      split <;> omega
  | up =>
    refine ⟨_, Prod.ext ?_ rfl, ?_⟩ <;>
      simp only [press, Session.nextRow, Session.nextCol, Key.drow, Key.dcol]
    · split <;> omega
    · omega
  | down =>
    refine ⟨_, Prod.ext ?_ rfl, ?_⟩ <;>
      simp only [press, Session.nextRow, Session.nextCol, Key.drow, Key.dcol]
    · split <;> omega
    · omega
  | other =>
    refine ⟨_, Prod.ext ?_ rfl, ?_⟩ <;>
      simp only [press, Session.nextRow, Session.nextCol, Key.drow, Key.dcol]
    · omega
    · omega

/-- A `print` with `row` and `col` at least zero. -/
theorem sound_iff (row col : ℤ) (t : Table P) (shown : Bool) (hrow : 0 ≤ row) :
    (⟨row, col, t, shown⟩ : Session P).Sound ↔ row ≤ t.procList.length ∧ 0 ≤ col ∧
      (col ≤ 138 ∨ (t.procList.length : ℤ) ≤ row) := by
  have hinside : (∀ maxCmd, ∀ o ∈ printRows t row.toNat col maxCmd, 0 ≤ o.2 ∧ o.2 < bigLen) ↔
      col ≤ 138 ∨ (t.procList.length : ℤ) ≤ row := by
    have hbig : (bigLen : ℤ) = 1024 := rfl
    have hrows := fun maxCmd => printRows_forall t row.toNat col maxCmd
      fun o => 0 ≤ o.2 ∧ o.2 < bigLen
    rw [forall_congr' hrows]
    simp only [forall_const, hbig]
    split <;> omega
  constructor
  · rintro ⟨-, hle, hcol, hin⟩
    exact ⟨hle, hcol, hinside.mp hin⟩
  · rintro ⟨hle, hcol, hin⟩
    exact ⟨hrow, hle, hcol, hinside.mpr hin⟩

section Turns

variable [LT P] [DecidableLT P]

theorem sortCpu_procList {found : List (MyProc P)} {t : Table P} (h : sortCpu found = some t) :
    found.length ≤ maxLen ∧ t.procList = found := by
  unfold sortCpu at h
  split at h
  · cases h
    exact ⟨‹_›, rfl⟩
  · cases h

theorem sortCpu_isSome {found : List (MyProc P)} (h : found.length ≤ maxLen) :
    ∃ t, sortCpu found = some t := ⟨_, if_pos h⟩

/-- What a turn does: it prints the processes found, or changes nothing. -/
theorem turn_cases {s : Session P} (h : s.Inv) (t : Turn P) :
    (t.key ≠ .other ∨ t.late = true) ∧
        (∃ col, (s.nextCol t.key < 2 ^ 31 → col = s.nextCol t.key) ∧
          (¬ s.nextCol t.key < 2 ^ 31 → col < 0) ∧
          turn s t = (sortCpu t.found).map fun table => ⟨s.nextRow t.key, col, table, true⟩) ∨
      ¬ (t.key ≠ .other ∨ t.late = true) ∧
        turn s t = some ⟨s.row, s.col, s.table, false⟩ := by
  obtain ⟨col, heq, hcol⟩ := press_spec h t.key
  by_cases hp : t.key ≠ .other ∨ t.late = true
  · refine Or.inl ⟨hp, col, hcol.1, hcol.2, ?_⟩
    have hcheck : (decide (t.key ≠ .other) || t.late) = true := by simpa using hp
    rw [turn, heq]
    simp only [hcheck, if_true]
  · refine Or.inr ⟨hp, ?_⟩
    obtain ⟨hkey, hlate⟩ := not_or.mp hp
    rw [turn, not_not.mp hkey]
    simp [press, hlate]

/-- **One turn**: what it prints is right exactly if the turn fits. -/
theorem turn_ok_iff {s : Session P} (h : s.Inv) (t : Turn P) :
    (∃ s', turn s t = some s' ∧ s'.Ok) ↔ TurnFits s t := by
  have hrow : 0 ≤ s.nextRow t.key := le_max_left _ _
  rcases turn_cases h t with ⟨hp, col, hcol, hneg, heq⟩ | ⟨hp, heq⟩
  · have hsome : (∃ s', turn s t = some s' ∧ s'.Ok) ↔ ∃ table, sortCpu t.found = some table ∧
        (⟨s.nextRow t.key, col, table, true⟩ : Session P).Sound := by
      rw [heq]
      constructor
      · rintro ⟨s', hs', hok⟩
        obtain ⟨table, htable, rfl⟩ := Option.map_eq_some_iff.mp hs'
        exact ⟨table, htable, hok rfl⟩
      · rintro ⟨table, htable, hs⟩
        exact ⟨_, by rw [htable]; rfl, fun _ => hs⟩
    rw [hsome, TurnFits, forall_prop_of_true hp]
    constructor
    · rintro ⟨table, htable, hs⟩
      obtain ⟨hlen, hlist⟩ := sortCpu_procList htable
      obtain ⟨h1, h2, h3⟩ := (sound_iff _ _ _ _ hrow).mp hs
      rw [hlist] at h1 h3
      have hlt : s.nextCol t.key < 2 ^ 31 := by
        by_contra hge
        have := hneg hge
        omega
      rw [hcol hlt] at h3
      exact ⟨hlen, h1, hlt, h3⟩
    · rintro ⟨hlen, h1, hlt, h3⟩
      obtain ⟨table, htable⟩ := sortCpu_isSome hlen
      refine ⟨table, htable, (sound_iff _ _ _ _ hrow).mpr ?_⟩
      rw [(sortCpu_procList htable).2, hcol hlt]
      exact ⟨h1, le_max_left _ _, h3⟩
  · exact iff_of_true ⟨_, heq, fun hs => absurd hs (by simp)⟩ fun h => absurd h hp

/-- A turn that fits keeps `row` and `col` in their ranges. -/
theorem turn_inv {s s' : Session P} {t : Turn P} (h : s.Inv) (hfits : TurnFits s t)
    (hs : turn s t = some s') : s'.Inv := by
  rcases turn_cases h t with ⟨hp, col, hcol, -, heq⟩ | ⟨-, heq⟩
  · rw [heq] at hs
    obtain ⟨table, htable, rfl⟩ := Option.map_eq_some_iff.mp hs
    obtain ⟨-, hlist⟩ := sortCpu_procList htable
    obtain ⟨-, hrow, hlt, -⟩ := hfits hp
    obtain rfl := hcol hlt
    exact ⟨le_max_left _ _, by simpa only [hlist] using hrow, le_max_left _ _, hlt⟩
  · rw [heq] at hs
    cases hs
    exact ⟨h.row_nonneg, h.row_le, h.col_nonneg, h.col_lt⟩

/-! ### Sessions -/

theorem begin_inv {found : List (MyProc P)} {s : Session P} (h : begin found = some s) :
    s.Inv ∧ s.Ok := by
  obtain ⟨table, -, rfl⟩ := Option.map_eq_some_iff.mp h
  refine ⟨⟨le_rfl, Int.natCast_nonneg _, le_rfl, (by decide : (0 : ℤ) < 2 ^ 31)⟩, fun _ => ?_⟩
  exact (sound_iff _ _ _ _ le_rfl).mpr ⟨Int.natCast_nonneg _, le_rfl, Or.inl (by decide)⟩

/-- **Sessions of turns that fit** print right at every call, and the next turn
prints right exactly if it fits. -/
theorem session_ok {found : List (MyProc P)} {s₀ s : Session P} (h0 : begin found = some s₀)
    (hs : Reach s₀ (fun s t s' => turn s t = some s') TurnFits s) :
    s.Ok ∧ ∀ t, (∃ s', turn s t = some s' ∧ s'.Ok) ↔ TurnFits s t := by
  have hinv : s.Inv ∧ s.Ok := by
    refine Reach.invariant (P := fun s => s.Inv ∧ s.Ok) hs (begin_inv h0) fun s t s' h hfits hstep => ?_
    obtain ⟨s'', hs'', hok⟩ := (turn_ok_iff h.1 t).mpr hfits
    rw [hstep] at hs''
    cases hs''
    exact ⟨turn_inv h.1 hfits hstep, hok⟩
  exact ⟨hinv.2, turn_ok_iff hinv.1⟩

end Turns

/-- Two processes, both scrolled away, and one of them gone. -/
theorem session_shrinks : ∃ s₀ s : Session ℕ, begin [bare 1 0, bare 2 0] = some s₀ ∧
    Reach s₀ (fun s t s' => turn s t = some s') (fun _ _ => True) s ∧ ¬ s.Ok := by
  refine ⟨_, _, rfl, .step (.step (.step .init trivial
    (a := ⟨.down, false, [bare 1 0, bare 2 0]⟩) rfl) trivial
    (a := ⟨.down, false, [bare 1 0, bare 2 0]⟩) rfl) trivial
    (a := ⟨.other, true, [bare 1 0]⟩) rfl, fun h => ?_⟩
  exact absurd (h rfl).row_le (by decide)

/-- Two processes and the first row scrolled away. -/
theorem session_ok_two : ∃ s₀ s : Session ℕ, begin [bare 1 0, bare 2 0] = some s₀ ∧
    Reach s₀ (fun s t s' => turn s t = some s') TurnFits s ∧ s.row = 1 ∧
    s.Ok ∧ ∀ t, (∃ s', turn s t = some s' ∧ s'.Ok) ↔ TurnFits s t := by
  have hfits : ∀ s₀ : Session ℕ, begin [bare 1 0, bare 2 0] = some s₀ →
      TurnFits s₀ ⟨.down, false, [bare 1 0, bare 2 0]⟩ := by
    rintro s₀ h
    cases h
    exact fun _ => ⟨by decide, by decide, by decide, by decide⟩
  obtain ⟨s₀, h0⟩ : ∃ s₀ : Session ℕ, begin [bare 1 0, bare 2 0] = some s₀ := ⟨_, rfl⟩
  have hinit : Reach s₀ (fun s t s' => turn s t = some s') TurnFits s₀ := .init
  cases h0
  have hrun := hinit.step (hfits _ rfl) rfl
  exact ⟨_, _, rfl, hrun, rfl, session_ok (show begin [bare 1 0, bare 2 0] = some _ from rfl) hrun⟩

end Top
end LinuxProg
