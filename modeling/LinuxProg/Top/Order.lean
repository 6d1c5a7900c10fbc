/-
# The order of top's processes

`compare_cpu` of `top.c` puts a process after those that use more of the
processor and, of equal ones, after those with a smaller number; `sort_cpu`
sorts pointers into `proc_list` by it.

On percentages in a linear order this is the order by a key (`compareCpu_iff`),
and the bubble sort of pointers gives the one sorted arrangement of the records
(`sortCpu_sorted`). The percentage `add_proc_list` computes is `0/0` for a
process without processor time that started in the second of the uptime:
neither `<` nor `>` holds then and the process numbers decide, which does not
go together with the percentages of two others when it lies between their
numbers (`compareCpu_order_iff`).
-/
import Mathlib
import LinuxProg.Lib.Bubble
import LinuxProg.Top.Process

namespace LinuxProg
namespace Top

open Bubble
open Exchange (sorted_unique)

def maxLen : ℕ := 4096

/-- A record of `proc_list`, the fields that are compared or printed; `P` is
the type of the percentages. -/
structure MyProc (P : Type*) where
  pid : ℕ
  userName : Str
  cpuPercent : P
  memPercent : P
  vsz : ℕ
  rss : ℕ
  shr : ℕ
  priority : ℤ
  nice : ℤ
  stat : Str
  time : Str
  cmd : Str
  cmdOption : Str

variable {P : Type*}

def compareCpu [LT P] [DecidableLT P] (a b : MyProc P) : Bool :=
  if a.cpuPercent < b.cpuPercent then true
  else if b.cpuPercent < a.cpuPercent then false
  else if b.pid < a.pid then true
  else false

/-- `proc_list[0..proc_cnt)` and as many pointers into it, `sorted`. -/
structure Table (P : Type*) where
  procList : List (MyProc P)
  sorted : List (Fin procList.length)
  full : sorted.length = procList.length

/-- The records `sorted` points to. -/
def Table.records (t : Table P) : List (MyProc P) := t.sorted.map t.procList.get

/-- `sort_cpu`; `sorted` has `MAX_LEN` cells. -/
def sortCpu [LT P] [DecidableLT P] (procList : List (MyProc P)) : Option (Table P) :=
  if procList.length ≤ maxLen then
    some ⟨procList, bubbleFrom (fun i j => compareCpu (procList.get i) (procList.get j))
      (procList.length - 1) (List.finRange procList.length), by
        rw [length_bubbleFrom, List.length_finRange]⟩
  else none

/-! ### Sorting -/

/-- Before another: more percent, or as much and the smaller number. -/
def Before [LT P] (a b : MyProc P) : Prop :=
  b.cpuPercent < a.cpuPercent ∨ a.cpuPercent = b.cpuPercent ∧ a.pid < b.pid

/-- The key of a record: falling percentage, then rising number. -/
def rank (a : MyProc P) : Pᵒᵈ ×ₗ ℕ := toLex (OrderDual.toDual a.cpuPercent, a.pid)

theorem pid_of_rank {a b : MyProc P} (h : rank a = rank b) : a.pid = b.pid :=
  congrArg (fun x => (ofLex x).2) h

theorem rank_inj {l : List (MyProc P)} (h : (l.map MyProc.pid).Nodup) :
    ∀ a ∈ l, ∀ b ∈ l, rank a = rank b → a = b :=
  fun _ ha _ hb hab => List.inj_on_of_nodup_map h ha hb (pid_of_rank hab)

theorem records_perm {procList : List (MyProc P)} {sorted : List (Fin procList.length)}
    (h : sorted.Perm (List.finRange procList.length)) :
    (sorted.map procList.get).Perm procList := by
  have := h.map procList.get
  rwa [List.map_get_finRange] at this

section Linear

variable [LinearOrder P]

theorem rank_lt_iff (a b : MyProc P) : rank a < rank b ↔ Before a b := by
  rw [rank, rank, Prod.Lex.toLex_lt_toLex]
  rfl

theorem compareCpu_iff (a b : MyProc P) : compareCpu a b = true ↔ rank b < rank a := by
  rw [rank_lt_iff, Before, compareCpu]
  split
  · rename_i h
    simp [h]
  · rename_i h
    split
    · rename_i h'
      simp [h, h'.ne]
    · rename_i h'
      have heq : b.cpuPercent = a.cpuPercent := le_antisymm (not_lt.mp h) (not_lt.mp h')
      simp [heq]

/-- The pointers are those to the records, in the order of the keys. -/
theorem sortCpu_spec {procList : List (MyProc P)} (h : procList.length ≤ maxLen) :
    ∃ sorted full, sortCpu procList = some ⟨procList, sorted, full⟩ ∧
      sorted.Perm (List.finRange procList.length) ∧
      (sorted.map procList.get).Pairwise fun a b => rank a ≤ rank b := by
  have hkey : ∀ i j : Fin procList.length,
      compareCpu (procList.get i) (procList.get j) = true ↔
        rank (procList.get j) < rank (procList.get i) := fun i j => compareCpu_iff _ _
  obtain ⟨hperm, hp⟩ := @bubbleSort_sorted _ _ _ _ (fun i => rank (procList.get i)) hkey
    (List.finRange procList.length)
  rw [List.length_finRange] at hperm hp
  exact ⟨_, _, if_pos h, hperm, List.pairwise_map.mpr hp⟩

/-- **`sort_cpu` sorts**: the pointers are a permutation of the addresses of
the records, in falling percentage and rising number, `proc_list` stays, and
the records come in the same order however they are stored. -/
theorem sortCpu_sorted (procList : List (MyProc P)) (hlen : procList.length ≤ maxLen)
    (hpid : (procList.map MyProc.pid).Nodup) :
    ∃ t, sortCpu procList = some t ∧ t.procList = procList ∧
      t.sorted.Perm (List.finRange t.procList.length) ∧ t.records.Pairwise Before ∧
      ∀ procList' : List (MyProc P), procList'.Perm procList →
        ∃ t', sortCpu procList' = some t' ∧ t'.records = t.records := by
  obtain ⟨sorted, full, heq, hperm, hp⟩ := sortCpu_spec hlen
  have hrec := records_perm hperm
  have hpid' : ((sorted.map procList.get).map MyProc.pid).Nodup :=
    (hrec.map MyProc.pid).nodup_iff.mpr hpid
  have hinj := rank_inj hpid'
  refine ⟨_, heq, rfl, hperm, ?_, ?_⟩
  · -- different numbers, so different keys
    have hne : (sorted.map procList.get).Pairwise fun a b => a.pid ≠ b.pid :=
      List.pairwise_map.mp hpid'
    refine (hp.and hne).imp fun {a b} hab => (rank_lt_iff a b).mp (lt_of_le_of_ne hab.1 ?_)
    exact fun h => hab.2 (pid_of_rank h)
  · intro procList' hperm'
    obtain ⟨sorted', full', heq', hp', hs'⟩ := sortCpu_spec (hperm'.length_eq.trans_le hlen)
    refine ⟨_, heq', ?_⟩
    have h := hrec.trans (hperm'.symm.trans (records_perm hp').symm)
    exact (sorted_unique h hp hs' hinj).symm

end Linear

/-- A record with a number and a percentage. -/
def bare (pid : ℕ) (percent : P) : MyProc P :=
  ⟨pid, [], percent, percent, 0, 0, 0, 0, 0, [], [], [], []⟩

theorem sortCpu_sorted_three : ∃ t, sortCpu [bare 3 1, bare 9 5, bare 2 5] = some t ∧
    t.procList = [bare 3 1, bare 9 5, bare 2 5] ∧
    t.sorted.Perm (List.finRange t.procList.length) ∧ t.records.Pairwise Before ∧
    ∀ procList' : List (MyProc ℕ), procList'.Perm [bare 3 1, bare 9 5, bare 2 5] →
      ∃ t', sortCpu procList' = some t' ∧ t'.records = t.records :=
  sortCpu_sorted [bare 3 1, bare 9 5, bare 2 5] (by decide) (by decide)

/-! ### Percentages -/

/-- A `long double` quotient of two natural numbers: a number, infinity, or
the undefined value of `0/0`. -/
inductive Percent
  | undefined
  | value (x : WithTop ℚ)

/-- `<` is false of the undefined value. -/
instance : LT Percent where
  lt
    | .value x, .value y => x < y
    | _, _ => False

instance : DecidableLT Percent
  | .value x, .value y => inferInstanceAs (Decidable (x < y))
  | .undefined, .undefined => isFalse not_false
  | .undefined, .value _ => isFalse not_false
  | .value _, .undefined => isFalse not_false

/-- `(total_time / hertz) / (long double)(uptime - (start_time / hertz)) * 100` -/
def cpuPercent (hertz uptime utime stime startTime : UInt64) : Percent :=
  let totalTime := utime + stime
  let n := (totalTime / hertz).toNat
  let d := (uptime - startTime / hertz).toNat
  if d = 0 then (if n = 0 then .undefined else .value ⊤) else .value ((n / d * 100 : ℚ) : WithTop ℚ)

/-- A record as `add_proc_list` leaves it, with the times its percentage is
computed from. -/
structure Usage (hertz uptime : UInt64) where
  proc : MyProc Percent
  utime : UInt64
  stime : UInt64
  startTime : UInt64
  started : startTime.toNat ≤ uptime.toNat * hertz.toNat + hertz.toNat - 1
  percent : proc.cpuPercent = cpuPercent hertz uptime utime stime startTime

variable {hertz uptime : UInt64}

/-- No second of processor time, and started in the second of the uptime. -/
def Usage.Blank (u : Usage hertz uptime) : Prop :=
  (u.utime + u.stime) / hertz = 0 ∧ u.startTime / hertz = uptime

theorem Usage.blank_iff (u : Usage hertz uptime) : u.proc.cpuPercent = .undefined ↔ u.Blank := by
  have hn : ((u.utime + u.stime) / hertz).toNat = 0 ↔ (u.utime + u.stime) / hertz = 0 :=
    UInt64.toNat_inj (b := 0)
  have hd : (uptime - u.startTime / hertz).toNat = 0 ↔ u.startTime / hertz = uptime := by
    rw [← UInt64.toNat_zero, UInt64.toNat_inj, UInt64.sub_eq_iff_eq_add, UInt64.zero_add, eq_comm]
  rw [u.percent, cpuPercent, Usage.Blank, ← hn, ← hd]
  split
  · rename_i h
    split <;> simp_all
  · rename_i h
    simp [h]

theorem value_lt {x y : WithTop ℚ} : Percent.value x < .value y ↔ x < y := Iff.rfl

theorem not_undefined_lt (p : Percent) : ¬ Percent.undefined < p := by
  cases p <;> exact not_false

theorem not_lt_undefined (p : Percent) : ¬ p < Percent.undefined := by
  cases p <;> exact not_false

theorem Percent.lt_asymm {p q : Percent} (h : p < q) : ¬ q < p := by
  cases p with
  | undefined => exact absurd h (not_undefined_lt q)
  | value x =>
    cases q with
    | undefined => exact not_undefined_lt _
    | value y => exact (value_lt.mp h).not_gt

/-- `a` is put after `b`: less percent, or neither less nor more and the
greater number. -/
theorem compareCpu_after (a b : MyProc Percent) : compareCpu a b = true ↔
    a.cpuPercent < b.cpuPercent ∨ ¬ b.cpuPercent < a.cpuPercent ∧ b.pid < a.pid := by
  unfold compareCpu
  split
  · rename_i h
    simp [h]
  · rename_i h
    split
    · rename_i h'
      simp [h, h']
    · rename_i h'
      simp [h, h']

/-- `compare_cpu` is 'comes after' in a strict total order of the records. -/
structure StrictOrder (ps : List (MyProc Percent)) : Prop where
  one : ∀ a ∈ ps, ∀ b ∈ ps, a ≠ b → Xor (compareCpu a b = true) (compareCpu b a = true)
  trans : ∀ a ∈ ps, ∀ b ∈ ps, ∀ c ∈ ps, compareCpu a b = true → compareCpu b c = true →
    compareCpu a c = true

/-- Exactly one of two records with different numbers comes after the other. -/
theorem compareCpu_one {a b : MyProc Percent} (h : a.pid ≠ b.pid) :
    Xor (compareCpu a b = true) (compareCpu b a = true) := by
  rw [compareCpu_after, compareCpu_after]
  by_cases hab : a.cpuPercent < b.cpuPercent
  · exact Or.inl ⟨Or.inl hab, by simp [hab, Percent.lt_asymm hab]⟩
  · by_cases hba : b.cpuPercent < a.cpuPercent
    · exact Or.inr ⟨Or.inl hba, by simp [hab, hba]⟩
    · rcases Nat.lt_or_gt_of_ne h with hlt | hgt
      · exact Or.inr ⟨Or.inr ⟨hab, hlt⟩, by simp [hab]; omega⟩
      · exact Or.inl ⟨Or.inr ⟨hba, hgt⟩, by simp [hba]; omega⟩

/-- `n` has the undefined percentage and a number between those of `x` and
`y`, which has more percent. -/
def Between (x n y : MyProc Percent) : Prop :=
  n.cpuPercent = .undefined ∧ x.cpuPercent < y.cpuPercent ∧ x.pid < n.pid ∧ n.pid < y.pid

/-- Such three come after each other in a circle. -/
theorem Between.circle {x n y : MyProc Percent} (h : Between x n y) :
    compareCpu x y = true ∧ compareCpu y n = true ∧ compareCpu n x = true := by
  obtain ⟨hn, hxy, hxn, hny⟩ := h
  simp only [compareCpu_after, hn]
  exact ⟨Or.inl hxy, Or.inr ⟨not_undefined_lt _, hny⟩, Or.inr ⟨not_lt_undefined _, hxn⟩⟩

/-- Two comparisons go together unless a record is between two others. -/
theorem compareCpu_trans {a b c : MyProc Percent} (hab : compareCpu a b = true)
    (hbc : compareCpu b c = true) (hne : a.pid ≠ c.pid) :
    compareCpu a c = true ∨ Between c b a ∨ Between b a c ∨ Between a c b := by
  rw [compareCpu_after] at hab hbc ⊢
  unfold Between
  cases ha : a.cpuPercent <;> cases hb : b.cpuPercent <;> cases hc : c.cpuPercent <;>
    simp only [ha, hb, hc, not_undefined_lt, not_lt_undefined, value_lt, false_or, not_false_iff,
      true_and, false_and, and_false, or_false, reduceCtorEq, not_lt] at hab hbc ⊢
  -- with two undefined percentages all three are compared by their numbers
  all_goals try omega
  · rcases Nat.lt_or_gt_of_ne hne with hlt | hgt
    · rcases hbc with hbc | ⟨-, hbc⟩
      · exact Or.inr ⟨hbc, hab, hlt⟩
      · omega
    · exact Or.inl hgt
  · rename_i x z
    rcases lt_or_ge z x with hzx | hxz
    · exact Or.inr ⟨hzx, hbc, hab⟩
    · exact Or.inl (Or.inr ⟨hxz, hbc.trans hab⟩)
  · rcases Nat.lt_or_gt_of_ne hne with hlt | hgt
    · rcases hab with hab | ⟨-, hab⟩
      · exact Or.inr ⟨hab, hlt, hbc⟩
      · omega
    · exact Or.inl hgt
  · rcases hab with hab | ⟨hab, hba⟩
    · exact Or.inl (hab.trans_le (hbc.elim le_of_lt And.left))
    · rcases hbc with hbc | ⟨hbc, hcb⟩
      · exact Or.inl (hab.trans_lt hbc)
      · exact Or.inr ⟨hab.trans hbc, hcb.trans hba⟩

/-- **`compare_cpu` orders a list of records** exactly when none of them lies
between two others. -/
theorem strictOrder_iff {ps : List (MyProc Percent)} (hpid : (ps.map MyProc.pid).Nodup) :
    StrictOrder ps ↔ ¬ ∃ x ∈ ps, ∃ n ∈ ps, ∃ y ∈ ps, Between x n y := by
  have hne : ∀ a ∈ ps, ∀ b ∈ ps, a ≠ b → a.pid ≠ b.pid := fun a ha b hb hab h =>
    hab (List.inj_on_of_nodup_map hpid ha hb h)
  constructor
  · rintro h ⟨x, hx, n, hn, y, hy, hb⟩
    obtain ⟨hxy, hyn, hnx⟩ := hb.circle
    have hxn := h.trans x hx y hy n hn hxy hyn
    rcases h.one x hx n hn (fun he => absurd hb.2.2.1 (by rw [he]; omega)) with ⟨-, hno⟩ | ⟨-, hno⟩
    · exact hno hnx
    · exact hno hxn
  · intro h
    refine ⟨fun a ha b hb hab => compareCpu_one (hne a ha b hb hab), ?_⟩
    intro a ha b hb c hc hab hbc
    by_cases hac : a = c
    · -- then each of the two would come after the other
      subst hac
      by_cases heq : a = b
      · exact heq ▸ hab
      · rcases compareCpu_one (hne a ha b hb heq) with ⟨-, hno⟩ | ⟨-, hno⟩
        · exact absurd hbc hno
        · exact absurd hab hno
    · rcases compareCpu_trans hab hbc (hne a ha c hc hac) with hac | hbt | hbt | hbt
      · exact hac
      · exact absurd ⟨c, hc, b, hb, a, ha, hbt⟩ h
      · exact absurd ⟨b, hb, a, ha, c, hc, hbt⟩ h
      · exact absurd ⟨a, ha, c, hc, b, hb, hbt⟩ h

/-- **`compare_cpu` orders what `add_proc_list` produces** exactly when no
process without a second of processor time that started in the second of the
uptime has a number between those of two others, the second with more percent. -/
theorem compareCpu_order_iff (ps : List (Usage hertz uptime))
    (hpid : (ps.map fun u => u.proc.pid).Nodup) :
    StrictOrder (ps.map Usage.proc) ↔ ¬ ∃ x ∈ ps, ∃ n ∈ ps, ∃ y ∈ ps, n.Blank ∧
      x.proc.cpuPercent < y.proc.cpuPercent ∧ x.proc.pid < n.proc.pid ∧
      n.proc.pid < y.proc.pid := by
  have hpid' : ((ps.map Usage.proc).map MyProc.pid).Nodup := by rwa [List.map_map]
  rw [strictOrder_iff hpid']
  simp only [List.mem_map, exists_exists_and_eq_and, Between, Usage.blank_iff]

/-- A record with the times of its process. -/
def usage (hertz uptime utime startTime : UInt64) (pid : ℕ)
    (h : startTime.toNat ≤ uptime.toNat * hertz.toNat + hertz.toNat - 1) : Usage hertz uptime :=
  ⟨bare pid (cpuPercent hertz uptime utime 0 startTime), utime, 0, startTime, h, by
    rw [bare]⟩

/-- 10 % and number 1, started just now and number 2, 20 % and number 3. -/
def threeUsages : List (Usage 100 1000) :=
  [usage 100 1000 10000 0 1 (by decide), usage 100 1000 0 100000 2 (by decide),
    usage 100 1000 20000 0 3 (by decide)]

/-- The first comes after the third, the third after the second, and the
second after the first. -/
theorem threeUsages_not_ordered : ¬ StrictOrder (threeUsages.map Usage.proc) := by
  intro h
  have h13 : compareCpu (bare 1 (cpuPercent 100 1000 10000 0 0))
      (bare 3 (cpuPercent 100 1000 20000 0 0)) = true := by decide +kernel
  have h32 : compareCpu (bare 3 (cpuPercent 100 1000 20000 0 0))
      (bare 2 (cpuPercent 100 1000 0 0 100000)) = true := by decide +kernel
  have h12 : compareCpu (bare 1 (cpuPercent 100 1000 10000 0 0))
      (bare 2 (cpuPercent 100 1000 0 0 100000)) = false := by decide +kernel
  have := h.trans _ (by simp [threeUsages, usage]) _ (by simp [threeUsages, usage]) _
    (by simp [threeUsages, usage]) h13 h32
  rw [h12] at this
  cases this

theorem compareCpu_order_three :
    StrictOrder (threeUsages.map Usage.proc) ↔
      ¬ ∃ x ∈ threeUsages, ∃ n ∈ threeUsages, ∃ y ∈ threeUsages, n.Blank ∧
        x.proc.cpuPercent < y.proc.cpuPercent ∧ x.proc.pid < n.proc.pid ∧
        n.proc.pid < y.proc.pid :=
  compareCpu_order_iff threeUsages (by decide)

end Top
end LinuxProg
