/-
# The passes of -t

At its end the pass for `-t` goes over the arrays twice with the same loop
nest: first it exchanges entries that stand after an older one, then entries of
equal times that stand after a greater name. Each exchange is made in `arr`,
`arr_l` and `rewrite_time` (`Arrays.exchange`), so the entries stay together
(`Arrays.rows_exchange`) and the loops are passes over the rows
(`Arrays.rows_passBy`).

The first pass may leave entries of equal times in any order. The second only
exchanges such entries, so the times stay where the first pass has put them
(`pass_map`), and among equal times it sorts the names (`Arrays.sortTimes_spec`).
-/
import Mathlib
import LinuxProg.Myls.Listing

namespace LinuxProg
namespace Myls

open Exchange

/-- `arr`, `arr_l` and `rewrite_time`, up to `arr_index`. -/
structure Arrays where
  arr : List Str
  arrL : List Str
  rewriteTime : List ℤ
  length_arrL : arrL.length = arr.length
  length_rewriteTime : rewriteTime.length = arr.length

namespace Arrays

/-- The three exchanges, each by a copy. -/
def exchange (s : Arrays) (i j : ℕ) : Arrays where
  arr := swap s.arr i j
  arrL := swap s.arrL i j
  rewriteTime := swap s.rewriteTime i j
  length_arrL := by rw [length_swap, length_swap, s.length_arrL]
  length_rewriteTime := by rw [length_swap, length_swap, s.length_rewriteTime]

/-- `rewrite_time[i] > rewrite_time[j]` -/
def later (s : Arrays) (i j : ℕ) : Bool :=
  match s.rewriteTime[i]?, s.rewriteTime[j]? with
  | some t, some t' => decide (t' < t)
  | _, _ => false

/-- `rewrite_time[i] == rewrite_time[j]` and `strcmp(arr[i],arr[j]) < 0` -/
def sameTimeBefore (s : Arrays) (i j : ℕ) : Bool :=
  match s.rewriteTime[i]?, s.rewriteTime[j]?, s.arr[i]?, s.arr[j]? with
  | some t, some t', some x, some y => decide (t = t' ∧ x < y)
  | _, _, _, _ => false

/-- The loop nest `for(i..) for(j<i)` with the test before the exchange. -/
def passBy (test : Arrays → ℕ → ℕ → Bool) (s : Arrays) : Arrays :=
  (List.range s.arr.length).foldl (fun s i =>
    (List.range i).foldl (fun s j => if test s i j then s.exchange i j else s) s) s

/-- Both loop nests. -/
def sortTimes (s : Arrays) : Arrays := (s.passBy later).passBy sameTimeBefore

/-- The triples `(arr[i],arr_l[i],rewrite_time[i])`. -/
def rows (s : Arrays) : List Row :=
  List.zipWith (fun p t => ⟨p.1, p.2, t⟩) (s.arr.zip s.arrL) s.rewriteTime

/-- The arrays of a list of triples. -/
def ofRows (rows : List Row) : Arrays where
  arr := rows.map Row.name
  arrL := rows.map Row.line
  rewriteTime := rows.map Row.time
  length_arrL := by rw [List.length_map, List.length_map]
  length_rewriteTime := by rw [List.length_map, List.length_map]

theorem rows_ofRows : ∀ l : List Row, (ofRows l).rows = l
  | [] => rfl
  | r :: l => congrArg (r :: ·) (rows_ofRows l)

variable (s : Arrays)

theorem length_zip : (s.arr.zip s.arrL).length = s.arr.length := by
  rw [List.length_zip, s.length_arrL, Nat.min_self]

theorem length_rows : s.rows.length = s.arr.length := by
  rw [rows, List.length_zipWith, length_zip, s.length_rewriteTime, Nat.min_self]

/-- The entries stay together. -/
theorem rows_exchange (i j : ℕ) : (s.exchange i j).rows = swap s.rows i j := by
  have hzip : (s.arr.zip s.arrL).length = s.rewriteTime.length := by
    rw [length_zip, s.length_rewriteTime]
  rw [rows, rows, swap_zipWith _ hzip]
  unfold List.zip
  rw [swap_zipWith _ s.length_arrL.symm]
  rfl

/-- What the tests read of an entry. -/
theorem getElem?_time (i : ℕ) : s.rewriteTime[i]? = s.rows[i]?.map Row.time := by
  rcases Nat.lt_or_ge i s.arr.length with h | h
  · have ht : i < s.rewriteTime.length := s.length_rewriteTime ▸ h
    have hz : i < (s.arr.zip s.arrL).length := s.length_zip ▸ h
    rw [rows, List.getElem?_zipWith, List.getElem?_eq_getElem ht, List.getElem?_eq_getElem hz]
    rfl
  · rw [List.getElem?_eq_none (s.length_rewriteTime ▸ h), List.getElem?_eq_none (s.length_rows ▸ h)]
    rfl

theorem getElem?_name (i : ℕ) : s.arr[i]? = s.rows[i]?.map Row.name := by
  rcases Nat.lt_or_ge i s.arr.length with h | h
  · have ht : i < s.rewriteTime.length := s.length_rewriteTime ▸ h
    have hz : i < (s.arr.zip s.arrL).length := s.length_zip ▸ h
    rw [rows, List.getElem?_zipWith, List.getElem?_eq_getElem ht, List.getElem?_eq_getElem hz,
      List.getElem?_eq_getElem h]
    simp
  · rw [List.getElem?_eq_none h, List.getElem?_eq_none (s.length_rows ▸ h)]
    rfl

/-- A test of two entries. -/
def TestsRows (test : Arrays → ℕ → ℕ → Bool) (r : Row → Row → Prop) [DecidableRel r] : Prop :=
  ∀ s i j, test s i j = match s.rows[i]?, s.rows[j]? with
    | some x, some y => decide (r x y)
    | _, _ => false

theorem later_testsRows : TestsRows later ByTime := by
  intro s i j
  unfold later
  rw [getElem?_time, getElem?_time]
  cases s.rows[i]? <;> cases s.rows[j]? <;> rfl

theorem sameTimeBefore_testsRows : TestsRows sameTimeBefore ByNameAtTime := by
  intro s i j
  unfold sameTimeBefore
  rw [getElem?_time, getElem?_time, getElem?_name, getElem?_name]
  cases s.rows[i]? <;> cases s.rows[j]? <;> rfl

/-- **The loop nest is a pass over the rows.** -/
theorem rows_passBy {test : Arrays → ℕ → ℕ → Bool} {r : Row → Row → Prop} [DecidableRel r]
    (h : TestsRows test r) : (s.passBy test).rows = pass r 0 s.rows := by
  have hinner : ∀ (s : Arrays) i, passInner r 0 i s.rows =
      ((List.range i).foldl (fun s j => if test s i j then s.exchange i j else s) s).rows := by
    intro s i
    unfold passInner
    rw [Nat.sub_zero, ← List.range_eq_range']
    refine List.foldl_hom rows fun s j => ?_
    rw [h s i j]
    cases s.rows[i]? with
    | none => rfl
    | some x =>
      cases s.rows[j]? with
      | none => rfl
      | some y =>
        simp only [decide_eq_true_eq]
        split
        · exact (s.rows_exchange i j).symm
        · rfl
  unfold Exchange.pass passBy
  rw [Nat.sub_zero, ← List.range_eq_range', length_rows]
  exact (List.foldl_hom rows hinner).symm

theorem rows_sortTimes : s.sortTimes.rows = pass ByNameAtTime 0 (pass ByTime 0 s.rows) := by
  rw [sortTimes, rows_passBy _ sameTimeBefore_testsRows, rows_passBy _ later_testsRows]

end Arrays

/-- The end of the pass for `-t` is these loops. -/
theorem mylsMinusTOption_eq_sortTimes (checkForOption : Bool) (dir : Str) (readdir : List Dirent)
    (s : Listing) : mylsMinusTOption checkForOption dir readdir s =
      (readdirLoop dir (setMinusTOption checkForOption) readdir s).map fun s =>
        { s with rows := (Arrays.ofRows s.rows).sortTimes.rows } := by
  simp only [Arrays.rows_sortTimes, Arrays.rows_ofRows]
  rfl

/-! ### The order -/

instance : IsStrictOrder Row ByTime where
  irrefl r := lt_irrefl r.time
  trans _ _ _ h h' := lt_trans h' h

instance : IsStrictOrder Row ByNameAtTime where
  irrefl r h := lt_irrefl r.name h.2
  trans _ _ _ h h' := ⟨h.1.trans h'.1, lt_trans h.2 h'.2⟩

/-- The times go down after the first pass, -/
theorem pass_byTime_sorted (l : List Row) :
    ((pass ByTime 0 l).map Row.time).Pairwise fun t t' => t' ≤ t :=
  List.pairwise_map.mpr ((pass_settled ByTime l).imp fun h => not_lt.mp h)

/-- and after the second one. -/
theorem pass_byNameAtTime_sorted {l : List Row}
    (h : (l.map Row.time).Pairwise fun t t' => t' ≤ t) :
    (pass ByNameAtTime 0 l).Pairwise fun r r' => r'.time ≤ r.time := by
  have hkeep : (pass ByNameAtTime 0 l).map Row.time = l.map Row.time :=
    pass_map (fun _ _ hr => hr.1) l
  rw [← hkeep] at h
  exact List.pairwise_map.mp h

/-- **The passes of `-t`** permute the entries and sort them, the latest first
and those of one time by name. -/
theorem Arrays.sortTimes_spec (s : Arrays) :
    s.sortTimes.rows.Perm s.rows ∧ s.sortTimes.rows.Pairwise fun r r' =>
      r'.time < r.time ∨ r.time = r'.time ∧ r.name ≤ r'.name := by
  rw [rows_sortTimes]
  have htimes := pass_byNameAtTime_sorted (pass_byTime_sorted s.rows)
  have hnames := pass_settled ByNameAtTime (pass ByTime 0 s.rows)
  constructor
  · calc (pass ByNameAtTime 0 (pass ByTime 0 s.rows)).Perm (pass ByTime 0 s.rows) := pass_perm _ _
      _ |>.Perm s.rows := pass_perm _ _
  · refine (htimes.and hnames).imp fun {r r'} h => ?_
    obtain ⟨htime, hname⟩ := h
    rcases lt_or_eq_of_le htime with hlt | heq
    · exact Or.inl hlt
    · exact Or.inr ⟨heq.symm, not_lt.mp fun hlt => hname ⟨heq, hlt⟩⟩

end Myls
end LinuxProg
