/-
# The automaton of the matrix program

`living_cell_count` and `get_next_generation_matrix` of `리시프설계.c` as the
source computes them, on a `char**` whose reads and stores are checked
against the rows it has, and the automaton they are meant to compute: a grid
of at least two rows and two columns, and `Grid.step`, which sets every cell
from the number of its living neighbours (a dead cell is born with 4, a
living one stays with 3 to 6).

The nine cases of `living_cell_count` list the neighbours by hand
(`lookedAt`); on a grid of two rows and two columns or more they are the
in-grid neighbours, each once (`mem_lookedAt`, `nodup_lookedAt`), so the row
that `get_next_generation_matrix` stores is the row of the next generation
(`getNextGenerationMatrix_eq`). In a matrix of one row or one column every
cell's list leaves the matrix (`countsAround_iff`).
-/
import Mathlib
import LinuxProg.Lib.Buffers

namespace LinuxProg
namespace Life

open Buffers

/-! ### The source's functions -/

/-- `char**`: a matrix by its rows. -/
abbrev CharMatrix := List (List Char)

/-- `matrix[a][b]`; `none` outside the matrix. -/
def cell (matrix : CharMatrix) (a b : ℕ) : Option Char := matrix[a]?.bind (·[b]?)

/-- The cells `living_cell_count` tests, case by case, in the order of its
tests. `horizontal` and `vertical` are the last row and the last column. -/
def lookedAt (i j horizontal vertical : ℕ) : List (ℕ × ℕ) :=
  if i = 0 then
    if j = 0 then [(0, 1), (1, 0), (1, 1)]
    else if j = vertical then [(0, vertical - 1), (1, vertical), (1, vertical - 1)]
    else [(i, j - 1), (i, j + 1), (i + 1, j - 1), (i + 1, j), (i + 1, j + 1)]
  else if i = horizontal then
    if j = 0 then [(horizontal - 1, 0), (horizontal - 1, 1), (horizontal, 1)]
    else if j = vertical then
      [(horizontal - 1, vertical), (horizontal - 1, vertical - 1), (horizontal, vertical - 1)]
    else [(i, j - 1), (i, j + 1), (i - 1, j - 1), (i - 1, j), (i - 1, j + 1)]
  else
    if j = 0 then [(i - 1, 0), (i + 1, 1), (i - 1, 1), (i, 1), (i + 1, 0)]
    else if j = vertical then
      [(i - 1, vertical), (i + 1, vertical), (i - 1, vertical - 1), (i, vertical - 1),
        (i + 1, vertical - 1)]
    else
      [(i, j - 1), (i - 1, j - 1), (i + 1, j - 1), (i - 1, j), (i + 1, j), (i - 1, j + 1),
        (i, j + 1), (i + 1, j + 1)]

/-- One test `if(matrix[a][b]=='1')ret++;`. -/
def countCell (matrix : CharMatrix) (ret : ℕ) (p : ℕ × ℕ) : Option ℕ :=
  (cell matrix p.1 p.2).map fun c => if c = '1' then ret + 1 else ret

def livingCellCount (matrix : CharMatrix) (i j horizontal vertical : ℕ) : Option ℕ :=
  (lookedAt i j horizontal vertical).foldlM (countCell matrix) 0

/-- The cell stored for a cell `c` with `tmp` living neighbours. -/
def nextCell (c : Char) (tmp : ℕ) : Char :=
  if c = '0' then
    if tmp = 4 then '1' else '0'
  else
    if tmp ≤ 2 ∨ 7 ≤ tmp then '0' else '1'

/-- What the loop of `get_next_generation_matrix` stores at column `j`. -/
def nextGenerationCell (matrix : CharMatrix) (i horizontal vertical j : ℕ) : Option Char := do
  let tmp ← livingCellCount matrix i j horizontal vertical
  let c ← cell matrix i j
  pure (nextCell c tmp)

/-- `get_next_generation_matrix`: row `i` of `next_generation`, filled from
`matrix`. -/
def getNextGenerationMatrix (matrix next : CharMatrix) (i horizontal vertical : ℕ) :
    Option CharMatrix := do
  let row ← next[i]?
  let row ← fillLoop (vertical + 1) (nextGenerationCell matrix i horizontal vertical) row
  pure (next.set i row)

/-! ### The automaton -/

/-- The in-grid cells at distance one from `(i, j)`. -/
def neighbours (m n i j : ℕ) : Finset (ℕ × ℕ) :=
  (Finset.range m ×ˢ Finset.range n).filter fun p =>
    p ≠ (i, j) ∧ p.1 ≤ i + 1 ∧ i ≤ p.1 + 1 ∧ p.2 ≤ j + 1 ∧ j ≤ p.2 + 1

/-- A grid of `m` rows and `n` columns, at least two of each; `live i j`
matters for `i < m` and `j < n`. -/
structure Grid where
  m : ℕ
  n : ℕ
  two_le_m : 2 ≤ m
  two_le_n : 2 ≤ n
  live : ℕ → ℕ → Bool

/-- Two rows and two columns of living cells. -/
def square : Grid := ⟨2, 2, le_rfl, le_rfl, fun _ _ => true⟩

namespace Grid

variable (G : Grid)

/-- The living neighbours of cell `(i, j)`. -/
def count (i j : ℕ) : ℕ := ((neighbours G.m G.n i j).filter fun p => G.live p.1 p.2).card

/-- A dead cell is born with 4 living neighbours, a living one stays with 3
to 6. -/
def rule (alive : Bool) (c : ℕ) : Bool :=
  if alive then decide (3 ≤ c ∧ c ≤ 6) else decide (c = 4)

/-- The next generation. -/
def step : Grid := { G with live := fun i j => rule (G.live i j) (G.count i j) }

theorem step_m : G.step.m = G.m := rfl
theorem step_n : G.step.n = G.n := rfl

/-- The character of a cell. -/
def digit (alive : Bool) : Char := if alive then '1' else '0'

/-- The matrix holds the grid; its rows may be longer than the grid's. -/
def Holds (matrix : CharMatrix) : Prop :=
  ∀ a < G.m, ∀ b < G.n, cell matrix a b = some (digit (G.live a b))

/-- The cells of row `i`. -/
def row (i : ℕ) : List Char := (List.range G.n).map fun j => digit (G.live i j)

theorem length_row (i : ℕ) : (G.row i).length = G.n := by simp [row]

theorem digit_eq_one (b : Bool) : digit b = '1' ↔ b = true := by cases b <;> decide

/-- The rule of the source on characters is the automaton's rule. -/
theorem nextCell_digit (b : Bool) (c : ℕ) : nextCell (digit b) c = digit (rule b c) := by
  cases b with
  | false =>
    simp only [nextCell, digit, rule, Bool.false_eq_true, ↓reduceIte]
    by_cases h : c = 4 <;> simp [h]
  | true =>
    simp only [nextCell, digit, rule, ↓reduceIte, Char.reduceEq]
    by_cases h : c ≤ 2 ∨ 7 ≤ c
    · rw [if_pos h, if_neg]
      simp only [decide_eq_true_eq]
      omega
    · rw [if_neg h, if_pos]
      simp only [decide_eq_true_eq]
      omega

end Grid

/-! ### The nine cases are the neighbours -/

/-- The cells looked at are the in-grid cells around `(i, j)`. -/
theorem mem_lookedAt {m n i j a b : ℕ} (hm : 2 ≤ m) (hn : 2 ≤ n) (hi : i < m) (hj : j < n) :
    (a, b) ∈ lookedAt i j (m - 1) (n - 1) ↔ (a, b) ∈ neighbours m n i j := by
  simp only [neighbours, Finset.mem_filter, Finset.mem_product, Finset.mem_range, ne_eq,
    Prod.mk.injEq]
  -- the three rows and the three columns around the cell
  have hrow : a ≤ i + 1 ∧ i ≤ a + 1 ↔ a + 1 = i ∨ a = i ∨ a = i + 1 := by omega
  have hcol : b ≤ j + 1 ∧ j ≤ b + 1 ↔ b + 1 = j ∨ b = j ∨ b = j + 1 := by omega
  rw [← and_assoc (a := a ≤ i + 1), hrow, hcol]
  unfold lookedAt
  split_ifs <;>
    simp only [List.mem_cons, Prod.mk.injEq, List.not_mem_nil, or_false] <;> grind

/-- No cell is looked at twice. -/
theorem nodup_lookedAt {m n i j : ℕ} (hm : 2 ≤ m) (hn : 2 ≤ n) :
    (lookedAt i j (m - 1) (n - 1)).Nodup := by
  unfold lookedAt
  split_ifs <;>
    simp only [List.nodup_cons, List.mem_cons, Prod.mk.injEq, List.not_mem_nil, or_false,
      not_false_eq_true, List.nodup_nil, and_true] <;> omega

/-- The tests add up the living cells among those looked at. -/
theorem foldlM_countCell {matrix : CharMatrix} : ∀ (ps : List (ℕ × ℕ)),
    (∀ p ∈ ps, (cell matrix p.1 p.2).isSome) → ∀ ret,
    ps.foldlM (countCell matrix) ret =
      some (ret + ps.countP fun p => cell matrix p.1 p.2 = some '1')
  | [], _, ret => by simp
  | p :: ps, h, ret => by
    have ih := foldlM_countCell ps fun q hq => h q (List.mem_cons_of_mem p hq)
    obtain ⟨c, hc⟩ := Option.isSome_iff_exists.mp (h p List.mem_cons_self)
    simp only [List.foldlM_cons, countCell, hc, Option.map_some, Option.bind_eq_bind,
      Option.bind_some]
    rw [ih, List.countP_cons, hc]
    by_cases hl : c = '1'
    · simp only [hl, ↓reduceIte, decide_true]
      congr 1
      omega
    · simp only [Option.some.injEq, hl, decide_false, Bool.false_eq_true, ↓reduceIte, Nat.add_zero]

/-- On two rows and two columns or more, `living_cell_count` counts the
neighbours that hold a `'1'`. -/
theorem livingCellCount_eq_card {m n : ℕ} {matrix : CharMatrix} (hm : 2 ≤ m) (hn : 2 ≤ n)
    (hcell : ∀ a < m, ∀ b < n, (cell matrix a b).isSome) {i j : ℕ} (hi : i < m) (hj : j < n) :
    livingCellCount matrix i j (m - 1) (n - 1) =
      some ((neighbours m n i j).filter fun p => cell matrix p.1 p.2 = some '1').card := by
  have hsome : ∀ p ∈ lookedAt i j (m - 1) (n - 1), (cell matrix p.1 p.2).isSome := by
    intro p hp
    have := (mem_lookedAt hm hn hi hj).mp hp
    simp only [neighbours, Finset.mem_filter, Finset.mem_product, Finset.mem_range] at this
    exact hcell p.1 this.1.1 p.2 this.1.2
  rw [livingCellCount, foldlM_countCell _ hsome, Nat.zero_add, List.countP_eq_length_filter]
  -- the list without repetition and the set of neighbours have the same members
  have hset : ((lookedAt i j (m - 1) (n - 1)).filter
      fun p => cell matrix p.1 p.2 = some '1').toFinset =
      (neighbours m n i j).filter fun p => cell matrix p.1 p.2 = some '1' := by
    ext ⟨a, b⟩
    simp only [List.mem_toFinset, List.mem_filter, Finset.mem_filter, mem_lookedAt hm hn hi hj,
      decide_eq_true_eq]
  rw [← hset, List.toFinset_card_of_nodup]
  exact (nodup_lookedAt hm hn).filter _

/-- `living_cell_count` counts the living neighbours. -/
theorem livingCellCount_eq {G : Grid} {matrix : CharMatrix} (h : G.Holds matrix) {i j : ℕ}
    (hi : i < G.m) (hj : j < G.n) :
    livingCellCount matrix i j (G.m - 1) (G.n - 1) = some (G.count i j) := by
  rw [livingCellCount_eq_card G.two_le_m G.two_le_n (fun a ha b hb => by rw [h a ha b hb]; rfl) hi hj,
    Grid.count]
  congr 2
  apply Finset.filter_congr
  intro p hp
  simp only [neighbours, Finset.mem_filter, Finset.mem_product, Finset.mem_range] at hp
  rw [h p.1 hp.1.1 p.2 hp.1.2, Option.some.injEq, Grid.digit_eq_one]

/-! ### Thin matrices -/

/-- `living_cell_count` reads cells of the `m` by `n` matrix only, and returns
the number of `'1'` cells around `(i, j)`. -/
def CountsAround (m n : ℕ) (matrix : CharMatrix) (i j : ℕ) : Prop :=
  (∀ p ∈ lookedAt i j (m - 1) (n - 1), p.1 < m ∧ p.2 < n) ∧
    livingCellCount matrix i j (m - 1) (n - 1) =
      some ((neighbours m n i j).filter fun p => cell matrix p.1 p.2 = some '1').card

/-- A matrix of one row or one column is read outside at every cell: the first
row is tested before the last, the first column before the last. -/
theorem lookedAt_thin {m n i j : ℕ} (hi : i < m) (hj : j < n) (h : m < 2 ∨ n < 2) :
    ∃ p ∈ lookedAt i j (m - 1) (n - 1), ¬ (p.1 < m ∧ p.2 < n) := by
  unfold lookedAt
  rcases Nat.lt_or_ge m 2 with hm | hm
  · obtain rfl : i = 0 := by omega
    rw [if_pos rfl]
    split_ifs <;> simp only [List.mem_cons, List.not_mem_nil, or_false, exists_eq_or_imp] <;> omega
  · obtain rfl : j = 0 := by omega
    simp only [if_pos]
    split_ifs <;> simp only [List.mem_cons, List.not_mem_nil, or_false, exists_eq_or_imp] <;> omega

/-- **`living_cell_count` is right on two rows and two columns or more, and on
nothing else.** -/
theorem countsAround_iff {m n : ℕ} {matrix : CharMatrix}
    (hcell : ∀ a < m, ∀ b < n, (cell matrix a b).isSome) {i j : ℕ} (hi : i < m) (hj : j < n) :
    CountsAround m n matrix i j ↔ 2 ≤ m ∧ 2 ≤ n := by
  constructor
  · rintro ⟨hin, -⟩
    by_contra hthin
    obtain ⟨p, hp, hout⟩ := lookedAt_thin hi hj (by omega : m < 2 ∨ n < 2)
    exact hout (hin p hp)
  · rintro ⟨hm, hn⟩
    refine ⟨fun p hp => ?_, livingCellCount_eq_card hm hn hcell hi hj⟩
    have := (mem_lookedAt hm hn hi hj).mp hp
    simp only [neighbours, Finset.mem_filter, Finset.mem_product, Finset.mem_range] at this
    exact this.1

theorem countsAround_square : CountsAround 2 2 [['1', '0'], ['1', '1']] 0 0 :=
  (countsAround_iff (by decide) (by decide) (by decide)).mpr (by decide)

theorem not_countsAround_row : (∀ a < 1, ∀ b < 2, (cell [['1', '1']] a b).isSome) ∧
    livingCellCount [['1', '1']] 0 0 0 1 = none ∧ ¬ CountsAround 1 2 [['1', '1']] 0 0 := by
  refine ⟨by decide, by decide, fun h => ?_⟩
  exact absurd (h.1 (1, 0) (by decide)) (by decide)

/-- **One row.** With the grid in `matrix` and room in row `i` of
`next_generation`, the first `n` cells of that row become row `i` of the next
generation; nothing else changes. -/
theorem getNextGenerationMatrix_eq {G : Grid} {matrix next : CharMatrix} (h : G.Holds matrix)
    {i : ℕ} (hi : i < G.m) {r : List Char} (hr : next[i]? = some r) (hlen : G.n ≤ r.length) :
    getNextGenerationMatrix matrix next i (G.m - 1) (G.n - 1) =
      some (next.set i (G.step.row i ++ r.drop G.n)) := by
  have hn : G.n - 1 + 1 = G.n := Nat.sub_add_cancel (Nat.le_of_lt G.two_le_n)
  have hfill : fillLoop G.n (nextGenerationCell matrix i (G.m - 1) (G.n - 1)) r =
      some (G.step.row i ++ r.drop G.n) := by
    apply fillLoop_eq hlen
    intro j hj
    rw [nextGenerationCell, livingCellCount_eq h hi hj, h i hi j hj]
    simp only [Option.pure_def, Option.bind_eq_bind, Option.bind_some, Grid.nextCell_digit]
    rfl
  simp only [getNextGenerationMatrix, hn, hr, Option.bind_eq_bind, Option.bind_some, hfill,
    Option.pure_def]

end Life
end LinuxProg
