/-
# The columns of top

`print` of `top.c`: the width of a column is that of its longest text, the
columns from `col` on are placed side by side until one would begin behind the
70 columns of the screen, and `COMMAND` is written at `start_x[11]`, cut at the
end of the screen by `cmd[max_cmd] = '\0'`.

Placed columns never overlap. But when the placing stops early `start_x[11]`
and `max_cmd` keep their initial values, `0` and `-1`: `COMMAND` is then
written over the first column and the byte before `cmd` is cleared. So it goes
well exactly when the scroll position is past the other columns, or `COMMAND`
begins on the screen, or it is the first that does not and no row is printed
(`layout_iff`).
-/
import Mathlib
import LinuxProg.Top.Order

namespace LinuxProg
namespace Top

open Paging (decimal)

variable {P : Type*}

def columnLen : ℕ := 12
def cols : ℕ := 70

/-- The text of a column, `percentText` being `"%3.1Lf"`. -/
def columnText (percentText : P → Str) (p : MyProc P) : ℕ → Str
  | 0 => decimal p.pid
  | 1 => p.userName
  | 2 => intText p.priority
  | 3 => intText p.nice
  | 4 => decimal p.vsz
  | 5 => decimal p.rss
  | 6 => decimal p.shr
  | 7 => p.stat
  | 8 => percentText p.cpuPercent
  | 9 => percentText p.memPercent
  | 10 => p.time
  | _ => p.cmd

/-- `column_width` as it is initialised. -/
def columnWidth₀ : List ℕ := [3, 4, 2, 2, 4, 3, 3, 1, 4, 3, 4, 7]

/-- The width of each column after the loops over `proc_list`. -/
def columnWidth (percentText : P → Str) (procList : List (MyProc P)) : List ℕ :=
  (List.range columnLen).map fun c => procList.foldl (fun width p =>
    if (columnText percentText p c).length < width then width
    else (columnText percentText p c).length) (columnWidth₀.getD c 0)

structure Layout where
  startX : List ℕ
  startCol : ℕ
  endCol : ℕ
  maxCmd : ℤ
  deriving DecidableEq

/-- `for(;i<12;i++)`, with `n` turns to go: `start_x` and the `i` it ends with. -/
def placeColumns (width : List ℕ) : ℕ → ℕ → List ℕ → List ℕ × ℕ
  | 0, i, startX => (startX, i)
  | n + 1, i, startX =>
    let startX := startX.set i (width.getD (i - 1) 0 + 2 + startX.getD (i - 1) 0)
    if cols ≤ startX.getD i 0 then (startX, i)
    else placeColumns width n (i + 1) startX

/-- Where the columns are put, from `col` on. -/
def layout (width : List ℕ) (col : ℕ) : Layout :=
  if 11 ≤ col then ⟨List.replicate 12 0, 11, 12, cols⟩
  else
    let (startX, i) := placeColumns width (12 - (col + 1)) (col + 1) (List.replicate 12 0)
    ⟨startX, col, i, if i = 12 then cols - (startX.getD 11 0 : ℕ) else -1⟩

/-- What is done with `cmd` in a row, if it is printed: the place where it is
cut and the offset it is printed from. -/
def printCmd (col maxCmd : ℤ) (p : MyProc P) : Option (ℤ × ℤ) :=
  let tap := col - 11
  if col = 11 ∧ (p.cmdOption.length : ℤ) < tap * 8 then none
  else
    let tap := if col < 11 then 0 else tap
    some (maxCmd, tap * 8)

/-- The rows from `row` on. -/
def printRows (t : Table P) (row : ℕ) (col maxCmd : ℤ) : List (ℤ × ℤ) :=
  (t.records.drop row).filterMap (printCmd col maxCmd)

/-! ### What is to be seen -/

namespace Layout

/-- The columns that are printed; `COMMAND` always is. -/
def Shown (l : Layout) (c : ℕ) : Prop := l.startCol ≤ c ∧ c < l.endCol ∨ c = 11

/-- Where a column begins. -/
def x (l : Layout) (c : ℕ) : ℕ := l.startX.getD c 0

/-- The columns do not overlap and `COMMAND` is the last one. -/
structure Clear (l : Layout) (width : List ℕ) : Prop where
  disjoint : ∀ c d, l.Shown c → l.Shown d → c ≠ d →
    Disjoint (Set.Ico (l.x c) (l.x c + width.getD c 0)) (Set.Ico (l.x d) (l.x d + width.getD d 0))
  command : ∀ c, l.Shown c → c ≠ 11 → l.x c + width.getD c 0 ≤ l.x 11

end Layout

/-- The columns are clear and every cut is inside `cmd`. -/
def GoodPrint (percentText : P → Str) (t : Table P) (row col : ℕ) : Prop :=
  (layout (columnWidth percentText t.procList) col).Clear (columnWidth percentText t.procList) ∧
    ∀ o ∈ printRows t row col (layout (columnWidth percentText t.procList) col).maxCmd,
      0 ≤ o.1 ∧ o.1 < bigLen

/-! ### Placing -/

/-- Where column `i` begins if none is left out, the columns from `col` on. -/
def start (width : List ℕ) (col : ℕ) : ℕ → ℕ
  | 0 => 0
  | i + 1 => if i < col then 0 else width.getD i 0 + 2 + start width col i

theorem start_of_le (width : List ℕ) (col : ℕ) : ∀ i ≤ col, start width col i = 0
  | 0, _ => rfl
  | i + 1, h => if_pos (by omega)

theorem start_succ (width : List ℕ) {col i : ℕ} (h : col ≤ i) :
    start width col (i + 1) = width.getD i 0 + 2 + start width col i :=
  if_neg (by omega)

/-- A column ends before the next ones begin. -/
theorem start_add_le (width : List ℕ) {col i : ℕ} (hi : col ≤ i) : ∀ j, i < j →
    start width col i + width.getD i 0 ≤ start width col j
  | 0, h => absurd h (Nat.not_lt_zero i)
  | j + 1, h => by
    rw [start_succ width (by omega)]
    rcases Nat.lt_or_ge i j with hlt | hge
    · have := start_add_le width hi j hlt
      omega
    · obtain rfl : i = j := by omega
      omega

theorem start_mono (width : List ℕ) (col : ℕ) {i j : ℕ} (h : i ≤ j) :
    start width col i ≤ start width col j := by
  rcases Nat.lt_or_ge i col with hlt | hge
  · rw [start_of_le width col i hlt.le]
    exact Nat.zero_le _
  · rcases Nat.eq_or_lt_of_le h with rfl | hlt
    · exact le_rfl
    · exact (Nat.le_add_right _ _).trans (start_add_le width hge j hlt)

/-- `start_x` with the columns up to `k` placed. -/
def placed (width : List ℕ) (col k : ℕ) : List ℕ :=
  (List.range 12).map fun i => if i ≤ k then start width col i else 0

theorem placed_getD (width : List ℕ) (col k : ℕ) {i : ℕ} (h : i < 12) :
    (placed width col k).getD i 0 = if i ≤ k then start width col i else 0 := by
  simp [placed, List.getD_eq_getElem?_getD, h]

theorem placed_zero (width : List ℕ) (col : ℕ) : placed width col col = List.replicate 12 0 := by
  refine List.ext_getElem? fun i => ?_
  rcases Nat.lt_or_ge i 12 with h | h
  · simp only [placed, List.getElem?_map, List.getElem?_range h, Option.map_some,
      List.getElem?_replicate, if_pos h]
    split
    · rw [start_of_le width col i (by omega)]
    · rfl
  · simp [placed, h]

theorem placed_set (width : List ℕ) {col k : ℕ} (h : col ≤ k) (hk : k + 1 < 12) :
    (placed width col k).set (k + 1) (width.getD k 0 + 2 + (placed width col k).getD k 0) =
      placed width col (k + 1) := by
  rw [placed_getD width col k (by omega), if_pos le_rfl, ← start_succ width h]
  refine List.ext_getElem? fun i => ?_
  rw [List.getElem?_set]
  rcases Nat.lt_or_ge i 12 with hi | hi
  · simp only [placed, List.getElem?_map, List.getElem?_range hi, Option.map_some,
      List.length_map, List.length_range]
    split
    · rename_i hik
      subst hik
      rw [if_pos le_rfl]
    · rename_i hik
      by_cases hle : i ≤ k
      · rw [if_pos hle, if_pos (by omega)]
      · rw [if_neg hle, if_neg (by omega)]
  · simp [placed, hi]
    omega

/-- **The loop** ends at the first column that begins behind the screen. -/
theorem placeColumns_spec (width : List ℕ) (col : ℕ) : ∀ (n k : ℕ), col ≤ k → k + 1 + n = 12 →
    (∀ j ≤ k, start width col j < cols) →
    ∃ i, placeColumns width n (k + 1) (placed width col k) = (placed width col i, i) ∧
      k < i ∧ i ≤ 12 ∧ (∀ j < i, start width col j < cols) ∧ (i < 12 → cols ≤ start width col i)
  | 0, k, _, hk, hlt => by
    obtain rfl : k = 11 := by omega
    refine ⟨12, ?_, by omega, le_rfl, fun j hj => hlt j (by omega), fun h => absurd h (by omega)⟩
    have hsame : placed width col 11 = placed width col 12 := by
      refine List.map_congr_left fun i hi => ?_
      have := List.mem_range.mp hi
      rw [if_pos (by omega), if_pos (by omega)]
    rw [placeColumns, hsame]
  | n + 1, k, hcol, hk, hlt => by
    rw [placeColumns]
    simp only [Nat.add_sub_cancel, placed_set width hcol (by omega),
      placed_getD width col (k + 1) (show k + 1 < 12 by omega), if_pos le_rfl]
    split
    · rename_i hge
      exact ⟨k + 1, rfl, by omega, by omega, fun j hj => hlt j (by omega), fun _ => hge⟩
    · rename_i hge
      obtain ⟨i, heq, hki, hi⟩ := placeColumns_spec width col n (k + 1) (by omega) (by omega)
        fun j hj => by
          rcases Nat.eq_or_lt_of_le hj with rfl | hj
          · omega
          · exact hlt j (by omega)
      exact ⟨i, heq, by omega, hi⟩

/-- The layout of a scroll position before `COMMAND`. -/
theorem layout_spec (width : List ℕ) {col : ℕ} (hcol : col < 11) :
    ∃ i, layout width col =
        ⟨placed width col i, col, i, if i = 12 then cols - (start width col 11 : ℕ) else -1⟩ ∧
      col < i ∧ i ≤ 12 ∧ (∀ j < i, start width col j < cols) ∧
      (i < 12 → cols ≤ start width col i) := by
  obtain ⟨i, heq, hi⟩ := placeColumns_spec width col (12 - (col + 1)) col le_rfl (by omega)
    fun j hj => by
      rw [start_of_le width col j hj]
      decide
  refine ⟨i, ?_, hi⟩
  rw [layout, if_neg (by omega), ← placed_zero width col, heq]
  simp only
  split
  · rw [placed_getD width col i (by omega), if_pos (by omega)]
  · rfl

/-! ### When it goes well -/

/-- Every column has a positive width. -/
theorem columnWidth_pos (percentText : P → Str) (procList : List (MyProc P)) {c : ℕ}
    (h : c < 12) : 0 < (columnWidth percentText procList).getD c 0 := by
  have hfold : ∀ (l : List (MyProc P)) (f : MyProc P → ℕ) (w : ℕ), w ≤ l.foldl
      (fun width p => if f p < width then width else f p) w := by
    intro l f
    induction l with
    | nil => exact fun w => le_rfl
    | cons p l ih =>
      intro w
      have hw : w ≤ if f p < w then w else f p := by split <;> omega
      exact hw.trans (ih _)
  have h0 : 0 < columnWidth₀.getD c 0 := by
    interval_cases c <;> decide
  rw [columnWidth, List.getD_eq_getElem?_getD, List.getElem?_map,
    List.getElem?_range (show c < columnLen from h)]
  exact h0.trans_le (hfold procList _ _)

theorem printCmd_eq (col maxCmd : ℤ) (p : MyProc P) :
    printCmd col maxCmd p = some (maxCmd, (if col < 11 then 0 else col - 11) * 8) := by
  have hno : ¬ (col = 11 ∧ (p.cmdOption.length : ℤ) < (col - 11) * 8) := by
    rintro ⟨rfl, h⟩
    omega
  rw [printCmd, if_neg hno]

/-- Every row is cut at the same place and printed from the same offset. -/
theorem printRows_forall (t : Table P) (row : ℕ) (col maxCmd : ℤ) (Q : ℤ × ℤ → Prop) :
    (∀ o ∈ printRows t row col maxCmd, Q o) ↔
      t.procList.length ≤ row ∨ Q (maxCmd, (if col < 11 then 0 else col - 11) * 8) := by
  have hlen : t.records.length = t.procList.length := by
    rw [Table.records, List.length_map, t.full]
  simp only [printRows, List.mem_filterMap, printCmd_eq, Option.some.injEq]
  rcases Nat.lt_or_ge row t.procList.length with hlt | hge
  · obtain ⟨p, l, hpl⟩ : ∃ p l, t.records.drop row = p :: l := by
      cases h : t.records.drop row with
      | nil => exact absurd (List.drop_eq_nil_iff.mp h) (by omega)
      | cons p l => exact ⟨p, l, rfl⟩
    rw [hpl]
    constructor
    · intro h
      exact Or.inr (h _ ⟨p, List.mem_cons_self, rfl⟩)
    · rintro (h | h)
      · omega
      · rintro o ⟨-, -, rfl⟩
        exact h
  · rw [List.drop_eq_nil_iff.mpr (by omega)]
    simp [hge]

theorem layout_last (width : List ℕ) {col : ℕ} (h : 11 ≤ col) :
    layout width col = ⟨List.replicate 12 0, 11, 12, cols⟩ := if_pos h

/-- Columns placed up to `COMMAND` are clear of each other. -/
theorem clear_of_placed (width : List ℕ) {col i : ℕ} (maxCmd : ℤ) (h11 : 11 ≤ i) (hi : i ≤ 12)
    (hcol : col < 11) : (⟨placed width col i, col, i, maxCmd⟩ : Layout).Clear width := by
  have hx : ∀ c, c < 12 → (⟨placed width col i, col, i, maxCmd⟩ : Layout).x c =
      start width col c := by
    intro c hc
    rw [Layout.x, placed_getD width col i hc, if_pos (by omega)]
  have hshown : ∀ c, (⟨placed width col i, col, i, maxCmd⟩ : Layout).Shown c →
      col ≤ c ∧ c < 12 := by
    rintro c (⟨h1, h2⟩ | h)
    · exact ⟨h1, by simp only at h2; omega⟩
    · omega
  refine ⟨fun c d hc hd hne => ?_, fun c hc hne => ?_⟩
  · obtain ⟨hc, hc'⟩ := hshown c hc
    obtain ⟨hd, hd'⟩ := hshown d hd
    rw [Set.Ico_disjoint_Ico, hx c hc', hx d hd']
    rcases Nat.lt_or_gt_of_ne hne with hlt | hgt
    · have := start_add_le width hc d hlt
      omega
    · have := start_add_le width hd c hgt
      omega
  · obtain ⟨hc, hc'⟩ := hshown c hc
    rw [hx c hc', hx 11 (by omega)]
    exact start_add_le width hc 11 (by omega)

/-- **The layout goes well** exactly when the scroll position is at `COMMAND`
or past it, or `COMMAND` begins on the screen, or it is the first column that
does not and no row is printed. -/
theorem layout_iff (percentText : P → Str) (t : Table P) (row col : ℕ) :
    GoodPrint percentText t row col ↔
      11 ≤ col ∨ start (columnWidth percentText t.procList) col 11 < cols ∨
        start (columnWidth percentText t.procList) col 10 < cols ∧ t.procList.length ≤ row := by
  have hpos := fun c (h : c < 12) => columnWidth_pos percentText t.procList h
  rw [GoodPrint, printRows_forall]
  generalize columnWidth percentText t.procList = width at hpos
  rcases Nat.lt_or_ge col 11 with hcol | hcol
  · obtain ⟨i, heq, hci, hi, hlt, hge⟩ := layout_spec width hcol
    rw [heq]
    rcases Nat.lt_or_ge i 11 with h11 | h11
    · -- `COMMAND` is written over the first column
      have h10 : ¬ start width col 10 < cols :=
        not_lt.mpr ((hge (by omega)).trans (start_mono width col (by omega)))
      have h11' : ¬ start width col 11 < cols :=
        not_lt.mpr ((hge (by omega)).trans (start_mono width col (by omega)))
      refine iff_of_false ?_ (by omega)
      rintro ⟨hclear, -⟩
      have := hclear.command col (Or.inl ⟨le_rfl, hci⟩) (by omega)
      rw [Layout.x, Layout.x, placed_getD width col i (by omega), placed_getD width col i (by omega),
        if_neg (show ¬ 11 ≤ i by omega)] at this
      have := hpos col (by omega)
      omega
    · have hclear := clear_of_placed width (if i = 12 then cols - (start width col 11 : ℕ) else -1)
        h11 hi hcol
      rw [and_iff_right hclear]
      have h10 := hlt 10 (by omega)
      rcases Nat.lt_or_ge i 12 with h12 | h12
      · -- `COMMAND` is the first one behind the screen, `max_cmd` is `-1`
        obtain rfl : i = 11 := by omega
        have := hge h12
        simp only [show ¬ (11 = 12) by omega, if_false]
        omega
      · obtain rfl : i = 12 := by omega
        have := hlt 11 (by omega)
        have hcols : cols = 70 := rfl
        have hbig : bigLen = 1024 := rfl
        simp only [if_true]
        omega
  · rw [layout_last width hcol]
    -- `COMMAND` is the only column
    have hshown : ∀ c, (⟨List.replicate 12 0, 11, 12, cols⟩ : Layout).Shown c → c = 11 := by
      rintro c (⟨h1, h2⟩ | h)
      · simp only at h1 h2
        omega
      · exact h
    refine iff_of_true ⟨⟨?_, ?_⟩, Or.inr ⟨?_, ?_⟩⟩ (Or.inl hcol)
    · exact fun c d hc hd hne => absurd ((hshown c hc).trans (hshown d hd).symm) hne
    · exact fun c hc hne => absurd (hshown c hc) hne
    · exact (by decide : (0 : ℤ) ≤ cols)
    · exact (by decide : (cols : ℤ) < bigLen)

/-- A single process whose user has a name of 31 bytes. -/
def longUser : Table ℕ where
  procList := [{ bare 1 0 with userName := List.replicate 31 97 }]
  sorted := List.finRange _
  full := List.length_finRange

/-- `COMMAND` is written over the number of the process. -/
theorem longUser_covered : ¬ GoodPrint decimal longUser 0 0 := by
  rintro ⟨hclear, -⟩
  have := hclear.command 0 (Or.inl (by decide +kernel)) (by decide)
  exact absurd this (by decide +kernel)

end Top
end LinuxProg
