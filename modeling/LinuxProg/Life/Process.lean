/-
# The process mode

Menu case 3 of `리시프설계.c`. In every generation the parent forks the
children one after the other and waits for each before it forks the next.
Child `i` opens the new file and handles the rows `i * handle_number + j`,
`j < handle_number`, until one of them equals `m` (`childRows`): it seeks to
the row, computes it in its copy of the matrices and writes its text.

The stop test is `index == m`. A child whose first row is past `m` never
meets it and hands rows outside the matrix to `get_next_generation_matrix`;
this happens exactly if `(process_number - 1) * handle_number > m`
(`childRows_perm_iff`).
-/
import Mathlib
import LinuxProg.Life.Workers

namespace LinuxProg
namespace Life

open Buffers Records

/-- The rows child `i` hands to `get_next_generation_matrix`. -/
def childRows (m handle i : ℕ) : List ℕ :=
  ((List.range handle).map fun j => i * handle + j).takeWhile fun index => index != m

/-- One row of a child: `lseek`, compute, lay out, `write`. -/
def childRow (m n : ℕ) (matrix : CharMatrix) (s : CharMatrix × List Char) (index : ℕ) :
    Option (CharMatrix × List Char) := do
  let index ← int32 index
  let off ← int32 (index * 2 * n)
  let next ← getNextGenerationMatrix matrix s.1 index (m - 1) (n - 1)
  let src ← next[index]?
  let tmpWrite ← formatRow (fun k => k == n - 1) n src (List.replicate (2 * n) '\x00')
  pure (next, pwrite '\x00' s.2 off tmpWrite)

/-- Child `i`, from the file the children before it left. Its matrices are
copies of the parent's. -/
def child (m n handle : ℕ) (matrix next : CharMatrix) (file : List Char) (i : ℕ) :
    Option (List Char) :=
  ((childRows m handle i).foldlM (childRow m n matrix) (next, file)).map Prod.snd

/-- The children of one generation. -/
def processWork (m n processNumber handle : ℕ) : Work := fun _ matrix next => do
  let file ← orFault .child ((List.range processNumber).foldlM (child m n handle matrix next) [])
  pure ⟨file, next, (List.range processNumber).flatMap (childRows m handle)⟩

/-- Menu case 3. -/
def processMode (argv1 : FileName) (k : ℕ) (processNumber : ℤ) (st : Main) :
    Except Fault (Main × List (List ℕ)) :=
  workerMode processWork argv1 k processNumber st

/-! ### The rows of the children -/

theorem takeWhile_ne_range' (m : ℕ) : ∀ (c a : ℕ), a ≤ m →
    (List.range' a c).takeWhile (fun x => x != m) = List.range' a (min c (m - a))
  | 0, _, _ => by simp
  | c + 1, a, ha => by
    rw [List.range'_succ, List.takeWhile_cons]
    rcases Nat.eq_or_lt_of_le ha with rfl | hlt
    · simp
    · have hne : (a != m) = true := by simp; omega
      rw [hne, if_pos rfl, takeWhile_ne_range' m c (a + 1) hlt,
        show min (c + 1) (m - a) = min c (m - (a + 1)) + 1 by omega, List.range'_succ]

/-- A child that starts inside the matrix, or at its end, stops at the end. -/
theorem childRows_eq {m handle i : ℕ} (h : i * handle ≤ m) :
    childRows m handle i = List.range' (i * handle) (min handle (m - i * handle)) := by
  rw [childRows, ← List.range'_eq_map_range, takeWhile_ne_range' m handle _ h]

/-- A child that starts past the end does not stop there. -/
theorem mem_childRows_of_lt {m handle i : ℕ} (h : m < i * handle) :
    i * handle ∈ childRows m handle i := by
  have hpos : 0 < handle := Nat.pos_of_ne_zero fun h0 => by simp [h0] at h
  obtain ⟨c, rfl⟩ : ∃ c, handle = c + 1 := ⟨handle - 1, by omega⟩
  rw [childRows, ← List.range'_eq_map_range, List.range'_succ, List.takeWhile_cons,
    if_pos (by simp; omega)]
  exact List.mem_cons_self

/-- Together the first `p` children handle the rows below `p * handle`, in
order, as long as none of them starts past the end. -/
theorem flatMap_childRows {m handle : ℕ} : ∀ {p : ℕ}, (p - 1) * handle ≤ m →
    (List.range p).flatMap (childRows m handle) = List.range (min (p * handle) m)
  | 0, _ => by simp
  | p + 1, h => by
    rw [Nat.add_sub_cancel] at h
    have hle : (p - 1) * handle ≤ m := Nat.le_trans (Nat.mul_le_mul_right _ (Nat.sub_le p 1)) h
    rw [List.range_succ, List.flatMap_append, flatMap_childRows hle, List.flatMap_singleton,
      childRows_eq h, Nat.min_eq_left h, List.range_eq_range', List.range_eq_range']
    have happ := List.range'_append_1 (s := 0) (m := p * handle) (n := min handle (m - p * handle))
    rw [Nat.zero_add] at happ
    rw [happ, Nat.add_mul]
    congr 1
    omega

/-- **Every row once, and no other**, exactly if the last child does not start
past the end. -/
theorem childRows_perm_iff {m p : ℕ} (hp : 0 < p) :
    ((List.range p).flatMap (childRows m (handleNumber m p))).Perm (List.range m) ↔
      (p - 1) * handleNumber m p ≤ m := by
  constructor
  · intro h
    by_contra hlt
    have hmem : (p - 1) * handleNumber m p ∈
        (List.range p).flatMap (childRows m (handleNumber m p)) :=
      List.mem_flatMap.mpr ⟨p - 1, List.mem_range.mpr (by omega), mem_childRows_of_lt (by omega)⟩
    have := List.mem_range.mp (h.mem_iff.mp hmem)
    omega
  · intro h
    rw [flatMap_childRows h, Nat.min_eq_right (handleNumber_bounds hp).1]

/-! ### What the children write -/

/-- One row of a child, inside the matrix. -/
theorem childRow_eq {G : Grid} {matrix next : CharMatrix} (hG : G.Holds matrix)
    (hroom : Room G.m G.n next) {index : ℕ} (hi : index < G.m)
    (hoff : (G.m - 1) * 2 * G.n < 2 ^ 31) (file : List Char) :
    ∃ next', Room G.m G.n next' ∧ childRow G.m G.n matrix (next, file) index =
      some (next', pwrite '\x00' file (index * (2 * G.n)) (G.step.rowText index)) := by
  obtain ⟨r, hr, hlen⟩ := hroom.row hi
  have hilt : index < next.length := by rw [hroom.1]; exact hi
  have hle : index * 2 * G.n ≤ (G.m - 1) * 2 * G.n :=
    Nat.mul_le_mul_right _ (Nat.mul_le_mul_right _ (by omega))
  have hidx : index ≤ index * 2 * G.n := by
    rw [Nat.mul_assoc]
    exact Nat.le_mul_of_pos_right _ (by have := G.two_le_n; omega)
  have hrow := tmpWrite_eq (G := G) (G.step.row index ++ r.drop G.n)
    fun j hj => G.step.row_getElem? index hj _
  refine ⟨next.set index (G.step.row index ++ r.drop G.n), ?_, ?_⟩
  · apply hroom.set
    rw [List.length_append, G.step.length_row, G.step_n]
    omega
  · rw [← Nat.mul_assoc]
    simp only [childRow, int32_eq_some.mpr ⟨(by omega : index < 2 ^ 31), rfl⟩,
      int32_eq_some.mpr ⟨(by omega : index * 2 * G.n < 2 ^ 31), rfl⟩, Option.bind_eq_bind,
      Option.bind_some, getNextGenerationMatrix_eq hG hi hr hlen, List.getElem?_set_self hilt,
      hrow, Option.pure_def]

/-- A run of rows, each written at the end of the file. -/
theorem childRows_write {G : Grid} {matrix : CharMatrix} (hG : G.Holds matrix)
    (hoff : (G.m - 1) * 2 * G.n < 2 ^ 31) : ∀ (c a : ℕ) (next : CharMatrix),
    Room G.m G.n next → a + c ≤ G.m →
    ∃ next', (List.range' a c).foldlM (childRow G.m G.n matrix)
      (next, (List.range a).flatMap G.step.rowText) =
        some (next', (List.range (a + c)).flatMap G.step.rowText)
  | 0, a, next, _, _ => ⟨next, rfl⟩
  | c + 1, a, next, hroom, hac => by
    have hW : ∀ i, (G.step.rowText i).length = 2 * G.n := G.step.length_rowText
    obtain ⟨next1, hroom1, h1⟩ := childRow_eq hG hroom (show a < G.m by omega) hoff
      ((List.range a).flatMap G.step.rowText)
    have happ := pwrite_length '\x00' ((List.range a).flatMap G.step.rowText) (G.step.rowText a)
    rw [length_flatMap_range hW, ← List.flatMap_singleton G.step.rowText a, ← List.flatMap_append,
      ← List.range_succ, List.flatMap_singleton] at happ
    obtain ⟨next2, h2⟩ := childRows_write hG hoff c (a + 1) next1 hroom1 (by omega)
    refine ⟨next2, ?_⟩
    rw [List.range'_succ, List.foldlM_cons, h1, happ, Option.bind_eq_bind, Option.bind_some, h2,
      show a + 1 + c = a + (c + 1) by omega]

/-- The children before child `p` leave the rows below `p * handle`. -/
theorem children_write {G : Grid} {matrix next : CharMatrix} (hG : G.Holds matrix)
    (hroom : Room G.m G.n next) (hoff : (G.m - 1) * 2 * G.n < 2 ^ 31) (handle : ℕ) : ∀ {p : ℕ},
    (p - 1) * handle ≤ G.m →
    (List.range p).foldlM (child G.m G.n handle matrix next) [] =
      some ((List.range (min (p * handle) G.m)).flatMap G.step.rowText)
  | 0, _ => by simp
  | p + 1, h => by
    rw [Nat.add_sub_cancel] at h
    have hle : (p - 1) * handle ≤ G.m := Nat.le_trans (Nat.mul_le_mul_right _ (Nat.sub_le p 1)) h
    obtain ⟨next', hc⟩ := childRows_write hG hoff (min handle (G.m - p * handle)) (p * handle) next
      hroom (by omega)
    rw [List.range_succ, List.foldlM_append, children_write hG hroom hoff handle hle, Nat.min_eq_left h,
      Option.bind_eq_bind, Option.bind_some, List.foldlM_cons, child, childRows_eq h, hc]
    simp only [Option.map_some, Option.bind_eq_bind, Option.bind_some, List.foldlM_nil,
      Option.pure_def, Nat.add_mul, Option.some.injEq]
    congr 2
    omega

theorem processWork_computes {G : Grid} {p : ℕ} (hp : 0 < p)
    (hoff : (G.m - 1) * 2 * G.n < 2 ^ 31) (hlast : (p - 1) * handleNumber G.m p ≤ G.m) :
    Computes G.m G.n (processWork G.m G.n p (handleNumber G.m p)) := by
  intro G' g matrix next hm hn hG hroom _
  rw [← hm, ← hn] at hroom
  have hwrite := children_write hG hroom (by rwa [hm, hn]) (handleNumber G.m p) (p := p)
    (by rwa [hm])
  rw [hm, hn, Nat.min_eq_right (handleNumber_bounds hp).1] at hwrite
  refine ⟨⟨(List.range G.m).flatMap G'.step.rowText, next,
    (List.range p).flatMap (childRows G.m (handleNumber G.m p))⟩, ?_, ?_, ?_, ?_⟩
  · simp only [processWork, hwrite, orFault]
    rfl
  · simp only [Grid.text, G'.step_m, hm]
  · rwa [hm, hn] at hroom
  · exact (childRows_perm_iff hp).mpr hlast

/-- What children that all end have shown: their rows, and that the offsets
of these rows are `int` values. -/
theorem processWork_ok {m n p handle g : ℕ} {M N : CharMatrix} {done : Done}
    (h : processWork m n p handle g M N = .ok done) :
    done.rows = (List.range p).flatMap (childRows m handle) ∧
      ∀ x ∈ done.rows, x * 2 * n < 2 ^ 31 := by
  simp only [processWork, bind, Except.bind] at h
  split at h
  · cases h
  · rename_i file hfile
    obtain rfl := Except.ok.inj h
    refine ⟨rfl, fun x hx => ?_⟩
    obtain ⟨i, hi, hx⟩ := List.mem_flatMap.mp hx
    have hall := foldlM_forall (Q := fun i => ∀ x ∈ childRows m handle i, x * 2 * n < 2 ^ 31)
      (fun f i f' hf => ?_) (orFault_eq_ok.mp hfile)
    · exact hall i hi x hx
    · rw [child, Option.map_eq_some_iff] at hf
      obtain ⟨s, hs, -⟩ := hf
      refine foldlM_forall (fun b y b' hy => ?_) hs
      simp only [childRow, Option.bind_eq_bind, Option.bind_eq_some_iff, int32_eq_some] at hy
      obtain ⟨_, ⟨-, rfl⟩, _, ⟨hlt, -⟩, -⟩ := hy
      exact hlt

/-- The parent waits for children only; each of them ends. -/
theorem processWork_joined (m n p handle g : ℕ) (M N : CharMatrix) :
    processWork m n p handle g M N ≠ .error .notJoined :=
  bind_ne (orFault_ne (by decide) _) fun _ => ok_ne _

/-- What agreement with the sequential mode needs. -/
theorem process_necessary {argv1 : FileName} {G : Grid} {nl : Bool} {fs : Fs} {buf : TmpBuffer}
    {k p : ℕ} (hfs : fs argv1 = some (G.inputText nl)) (hk : 0 < k) (hp : 0 < p)
    (h : Agrees G k (processMode argv1 k p (.start fs buf))
      (sequentialMode argv1 k (.start fs buf))) :
    2 * G.n ≤ 20010 ∧ k < 10 ^ 8 ∧ (G.m - 1) * 2 * G.n < 2 ^ 31 ∧
      (p - 1) * handleNumber G.m p ≤ G.m := by
  obtain ⟨hw, hk', hQ⟩ := agrees_necessary hfs hk hp (fun g M N done hd => by
    rw [(processWork_ok hd).1]
    simp [childRows]) h
  obtain ⟨r, ⟨hr, hoff⟩, hperm⟩ := hQ
    (fun r => r = (List.range p).flatMap (childRows G.m (handleNumber G.m p)) ∧
      ∀ x ∈ r, x * 2 * G.n < 2 ^ 31) fun g M N done => processWork_ok
  refine ⟨hw, hk', ?_, ?_⟩
  · apply hoff
    rw [hperm.mem_iff, List.mem_range]
    have := G.two_le_m
    omega
  · rw [hr] at hperm
    exact (childRows_perm_iff hp).mp hperm

/-- **Process mode against sequential mode.** On a grid of any size, with any
number of processes and of generations, the process mode computes every row
once in each generation and leaves the sequential mode's `output.matrix`
exactly if the rows fit in `tmp_buffer`, the generation's names in
`generation_filename`, the offset of the last row in an `int`, and the last
child does not start past the end of the matrix. -/
theorem process_agrees_iff {argv1 : FileName} {G : Grid} {nl : Bool} {fs : Fs} {buf : TmpBuffer}
    {k p : ℕ} (hfs : fs argv1 = some (G.inputText nl)) (hk : 1 ≤ k) (hp : 1 ≤ p) :
    Agrees G k (processMode argv1 k p (.start fs buf)) (sequentialMode argv1 k (.start fs buf)) ↔
      2 * G.n ≤ 20010 ∧ k < 10 ^ 8 ∧ (G.m - 1) * 2 * G.n < 2 ^ 31 ∧
        (p - 1) * handleNumber G.m p ≤ G.m := by
  refine ⟨process_necessary hfs hk hp, fun ⟨hw, hk', hoff, hlast⟩ => ?_⟩
  have hm : G.m < 2 ^ 31 := Nat.lt_of_lt_of_le (G.m_lt hoff) (by decide)
  apply workerMode_agrees hfs hw hm hk hk' hp (processWork_computes hp hoff hlast)
  exact workerMode_joined fun _ _ _ => processWork_joined _ _ _ _

theorem process_agrees_square : Agrees square 1
    (processMode ['a'] 1 (2 : ℕ) (.start (oneFile ['a'] (square.inputText true)) .blank))
    (sequentialMode ['a'] 1 (.start (oneFile ['a'] (square.inputText true)) .blank)) :=
  (process_agrees_iff (oneFile_self _ _) le_rfl (by decide)).mpr
    ⟨by decide, by decide, by decide, by decide⟩

/-- Four processes on two rows: the last child starts at row 3. -/
theorem process_past_end : childRows 2 (handleNumber 2 4) 3 = [3] ∧ ¬ Agrees square 1
    (processMode ['a'] 1 (4 : ℕ) (.start (oneFile ['a'] (square.inputText true)) .blank))
    (sequentialMode ['a'] 1 (.start (oneFile ['a'] (square.inputText true)) .blank)) := by
  refine ⟨by decide, fun h => ?_⟩
  have := (process_necessary (oneFile_self _ _) (by decide) (by decide) h).2.2.2
  exact absurd this (by decide)

end Life
end LinuxProg
