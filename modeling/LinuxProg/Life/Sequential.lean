/-
# The sequential mode

Menu case 2 of `리시프설계.c`. Each turn of the generation loop reads the
last generation back from its file (the first one has it in memory),
computes the next rows into `next_generation_matrix`, takes that as
`matrix`, lays the rows out as text in a new buffer of `2 * n` bytes a row
and writes it byte by byte into the file of the new generation.

`SeqInv G s` says that `G` is the generation the loop stands at; one turn
takes it to `G.step` (`seqGeneration_eq`), `k` turns to the `k`-th iterate
(`seqLoop_eq`), and the last file becomes `output.matrix`
(`sequentialMode_eq`). The loop has no defined continuation past generation
`10 ^ 8 - 1`, whose name is the last one that fits in
`generation_filename` (`seqLoop_count_lt`).
-/
import Mathlib
import LinuxProg.Life.Files

namespace LinuxProg
namespace Life

open Buffers Records

/-- A row as text: after cell `k` a newline if `last k`, else a blank. -/
def formatRow (last : ℕ → Bool) (n : ℕ) (src row : List Char) : Option (List Char) :=
  (List.range n).foldlM (fun row k => do
    let c ← src[k]?
    let row ← setAt row (2 * k) c
    setAt row (2 * k + 1) (if last k then '\n' else ' ')) row

/-- Row `i` of the text that case 2 builds from `matrix` in the new
`next_generation_matrix`. -/
def formatSequential (n : ℕ) (matrix : CharMatrix) (next : CharMatrix) (i : ℕ) :
    Option CharMatrix := do
  let src ← matrix[i]?
  let row ← next[i]?
  let row ← formatRow (fun k => 2 * k == 2 * n - 2) n src row
  pure (next.set i row)

/-- `write(fd,&next[i][j],1)` for every `i < m` and `j < 2n`, on the file
just truncated. -/
def writeBytes (m n : ℕ) (next : CharMatrix) : List Char :=
  (((next.take m).flatMap (·.take (2 * n))).foldl
    (fun (s : List Char × ℕ) b => (pwrite '\x00' s.1 s.2 [b], s.2 + 1)) ([], 0)).1

/-- The variables of the generation loop of case 2. -/
structure SeqSt where
  fs : Fs
  name : FileName
  count : ℕ
  matrix : CharMatrix
  next : CharMatrix
  buf : TmpBuffer

/-- From the second generation on, the matrix is read back from the file of
the last one. -/
def reread (m n : ℕ) (s : SeqSt) : Option (CharMatrix × TmpBuffer) :=
  if s.count = 0 then some (s.matrix, s.buf)
  else do
    let name ← sprintfGen s.count
    let file ← s.fs name
    (List.range m).foldlM (readRowTmp (2 * n) file) (s.matrix, s.buf)

/-- All rows of the next generation. -/
def nextMatrix (m n : ℕ) (matrix next : CharMatrix) : Option CharMatrix :=
  (List.range m).foldlM (fun nx i => getNextGenerationMatrix matrix nx i (m - 1) (n - 1)) next

/-- One turn of the generation loop of case 2. -/
def seqGeneration (m n : ℕ) (s : SeqSt) : Option SeqSt := do
  let (matrix, buf) ← reread m n s
  let name ← sprintfGen (s.count + 1)
  let matrix ← nextMatrix m n matrix s.next
  let next ← (List.range m).foldlM (formatSequential n matrix) (mallocMatrix m (2 * n))
  pure { fs := Function.update s.fs name (some (writeBytes m n next)), name := name,
         count := s.count + 1, matrix := matrix, next := next, buf := buf }

def seqLoop (m n : ℕ) : ℕ → SeqSt → Option SeqSt
  | 0, s => some s
  | k + 1, s => (seqGeneration m n s).bind (seqLoop m n k)

/-- Menu case 2 with `generation_number = k`. -/
def sequentialMode (argv1 : FileName) (k : ℕ) (st : Main) : Option Main := do
  let (st, matrix) ← readInput argv1 st
  let s ← seqLoop st.m st.n k ⟨st.fs, st.generationFilename, 0, matrix,
    mallocMatrix st.m st.n, st.tmpBuffer⟩
  pure { st with fs := rename s.fs s.name outputName, generationFilename := s.name,
                 tmpBuffer := s.buf }

/-! ### File names -/

theorem length_genName (count : ℕ) :
    (genName count).length = (Nat.toDigits 10 count).length + 11 := by
  simp only [genName, List.length_append]
  have h1 : "gen_".toList.length = 4 := by decide
  have h2 : ".matrix".toList.length = 7 := by decide
  omega

/-- The name fits in its 20 bytes up to eight digits. -/
theorem sprintfGen_eq_some {count : ℕ} {name : FileName} :
    sprintfGen count = some name ↔ count < 10 ^ 8 ∧ genName count = name := by
  have hiff : (genName count).length + 1 ≤ 20 ↔ count < 10 ^ 8 := by
    rw [length_genName, ← Nat.length_toDigits_le_iff (by omega) (by omega : 0 < 8)]
    omega
  rw [sprintfGen]
  split
  · rename_i h
    rw [Option.some.injEq]
    exact ⟨fun he => ⟨hiff.mp h, he⟩, fun he => he.2⟩
  · rename_i h
    simp only [reduceCtorEq, false_iff, not_and]
    intro hlt
    exact absurd (hiff.mpr hlt) h

theorem rename_new {fs : Fs} {old new : FileName} {file : List Char} (h : fs old = some file) :
    rename fs old new new = some file := by
  simp [rename, h]

/-! ### One generation -/

namespace Table

variable (T : Table)

/-- The layout loop writes the text of the row. -/
theorem formatRow_eq {i : ℕ} (last : ℕ → Bool) {src : List Char} (row : List Char)
    (hlast : ∀ k < T.n, last k = decide (k = T.n - 1)) (hlen : row.length = 2 * T.n)
    (hsrc : ∀ j < T.n, src[j]? = some (T.char i j)) :
    formatRow last T.n src row = some (T.rowText i) := by
  have hA : ∀ k, ((List.range k).flatMap (T.pair i)).length = 2 * k := by
    intro k
    rw [length_flatMap_range (W := 2) fun _ => rfl, Nat.mul_comm]
  obtain ⟨y, hy, hP⟩ : ∃ y, formatRow last T.n src row = some y ∧
      y = (List.range T.n).flatMap (T.pair i) ++ row.drop (2 * T.n) := by
    apply foldlM_inv (P := fun k r => r = (List.range k).flatMap (T.pair i) ++ row.drop (2 * k))
    · simp
    · rintro k hk r rfl
      have hdrop : row.drop (2 * k) =
          row[2 * k] :: row[2 * k + 1] :: row.drop (2 * (k + 1)) := by
        rw [List.drop_eq_getElem_cons (by omega), List.drop_eq_getElem_cons (by omega), Nat.mul_succ]
      refine ⟨_, ?_, rfl⟩
      simp only [hsrc k hk, Option.bind_eq_bind, Option.bind_some, hlast k hk, hdrop]
      rw [setAt, if_pos (by simp [hA]), Option.bind_some, setAt, if_pos (by simp [hA])]
      rw [List.set_append_right _ _ (by rw [hA]), List.set_append_right _ _ (by rw [hA]; omega)]
      simp only [hA, Nat.sub_self, Nat.add_sub_cancel_left, List.set_cons_zero,
        List.set_cons_succ, List.range_succ, List.flatMap_append]
      simp [pair]
  rw [hy, hP, List.drop_eq_nil_of_le (by omega), List.append_nil]
  rfl

theorem Holds.row {T : Table} {matrix : CharMatrix} (h : T.Holds matrix) {i : ℕ} (hi : i < T.m) :
    ∃ src, matrix[i]? = some src ∧ ∀ j < T.n, src[j]? = some (T.char i j) := by
  have h0 := h i hi 0 T.one_le_n
  obtain ⟨src, hsrc, -⟩ := Option.bind_eq_some_iff.mp h0
  refine ⟨src, hsrc, fun j hj => ?_⟩
  have := h i hi j hj
  rwa [cell, hsrc, Option.bind_some] at this

/-- The rows laid out as text. -/
theorem formatSequential_eq {matrix : CharMatrix} (h : T.Holds matrix) :
    (List.range T.m).foldlM (formatSequential T.n matrix) (mallocMatrix T.m (2 * T.n)) =
      some ((List.range T.m).map T.rowText) := by
  set blank := List.replicate (2 * T.n) '\x00' with hblank
  obtain ⟨y, hy, hP⟩ := foldlM_inv (f := formatSequential T.n matrix) (c := T.m)
    (b := mallocMatrix T.m (2 * T.n))
    (fun i nx => nx = (List.range i).map T.rowText ++ List.replicate (T.m - i) blank)
    (by simp [mallocMatrix, hblank]) (by
      rintro i hi nx rfl
      obtain ⟨src, hsrc, hcells⟩ := h.row hi
      have hA : ((List.range i).map T.rowText).length = i := by simp
      have hsplit : List.replicate (T.m - i) blank =
          blank :: List.replicate (T.m - (i + 1)) blank := by
        rw [show T.m - i = T.m - (i + 1) + 1 by omega, List.replicate_succ]
      have hget : ((List.range i).map T.rowText ++ List.replicate (T.m - i) blank)[i]? =
          some blank := by
        rw [List.getElem?_append_right (by omega), hA, Nat.sub_self, hsplit, List.getElem?_cons_zero]
      have hrow := T.formatRow_eq (i := i) (fun k => 2 * k == 2 * T.n - 2) blank
        (fun k hk => by rw [Bool.eq_iff_iff]; simp only [beq_iff_eq, decide_eq_true_eq]; omega)
        (by simp [hblank]) hcells
      refine ⟨_, ?_, rfl⟩
      simp only [formatSequential, hsrc, hget, hrow, Option.bind_eq_bind, Option.bind_some,
        Option.pure_def, Option.some.injEq]
      rw [List.set_append_right _ _ (by omega), hA, Nat.sub_self, hsplit, List.set_cons_zero]
      simp [List.range_succ])
  rw [hy, hP, Nat.sub_self, List.replicate_zero, List.append_nil]

/-- The bytes written are the text of the table. -/
theorem writeBytes_eq : writeBytes T.m T.n ((List.range T.m).map T.rowText) = T.text := by
  have hbytes : (((List.range T.m).map T.rowText).take T.m).flatMap (·.take (2 * T.n)) = T.text := by
    rw [List.take_of_length_le (by simp), List.flatMap_map]
    apply List.flatMap_congr
    intro i _
    rw [List.take_of_length_le (by rw [T.length_rowText])]
  have h := foldl_pwrite_append '\x00' T.text []
  rw [List.length_nil] at h
  rw [writeBytes, hbytes, h]
  rfl

end Table

/-- All rows of the next generation, in a matrix with room for them. -/
theorem Grid.nextMatrix_eq (G : Grid) {matrix next : CharMatrix} (h : G.Holds matrix)
    (hroom : Room G.m G.n next) :
    ∃ next', nextMatrix G.m G.n matrix next = some next' ∧ Room G.m G.n next' ∧
      G.step.Holds next' := by
  apply foldlM_inv (P := fun i nx => Room G.m G.n nx ∧ G.step.HoldsTo i nx)
  · exact ⟨hroom, fun a ha => absurd ha (by omega)⟩
  · rintro i hi nx ⟨hM, hG⟩
    obtain ⟨r, hr, hlen⟩ := hM.row hi
    refine ⟨_, getNextGenerationMatrix_eq h hi hr hlen, ?_, ?_⟩
    · apply hM.set
      rw [List.length_append, G.step.length_row, G.step_n]
      omega
    · exact hG.succ (by rw [hM.1]; exact hi) _

/-! ### The loop -/

/-- The generation loop stands at generation `G`: in memory before the first
turn, in the last file after that. -/
structure SeqInv (G : Grid) (s : SeqSt) : Prop where
  roomMatrix : Room G.m G.n s.matrix
  roomNext : Room G.m G.n s.next
  first : s.count = 0 → G.Holds s.matrix
  later : s.count ≠ 0 → s.fs (genName s.count) = some G.text

/-- The table is read back from the file of the last generation. -/
theorem Table.reread_eq {T : Table} {s : SeqSt} {name : FileName} {file : List Char}
    (hw : 2 * T.n ≤ 20010) (h0 : s.count ≠ 0) (hname : sprintfGen s.count = some name)
    (hfile : s.fs name = some file) (hT : T.InFile file) (hroom : Room T.m T.n s.matrix) :
    ∃ matrix buf, reread T.m T.n s = some (matrix, buf) ∧ Room T.m T.n matrix ∧ T.Holds matrix := by
  obtain ⟨⟨matrix, buf⟩, hrows, hM, hh⟩ := T.readRowsTmp_eq hT hw hroom s.buf
  refine ⟨matrix, buf, ?_, hM, hh⟩
  unfold reread
  simp only [h0, ↓reduceIte, hname, hfile, Option.bind_eq_bind, Option.bind_some, hrows]

/-- What the loop computes from is the grid it stands at. -/
theorem reread_eq {G : Grid} {s : SeqSt} (hw : 2 * G.n ≤ 20010) (h : SeqInv G s)
    (hc : s.count < 10 ^ 8) :
    ∃ matrix buf, reread G.m G.n s = some (matrix, buf) ∧ G.Holds matrix := by
  by_cases h0 : s.count = 0
  · exact ⟨s.matrix, s.buf, by rw [reread, if_pos h0], h.first h0⟩
  · obtain ⟨matrix, buf, hread, -, hG⟩ := Table.reread_eq (T := G.table) hw h0
      (sprintfGen_eq_some.mpr ⟨hc, rfl⟩) (h.later h0) G.inFile_text h.roomMatrix
    exact ⟨matrix, buf, hread, hG⟩

/-- **One generation.** A turn of the loop goes to the next grid and leaves
its text in the new generation's file. -/
theorem seqGeneration_eq {G : Grid} {s : SeqSt} (hw : 2 * G.n ≤ 20010) (h : SeqInv G s)
    (hc : s.count + 1 < 10 ^ 8) :
    ∃ s', seqGeneration G.m G.n s = some s' ∧ SeqInv G.step s' ∧ s'.count = s.count + 1 ∧
      s'.fs s'.name = some G.step.text := by
  obtain ⟨matrix, buf, hread, hG⟩ := reread_eq hw h (by omega)
  obtain ⟨next, hnext, hroom, hG'⟩ := G.nextMatrix_eq hG h.roomNext
  have hform : (List.range G.m).foldlM (formatSequential G.n next) (mallocMatrix G.m (2 * G.n)) =
      some ((List.range G.m).map G.step.rowText) := G.step.table.formatSequential_eq hG'
  have hwrite : writeBytes G.m G.n ((List.range G.m).map G.step.rowText) = G.step.text :=
    G.step.table.writeBytes_eq
  refine ⟨⟨Function.update s.fs (genName (s.count + 1)) (some G.step.text), genName (s.count + 1),
    s.count + 1, next, (List.range G.m).map G.step.rowText, buf⟩, ?_, ⟨hroom, ?_, ?_, ?_⟩, rfl, ?_⟩
  · simp only [seqGeneration, hread, sprintfGen_eq_some.mpr ⟨hc, rfl⟩, hnext, hform, hwrite,
      Option.bind_eq_bind, Option.bind_some, Option.pure_def]
  · refine ⟨by simp [Grid.step_m], fun r hr => ?_⟩
    obtain ⟨i, -, rfl⟩ := List.mem_map.mp hr
    rw [G.step.length_rowText]
    omega
  · intro h0
    exact absurd h0 (Nat.succ_ne_zero _)
  · intro _
    simp
  · simp

/-- **The loop iterates the automaton.** -/
theorem seqLoop_eq : ∀ (k : ℕ) {G : Grid} {s : SeqSt}, 2 * G.n ≤ 20010 → SeqInv G s →
    s.count + k < 10 ^ 8 →
    ∃ s', seqLoop G.m G.n k s = some s' ∧
      (0 < k → s'.fs s'.name = some (Grid.step^[k] G).text)
  | 0, G, s, _, _, _ => ⟨s, rfl, fun h => absurd h (by omega)⟩
  | k + 1, G, s, hw, h, hc => by
    obtain ⟨s1, h1, hinv, hcount, hfile⟩ := seqGeneration_eq hw h (by omega)
    obtain ⟨s2, h2, hlast⟩ := seqLoop_eq k (G := G.step) hw hinv (by omega)
    rw [G.step_m, G.step_n] at h2
    refine ⟨s2, by rw [seqLoop, h1, Option.bind_some, h2], fun _ => ?_⟩
    rw [Function.iterate_succ_apply]
    rcases Nat.eq_zero_or_pos k with rfl | hk
    · obtain rfl : s1 = s2 := by simpa [seqLoop] using h2
      exact hfile
    · exact hlast hk

/-- A turn that ends had room for the name of its generation. -/
theorem seqGeneration_count {m n : ℕ} {s s' : SeqSt} (h : seqGeneration m n s = some s') :
    s'.count = s.count + 1 ∧ s'.count < 10 ^ 8 := by
  simp only [seqGeneration, Option.bind_eq_bind, Option.bind_eq_some_iff, Option.pure_def,
    Option.some.injEq, sprintfGen_eq_some] at h
  obtain ⟨_, -, _, ⟨hlt, -⟩, _, -, _, -, rfl⟩ := h
  exact ⟨rfl, hlt⟩

/-- A loop that ends stayed below generation `10 ^ 8`. -/
theorem seqLoop_count_lt {m n : ℕ} : ∀ (k : ℕ) {s s' : SeqSt}, seqLoop m n k s = some s' → 0 < k →
    s.count + k < 10 ^ 8
  | 0, _, _, _, h => by omega
  | k + 1, s, s', h, _ => by
    rw [seqLoop] at h
    obtain ⟨s1, h1, h2⟩ := Option.bind_eq_some_iff.mp h
    obtain ⟨hcount, hlt⟩ := seqGeneration_count h1
    rcases Nat.eq_zero_or_pos k with rfl | hk
    · omega
    · have := seqLoop_count_lt k h2 hk
      omega

/-! ### The command -/

/-- **Menu case 2.** On a grid that fits, `output.matrix` becomes the text of
the `k`-th generation. -/
theorem sequentialMode_eq {argv1 : FileName} {G : Grid} {nl : Bool} (st : Main) {k : ℕ}
    (hfs : st.fs argv1 = some (G.inputText nl)) (hw : 2 * G.n ≤ 20010) (hm : G.m < 2 ^ 31)
    (hst : st.m = 0 ∨ st.m = G.m) (hk : 0 < k) (hk' : k < 10 ^ 8) :
    ∃ st', sequentialMode argv1 k st = some st' ∧
      st'.fs outputName = some (Grid.step^[k] G).text := by
  obtain ⟨matrix, buf, hread, hroom, hG⟩ := readInput_text st hfs hw hm hst
  obtain ⟨s, hloop, hfile⟩ := seqLoop_eq k (G := G)
    (s := ⟨st.fs, st.generationFilename, 0, matrix, mallocMatrix G.m G.n, buf⟩) hw
    ⟨hroom, room_mallocMatrix G.m le_rfl, fun _ => hG, fun h => absurd rfl h⟩
    (by simpa using hk')
  refine ⟨⟨G.m, G.n, s.buf, s.name, rename s.fs s.name outputName⟩, ?_, rename_new (hfile hk)⟩
  simp only [sequentialMode, hread, hloop, Option.bind_eq_bind, Option.bind_some, Option.pure_def]

/-- A command that ends computed fewer than `10 ^ 8` generations. -/
theorem sequentialMode_count_lt {argv1 : FileName} {st st' : Main} {k : ℕ}
    (h : sequentialMode argv1 k st = some st') (hk : 0 < k) : k < 10 ^ 8 := by
  simp only [sequentialMode, Option.bind_eq_bind, Option.bind_eq_some_iff] at h
  obtain ⟨_, -, s, hloop, -⟩ := h
  simpa using seqLoop_count_lt k hloop hk

end Life
end LinuxProg
