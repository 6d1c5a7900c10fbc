/-
# The text format of the matrix files

Three places of `리시프설계.c` write a matrix as text and three read one:
case 2 lays all rows out in `next_generation_matrix` and writes them byte by
byte (`writeSequential`), a child or a thread lays one row out in `tmp_write`
and writes it at `index*2*n` (`rowWrite`); the reader at the start of a
command finds the sizes by itself (`readInput`), the generation loops read
back through `tmp_buffer` (`reread`) or `get_buffer` (`rereadGet`).

`RoundTrip T` says that they agree on the format for the table `T`: the
input reader returns the table with its sizes, what a writer produced is read
back as the table that was written, rows written in any order and each from
the matrix at the time of its write included, and writing a table that was
just read gives back its text. With rows that fit in `tmp_buffer` it holds
exactly if the offset of the last row is an `int` (`roundTrip_iff`).
-/
import Mathlib
import LinuxProg.Life.Process
import LinuxProg.Life.Thread

namespace LinuxProg
namespace Life

open Buffers Records

/-! ### The writers -/

/-- The file of a generation of case 2 that ended with `matrix`. -/
def writeSequential (m n : ℕ) (matrix : CharMatrix) : Option (List Char) := do
  let next ← (List.range m).foldlM (formatSequential n matrix) (mallocMatrix m (2 * n))
  pure (writeBytes m n next)

/-- The write of row `w.1` of `next_generation_matrix`, which is `w.2` at that
time, by a child or a thread. -/
def rowWrite (n : ℕ) (file : List Char) (w : ℕ × CharMatrix) : Option (List Char) := do
  let index ← int32 w.1
  let off ← int32 (index * 2 * n)
  let src ← w.2[index]?
  let tmpWrite ← formatRow (fun k => k == n - 1) n src (List.replicate (2 * n) '\x00')
  pure (pwrite '\x00' file off tmpWrite)

/-- A generation of case 2 leaves in its file what `writeSequential` makes of
its matrix. -/
theorem seqGeneration_writes {m n : ℕ} {s s' : SeqSt} (h : seqGeneration m n s = some s') :
    ∃ file, writeSequential m n s'.matrix = some file ∧ s'.fs s'.name = some file := by
  simp only [seqGeneration, Option.bind_eq_bind, Option.bind_eq_some_iff, Option.pure_def,
    Option.some.injEq] at h
  obtain ⟨_, -, name, -, matrix, -, next, hnext, rfl⟩ := h
  refine ⟨writeBytes m n next, ?_, Function.update_self _ _ _⟩
  simp only [writeSequential, hnext, Option.bind_eq_bind, Option.bind_some, Option.pure_def]

/-- A child computes the row and writes it from the matrix it then has. -/
theorem childRow_writes (m n : ℕ) (matrix : CharMatrix) (s : CharMatrix × List Char) (index : ℕ) :
    childRow m n matrix s index =
      (getNextGenerationMatrix matrix s.1 index (m - 1) (n - 1)).bind fun next =>
        (rowWrite n s.2 (index, next)).map fun file => (next, file) := by
  unfold childRow rowWrite
  cases hidx : int32 index with
  | none => simp [hidx]
  | some x =>
    obtain ⟨-, rfl⟩ := int32_eq_some.mp hidx
    cases hoff : int32 (index * 2 * n) <;> simp [hidx, hoff, Option.map_bind]

/-- A thread that has computed row `index` writes it from the shared matrix. -/
theorem threadFunc_writes {m n handle t i index : ℕ} {matrix : CharMatrix} {p : Pool}
    (hpc : (p.threads t).pc = .computed i index) (hidx : index < 2 ^ 31)
    (hoff : int32 (index * 2 * n) = some (p.threads t).off) :
    threadFunc m n handle matrix p t =
      (rowWrite n p.file (index, p.next)).map fun file =>
        { p.move t (.head (i + 1)) ((p.threads t).off + 2 * n) with file := file } := by
  simp [threadFunc, rowWrite, hpc, hoff, int32_eq_some.mpr ⟨hidx, rfl⟩, Option.map_bind]

/-! ### What the writers leave -/

namespace Table

variable {T : Table}

/-- Row `i` of the matrix is the table's. -/
def HoldsRow (T : Table) (i : ℕ) (matrix : CharMatrix) : Prop :=
  ∃ src, matrix[i]? = some src ∧ ∀ j < T.n, src[j]? = some (T.char i j)

theorem writeSequential_eq {matrix : CharMatrix} (h : T.Holds matrix) :
    writeSequential T.m T.n matrix = some T.text := by
  unfold writeSequential
  rw [T.formatSequential_eq h, Option.bind_eq_bind, Option.bind_some, T.writeBytes_eq]
  rfl

theorem rowWrite_eq {matrix : CharMatrix} {index : ℕ} (h : T.HoldsRow index matrix)
    (hoff : index * 2 * T.n < 2 ^ 31) (file : List Char) :
    rowWrite T.n file (index, matrix) =
      some (pwrite '\x00' file (index * (2 * T.n)) (T.rowText index)) := by
  obtain ⟨src, hsrc, hcells⟩ := h
  have hidx : index ≤ index * 2 * T.n := by
    rw [Nat.mul_assoc]
    exact Nat.le_mul_of_pos_right _ (by have := T.one_le_n; omega)
  rw [← Nat.mul_assoc]
  simp only [rowWrite, int32_eq_some.mpr ⟨(by omega : index < 2 ^ 31), rfl⟩,
    int32_eq_some.mpr ⟨hoff, rfl⟩, Option.bind_eq_bind, Option.bind_some, hsrc,
    T.tmpWrite_eq src hcells, Option.pure_def]

theorem offset_le {index : ℕ} (h : index < T.m) : index * 2 * T.n ≤ (T.m - 1) * 2 * T.n :=
  Nat.mul_le_mul_right _ (Nat.mul_le_mul_right _ (by omega))

/-- A sequence of row writes stores the rows it writes and keeps those stored
before. -/
theorem rowWrites_stored (hoff : (T.m - 1) * 2 * T.n < 2 ^ 31) :
    ∀ {writes : List (ℕ × CharMatrix)} {file : List Char},
    (∀ w ∈ writes, w.1 < T.m ∧ T.HoldsRow w.1 w.2) → file.length ≤ T.m * (2 * T.n) →
    ∃ file', writes.foldlM (rowWrite T.n) file = some file' ∧ file'.length ≤ T.m * (2 * T.n) ∧
      ∀ i, Stored (2 * T.n) T.rowText file i ∨ i ∈ writes.map Prod.fst →
        Stored (2 * T.n) T.rowText file' i
  | [], file, _, hlen => ⟨file, rfl, hlen, fun i hi => hi.resolve_right List.not_mem_nil⟩
  | (index, matrix) :: writes, file, hws, hlen => by
    obtain ⟨hlt, hrow⟩ := hws (index, matrix) List.mem_cons_self
    have hend := T.row_end_le hlt
    have hlen' : (pwrite '\x00' file (index * (2 * T.n)) (T.rowText index)).length ≤
        T.m * (2 * T.n) := by
      rw [length_pwrite, T.length_rowText]
      exact Nat.max_le.mpr ⟨hlen, hend⟩
    have hws' : ∀ w ∈ writes, w.1 < T.m ∧ T.HoldsRow w.1 w.2 := fun w hw =>
      hws w (List.mem_cons_of_mem _ hw)
    obtain ⟨file', hfold, hlen'', hst⟩ := rowWrites_stored hoff hws' hlen'
    refine ⟨file', ?_, hlen'', fun i hi => hst i ?_⟩
    · rw [List.foldlM_cons, rowWrite_eq hrow (Nat.lt_of_le_of_lt (offset_le hlt) hoff),
        Option.bind_eq_bind, Option.bind_some, hfold]
    · rw [List.map_cons, List.mem_cons] at hi
      by_cases hne : i = index
      · rw [hne]
        exact .inl (stored_pwrite_self '\x00' file (T.length_rowText index))
      · refine hi.imp (fun h => ?_) fun h => h.resolve_left hne
        exact stored_pwrite_ne '\x00' hne (T.length_rowText index) (T.length_rowText i) h

/-- Every row of the table is written once, from a matrix that holds it. -/
def Writes (T : Table) (writes : List (ℕ × CharMatrix)) : Prop :=
  (writes.map Prod.fst).Perm (List.range T.m) ∧ ∀ w ∈ writes, T.HoldsRow w.1 w.2

/-- Rows written in any order make up the text of the table. -/
theorem rowWrites_eq (hoff : (T.m - 1) * 2 * T.n < 2 ^ 31) {writes : List (ℕ × CharMatrix)}
    (h : T.Writes writes) : writes.foldlM (rowWrite T.n) [] = some T.text := by
  obtain ⟨hperm, hrows⟩ := h
  have hws : ∀ w ∈ writes, w.1 < T.m ∧ T.HoldsRow w.1 w.2 := by
    intro w hw
    refine ⟨List.mem_range.mp (hperm.mem_iff.mp ?_), hrows w hw⟩
    exact List.mem_map_of_mem hw
  obtain ⟨file, hfold, hlen, hst⟩ := rowWrites_stored hoff hws
    (show ([] : List Char).length ≤ _ from Nat.zero_le _)
  have htext : file = T.text := by
    apply eq_flatMap_of_stored T.length_rowText hlen
    intro i hi
    exact hst i (.inr (hperm.mem_iff.mpr (List.mem_range.mpr hi)))
  rw [hfold, htext]

/-- All rows from one matrix, in the order `order`. -/
theorem writes_of_holds {matrix : CharMatrix} (h : T.Holds matrix) {order : List ℕ}
    (hperm : order.Perm (List.range T.m)) : T.Writes (order.map fun i => (i, matrix)) := by
  constructor
  · rw [List.map_map, show Prod.fst ∘ (fun i => (i, matrix)) = id from rfl, List.map_id]
    exact hperm
  · intro w hw
    obtain ⟨i, hi, rfl⟩ := List.mem_map.mp hw
    exact h.row (List.mem_range.mp (hperm.mem_iff.mp hi))

/-! ### The matrix of the input reader -/

theorem matrix_getElem? {i : ℕ} (hi : i < T.m) : T.matrix[i]? = some (T.row i) := by
  simp [matrix, hi]

theorem holds_matrix (T : Table) : T.Holds T.matrix := by
  intro a ha b hb
  rw [cell, matrix_getElem? ha, Option.bind_some]
  simp [row, hb]

end Table

/-- A row keeps its length while it is read. -/
theorem readRow_length {w : ℕ} {src row row' : List Char} (h : readRow w src row = some row') :
    row'.length = row.length := by
  apply foldlM_keeps (P := fun r => r.length = row.length) ?_ rfl h
  intro r k r' hr hs
  obtain ⟨c, -, hset⟩ := Option.bind_eq_some_iff.mp hs
  unfold setAt at hset
  split at hset
  · rw [← Option.some.inj hset, List.length_set, hr]
  · cases hset

/-- Rows keep their length while the matrix is read. -/
theorem readRowsTmp_length {w c : ℕ} {file : List Char} {rows : List ℕ} {matrix matrix' : CharMatrix}
    {buf buf' : TmpBuffer} (hlen : ∀ r ∈ matrix, r.length = c)
    (h : rows.foldlM (readRowTmp w file) (matrix, buf) = some (matrix', buf')) :
    ∀ r ∈ matrix', r.length = c := by
  apply foldlM_keeps (P := fun s : CharMatrix × TmpBuffer => ∀ r ∈ s.1, r.length = c) ?_ hlen h
  rintro ⟨M, b⟩ i s' hM hs r hr
  simp only [readRowTmp, Option.bind_eq_bind, Option.bind_eq_some_iff, Option.pure_def,
    Option.some.injEq] at hs
  obtain ⟨row, hrow, row', hread, rfl⟩ := hs
  rcases List.mem_or_eq_of_mem_set hr with hr | rfl
  · exact hM r hr
  · rw [readRow_length hread]
    exact hM row (List.mem_of_getElem? hrow)

/-- A matrix of just the table's size that holds the table is its matrix. -/
theorem Table.eq_matrix {T : Table} {matrix : CharMatrix} (hm : matrix.length = T.m)
    (hn : ∀ r ∈ matrix, r.length = T.n) (h : T.Holds matrix) : matrix = T.matrix := by
  apply List.ext_getElem?
  intro i
  rcases Nat.lt_or_ge i T.m with hi | hi
  · obtain ⟨src, hsrc, hcells⟩ := h.row hi
    have hlen : src.length = T.n := hn src (List.mem_of_getElem? hsrc)
    rw [hsrc, Table.matrix_getElem? hi, Option.some.injEq]
    apply List.ext_getElem?
    intro j
    rcases Nat.lt_or_ge j T.n with hj | hj
    · rw [hcells j hj]
      simp [Table.row, hj]
    · rw [List.getElem?_eq_none (by omega), List.getElem?_eq_none (by rw [T.length_row]; exact hj)]
  · rw [List.getElem?_eq_none (by omega), List.getElem?_eq_none (by simp [Table.matrix, hi])]

/-! ### The round trip -/

/-- The file of a generation is read back as the table, through `tmp_buffer`
and through `get_buffer`, into any matrix with room for it. -/
structure ReadBack (T : Table) (file : List Char) : Prop where
  tmp : ∀ (s : SeqSt) (name : FileName), s.count ≠ 0 → sprintfGen s.count = some name →
    s.fs name = some file → Room T.m T.n s.matrix →
    ∃ matrix buf, reread T.m T.n s = some (matrix, buf) ∧ T.Holds matrix
  get : ∀ (s : GenSt) (name : FileName), s.count ≠ 0 → sprintfGen s.count = some name →
    s.fs name = some file → Room T.m T.n s.matrix →
    ∃ matrix, rereadGet T.m T.n s = some matrix ∧ T.Holds matrix

/-- The matrix was just read from the newline-terminated text of the table, by
the reader at the start of a command or by one of the generation loops. -/
inductive JustRead (T : Table) : CharMatrix → Prop
  | input {argv1 : FileName} {st st' : Main} {matrix : CharMatrix}
      (file : st.fs argv1 = some T.text) (rows : st.m = 0 ∨ st.m = T.m)
      (read : readInput argv1 st = some (st', matrix)) : JustRead T matrix
  | tmp {s : SeqSt} {name : FileName} {matrix : CharMatrix} {buf : TmpBuffer}
      (later : s.count ≠ 0) (name_eq : sprintfGen s.count = some name)
      (file : s.fs name = some T.text) (room : Room T.m T.n s.matrix)
      (read : reread T.m T.n s = some (matrix, buf)) : JustRead T matrix
  | get {s : GenSt} {name : FileName} {matrix : CharMatrix}
      (later : s.count ≠ 0) (name_eq : sprintfGen s.count = some name)
      (file : s.fs name = some T.text) (room : Room T.m T.n s.matrix)
      (read : rereadGet T.m T.n s = some matrix) : JustRead T matrix

/-- Readers and writers agree on the text of the table. -/
structure RoundTrip (T : Table) : Prop where
  /-- The input reader returns the sizes and the table; the last newline may
  be missing if there are two rows. -/
  input : ∀ (nl : Bool) (argv1 : FileName) (st : Main), nl = true ∨ 2 ≤ T.m →
    st.fs argv1 = some (T.inputText nl) → st.m = 0 ∨ st.m = T.m →
    ∃ buf, readInput argv1 st = some ({ st with m := T.m, n := T.n, tmpBuffer := buf }, T.matrix)
  /-- What case 2 writes is read back. -/
  sequential : ∀ matrix, T.Holds matrix →
    ∃ file, writeSequential T.m T.n matrix = some file ∧ ReadBack T file
  /-- What children or threads write, in any order, is read back. -/
  rows : ∀ writes, T.Writes writes →
    ∃ file, writes.foldlM (rowWrite T.n) [] = some file ∧ ReadBack T file
  /-- Writing a table just read reproduces the text. -/
  rewrite : ∀ matrix, JustRead T matrix → writeSequential T.m T.n matrix = some T.text ∧
    ∀ order : List ℕ, order.Perm (List.range T.m) →
      (order.map fun i => (i, matrix)).foldlM (rowWrite T.n) [] = some T.text

section RoundTrip

variable {T : Table}

theorem Table.m_lt (hoff : (T.m - 1) * 2 * T.n < 2 ^ 31) : T.m < 2 ^ 31 := by
  have hm := T.one_le_m
  have : (T.m - 1) * 2 * 1 ≤ (T.m - 1) * 2 * T.n := Nat.mul_le_mul_left _ T.one_le_n
  omega

/-- The input reader allocates just what the table needs. -/
theorem readInput_matrix {argv1 : FileName} {nl : Bool} {st : Main}
    (hnl : nl = true ∨ 2 ≤ T.m) (hfs : st.fs argv1 = some (T.inputText nl))
    (hw : 2 * T.n ≤ 20010) (hm : T.m < 2 ^ 31) (hst : st.m = 0 ∨ st.m = T.m) :
    ∃ buf, readInput argv1 st =
      some ({ st with m := T.m, n := T.n, tmpBuffer := buf }, T.matrix) := by
  obtain ⟨matrix, buf, hread, hroom, hT⟩ := Table.readInput_eq st hnl hfs hw hm hst
  have hlen : ∀ r ∈ matrix, r.length = T.n := by
    have h := hread
    simp only [readInput, hfs, Option.bind_eq_bind, Option.bind_some, T.rowWidth_eq hnl hw,
      Option.bind_eq_some_iff, Option.pure_def, Option.some.injEq] at h
    obtain ⟨m, -, ⟨M, buf'⟩, hrows, hM⟩ := h
    obtain rfl : M = matrix := congrArg Prod.snd hM
    apply readRowsTmp_length ?_ hrows
    intro r hr
    rw [List.eq_of_mem_replicate hr, List.length_replicate]
    omega
  rw [Table.eq_matrix hroom.1 hlen hT] at hread
  exact ⟨buf, hread⟩

theorem readBack_text (hw : 2 * T.n ≤ 20010) : ReadBack T T.text where
  tmp s name h0 hname hfile hroom := by
    obtain ⟨matrix, buf, hread, -, hT⟩ := Table.reread_eq hw h0 hname hfile T.inFile_text hroom
    exact ⟨matrix, buf, hread, hT⟩
  get s name h0 hname hfile hroom := by
    obtain ⟨matrix, hread, -, hT⟩ := Table.rereadGet_eq h0 hname hfile T.inFile_text hroom
    exact ⟨matrix, hread, hT⟩

theorem JustRead.holds (hw : 2 * T.n ≤ 20010) (hm : T.m < 2 ^ 31) {matrix : CharMatrix}
    (h : JustRead T matrix) : T.Holds matrix := by
  cases h with
  | input hfile hrows hread =>
    have hnl : true = true ∨ 2 ≤ T.m := .inl rfl
    obtain ⟨M, buf, hread', -, hT⟩ := Table.readInput_eq _ hnl hfile hw hm hrows
    rw [hread] at hread'
    rw [(Prod.mk.inj (Option.some.inj hread')).2]
    exact hT
  | tmp h0 hname hfile hroom hread =>
    obtain ⟨M, buf, hread', hT⟩ := (readBack_text hw).tmp _ _ h0 hname hfile hroom
    rw [hread] at hread'
    rw [(Prod.mk.inj (Option.some.inj hread')).1]
    exact hT
  | get h0 hname hfile hroom hread =>
    obtain ⟨M, hread', hT⟩ := (readBack_text hw).get _ _ h0 hname hfile hroom
    rw [hread] at hread'
    rw [Option.some.inj hread']
    exact hT

/-- A table whose last row can be written by a child or a thread. -/
theorem offset_lt_of_roundTrip (h : RoundTrip T) : (T.m - 1) * 2 * T.n < 2 ^ 31 := by
  have hm := T.one_le_m
  obtain ⟨file, hfold, -⟩ := h.rows _ (Table.writes_of_holds T.holds_matrix (List.Perm.refl _))
  have hall := foldlM_forall (f := rowWrite T.n) (Q := fun w => w.1 * 2 * T.n < 2 ^ 31) ?_ hfold
  · exact hall (T.m - 1, T.matrix) (List.mem_map_of_mem (List.mem_range.mpr (by omega)))
  · rintro b ⟨index, matrix⟩ b' hb
    simp only [rowWrite, Option.bind_eq_bind, Option.bind_eq_some_iff, int32_eq_some] at hb
    obtain ⟨_, ⟨-, rfl⟩, _, ⟨hlt, -⟩, -⟩ := hb
    exact hlt

/-- **One format.** For rows that fit in `tmp_buffer`, all readers and writers
agree on the table exactly if the offset of its last row is an `int`. -/
theorem roundTrip_iff (hw : 2 * T.n ≤ 20010) :
    RoundTrip T ↔ (T.m - 1) * 2 * T.n < 2 ^ 31 := by
  refine ⟨offset_lt_of_roundTrip, fun hoff => ?_⟩
  have hm := T.m_lt hoff
  refine ⟨fun nl argv1 st hnl hfs hst => ?_, fun matrix h => ?_, fun writes h => ?_,
    fun matrix h => ?_⟩
  · exact readInput_matrix hnl hfs hw hm hst
  · exact ⟨T.text, Table.writeSequential_eq h, readBack_text hw⟩
  · exact ⟨T.text, Table.rowWrites_eq hoff h, readBack_text hw⟩
  · have hT := h.holds hw hm
    refine ⟨Table.writeSequential_eq hT, fun order hperm => ?_⟩
    exact Table.rowWrites_eq hoff (Table.writes_of_holds hT hperm)

end RoundTrip

/-- One row of three cells. -/
def abc : Table := ⟨1, 3, by decide, by decide, fun _ j => ['a', ' ', '1'].getD j '0', by decide⟩

theorem roundTrip_abc : abc.text = ['a', ' ', ' ', ' ', '1', '\n'] ∧ RoundTrip abc :=
  ⟨by decide, (roundTrip_iff (by decide)).mpr (by decide)⟩

/-- Rows of the greatest width that fits, one row more than have an `int`
offset. -/
def tall : Table where
  m := 107322
  n := 10005
  one_le_m := by decide
  one_le_n := by decide
  char _ _ := '1'
  ne_newline _ _ _ _ := by decide

theorem not_roundTrip_tall : 2 * tall.n ≤ 20010 ∧ ¬ RoundTrip tall :=
  ⟨by decide, fun h => absurd (offset_lt_of_roundTrip h) (by decide)⟩

end Life
end LinuxProg
