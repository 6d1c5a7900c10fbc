/-
# The matrix files

The files of `리시프설계.c` and its readers. A file system maps names to
contents. `tmp_buffer` keeps its 20010 bytes between reads,
`generation_filename` is a `char[20]`, and `int` values are below `2 ^ 31`: a
store outside an array, a signed overflow or a failed `open` leaves the
program without a defined continuation, which is `none`. `malloc` always
succeeds; fresh rows are filled with NULs, which nothing reads.

`readInput` is the reader at the start of cases 2, 3 and 4: the row width
is the place of the first newline in the first 20010 bytes, the row count the
number of reads of that width, unless an earlier command has already set `m`.
The files hold tables of characters (`Table`), a grid's among them. On the
text of a table whose rows fit in the buffer the reader returns the table
(`Table.readInput_eq`); on one with longer rows it finds no newline, and a
program that has just started goes on with a matrix of no rows
(`readInput_wide`).
-/
import Mathlib
import LinuxProg.Lib.Records
import LinuxProg.Life.Automaton

namespace LinuxProg
namespace Life

open Buffers Records

abbrev FileName := List Char

/-- The files and their contents. -/
abbrev Fs := FileName → Option (List Char)

/-- `char tmp_buffer[20010]`. -/
structure TmpBuffer where
  bytes : List Char
  size : bytes.length = 20010

/-- `read` into the front of `tmp_buffer`. -/
def TmpBuffer.read (buf : TmpBuffer) (bs : List Char) : TmpBuffer where
  bytes := readInto buf.bytes (bs.take 20010)
  size := by rw [length_readInto, buf.size]; rw [buf.size, List.length_take]; omega

/-- What survives in `main` from one menu command to the next. -/
structure Main where
  m : ℕ
  n : ℕ
  tmpBuffer : TmpBuffer
  generationFilename : FileName
  fs : Fs

/-- The variables when the program starts. `tmp_buffer` has any content, no
file name has been built. -/
def Main.start (fs : Fs) (buf : TmpBuffer) : Main := ⟨0, 0, buf, [], fs⟩

/-- A `tmp_buffer` of NULs. -/
def TmpBuffer.blank : TmpBuffer := ⟨List.replicate 20010 '\x00', List.length_replicate⟩

/-- A file system with one file. -/
def oneFile (name : FileName) (file : List Char) : Fs :=
  Function.update (fun _ => none) name (some file)

theorem oneFile_self (name : FileName) (file : List Char) : oneFile name file name = some file :=
  Function.update_self _ _ _

/-- An `int` result, if it does not overflow. -/
def int32 (x : ℕ) : Option ℕ := if x < 2 ^ 31 then some x else none

/-- The bytes `read` returns at offset `off`. -/
def pread (file : List Char) (off count : ℕ) : List Char := (file.drop off).take count

/-- `rows` rows of `cols` bytes from `malloc`. -/
def mallocMatrix (rows cols : ℕ) : CharMatrix := List.replicate rows (List.replicate cols '\x00')

def genName (count : ℕ) : FileName :=
  "gen_".toList ++ Nat.toDigits 10 count ++ ".matrix".toList

/-- `sprintf(generation_filename,"%s%d%s","gen_",count,".matrix")`: the text
and its NUL have to fit in 20 bytes. -/
def sprintfGen (count : ℕ) : Option FileName :=
  if (genName count).length + 1 ≤ 20 then some (genName count) else none

def outputName : FileName := "output.matrix".toList

/-- `rename(old,new)`; without a file `old` it fails and changes nothing. -/
def rename (fs : Fs) (old new : FileName) : Fs :=
  match fs old with
  | none => fs
  | some file => Function.update (Function.update fs old none) new (some file)

/-! ### Readers -/

/-- The value of `n` after the search for the first newline. -/
def rowWidth (n : ℕ) (buf : TmpBuffer) : ℕ :=
  match buf.bytes.findIdx? (· == '\n') with
  | some i => i + 1
  | none => n

/-- `while(1){ if((tmp = read(fd,tmp_buffer,n)) == 0)break; m++; }` on the
rest of the file; `fuel` is more than the bytes left. -/
def countRows (n : ℕ) : ℕ → List Char → ℕ → TmpBuffer → ℕ × TmpBuffer
  | 0, _, m, buf => (m, buf)
  | fuel + 1, rest, m, buf =>
    if (rest.take n).isEmpty then (m, buf)
    else countRows n fuel (rest.drop n) (m + 1) (buf.read (rest.take n))

/-- `matrix[i][j/2] = src[j]` for the even `j < w`. -/
def readRow (w : ℕ) (src row : List Char) : Option (List Char) :=
  fillLoop ((w + 1) / 2) (fun k => src[2 * k]?) row

/-- One row of `w` bytes through `tmp_buffer`. -/
def readRowTmp (w : ℕ) (file : List Char) (s : CharMatrix × TmpBuffer) (i : ℕ) :
    Option (CharMatrix × TmpBuffer) := do
  let buf := s.2.read (pread file (i * w) w)
  let row ← s.1[i]?
  let row ← readRow w buf.bytes row
  pure (s.1.set i row, buf)

/-- The reader of cases 2, 3 and 4 up to `n/=2;`: the state with `m` and `n`
set, and the matrix. -/
def readInput (argv1 : FileName) (st : Main) : Option (Main × CharMatrix) := do
  let file ← st.fs argv1
  let buf := st.tmpBuffer.read (pread file 0 20010)
  let n := rowWidth st.n buf
  let (m, buf) := if st.m = 0 then countRows n (file.length + 1) file 0 buf else (st.m, buf)
  let m ← int32 m
  let (matrix, buf) ← (List.range m).foldlM (readRowTmp n file) (mallocMatrix m (n / 2), buf)
  pure ({ st with m := m, n := n / 2, tmpBuffer := buf }, matrix)

/-! ### A table as text -/

/-- A table of `m` rows and `n` columns of characters other than newlines;
`char i j` matters for `i < m` and `j < n`. -/
structure Table where
  m : ℕ
  n : ℕ
  one_le_m : 1 ≤ m
  one_le_n : 1 ≤ n
  char : ℕ → ℕ → Char
  ne_newline : ∀ i < m, ∀ j < n, char i j ≠ '\n'

namespace Table

variable (T : Table)

/-- A cell and what follows it: a newline after the last one of a row. -/
def pair (i j : ℕ) : List Char := [T.char i j, if j = T.n - 1 then '\n' else ' ']

def rowText (i : ℕ) : List Char := (List.range T.n).flatMap (T.pair i)

/-- The textual form of the table. -/
def text : List Char := (List.range T.m).flatMap T.rowText

/-- A file with the table; the newline of the last row may be missing. -/
def inputText (nl : Bool) : List Char := if nl then T.text else T.text.dropLast

/-- The cells of the table stand at the even places of the file's rows. -/
def InFile (file : List Char) : Prop :=
  ∀ i < T.m, ∀ j < T.n, file[i * (2 * T.n) + 2 * j]? = some (T.char i j)

/-- The cells of row `i`. -/
def row (i : ℕ) : List Char := (List.range T.n).map (T.char i)

/-- The table in memory. -/
def matrix : CharMatrix := (List.range T.m).map T.row

/-- The matrix holds the table; its rows may be longer than the table's. -/
def Holds (matrix : CharMatrix) : Prop :=
  ∀ a < T.m, ∀ b < T.n, cell matrix a b = some (T.char a b)

theorem length_row (i : ℕ) : (T.row i).length = T.n := by simp [row]

theorem length_rowText (i : ℕ) : (T.rowText i).length = 2 * T.n := by
  rw [rowText, length_flatMap_range (W := 2) fun j => rfl, Nat.mul_comm]

theorem length_text : T.text.length = T.m * (2 * T.n) :=
  length_flatMap_range T.length_rowText T.m

theorem rowText_even (i : ℕ) {j : ℕ} (hj : j < T.n) :
    (T.rowText i)[2 * j]? = some (T.char i j) := by
  have h := stored_flatMap_range (W := 2) (fun k => (rfl : (T.pair i k).length = 2)) hj 0 (by decide)
  rw [Nat.add_zero, Nat.mul_comm] at h
  exact h

theorem rowText_odd (i : ℕ) {j : ℕ} (hj : j < T.n) :
    (T.rowText i)[2 * j + 1]? = some (if j = T.n - 1 then '\n' else ' ') := by
  have h := stored_flatMap_range (W := 2) (fun k => (rfl : (T.pair i k).length = 2)) hj 1 (by decide)
  rw [Nat.mul_comm] at h
  exact h

theorem text_getElem? {i q : ℕ} (hi : i < T.m) (hq : q < 2 * T.n) :
    T.text[i * (2 * T.n) + q]? = (T.rowText i)[q]? :=
  stored_flatMap_range T.length_rowText hi q hq

theorem inFile_text : T.InFile T.text := by
  intro i hi j hj
  rw [T.text_getElem? hi (by omega), T.rowText_even i hj]

theorem length_inputText (nl : Bool) : T.m * (2 * T.n) - 1 ≤ (T.inputText nl).length ∧
    (T.inputText nl).length ≤ T.m * (2 * T.n) := by
  cases nl with
  | true => simp only [inputText, ↓reduceIte, length_text]; omega
  | false =>
    simp only [inputText, Bool.false_eq_true, ↓reduceIte, List.length_dropLast, length_text]
    omega

/-- The last byte is the only one that may be missing. -/
theorem inputText_getElem? (nl : Bool) {p : ℕ} (hp : p < (T.inputText nl).length) :
    (T.inputText nl)[p]? = T.text[p]? := by
  cases nl with
  | true => rfl
  | false =>
    simp only [inputText, Bool.false_eq_true, ↓reduceIte, List.length_dropLast] at hp ⊢
    simp [hp]

/-- Row `i` of the file ends before its end. -/
theorem row_end_le {i : ℕ} (hi : i < T.m) : i * (2 * T.n) + 2 * T.n ≤ T.m * (2 * T.n) := by
  have : (i + 1) * (2 * T.n) ≤ T.m * (2 * T.n) := Nat.mul_le_mul_right _ hi
  rw [Nat.add_mul] at this
  omega

theorem inFile_inputText (nl : Bool) : T.InFile (T.inputText nl) := by
  intro i hi j hj
  have hend := T.row_end_le hi
  have hlen := (T.length_inputText nl).1
  rw [T.inputText_getElem? nl (by omega), T.inFile_text i hi j hj]

/-- The first row and its newline are in the input, unless that newline is the
last byte and missing. -/
theorem first_row_le (nl : Bool) (hnl : nl = true ∨ 2 ≤ T.m) :
    2 * T.n ≤ (T.inputText nl).length := by
  rcases hnl with rfl | hm
  · have hend := T.row_end_le (i := 0) T.one_le_m
    rw [inputText, if_pos rfl, length_text]
    omega
  · have hend := T.row_end_le (i := 1) hm
    have hlen := (T.length_inputText nl).1
    have hn := T.one_le_n
    omega

/-- No newline stands before the end of the first row. -/
theorem text_ne_newline {p : ℕ} (hp : p < 2 * T.n - 1) : T.text[p]? ≠ some '\n' := by
  have h := T.text_getElem? (i := 0) (q := p) T.one_le_m (by omega)
  rw [Nat.zero_mul, Nat.zero_add] at h
  rw [h]
  rcases Nat.even_or_odd' p with ⟨j, rfl | rfl⟩
  · rw [T.rowText_even 0 (by omega)]
    exact fun he => T.ne_newline 0 T.one_le_m j (by omega) (Option.some.inj he)
  · rw [T.rowText_odd 0 (by omega), if_neg (by omega)]
    decide

theorem text_newline : T.text[2 * T.n - 1]? = some '\n' := by
  have hn := T.one_le_n
  have h := T.text_getElem? (i := 0) (q := 2 * T.n - 1) T.one_le_m (by omega)
  have hodd := T.rowText_odd 0 (j := T.n - 1) (by omega)
  rw [show 2 * (T.n - 1) + 1 = 2 * T.n - 1 by omega, if_pos rfl] at hodd
  rw [Nat.zero_mul, Nat.zero_add] at h
  rw [h, hodd]

end Table

/-! ### What the readers return -/

/-- `m` rows of at least `n` bytes. -/
def Room (m n : ℕ) (matrix : CharMatrix) : Prop := matrix.length = m ∧ ∀ r ∈ matrix, n ≤ r.length

theorem room_mallocMatrix (m : ℕ) {n c : ℕ} (h : n ≤ c) : Room m n (mallocMatrix m c) := by
  refine ⟨List.length_replicate, fun r hr => ?_⟩
  rw [List.eq_of_mem_replicate hr, List.length_replicate]
  exact h

theorem Room.set {m n : ℕ} {matrix : CharMatrix} (h : Room m n matrix) (i : ℕ) {r : List Char}
    (hr : n ≤ r.length) : Room m n (matrix.set i r) := by
  refine ⟨List.length_set.trans h.1, fun x hx => ?_⟩
  rcases List.mem_or_eq_of_mem_set hx with hx | rfl
  · exact h.2 x hx
  · exact hr

theorem Room.row {m n : ℕ} {matrix : CharMatrix} (h : Room m n matrix) {i : ℕ} (hi : i < m) :
    ∃ r, matrix[i]? = some r ∧ n ≤ r.length := by
  have hlt : i < matrix.length := by rw [h.1]; exact hi
  exact ⟨matrix[i], List.getElem?_eq_getElem hlt, h.2 _ (List.getElem_mem hlt)⟩

theorem cell_set_self {matrix : CharMatrix} {i : ℕ} (hi : i < matrix.length) (r : List Char)
    (b : ℕ) : cell (matrix.set i r) i b = r[b]? := by
  rw [cell, List.getElem?_set_self hi, Option.bind_some]

theorem cell_set_ne (matrix : CharMatrix) {i a : ℕ} (h : i ≠ a) (r : List Char) (b : ℕ) :
    cell (matrix.set i r) a b = cell matrix a b := by
  rw [cell, List.getElem?_set_ne h, cell]

namespace Table

variable (T : Table)

/-- The first `i` rows of the matrix are the table's. -/
def HoldsTo (i : ℕ) (matrix : CharMatrix) : Prop :=
  ∀ a < i, ∀ b < T.n, cell matrix a b = some (T.char a b)

theorem row_getElem? (i : ℕ) {b : ℕ} (hb : b < T.n) (rest : List Char) :
    (T.row i ++ rest)[b]? = some (T.char i b) := by
  rw [List.getElem?_append_left (by rw [T.length_row]; exact hb)]
  simp [row, hb]

theorem HoldsTo.succ {T : Table} {i : ℕ} {matrix : CharMatrix} (h : T.HoldsTo i matrix)
    (hi : i < matrix.length) (rest : List Char) :
    T.HoldsTo (i + 1) (matrix.set i (T.row i ++ rest)) := by
  intro a ha b hb
  rcases Nat.lt_or_ge a i with hai | hai
  · rw [cell_set_ne _ (by omega)]
    exact h a hai b hb
  · obtain rfl : a = i := by omega
    rw [cell_set_self hi, T.row_getElem? a hb]

/-- Reading the even places of a row's text stores the row. -/
theorem readRow_eq {i : ℕ} {src row : List Char} (hlen : T.n ≤ row.length)
    (hsrc : ∀ j < T.n, src[2 * j]? = some (T.char i j)) :
    readRow (2 * T.n) src row = some (T.row i ++ row.drop T.n) := by
  rw [readRow, show (2 * T.n + 1) / 2 = T.n by omega]
  exact fillLoop_eq hlen hsrc

/-- The bytes of row `i` of a file that has the table. -/
theorem pread_getElem? {file : List Char} (h : T.InFile file) {i j : ℕ} (hi : i < T.m)
    (hj : j < T.n) : (pread file (i * (2 * T.n)) (2 * T.n))[2 * j]? = some (T.char i j) := by
  rw [pread, List.getElem?_take_of_lt (by omega), List.getElem?_drop]
  exact h i hi j hj

theorem tmpRead_getElem? {file : List Char} (h : T.InFile file) (hw : 2 * T.n ≤ 20010)
    (buf : TmpBuffer) {i j : ℕ} (hi : i < T.m) (hj : j < T.n) :
    (buf.read (pread file (i * (2 * T.n)) (2 * T.n))).bytes[2 * j]? = some (T.char i j) := by
  have hx := T.pread_getElem? h hi hj
  obtain ⟨hlt, -⟩ := List.getElem?_eq_some_iff.mp hx
  have hlt' : 2 * j < ((pread file (i * (2 * T.n)) (2 * T.n)).take 20010).length := by
    rw [List.length_take]
    omega
  rw [TmpBuffer.read, readInto_getElem? buf.bytes hlt', List.getElem?_take_of_lt (by omega), hx]

/-- The loop over the rows through `tmp_buffer` stores the table row by row. -/
theorem readRowsTmp_eq {file : List Char} (h : T.InFile file) (hw : 2 * T.n ≤ 20010)
    {matrix : CharMatrix} (hroom : Room T.m T.n matrix) (buf : TmpBuffer) :
    ∃ s, (List.range T.m).foldlM (readRowTmp (2 * T.n) file) (matrix, buf) = some s ∧
      Room T.m T.n s.1 ∧ T.Holds s.1 := by
  apply foldlM_inv (P := fun i (s : CharMatrix × TmpBuffer) => Room T.m T.n s.1 ∧ T.HoldsTo i s.1)
  · exact ⟨hroom, fun a ha => absurd ha (by omega)⟩
  · rintro i hi ⟨M, buf⟩ ⟨hM, hG⟩
    obtain ⟨r, hr, hlen⟩ := hM.row hi
    have hrow := T.readRow_eq hlen fun j hj => T.tmpRead_getElem? h hw buf hi hj
    refine ⟨(M.set i (T.row i ++ r.drop T.n), buf.read (pread file (i * (2 * T.n)) (2 * T.n))),
      ?_, ?_, ?_⟩
    · simp only [readRowTmp, hr, Option.bind_eq_bind, Option.bind_some, hrow, Option.pure_def]
    · apply hM.set
      rw [List.length_append, T.length_row]
      omega
    · exact hG.succ (by rw [hM.1]; exact hi) _

/-- The first read puts the start of the text at the front of `tmp_buffer`. -/
theorem front_getElem? (nl : Bool) (buf : TmpBuffer) {p : ℕ} (hp : p < 20010)
    (hend : p < (T.inputText nl).length) :
    (buf.read (pread (T.inputText nl) 0 20010)).bytes[p]? = T.text[p]? := by
  have hlt : p < ((pread (T.inputText nl) 0 20010).take 20010).length := by
    simp only [pread, List.drop_zero, List.length_take]
    omega
  rw [TmpBuffer.read, readInto_getElem? buf.bytes hlt, List.getElem?_take_of_lt hp, pread,
    List.drop_zero, List.getElem?_take_of_lt hp, T.inputText_getElem? nl hend]

/-- The first newline of the input ends its first row. -/
theorem rowWidth_eq {nl : Bool} (hnl : nl = true ∨ 2 ≤ T.m) (hw : 2 * T.n ≤ 20010) (n : ℕ)
    (buf : TmpBuffer) : rowWidth n (buf.read (pread (T.inputText nl) 0 20010)) = 2 * T.n := by
  have hn := T.one_le_n
  have hfirst := T.first_row_le nl hnl
  have hget : ∀ p < 2 * T.n, _ = T.text[p]? := fun p hp =>
    T.front_getElem? nl buf (p := p) (by omega) (by omega)
  set buf' := buf.read (pread (T.inputText nl) 0 20010)
  have hlast := (hget (2 * T.n - 1) (by omega)).trans T.text_newline
  obtain ⟨hlt, heq⟩ := List.getElem?_eq_some_iff.mp hlast
  have hfind : buf'.bytes.findIdx? (· == '\n') = some (2 * T.n - 1) := by
    rw [List.findIdx?_eq_some_iff_getElem]
    refine ⟨hlt, by simp [heq], fun p hp => ?_⟩
    have hne := T.text_ne_newline hp
    rw [← hget p (by omega), List.getElem?_eq_getElem (by omega)] at hne
    simpa using hne
  rw [rowWidth, hfind]
  simp only
  omega

end Table

/-- The number of reads of `n > 0` bytes until the end of the file. -/
theorem countRows_fst {n : ℕ} (hn : 0 < n) : ∀ (fuel : ℕ) (rest : List Char) (m : ℕ)
    (buf : TmpBuffer), rest.length < fuel →
    (countRows n fuel rest m buf).1 = m + (rest.length + n - 1) / n
  | 0, _, _, _, h => by omega
  | fuel + 1, rest, m, buf, h => by
    rw [countRows]
    split
    · rename_i he
      have : rest = [] := by
        simp only [List.isEmpty_iff, List.take_eq_nil_iff] at he
        rcases he with he | he
        · omega
        · exact he
      subst this
      rw [List.length_nil, Nat.zero_add, Nat.div_eq_of_lt (by omega), Nat.add_zero]
    · rename_i he
      have hne : 0 < rest.length := by
        apply Nat.pos_of_ne_zero
        intro h0
        simp [List.length_eq_zero_iff.mp h0] at he
      rw [countRows_fst hn fuel _ _ _ (by rw [List.length_drop]; omega), List.length_drop]
      rcases Nat.lt_or_ge rest.length n with hlt | hge
      · have h0 : (rest.length - n + n - 1) / n = 0 := Nat.div_eq_of_lt (by omega)
        have h1 : (rest.length + n - 1) / n = 1 := Nat.div_eq_of_lt_le (by omega) (by omega)
        rw [h0, h1]
      · rw [show rest.length + n - 1 = rest.length - n + n - 1 + n by omega,
          Nat.add_div_right _ hn]
        omega

/-- A table's text has as many rows as the table. -/
theorem Table.countRows_eq (T : Table) (nl : Bool) (buf : TmpBuffer) :
    (countRows (2 * T.n) ((T.inputText nl).length + 1) (T.inputText nl) 0 buf).1 = T.m := by
  have hn := T.one_le_n
  obtain ⟨h1, h2⟩ := T.length_inputText nl
  have hend := T.row_end_le (i := 0) T.one_le_m
  rw [countRows_fst (by omega) _ _ _ _ (by omega), Nat.zero_add]
  apply Nat.div_eq_of_lt_le
  · omega
  · rw [Nat.add_mul]
    omega

theorem int32_eq_some {x y : ℕ} : int32 x = some y ↔ x < 2 ^ 31 ∧ x = y := by
  unfold int32
  split <;> simp_all

/-- **The input is read back.** On a table whose rows fit in `tmp_buffer`, in
the first command or after others on the same file, the reader sets `m` and
`n` to the table's and stores the table. -/
theorem Table.readInput_eq {argv1 : FileName} {T : Table} {nl : Bool} (st : Main)
    (hnl : nl = true ∨ 2 ≤ T.m) (hfs : st.fs argv1 = some (T.inputText nl))
    (hw : 2 * T.n ≤ 20010) (hm : T.m < 2 ^ 31) (hst : st.m = 0 ∨ st.m = T.m) :
    ∃ matrix buf, readInput argv1 st = some ({ st with m := T.m, n := T.n, tmpBuffer := buf }, matrix) ∧
      Room T.m T.n matrix ∧ T.Holds matrix := by
  have hwidth := T.rowWidth_eq hnl hw st.n st.tmpBuffer
  set buf0 := st.tmpBuffer.read (pread (T.inputText nl) 0 20010) with hbuf0
  -- the row count, whether counted now or kept from an earlier command
  obtain ⟨buf1, hcount⟩ : ∃ buf1, (if st.m = 0 then
      countRows (2 * T.n) ((T.inputText nl).length + 1) (T.inputText nl) 0 buf0
      else (st.m, buf0)) = (T.m, buf1) := by
    split
    · exact ⟨_, Prod.ext (T.countRows_eq nl buf0) rfl⟩
    · rename_i h0
      exact ⟨buf0, by rw [hst.resolve_left h0]⟩
  have hhalf : 2 * T.n / 2 = T.n := by omega
  obtain ⟨⟨matrix, buf2⟩, hrows, hroom, hT⟩ := T.readRowsTmp_eq (T.inFile_inputText nl) hw
    (room_mallocMatrix T.m (Nat.le_of_eq hhalf.symm)) buf1
  refine ⟨matrix, buf2, ?_, hroom, hT⟩
  simp only [readInput, hfs, Option.bind_eq_bind, Option.bind_some, ← hbuf0, hwidth, hcount,
    int32_eq_some.mpr ⟨hm, rfl⟩, hhalf, Option.pure_def]
  rw [hhalf] at hrows
  rw [hrows, Option.bind_some]

/-- A reader that returns in the first command found fewer than `2 ^ 31` rows. -/
theorem Table.readInput_lt {argv1 : FileName} {T : Table} {nl : Bool} (st : Main)
    {r : Main × CharMatrix} (hnl : nl = true ∨ 2 ≤ T.m)
    (hfs : st.fs argv1 = some (T.inputText nl)) (hw : 2 * T.n ≤ 20010) (hm : st.m = 0)
    (h : readInput argv1 st = some r) : T.m < 2 ^ 31 := by
  simp only [readInput, hfs, T.rowWidth_eq hnl hw, hm, ↓reduceIte, Option.bind_eq_bind,
    Option.bind_some, T.countRows_eq, Option.bind_eq_some_iff, int32_eq_some] at h
  obtain ⟨_, ⟨hlt, -⟩, -⟩ := h
  exact hlt

/-! ### Grids -/

namespace Grid

variable (G : Grid)

/-- A cell and what follows it: a newline after the last one of a row. -/
def pair (i j : ℕ) : List Char := [digit (G.live i j), if j = G.n - 1 then '\n' else ' ']

def rowText (i : ℕ) : List Char := (List.range G.n).flatMap (G.pair i)

/-- The textual form of the grid. -/
def text : List Char := (List.range G.m).flatMap G.rowText

/-- A file with the grid; the newline of the last row may be missing. -/
def inputText (nl : Bool) : List Char := if nl then G.text else G.text.dropLast

/-- The cells of the grid stand at the even places of the file's rows. -/
def InFile (file : List Char) : Prop :=
  ∀ i < G.m, ∀ j < G.n, file[i * (2 * G.n) + 2 * j]? = some (digit (G.live i j))

/-- The grid as a table of digits. -/
def table : Table where
  m := G.m
  n := G.n
  one_le_m := Nat.le_of_lt G.two_le_m
  one_le_n := Nat.le_of_lt G.two_le_n
  char i j := digit (G.live i j)
  ne_newline i _ j _ := by cases G.live i j <;> decide

theorem length_rowText (i : ℕ) : (G.rowText i).length = 2 * G.n := G.table.length_rowText i

theorem inFile_text : G.InFile G.text := G.table.inFile_text

theorem row_end_le {i : ℕ} (hi : i < G.m) : i * (2 * G.n) + 2 * G.n ≤ G.m * (2 * G.n) :=
  G.table.row_end_le hi

/-- The first `i` rows of the matrix are the grid's. -/
def HoldsTo (i : ℕ) (matrix : CharMatrix) : Prop :=
  ∀ a < i, ∀ b < G.n, cell matrix a b = some (digit (G.live a b))

theorem row_getElem? (i : ℕ) {b : ℕ} (hb : b < G.n) (rest : List Char) :
    (G.row i ++ rest)[b]? = some (digit (G.live i b)) := G.table.row_getElem? i hb rest

theorem HoldsTo.succ {G : Grid} {i : ℕ} {matrix : CharMatrix} (h : G.HoldsTo i matrix)
    (hi : i < matrix.length) (rest : List Char) :
    G.HoldsTo (i + 1) (matrix.set i (G.row i ++ rest)) :=
  Table.HoldsTo.succ (T := G.table) h hi rest

end Grid

/-- The reader on a grid. -/
theorem readInput_text {argv1 : FileName} {G : Grid} {nl : Bool} (st : Main)
    (hfs : st.fs argv1 = some (G.inputText nl)) (hw : 2 * G.n ≤ 20010) (hm : G.m < 2 ^ 31)
    (hst : st.m = 0 ∨ st.m = G.m) :
    ∃ matrix buf, readInput argv1 st = some ({ st with m := G.m, n := G.n, tmpBuffer := buf }, matrix) ∧
      Room G.m G.n matrix ∧ G.Holds matrix :=
  Table.readInput_eq (T := G.table) st (.inr G.two_le_m) hfs hw hm hst

theorem readInput_lt {argv1 : FileName} {G : Grid} {nl : Bool} (st : Main) {r : Main × CharMatrix}
    (hfs : st.fs argv1 = some (G.inputText nl)) (hw : 2 * G.n ≤ 20010) (hm : st.m = 0)
    (h : readInput argv1 st = some r) : G.m < 2 ^ 31 :=
  Table.readInput_lt (T := G.table) st (.inr G.two_le_m) hfs hw hm h

/-- A program that has just started finds no row end in rows longer than
`tmp_buffer`, and reads a matrix of no rows. -/
theorem readInput_wide {argv1 : FileName} {G : Grid} {nl : Bool} (st : Main)
    (hfs : st.fs argv1 = some (G.inputText nl)) (hw : 20010 < 2 * G.n) (hm : st.m = 0)
    (hn : st.n = 0) :
    ∃ buf, readInput argv1 st = some ({ st with m := 0, n := 0, tmpBuffer := buf }, []) := by
  have hfirst := G.table.first_row_le nl (.inr G.two_le_m)
  have hn' : G.table.n = G.n := rfl
  have hget : ∀ p < 20010, _ = G.text[p]? := fun p hp =>
    G.table.front_getElem? nl st.tmpBuffer hp (by omega)
  change ∀ p < 20010, (st.tmpBuffer.read (pread (G.inputText nl) 0 20010)).bytes[p]? = _ at hget
  set buf0 := st.tmpBuffer.read (pread (G.inputText nl) 0 20010) with hbuf0
  have hnone : buf0.bytes.findIdx? (· == '\n') = none := by
    rw [List.findIdx?_eq_none_iff]
    intro c hc
    obtain ⟨p, hp, rfl⟩ := List.mem_iff_getElem.mp hc
    have hp' : p < 20010 := by rw [← buf0.size]; exact hp
    have hne : G.text[p]? ≠ some '\n' := G.table.text_ne_newline (p := p) (by omega)
    rw [← hget p hp', List.getElem?_eq_getElem hp] at hne
    simpa using hne
  refine ⟨buf0, ?_⟩
  have hwidth : rowWidth st.n buf0 = 0 := by rw [rowWidth, hnone]; exact hn
  simp [readInput, hfs, ← hbuf0, hwidth, hm, countRows, int32, mallocMatrix]

end Life
end LinuxProg
