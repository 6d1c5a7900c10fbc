/-
# The generation loop of the parallel modes

Cases 3 and 4 of `리시프설계.c` share everything but who computes the rows:
they read the input as case 2 does, give each worker `handle_number` rows,
read every later generation back through a local `get_buffer` (bytes a short
read leaves uninitialised have no defined value), truncate the file of the
new generation, let the workers fill it, and rename the last file.

The loop is stated over the work of one generation, `Work`: from the
generation's number, `matrix`, `next_generation_matrix` and the empty file to
the file, the matrix and the rows handed to `get_next_generation_matrix`, in
order. If the work takes a matrix with a grid to the text of its next
generation (`Computes`), the loop iterates the automaton (`genLoop_eq`).
-/
import Mathlib
import LinuxProg.Life.Sequential

namespace LinuxProg
namespace Life

open Buffers Records

/-- Why a command has no defined result: the program itself leaves the
defined behaviour of C, a forked child does, or a thread never ends. -/
inductive Fault where
  | undefined | child | notJoined
  deriving DecidableEq, Repr

def orFault {α : Type} (e : Fault) : Option α → Except Fault α
  | some a => .ok a
  | none => .error e

/-- `if(m % p) m / p + 1; else m / p;`. -/
def handleNumber (m p : ℕ) : ℕ := if m % p ≠ 0 then m / p + 1 else m / p

/-- One row of `2 * n` bytes through `get_buffer`. -/
def readRowGet (n : ℕ) (file : List Char) (matrix : CharMatrix) (i : ℕ) : Option CharMatrix := do
  let row ← matrix[i]?
  let row ← readRow (2 * n) (pread file (i * (2 * n)) (2 * n)) row
  pure (matrix.set i row)

/-- What the workers of one generation leave. -/
structure Done where
  file : List Char
  next : CharMatrix
  rows : List ℕ

/-- The work of generation `g` on `matrix` and `next_generation_matrix`. -/
abbrev Work := ℕ → CharMatrix → CharMatrix → Except Fault Done

/-- The variables of the generation loop, and the rows computed in each
generation so far. -/
structure GenSt where
  fs : Fs
  name : FileName
  count : ℕ
  matrix : CharMatrix
  next : CharMatrix
  rows : List (List ℕ)

def rereadGet (m n : ℕ) (s : GenSt) : Option CharMatrix :=
  if s.count = 0 then some s.matrix
  else do
    let name ← sprintfGen s.count
    let file ← s.fs name
    (List.range m).foldlM (readRowGet n file) s.matrix

/-- One turn of the generation loop of cases 3 and 4. -/
def generation (m n : ℕ) (work : Work) (s : GenSt) : Except Fault GenSt := do
  let matrix ← orFault .undefined (rereadGet m n s)
  let name ← orFault .undefined (sprintfGen (s.count + 1))
  let done ← work s.count matrix s.next
  pure { fs := Function.update s.fs name (some done.file), name := name, count := s.count + 1,
         matrix := matrix, next := done.next, rows := s.rows ++ [done.rows] }

def genLoop (m n : ℕ) (work : Work) : ℕ → GenSt → Except Fault GenSt
  | 0, s => .ok s
  | k + 1, s => (generation m n work s).bind (genLoop m n work k)

/-- Cases 3 and 4 with `generation_number = k` and `workers` processes or
threads: the new state and the rows computed in each generation. A count of 0
divides by zero; with a negative count there is no worker. -/
def workerMode (work : ℕ → ℕ → ℕ → ℕ → Work) (argv1 : FileName) (k : ℕ) (workers : ℤ)
    (st : Main) : Except Fault (Main × List (List ℕ)) := do
  let (st, matrix) ← orFault .undefined (readInput argv1 st)
  if workers = 0 then throw .undefined
  let p := workers.toNat
  let s ← genLoop st.m st.n (work st.m st.n p (handleNumber st.m p)) k
    ⟨st.fs, st.generationFilename, 0, matrix, mallocMatrix st.m st.n, []⟩
  pure ({ st with fs := rename s.fs s.name outputName, generationFilename := s.name }, s.rows)

theorem orFault_eq_ok {α : Type} {e : Fault} {o : Option α} {a : α} :
    orFault e o = .ok a ↔ o = some a := by
  cases o <;> simp [orFault]

/-! ### The share of a worker -/

/-- With `p ≥ 1` workers the shares cover the rows, and `handle_number - 1`
rows each would not. -/
theorem handleNumber_bounds {m p : ℕ} (hp : 0 < p) :
    m ≤ p * handleNumber m p ∧ p * handleNumber m p < m + p := by
  have hdm := Nat.div_add_mod m p
  have hlt := Nat.mod_lt m hp
  unfold handleNumber
  split
  · rw [Nat.mul_add]
    omega
  · omega

theorem handleNumber_pos {m p : ℕ} (hp : 0 < p) (hm : 0 < m) : 0 < handleNumber m p := by
  apply Nat.pos_of_ne_zero
  intro h
  have := (handleNumber_bounds (m := m) hp).1
  rw [h] at this
  omega

theorem handleNumber_zero (p : ℕ) : handleNumber 0 p = 0 := by simp [handleNumber]

theorem Grid.m_lt (G : Grid) (hoff : (G.m - 1) * 2 * G.n < 2 ^ 31) : G.m < 2 ^ 30 := by
  have hm := G.two_le_m
  have : (G.m - 1) * 2 * 2 ≤ (G.m - 1) * 2 * G.n := Nat.mul_le_mul_left _ G.two_le_n
  omega

/-- `tmp_write`: the text of a row. -/
theorem Table.tmpWrite_eq (T : Table) {index : ℕ} (src : List Char)
    (hsrc : ∀ j < T.n, src[j]? = some (T.char index j)) :
    formatRow (fun k => k == T.n - 1) T.n src (List.replicate (2 * T.n) '\x00') =
      some (T.rowText index) := by
  apply T.formatRow_eq (fun k => k == T.n - 1) (List.replicate (2 * T.n) '\x00')
  · intro k _
    rw [Bool.eq_iff_iff, beq_iff_eq, decide_eq_true_eq]
  · exact List.length_replicate
  · exact hsrc

theorem tmpWrite_eq {G : Grid} {index : ℕ} (src : List Char)
    (hsrc : ∀ j < G.n, src[j]? = some (Grid.digit (G.step.live index j))) :
    formatRow (fun k => k == G.n - 1) G.n src (List.replicate (2 * G.n) '\x00') =
      some (G.step.rowText index) :=
  G.step.table.tmpWrite_eq src hsrc

/-- The first row of any worker is an `int` if the last offset of the file is
one. -/
theorem start_lt {G : Grid} {p t : ℕ} (hp : p < 2 ^ 31) (ht : t < p)
    (hoff : (G.m - 1) * 2 * G.n < 2 ^ 31) : t * handleNumber G.m p < 2 ^ 31 := by
  have hm := G.two_le_m
  obtain ⟨-, hb⟩ := handleNumber_bounds (m := G.m) (p := p) (by omega)
  have hm30 := G.m_lt hoff
  rcases Nat.lt_or_ge G.m p with h | h
  · -- more workers than rows: one row each
    have h1 : handleNumber G.m p = 1 := by
      rw [handleNumber, Nat.mod_eq_of_lt h, Nat.div_eq_of_lt h, if_pos (by omega)]
    rw [h1]
    omega
  · have : t * handleNumber G.m p ≤ p * handleNumber G.m p :=
      Nat.mul_le_mul_right _ (Nat.le_of_lt ht)
    omega

/-! ### The loop -/

/-- The work takes a matrix with a grid of these sizes to the text of the next
generation, and computes every row once. -/
def Computes (m n : ℕ) (work : Work) : Prop :=
  ∀ (G : Grid) (g : ℕ) (matrix next : CharMatrix), G.m = m → G.n = n → G.Holds matrix →
    Room m n next → work g matrix next ≠ .error .notJoined →
    ∃ done, work g matrix next = .ok done ∧ done.file = G.step.text ∧ Room m n done.next ∧
      done.rows.Perm (List.range m)

/-- The loop stands at generation `G`, and every generation so far computed
every row once. -/
structure GenInv (G : Grid) (s : GenSt) : Prop where
  roomMatrix : Room G.m G.n s.matrix
  roomNext : Room G.m G.n s.next
  first : s.count = 0 → G.Holds s.matrix
  later : s.count ≠ 0 → s.fs (genName s.count) = some G.text
  rows : s.rows.length = s.count ∧ ∀ r ∈ s.rows, r.Perm (List.range G.m)

theorem Table.readRowsGet_eq (T : Table) {file : List Char} (h : T.InFile file)
    {matrix : CharMatrix} (hroom : Room T.m T.n matrix) :
    ∃ M, (List.range T.m).foldlM (readRowGet T.n file) matrix = some M ∧ Room T.m T.n M ∧
      T.Holds M := by
  apply foldlM_inv (P := fun i (M : CharMatrix) => Room T.m T.n M ∧ T.HoldsTo i M)
  · exact ⟨hroom, fun a ha => absurd ha (by omega)⟩
  · rintro i hi M ⟨hM, hT⟩
    obtain ⟨r, hr, hlen⟩ := hM.row hi
    have hrow := T.readRow_eq hlen fun j hj => T.pread_getElem? h hi hj
    refine ⟨M.set i (T.row i ++ r.drop T.n), ?_, ?_, ?_⟩
    · simp only [readRowGet, hr, Option.bind_eq_bind, Option.bind_some, hrow, Option.pure_def]
    · apply hM.set
      rw [List.length_append, T.length_row]
      omega
    · exact hT.succ (by rw [hM.1]; exact hi) _

theorem Table.rereadGet_eq {T : Table} {s : GenSt} {name : FileName} {file : List Char}
    (h0 : s.count ≠ 0) (hname : sprintfGen s.count = some name) (hfile : s.fs name = some file)
    (hT : T.InFile file) (hroom : Room T.m T.n s.matrix) :
    ∃ M, rereadGet T.m T.n s = some M ∧ Room T.m T.n M ∧ T.Holds M := by
  obtain ⟨M, hrows, hM, hh⟩ := T.readRowsGet_eq hT hroom
  refine ⟨M, ?_, hM, hh⟩
  unfold rereadGet
  simp only [h0, ↓reduceIte, hname, hfile, Option.bind_eq_bind, Option.bind_some, hrows]

theorem rereadGet_eq {G : Grid} {s : GenSt} (h : GenInv G s) (hc : s.count < 10 ^ 8) :
    ∃ M, rereadGet G.m G.n s = some M ∧ Room G.m G.n M ∧ G.Holds M := by
  by_cases h0 : s.count = 0
  · exact ⟨s.matrix, by rw [rereadGet, if_pos h0], h.roomMatrix, h.first h0⟩
  · exact Table.rereadGet_eq (T := G.table) h0 (sprintfGen_eq_some.mpr ⟨hc, rfl⟩) (h.later h0)
      G.inFile_text h.roomMatrix

theorem generation_eq {G : Grid} {work : Work} {s : GenSt} (hwork : Computes G.m G.n work)
    (h : GenInv G s) (hc : s.count + 1 < 10 ^ 8)
    (hj : generation G.m G.n work s ≠ .error .notJoined) :
    ∃ s', generation G.m G.n work s = .ok s' ∧ GenInv G.step s' ∧ s'.count = s.count + 1 ∧
      s'.fs s'.name = some G.step.text := by
  obtain ⟨M, hread, hM, hG⟩ := rereadGet_eq h (by omega)
  have hname : sprintfGen (s.count + 1) = some (genName (s.count + 1)) :=
    sprintfGen_eq_some.mpr ⟨hc, rfl⟩
  simp only [generation, hread, hname, orFault, pure, Except.pure, bind, Except.bind] at hj ⊢
  have hj' : work s.count M s.next ≠ .error .notJoined := by
    intro he
    rw [he] at hj
    exact hj rfl
  obtain ⟨done, hdone, hfile, hroom, hrows⟩ := hwork G s.count M s.next rfl rfl hG h.roomNext hj'
  rw [hdone]
  refine ⟨_, rfl, ⟨hM, hroom, fun h0 => absurd h0 (Nat.succ_ne_zero _), fun _ => ?_, ?_, ?_⟩,
    rfl, ?_⟩
  · simp [hfile]
  · simp [h.rows.1]
  · intro r hr
    rcases List.mem_append.mp hr with hr | hr
    · exact h.rows.2 r hr
    · rw [List.mem_singleton.mp hr]
      exact hrows
  · simp [hfile]

/-- **The loop iterates the automaton**, whoever computes the rows. -/
theorem genLoop_eq : ∀ (k : ℕ) {G : Grid} {work : Work} {s : GenSt}, Computes G.m G.n work →
    GenInv G s → s.count + k < 10 ^ 8 → genLoop G.m G.n work k s ≠ .error .notJoined →
    ∃ s', genLoop G.m G.n work k s = .ok s' ∧
      (s'.rows.length = s.count + k ∧ ∀ r ∈ s'.rows, r.Perm (List.range G.m)) ∧
      (0 < k → s'.fs s'.name = some (Grid.step^[k] G).text)
  | 0, G, _, s, _, h, _, _ => ⟨s, rfl, by simpa using h.rows, fun h => absurd h (by omega)⟩
  | k + 1, G, work, s, hwork, h, hc, hj => by
    have hj1 : generation G.m G.n work s ≠ .error .notJoined := by
      intro he
      rw [genLoop, he] at hj
      exact hj rfl
    obtain ⟨s1, h1, hinv, hcount, hfile⟩ := generation_eq hwork h (by omega) hj1
    rw [genLoop, h1] at hj ⊢
    obtain ⟨s2, h2, hrows, hlast⟩ := genLoop_eq k (G := G.step) hwork hinv (by omega) hj
    refine ⟨s2, h2, ⟨by omega, hrows.2⟩, fun _ => ?_⟩
    rw [Function.iterate_succ_apply]
    rcases Nat.eq_zero_or_pos k with rfl | hk
    · obtain rfl : s1 = s2 := by simpa [genLoop] using h2
      exact hfile
    · exact hlast hk

theorem orFault_ne {α : Type} {e e' : Fault} (h : e ≠ e') (o : Option α) :
    orFault e o ≠ .error e' := by
  cases o with
  | none => exact fun he => h (Except.error.inj he)
  | some a => exact fun he => by cases he

theorem bind_ne {α β : Type} {e : Fault} {x : Except Fault α} {f : α → Except Fault β}
    (hx : x ≠ .error e) (hf : ∀ a, f a ≠ .error e) : (x >>= f) ≠ .error e := by
  cases x with
  | error e' => exact fun h => hx (congrArg Except.error (Except.error.inj h))
  | ok a => exact hf a

theorem ok_ne {α : Type} {e : Fault} (a : α) : (Except.ok a : Except Fault α) ≠ .error e :=
  fun h => by cases h

/-- Workers that always end leave the loop with no thread to wait for. -/
theorem genLoop_joined {m n : ℕ} {work : Work} (hj : ∀ g M N, work g M N ≠ .error .notJoined) :
    ∀ (k : ℕ) (s : GenSt), genLoop m n work k s ≠ .error .notJoined
  | 0, s => ok_ne s
  | k + 1, s => by
    have hgen : generation m n work s ≠ .error .notJoined := by
      refine bind_ne (orFault_ne (by decide) _) fun M => ?_
      refine bind_ne (orFault_ne (by decide) _) fun name => ?_
      exact bind_ne (hj _ _ _) fun done => ok_ne _
    exact bind_ne hgen (genLoop_joined hj k)

/-- What a turn that ends did. -/
theorem generation_ok {m n : ℕ} {work : Work} {s s' : GenSt}
    (h : generation m n work s = .ok s') :
    ∃ M done, work s.count M s.next = .ok done ∧ s.count + 1 < 10 ^ 8 ∧
      s'.count = s.count + 1 ∧ s'.rows = s.rows ++ [done.rows] := by
  simp only [generation, pure, Except.pure, bind, Except.bind] at h
  split at h
  · cases h
  · rename_i M _
    split at h
    · cases h
    · rename_i hname
      split at h
      · cases h
      · rename_i done hdone
        obtain rfl := Except.ok.inj h
        exact ⟨M, done, hdone, (sprintfGen_eq_some.mp (orFault_eq_ok.mp hname)).1, rfl, rfl⟩

/-- What holds of the rows of every generation's work holds of all rows the
loop records. -/
theorem genLoop_rows {m n : ℕ} {work : Work} {Q : List ℕ → Prop}
    (hQ : ∀ g M N done, work g M N = .ok done → Q done.rows) : ∀ (k : ℕ) {s s' : GenSt},
    genLoop m n work k s = .ok s' → (∀ r ∈ s.rows, Q r) → ∀ r ∈ s'.rows, Q r
  | 0, s, s', h, hs => by
    obtain rfl := Except.ok.inj h
    exact hs
  | k + 1, s, s', h, hs => by
    rw [genLoop] at h
    cases h1 : generation m n work s with
    | error e => rw [h1] at h; cases h
    | ok s1 =>
      rw [h1] at h
      obtain ⟨M, done, hdone, -, -, hrows⟩ := generation_ok h1
      refine genLoop_rows hQ k h fun r hr => ?_
      rw [hrows] at hr
      rcases List.mem_append.mp hr with hr | hr
      · exact hs r hr
      · rw [List.mem_singleton.mp hr]
        exact hQ _ _ _ _ hdone

/-! ### Agreement with the sequential mode -/

/-- A run of a parallel mode and one of the sequential mode both end, the
parallel one computed in each of its `k` generations every row of the grid
exactly once and no other, and the two leave the same `output.matrix`. -/
def Agrees (G : Grid) (k : ℕ) (run : Except Fault (Main × List (List ℕ))) (seq : Option Main) :
    Prop :=
  ∃ st' rows st'' file, run = .ok (st', rows) ∧ seq = some st'' ∧ rows.length = k ∧
    (∀ r ∈ rows, r.Perm (List.range G.m)) ∧ st'.fs outputName = some file ∧
    st''.fs outputName = some file

section Agreement

variable {work : ℕ → ℕ → ℕ → ℕ → Work} {argv1 : FileName} {G : Grid} {nl : Bool} {fs : Fs}
  {buf : TmpBuffer} {k p : ℕ}

/-- Work that computes the next generation makes the mode agree with the
sequential one. -/
theorem workerMode_agrees (hfs : fs argv1 = some (G.inputText nl)) (hw : 2 * G.n ≤ 20010)
    (hm : G.m < 2 ^ 31) (hk : 0 < k) (hk' : k < 10 ^ 8) (hp : 0 < p)
    (hwork : Computes G.m G.n (work G.m G.n p (handleNumber G.m p)))
    (hj : workerMode work argv1 k p (.start fs buf) ≠ .error .notJoined) :
    Agrees G k (workerMode work argv1 k p (.start fs buf))
      (sequentialMode argv1 k (.start fs buf)) := by
  set st : Main := .start fs buf with hst
  obtain ⟨matrix, buf', hread, hroom, hG⟩ := readInput_text st hfs hw hm (Or.inl rfl)
  obtain ⟨st'', hseq, hout⟩ := sequentialMode_eq st hfs hw hm (Or.inl rfl) hk hk'
  have hp0 : (p : ℤ) ≠ 0 := by omega
  simp only [workerMode, hread, orFault, hp0, ↓reduceIte, Int.toNat_natCast, pure, Except.pure,
    bind, Except.bind] at hj ⊢
  set s0 : GenSt := ⟨st.fs, st.generationFilename, 0, matrix, mallocMatrix G.m G.n, []⟩ with hs0
  have hinv : GenInv G s0 := ⟨hroom, room_mallocMatrix G.m le_rfl, fun _ => hG,
    fun h => absurd rfl h, rfl, by simp [hs0]⟩
  have hj' : genLoop G.m G.n (work G.m G.n p (handleNumber G.m p)) k s0 ≠ .error .notJoined := by
    intro he
    rw [he] at hj
    exact hj rfl
  obtain ⟨s', hloop, hrows, hfile⟩ := genLoop_eq k hwork hinv (by simpa [hs0] using hk') hj'
  rw [hloop]
  exact ⟨_, s'.rows, st'', _, rfl, hseq, by simpa [hs0] using hrows.1, hrows.2,
    rename_new (hfile hk), hout⟩

/-- Workers that end for the sizes the reader finds leave nobody to wait for. -/
theorem workerMode_joined {workers : ℤ} {st : Main}
    (hj : ∀ st1 M, readInput argv1 st = some (st1, M) → ∀ g M N,
      work st1.m st1.n workers.toNat (handleNumber st1.m workers.toNat) g M N ≠
        .error .notJoined) :
    workerMode work argv1 k workers st ≠ .error .notJoined := by
  rw [workerMode]
  cases hread : readInput argv1 st with
  | none => exact fun h => by cases h
  | some sm =>
    by_cases h0 : workers = 0
    · simp only [h0, ↓reduceIte]
      exact fun h => by cases h
    · simp only [h0, ↓reduceIte]
      change (genLoop _ _ _ k _ >>= _) ≠ _
      exact bind_ne (genLoop_joined (hj _ _ hread) _ _) fun s => ok_ne _

/-- A mode that agrees had rows that fit in `tmp_buffer` and names that fit in
`generation_filename`, and what its work guarantees of its rows holds of some
order of all rows of the grid. -/
theorem agrees_necessary (hfs : fs argv1 = some (G.inputText nl)) (hk : 0 < k) (hp : 0 < p)
    (hzero : ∀ g M N done, work 0 0 p 0 g M N = .ok done → done.rows = [])
    (h : Agrees G k (workerMode work argv1 k p (.start fs buf))
      (sequentialMode argv1 k (.start fs buf))) :
    2 * G.n ≤ 20010 ∧ k < 10 ^ 8 ∧ ∀ Q : List ℕ → Prop,
      (∀ g M N done, work G.m G.n p (handleNumber G.m p) g M N = .ok done → Q done.rows) →
      ∃ r, Q r ∧ r.Perm (List.range G.m) := by
  obtain ⟨st', rows, st'', file, hrun, hseq, hlen, hperm, -⟩ := h
  have hp0 : (p : ℤ) ≠ 0 := by omega
  simp only [workerMode, pure, Except.pure, bind, Except.bind, hp0, ↓reduceIte,
    Int.toNat_natCast] at hrun
  split at hrun
  · cases hrun
  rename_i sm hread
  obtain ⟨st1, matrix⟩ := sm
  rw [orFault_eq_ok] at hread
  split at hrun
  · cases hrun
  rename_i s' hloop
  simp only [Except.ok.injEq, Prod.mk.injEq] at hrun
  obtain ⟨-, rfl⟩ := hrun
  obtain ⟨r, hr⟩ : ∃ r, r ∈ s'.rows := List.exists_mem_of_length_pos (by omega)
  have hw : 2 * G.n ≤ 20010 := by
    by_contra hwide
    obtain ⟨buf', hwread⟩ := readInput_wide (.start fs buf) hfs (by omega) rfl rfl
    rw [hwread] at hread
    simp only [Option.some.injEq, Prod.mk.injEq] at hread
    obtain ⟨rfl, rfl⟩ := hread
    simp only [handleNumber_zero] at hloop
    have hnil : r = [] := genLoop_rows (Q := (· = [])) hzero k hloop (by simp) r hr
    have hcount := (hperm r hr).length_eq
    rw [hnil, List.length_nil, List.length_range] at hcount
    have := G.two_le_m
    omega
  have hm := readInput_lt (.start fs buf) hfs hw rfl hread
  obtain ⟨matrix', buf', hread', -⟩ := readInput_text (.start fs buf) hfs hw hm (Or.inl rfl)
  rw [hread'] at hread
  simp only [Option.some.injEq, Prod.mk.injEq] at hread
  obtain ⟨rfl, rfl⟩ := hread
  refine ⟨hw, sequentialMode_count_lt hseq hk, fun Q hQ => ⟨r, ?_, hperm r hr⟩⟩
  exact genLoop_rows hQ k hloop (by simp) r hr

end Agreement

end Life
end LinuxProg
