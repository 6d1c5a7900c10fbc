/-
# The menu

The loop of `main` in `리시프설계.c`: commands 2, 3 and 4 in any order and any
number, on one input file. Between commands `m`, `n`, `tmp_buffer`,
`generation_filename` and the files survive; `m` is counted only while it is
0. A forked child that leaves the defined behaviour of C has its own address
space: the parent's variables are those of a run without it, but nothing is
known of the files afterwards (`Exec.childFault`). What lies behind `status` is
the same for all thread commands of a session; where their joins do harm none of
them comes to an end.

Whatever was run before, `m` is 0 or the grid's row count (`session_m`), so
the sequential mode computes the `k`-th generation of the file's grid
(`sequential_iff`).
-/
import Mathlib
import LinuxProg.Life.Process
import LinuxProg.Life.Thread

namespace LinuxProg
namespace Life

/-- A menu command with its inputs; a thread command also with the schedules
of its generations. -/
inductive Cmd where
  | sequential (k : ℕ)
  | process (k : ℕ) (processNumber : ℤ)
  | thread (k : ℕ) (threadNumber : ℤ) (sched : ℕ → List ℕ)
  | other

/-- A command that comes to its end. -/
inductive Exec (behind : Behind) (argv1 : FileName) : Cmd → Main → Main → Prop where
  | sequential {k : ℕ} {st st' : Main} :
      sequentialMode argv1 k st = some st' → Exec behind argv1 (.sequential k) st st'
  | process {k : ℕ} {p : ℤ} {st st' : Main} {rows : List (List ℕ)} :
      processMode argv1 k p st = .ok (st', rows) → Exec behind argv1 (.process k p) st st'
  | childFault {k : ℕ} {p : ℤ} {st st1 : Main} {matrix : CharMatrix} {fs : Fs}
      {name : FileName} : processMode argv1 k p st = .error .child →
      readInput argv1 st = some (st1, matrix) →
      Exec behind argv1 (.process k p) st { st1 with fs := fs, generationFilename := name }
  | thread {k : ℕ} {p : ℤ} {sched : ℕ → List ℕ} {st st' : Main} {rows : List (List ℕ)} :
      threadMode behind sched argv1 k p st = .ok (st', rows) → Exec behind argv1 (.thread k p sched) st st'
  | other {st : Main} : Exec behind argv1 .other st st

/-- Commands one after the other, with the input file unchanged throughout. -/
inductive Session (behind : Behind) (argv1 : FileName) (input : List Char) : Main → Main → Prop where
  | refl {st : Main} : st.fs argv1 = some input → Session behind argv1 input st st
  | tail {c : Cmd} {st st1 st2 : Main} : Session behind argv1 input st st1 →
      Exec behind argv1 c st1 st2 → st2.fs argv1 = some input → Session behind argv1 input st st2

theorem Session.input {behind : Behind} {argv1 : FileName} {input : List Char} {st st' : Main}
    (h : Session behind argv1 input st st') : st'.fs argv1 = some input := by
  cases h with
  | refl h => exact h
  | tail _ _ h => exact h

section

variable {behind : Behind} {argv1 : FileName} {G : Grid} {nl : Bool}

/-- `m` is not counted yet, or it is the grid's. -/
def Counted (G : Grid) (m : ℕ) : Prop := m = 0 ∨ (m = G.m ∧ G.m < 2 ^ 31)

theorem readInput_m {st : Main} (st1 : Main) {matrix : CharMatrix}
    (hfs : st.fs argv1 = some (G.inputText nl)) (hw : 2 * G.n ≤ 20010) (hc : Counted G st.m)
    (h : readInput argv1 st = some (st1, matrix)) : Counted G st1.m := by
  have hm : G.m < 2 ^ 31 := by
    rcases hc with h0 | ⟨-, hlt⟩
    · exact readInput_lt st hfs hw h0 h
    · exact hlt
  obtain ⟨matrix', buf, hread, -⟩ := readInput_text st hfs hw hm (hc.imp_right And.left)
  rw [hread, Option.some.injEq, Prod.mk.injEq] at h
  exact Or.inr ⟨by rw [← h.1], hm⟩

theorem workerMode_m {work : ℕ → ℕ → ℕ → ℕ → Work} {k : ℕ} {p : ℤ} {st st' : Main}
    {rows : List (List ℕ)} (h : workerMode work argv1 k p st = .ok (st', rows)) :
    ∃ st1 matrix, readInput argv1 st = some (st1, matrix) ∧ st'.m = st1.m := by
  rw [workerMode] at h
  cases hread : readInput argv1 st with
  | none => rw [hread] at h; cases h
  | some sm =>
    refine ⟨sm.1, sm.2, rfl, ?_⟩
    rw [hread] at h
    simp only [orFault, bind, Except.bind, pure, Except.pure] at h
    split at h
    · cases h
    · split at h
      · cases h
      · simp only [Except.ok.injEq, Prod.mk.injEq] at h
        rw [← h.1]

/-- A command leaves `m` as it was or counts it. -/
theorem exec_m {c : Cmd} {st st' : Main} (hfs : st.fs argv1 = some (G.inputText nl))
    (hw : 2 * G.n ≤ 20010) (hc : Counted G st.m) (h : Exec behind argv1 c st st') : Counted G st'.m := by
  cases h with
  | sequential h =>
    simp only [sequentialMode, Option.bind_eq_bind, Option.bind_eq_some_iff, Option.pure_def,
      Option.some.injEq] at h
    obtain ⟨⟨st1, matrix⟩, hread, s, -, rfl⟩ := h
    exact readInput_m st1 hfs hw hc hread
  | process h =>
    obtain ⟨st1, matrix, hread, hm⟩ := workerMode_m h
    rw [hm]
    exact readInput_m st1 hfs hw hc hread
  | @childFault _ _ _ st1 _ _ _ _ hread => exact readInput_m st1 hfs hw hc hread
  | thread h =>
    obtain ⟨st1, matrix, hread, hm⟩ := workerMode_m h
    rw [hm]
    exact readInput_m st1 hfs hw hc hread
  | other => exact hc

/-- Over whole sessions `m` is 0 or the grid's row count. -/
theorem session_m {st st' : Main} (hw : 2 * G.n ≤ 20010)
    (h : Session behind argv1 (G.inputText nl) st st') (hc : Counted G st.m) : Counted G st'.m := by
  induction h with
  | refl _ => exact hc
  | tail hs he _ ih => exact exec_m hs.input hw (ih hc) he

/-- The sequential command runs to its end only on fewer than `2 ^ 31` rows
and for fewer than `10 ^ 8` generations. -/
theorem sequential_necessary {st st' : Main} {k : ℕ} (hw : 2 * G.n ≤ 20010) (hc : Counted G st.m)
    (hfs : st.fs argv1 = some (G.inputText nl)) (hk : 0 < k)
    (h : sequentialMode argv1 k st = some st') : k < 10 ^ 8 ∧ G.m < 2 ^ 31 := by
  refine ⟨sequentialMode_count_lt h hk, ?_⟩
  rcases hc with h0 | ⟨-, hlt⟩
  · simp only [sequentialMode, Option.bind_eq_bind, Option.bind_eq_some_iff] at h
    obtain ⟨sm, hread, -⟩ := h
    exact readInput_lt st hfs hw h0 hread
  · exact hlt

/-- **The sequential mode iterates the automaton**, after any session on the
same file whose commands have come to an end: `output.matrix` is the text of the
`k`-th generation, exactly if the names of `k` generations fit in
`generation_filename` and the row count in an `int`. -/
theorem sequential_iff {fs : Fs} {buf : TmpBuffer} {st : Main} {k : ℕ} (hw : 2 * G.n ≤ 20010)
    (hs : Session behind argv1 (G.inputText nl) (.start fs buf) st) (hk : 1 ≤ k) :
    (∃ st', sequentialMode argv1 k st = some st' ∧
        st'.fs outputName = some (Grid.step^[k] G).text) ↔ k < 10 ^ 8 ∧ G.m < 2 ^ 31 := by
  have hc : Counted G st.m := session_m hw hs (Or.inl rfl)
  constructor
  · rintro ⟨st', h, -⟩
    exact sequential_necessary hw hc hs.input hk h
  · rintro ⟨hk', hm⟩
    exact sequentialMode_eq st hs.input hw hm (hc.imp_right And.left) hk hk'

theorem sequential_square : ∃ st', sequentialMode ['a'] 2
      (.start (oneFile ['a'] (square.inputText false)) .blank) = some st' ∧
    st'.fs outputName = some (Grid.step^[2] square).text := by
  have hfs := oneFile_self ['a'] (square.inputText false)
  have hs : Session .unused ['a'] (square.inputText false)
      (.start (oneFile ['a'] (square.inputText false)) .blank)
      (.start (oneFile ['a'] (square.inputText false)) .blank) :=
    .tail (.refl hfs) .other hfs
  exact (sequential_iff (by decide) hs (by decide)).mpr ⟨by decide, by decide⟩

/-- A hundred million generations: the last name needs 21 bytes. -/
theorem sequential_name_overflow : ¬ ∃ st', sequentialMode ['a'] (10 ^ 8)
      (.start (oneFile ['a'] (square.inputText true)) .blank) = some st' ∧
    st'.fs outputName = some (Grid.step^[10 ^ 8] square).text := by
  rintro ⟨st', h, -⟩
  have := sequentialMode_count_lt h (by decide)
  omega

end

end Life
end LinuxProg
