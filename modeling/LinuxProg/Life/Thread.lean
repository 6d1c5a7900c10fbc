/-
# The thread mode

Menu case 4 of `리시프설계.c`. All threads of a generation run `thread_func`
on the shared matrices and on one file, each through a descriptor of its own.
A thread's life is cut into the steps between which the others may run: open
the file, seek to its next row, compute that row, write it, and in the end
close. A schedule is the list of the threads that take the steps; the joins
return when every thread has ended. A join stores the 8 bytes of a thread's
result through `&status`, which has four: what lies behind `status` is a
parameter (`Behind`). The source saves `n` before the joins and restores it after
them, so the store does no harm if it hits `n`, or nothing that is used.

`PoolInv` says what the threads have done at any point of any schedule: which
rows are computed and which are in the file is read off the threads' own
counters. It is kept by every step (`step_inv`), so when all threads have
ended every row was computed once and the file is the text of the next
generation, whatever the order (`threadWork_computes`).
-/
import Mathlib
import LinuxProg.Life.Workers

namespace LinuxProg
namespace Life

open Buffers Records

/-! ### The steps of a thread -/

/-- Where a thread stands in `thread_func`: before `open`, before the test of
turn `i`, after the `lseek` to row `index`, after the row is computed, ended. -/
inductive Pc where
  | start
  | head (i : ℕ)
  | sought (i index : ℕ)
  | computed (i index : ℕ)
  | exited
  deriving DecidableEq, Repr

/-- A thread: where it stands, and the offset of its descriptor. -/
structure ThreadSt where
  pc : Pc
  off : ℕ

/-- The threads of one generation, the shared matrix and file, and the rows
computed so far. -/
structure Pool where
  threads : ℕ → ThreadSt
  next : CharMatrix
  file : List Char
  rows : List ℕ

def Pool.move (p : Pool) (t : ℕ) (pc : Pc) (off : ℕ) : Pool :=
  { p with threads := Function.update p.threads t ⟨pc, off⟩ }

/-- The next step of thread `t` (`data->myindex`). -/
def threadFunc (m n handle : ℕ) (matrix : CharMatrix) (p : Pool) (t : ℕ) : Option Pool :=
  match (p.threads t).pc with
  | .start => some (p.move t (.head 0) 0)
  | .head i =>
    if i < handle then do
      let index ← int32 (t * handle + i)
      if m ≤ index then pure (p.move t .exited (p.threads t).off)
      else do
        let off ← int32 (index * 2 * n)
        pure (p.move t (.sought i index) off)
    else some (p.move t .exited (p.threads t).off)
  | .sought i index => do
    let next ← getNextGenerationMatrix matrix p.next index (m - 1) (n - 1)
    let p := p.move t (.computed i index) (p.threads t).off
    pure { p with next := next, rows := p.rows ++ [index] }
  | .computed i index => do
    let src ← p.next[index]?
    let tmpWrite ← formatRow (fun j => j == n - 1) n src (List.replicate (2 * n) '\x00')
    let q := p.move t (.head (i + 1)) ((p.threads t).off + 2 * n)
    pure { q with file := pwrite '\x00' p.file (p.threads t).off tmpWrite }
  | .exited => some p

/-- The schedule lets thread `t` take a step, if there is one. -/
def pick (m n threadNumber handle : ℕ) (matrix : CharMatrix) (p : Pool) (t : ℕ) : Option Pool :=
  if t < threadNumber then threadFunc m n handle matrix p t else some p

/-- The pool after `pthread_create`. -/
def Pool.create (next : CharMatrix) : Pool := ⟨fun _ => ⟨.start, 0⟩, next, [], []⟩

/-- What the four bytes behind `int status` belong to: nothing that is read again
before it is assigned, or `n`, or something else. -/
inductive Behind where
  | unused
  | n
  | other
  deriving DecidableEq, Repr

/-- `pthread_join(pthread[i],(void*)&status)`, by what it leaves in `n`: the result
of the thread is `NULL`, stored in 8 bytes. -/
def pthreadJoin (behind : Behind) (n : ℕ) : Option ℕ :=
  match behind with
  | .unused => some n
  | .n => some 0
  | .other => none

/-- The joins of a generation, with `tmp = n` before them and `n = tmp` after. -/
def joinThreads (behind : Behind) (threadNumber n : ℕ) : Option ℕ :=
  let tmp := n
  ((List.range threadNumber).foldlM (fun n _ => pthreadJoin behind n) n).map fun _ => tmp

/-- The threads of generation `g` under the schedule `sched g`, and the joins. -/
def threadWork (behind : Behind) (sched : ℕ → List ℕ) (m n threadNumber handle : ℕ) : Work :=
  fun g matrix next =>
    match (sched g).foldlM (pick m n threadNumber handle matrix) (.create next) with
    | none => .error .undefined
    | some p =>
      if ∀ t < threadNumber, (p.threads t).pc = .exited then do
        -- `n` is what it was, so the turns of the loop share it
        let _ ← orFault .undefined (joinThreads behind threadNumber n)
        pure ⟨p.file, p.next, p.rows⟩
      else .error .notJoined

/-- Menu case 4. -/
def threadMode (behind : Behind) (sched : ℕ → List ℕ) (argv1 : FileName) (k : ℕ) (threadNumber : ℤ)
    (st : Main) : Except Fault (Main × List (List ℕ)) :=
  workerMode (threadWork behind sched) argv1 k threadNumber st

/-- The joins give `n` back if the store hits it or nothing that is used. -/
theorem joinThreads_eq {behind : Behind} (hb : behind ≠ .other) (threadNumber n : ℕ) :
    joinThreads behind threadNumber n = some n := by
  have hjoin : ∀ n, ∃ n', pthreadJoin behind n = some n' := by
    intro n
    cases behind with
    | unused => exact ⟨n, rfl⟩
    | n => exact ⟨0, rfl⟩
    | other => exact absurd rfl hb
  have hall : ∀ (is : List ℕ) n, ∃ n', is.foldlM (fun n _ => pthreadJoin behind n) n = some n' := by
    intro is
    induction is with
    | nil => exact fun n => ⟨n, rfl⟩
    | cons i is ih =>
      intro n
      obtain ⟨n', hn'⟩ := hjoin n
      rw [List.foldlM_cons, hn']
      exact ih n'
  obtain ⟨n', hn'⟩ := hall (List.range threadNumber) n
  rw [joinThreads, hn', Option.map_some]

/-- One join is enough to do harm. -/
theorem joinThreads_ok {behind : Behind} {threadNumber n n' : ℕ} (hT : 0 < threadNumber)
    (h : joinThreads behind threadNumber n = some n') : behind ≠ .other := by
  rintro rfl
  obtain ⟨T, rfl⟩ := Nat.exists_eq_add_of_le' hT
  rw [joinThreads, List.range_succ_eq_map, List.foldlM_cons] at h
  cases h

/-! ### What the threads have done -/

/-- The number of its rows a thread has computed; an ended one has done all. -/
def Pc.computedTo (handle : ℕ) : Pc → ℕ
  | .start => 0
  | .head i => i
  | .sought i _ => i
  | .computed i _ => i + 1
  | .exited => handle

/-- The number of its rows a thread has written. -/
def Pc.writtenTo (handle : ℕ) : Pc → ℕ
  | .start => 0
  | .head i => i
  | .sought i _ => i
  | .computed i _ => i
  | .exited => handle

/-- Row `index` is turn `i` of thread `t`, and its offset is the descriptor's. -/
structure AtRow (G : Grid) (handle t i index off : ℕ) : Prop where
  index_eq : index = t * handle + i
  turn : i < handle
  lt : index < G.m
  off_eq : off = index * (2 * G.n)

/-- What thread `t` itself relies on. -/
def LocalInv (G : Grid) (handle : ℕ) (next : CharMatrix) (t : ℕ) (s : ThreadSt) : Prop :=
  match s.pc with
  | .start => True
  | .head i => i = 0 ∨ t * handle + (i - 1) < G.m
  | .sought i index => AtRow G handle t i index s.off
  | .computed i index => AtRow G handle t i index s.off ∧
      ∃ src, next[index]? = some src ∧
        ∀ j < G.n, src[j]? = some (Grid.digit (G.step.live index j))
  | .exited => True

/-- What holds at every point of every schedule of the generation after `G`. -/
structure PoolInv (G : Grid) (handle : ℕ) (p : Pool) : Prop where
  room : Room G.m G.n p.next
  len : p.file.length ≤ G.m * (2 * G.n)
  nodup : p.rows.Nodup
  mem_rows : ∀ x, x ∈ p.rows ↔
    x < G.m ∧ x % handle < (p.threads (x / handle)).pc.computedTo handle
  stored : ∀ x < G.m, x % handle < (p.threads (x / handle)).pc.writtenTo handle →
    Stored (2 * G.n) G.step.rowText p.file x
  loc : ∀ t, LocalInv G handle p.next t (p.threads t)

theorem poolInv_create {G : Grid} {next : CharMatrix} (handle : ℕ) (h : Room G.m G.n next) :
    PoolInv G handle (.create next) where
  room := h
  len := Nat.zero_le _
  nodup := List.nodup_nil
  mem_rows x := by simp [Pool.create, Pc.computedTo]
  stored x _ hx := by simp [Pool.create, Pc.writtenTo] at hx
  loc _ := trivial

section Step

variable {G : Grid} {handle : ℕ} {matrix : CharMatrix} {p p' : Pool} {t : ℕ}

theorem AtRow.div {i index off : ℕ} (h : AtRow G handle t i index off) : index / handle = t := by
  have := h.turn
  rw [h.index_eq, Nat.add_comm, Nat.add_mul_div_right _ _ (by omega), Nat.div_eq_of_lt this,
    Nat.zero_add]

theorem AtRow.mod {i index off : ℕ} (h : AtRow G handle t i index off) : index % handle = i := by
  rw [h.index_eq, Nat.add_comm, Nat.add_mul_mod_self_right, Nat.mod_eq_of_lt h.turn]

/-- A row of thread `t` is its quotient's; no other thread has it. -/
theorem AtRow.eq_iff {i index off x : ℕ} (h : AtRow G handle t i index off) :
    x = index ↔ x / handle = t ∧ x % handle = i := by
  constructor
  · rintro rfl
    exact ⟨h.div, h.mod⟩
  · rintro ⟨h1, h2⟩
    rw [h.index_eq, ← h1, ← h2, Nat.div_add_mod']

/-- Moving a thread without computing or writing: the counters that matter
below `G.m` stay. -/
theorem PoolInv.move (h : PoolInv G handle p) {pc : Pc} {off : ℕ}
    (hc : ∀ x < G.m, x / handle = t →
      (x % handle < pc.computedTo handle ↔ x % handle < (p.threads t).pc.computedTo handle))
    (hw : ∀ x < G.m, x / handle = t →
      (x % handle < pc.writtenTo handle ↔ x % handle < (p.threads t).pc.writtenTo handle))
    (hl : LocalInv G handle p.next t ⟨pc, off⟩) : PoolInv G handle (p.move t pc off) where
  room := h.room
  len := h.len
  nodup := h.nodup
  mem_rows x := by
    simp only [Pool.move, h.mem_rows x]
    by_cases hx : x / handle = t
    · rw [hx, Function.update_self]
      constructor
      · exact fun ⟨h1, h2⟩ => ⟨h1, (hc x h1 hx).mpr h2⟩
      · exact fun ⟨h1, h2⟩ => ⟨h1, (hc x h1 hx).mp h2⟩
    · rw [Function.update_of_ne hx]
  stored x hxm hx := by
    apply h.stored x hxm
    simp only [Pool.move] at hx
    by_cases ht : x / handle = t
    · rw [ht, Function.update_self] at hx
      rw [ht]
      exact (hw x hxm ht).mp hx
    · rwa [Function.update_of_ne ht] at hx
  loc u := by
    simp only [Pool.move]
    by_cases hu : u = t
    · subst hu
      rwa [Function.update_self]
    · rw [Function.update_of_ne hu]
      exact h.loc u

/-- The step that computes a row. -/
theorem PoolInv.compute (h : PoolInv G handle p) {i index : ℕ}
    (hpc : (p.threads t).pc = .sought i index) (r : List Char) :
    PoolInv G handle { p.move t (.computed i index) (p.threads t).off with
      next := p.next.set index (G.step.row index ++ r.drop G.n), rows := p.rows ++ [index] } := by
  have hrow : AtRow G handle t i index (p.threads t).off := by
    have := h.loc t
    rwa [LocalInv, hpc] at this
  have hnot : index ∉ p.rows := by
    rw [h.mem_rows, hrow.div, hrow.mod, hpc, Pc.computedTo]
    omega
  have hilt : index < p.next.length := by rw [h.room.1]; exact hrow.lt
  refine ⟨h.room.set _ ?_, h.len, ?_, fun x => ?_, fun x hxm hx => ?_, fun u => ?_⟩
  · rw [List.length_append, G.step.length_row, G.step_n]
    omega
  · rw [List.nodup_append]
    refine ⟨h.nodup, List.nodup_singleton index, fun a ha b hb => ?_⟩
    rw [List.mem_singleton.mp hb]
    exact fun he => hnot (he ▸ ha)
  · simp only [List.mem_append, List.mem_singleton, h.mem_rows x, hrow.eq_iff, Pool.move]
    by_cases hx : x / handle = t
    · rw [hx, Function.update_self, hpc]
      simp only [Pc.computedTo, true_and]
      constructor
      · rintro (⟨h1, h2⟩ | h2)
        · exact ⟨h1, by omega⟩
        · exact ⟨(hrow.eq_iff.mpr ⟨hx, h2⟩) ▸ hrow.lt, by omega⟩
      · rintro ⟨h1, h2⟩
        omega
    · rw [Function.update_of_ne hx]
      simp [hx]
  · apply h.stored x hxm
    simp only [Pool.move] at hx
    by_cases ht : x / handle = t
    · rw [ht, Function.update_self, Pc.writtenTo] at hx
      rw [ht, hpc, Pc.writtenTo]
      exact hx
    · rwa [Function.update_of_ne ht] at hx
  · simp only [Pool.move]
    by_cases hu : u = t
    · subst hu
      rw [Function.update_self]
      exact ⟨hrow, _, List.getElem?_set_self hilt, fun j hj => G.step.row_getElem? index hj _⟩
    · rw [Function.update_of_ne hu]
      have hloc := h.loc u
      -- only a thread with a computed row reads the matrix, and that row is another one
      unfold LocalInv at hloc ⊢
      split
      · trivial
      · rename_i hpu
        rwa [hpu] at hloc
      · rename_i hpu
        rwa [hpu] at hloc
      · rename_i a b hpu
        rw [hpu] at hloc
        obtain ⟨hrow', hsrc⟩ := hloc
        have hne : index ≠ b := fun he => hu (by rw [← hrow'.div, ← he, hrow.div])
        exact ⟨hrow', by rwa [List.getElem?_set_ne hne]⟩
      · trivial

/-- The step that writes a row. -/
theorem PoolInv.write (h : PoolInv G handle p) {i index : ℕ}
    (hpc : (p.threads t).pc = .computed i index) :
    PoolInv G handle { p.move t (.head (i + 1)) ((p.threads t).off + 2 * G.n) with
      file := pwrite '\x00' p.file (p.threads t).off (G.step.rowText index) } := by
  obtain ⟨hrow, -⟩ : AtRow G handle t i index (p.threads t).off ∧ _ := by
    have := h.loc t
    rwa [LocalInv, hpc] at this
  have hW : ∀ x, (G.step.rowText x).length = 2 * G.n := G.step.length_rowText
  refine ⟨h.room, ?_, h.nodup, fun x => ?_, fun x hxm hx => ?_, fun u => ?_⟩
  · have hend := G.row_end_le hrow.lt
    rw [length_pwrite, hW, hrow.off_eq]
    have := h.len
    omega
  · simp only [Pool.move, h.mem_rows x]
    by_cases hx : x / handle = t
    · rw [hx, Function.update_self, hpc]
      rfl
    · rw [Function.update_of_ne hx]
  · simp only [Pool.move] at hx ⊢
    rw [hrow.off_eq]
    by_cases hxi : x = index
    · subst hxi
      exact stored_pwrite_self '\x00' p.file (hW x)
    · apply stored_pwrite_ne '\x00' hxi (hW index) (hW x)
      apply h.stored x hxm
      by_cases ht : x / handle = t
      · rw [ht, Function.update_self, Pc.writtenTo] at hx
        rw [ht, hpc, Pc.writtenTo]
        have : x % handle ≠ i := fun he => hxi (hrow.eq_iff.mpr ⟨ht, he⟩)
        omega
      · rwa [Function.update_of_ne ht] at hx
  · simp only [Pool.move]
    by_cases hu : u = t
    · subst hu
      rw [Function.update_self]
      right
      rw [Nat.add_sub_cancel, ← hrow.index_eq]
      exact hrow.lt
    · rw [Function.update_of_ne hu]
      exact h.loc u

/-- The steps that neither compute nor write. -/
theorem PoolInv.exit (h : PoolInv G handle p) {i : ℕ} (hpc : (p.threads t).pc = .head i) (off : ℕ)
    (hend : handle ≤ i ∨ G.m ≤ t * handle + i) (hh : 0 < handle) :
    PoolInv G handle (p.move t .exited off) := by
  -- no row of this thread is left, so what it has done is all of them
  have hiff : ∀ x < G.m, x / handle = t → (x % handle < handle ↔ x % handle < i) := by
    intro x hx hxt
    have hdm : t * handle + x % handle = x := by rw [← hxt]; exact Nat.div_add_mod' x handle
    have hlt := Nat.mod_lt x hh
    omega
  apply h.move
  · intro x hx hxt
    rw [hpc]
    exact hiff x hx hxt
  · intro x hx hxt
    rw [hpc]
    exact hiff x hx hxt
  · trivial

/-- **Every step keeps the invariant.** -/
theorem step_inv (hh : 0 < handle) (hG : G.Holds matrix) (h : PoolInv G handle p)
    (hs : threadFunc G.m G.n handle matrix p t = some p') : PoolInv G handle p' := by
  have hloc := h.loc t
  cases hpc : (p.threads t).pc with
  | start =>
    simp only [threadFunc, hpc, Option.some.injEq] at hs
    subst hs
    apply h.move
    · intro x _ _
      rw [hpc]
      rfl
    · intro x _ _
      rw [hpc]
      rfl
    · exact Or.inl rfl
  | head i =>
    simp only [threadFunc, hpc] at hs
    split at hs
    · rename_i hi
      simp only [Option.bind_eq_bind, Option.bind_eq_some_iff, int32_eq_some] at hs
      obtain ⟨index, ⟨-, rfl⟩, hs⟩ := hs
      split at hs
      · rename_i hend
        obtain rfl := Option.some.inj hs
        exact h.exit hpc _ (Or.inr hend) hh
      · rename_i hlt
        simp only [Option.bind_eq_some_iff, int32_eq_some] at hs
        obtain ⟨off, ⟨-, rfl⟩, hs⟩ := hs
        obtain rfl := Option.some.inj hs
        apply h.move
        · intro x _ _
          rw [hpc]
          rfl
        · intro x _ _
          rw [hpc]
          rfl
        · exact ⟨rfl, hi, by omega, Nat.mul_assoc _ _ _⟩
    · rename_i hi
      obtain rfl := Option.some.inj hs
      exact h.exit hpc _ (Or.inl (by omega)) hh
  | sought i index =>
    rw [LocalInv, hpc] at hloc
    obtain ⟨r, hr, hlen⟩ := h.room.row hloc.lt
    simp only [threadFunc, hpc, getNextGenerationMatrix_eq hG hloc.lt hr hlen, Option.bind_eq_bind,
      Option.bind_some, Option.pure_def, Option.some.injEq] at hs
    subst hs
    exact h.compute hpc r
  | computed i index =>
    rw [LocalInv, hpc] at hloc
    obtain ⟨hrow, src, hsrc, hcells⟩ := hloc
    simp only [threadFunc, hpc, hsrc, tmpWrite_eq src hcells, Option.bind_eq_bind, Option.bind_some,
      Option.pure_def, Option.some.injEq] at hs
    subst hs
    exact h.write hpc
  | exited =>
    simp only [threadFunc, hpc, Option.some.injEq] at hs
    exact hs ▸ h

/-- A step leaves the defined behaviour only through an offset that is not an
`int`. -/
theorem step_defined {T : ℕ} (hG : G.Holds matrix) (h : PoolInv G (handleNumber G.m T) p)
    (hT : T < 2 ^ 31) (ht : t < T) (hoff : (G.m - 1) * 2 * G.n < 2 ^ 31) :
    ∃ p', threadFunc G.m G.n (handleNumber G.m T) matrix p t = some p' := by
  have hloc := h.loc t
  cases hpc : (p.threads t).pc with
  | start => exact ⟨p.move t (.head 0) 0, by simp only [threadFunc, hpc]⟩
  | head i =>
    rw [LocalInv, hpc] at hloc
    have hstart := start_lt hT ht hoff
    have hm := G.m_lt hoff
    have hindex : t * handleNumber G.m T + i < 2 ^ 31 := by
      rcases hloc with rfl | hloc
      · exact hstart
      · omega
    simp only [threadFunc, hpc, int32_eq_some.mpr ⟨hindex, rfl⟩, Option.bind_eq_bind,
      Option.bind_some]
    split
    · split
      · exact ⟨_, rfl⟩
      · rename_i hlt
        have hle : (t * handleNumber G.m T + i) * 2 * G.n ≤ (G.m - 1) * 2 * G.n :=
          Nat.mul_le_mul_right _ (Nat.mul_le_mul_right _ (by omega))
        rw [int32_eq_some.mpr ⟨Nat.lt_of_le_of_lt hle hoff, rfl⟩]
        exact ⟨_, rfl⟩
    · exact ⟨_, rfl⟩
  | sought i index =>
    rw [LocalInv, hpc] at hloc
    obtain ⟨r, hr, hlen⟩ := h.room.row hloc.lt
    simp only [threadFunc, hpc, getNextGenerationMatrix_eq hG hloc.lt hr hlen]
    exact ⟨_, rfl⟩
  | computed i index =>
    rw [LocalInv, hpc] at hloc
    obtain ⟨hrow, src, hsrc, hcells⟩ := hloc
    simp only [threadFunc, hpc, hsrc, Option.bind_eq_bind, Option.bind_some, tmpWrite_eq src hcells]
    exact ⟨_, rfl⟩
  | exited => exact ⟨p, by simp only [threadFunc, hpc]⟩

end Step

/-! ### Whole schedules -/

/-- A pick is a step or nothing. -/
theorem pick_cases {m n T handle t : ℕ} {matrix : CharMatrix} {p p' : Pool}
    (h : pick m n T handle matrix p t = some p') :
    (t < T ∧ threadFunc m n handle matrix p t = some p') ∨ (T ≤ t ∧ p' = p) := by
  rw [pick] at h
  split at h
  · rename_i ht
    exact Or.inl ⟨ht, h⟩
  · rename_i ht
    exact Or.inr ⟨by omega, (Option.some.inj h).symm⟩

/-- Along any schedule of defined steps the invariant holds. -/
theorem run_inv {G : Grid} {T handle : ℕ} {matrix : CharMatrix} (hh : 0 < handle)
    (hG : G.Holds matrix) {sched : List ℕ} {p p' : Pool} (h : PoolInv G handle p)
    (hs : sched.foldlM (pick G.m G.n T handle matrix) p = some p') : PoolInv G handle p' := by
  refine foldlM_keeps (fun p t p' hp h1 => ?_) h hs
  rcases pick_cases h1 with ⟨-, h1⟩ | ⟨-, rfl⟩
  · exact step_inv hh hG hp h1
  · exact hp

/-- With offsets that are `int` values every schedule is defined. -/
theorem run_defined {G : Grid} {T : ℕ} {matrix : CharMatrix} (hT : T < 2 ^ 31) (hT0 : 0 < T)
    (hG : G.Holds matrix) (hoff : (G.m - 1) * 2 * G.n < 2 ^ 31) : ∀ (sched : List ℕ) {p : Pool},
    PoolInv G (handleNumber G.m T) p →
    ∃ p', sched.foldlM (pick G.m G.n T (handleNumber G.m T) matrix) p = some p'
  | [], p, _ => ⟨p, rfl⟩
  | t :: sched, p, h => by
    have hh : 0 < handleNumber G.m T := handleNumber_pos hT0 (by have := G.two_le_m; omega)
    rw [List.foldlM_cons, pick]
    split
    · rename_i ht
      obtain ⟨p1, h1⟩ := step_defined hG h hT ht hoff
      rw [h1, Option.bind_eq_bind, Option.bind_some]
      exact run_defined hT hT0 hG hoff sched (step_inv hh hG h h1)
    · exact run_defined hT hT0 hG hoff sched h

/-- **The threads compute the next generation, under every schedule.** -/
theorem threadWork_computes {G : Grid} {T : ℕ} {behind : Behind} (sched : ℕ → List ℕ)
    (hT : T < 2 ^ 31) (hT0 : 0 < T) (hoff : (G.m - 1) * 2 * G.n < 2 ^ 31) (hb : behind ≠ .other) :
    Computes G.m G.n (threadWork behind sched G.m G.n T (handleNumber G.m T)) := by
  intro G' g matrix next hm hn hG hroom hj
  rw [← hm, ← hn] at hroom hoff hj ⊢
  have hh : 0 < handleNumber G'.m T := handleNumber_pos hT0 (by have := G'.two_le_m; omega)
  obtain ⟨p, hrun⟩ := run_defined hT hT0 hG hoff (sched g)
    (poolInv_create (handleNumber G'.m T) hroom)
  have hinv := run_inv hh hG (poolInv_create _ hroom) hrun
  simp only [threadWork, hrun, joinThreads_eq hb, orFault] at hj ⊢
  split at hj
  · rename_i hall
    rw [if_pos hall]
    -- every row has its thread, which has ended
    have hthread : ∀ x < G'.m, (p.threads (x / handleNumber G'.m T)).pc = .exited := by
      intro x hx
      apply hall
      rw [Nat.div_lt_iff_lt_mul hh]
      exact Nat.lt_of_lt_of_le hx (handleNumber_bounds hT0).1
    refine ⟨_, rfl, ?_, hinv.room, ?_⟩
    · apply eq_flatMap_of_stored G'.step.length_rowText hinv.len
      intro x hx
      apply hinv.stored x hx
      rw [hthread x hx]
      exact Nat.mod_lt x hh
    · rw [List.perm_ext_iff_of_nodup hinv.nodup List.nodup_range]
      intro x
      rw [hinv.mem_rows x, List.mem_range]
      refine ⟨fun h => h.1, fun hx => ⟨hx, ?_⟩⟩
      rw [hthread x hx]
      exact Nat.mod_lt x hh
  · exact absurd rfl hj

/-- Rows are computed only after a seek, so inside the matrix and at an offset
that is an `int`; no grid is needed for that. -/
def Sought (m n : ℕ) (p : Pool) : Prop :=
  (∀ x ∈ p.rows, x < m ∧ x * 2 * n < 2 ^ 31) ∧
    ∀ t i x, (p.threads t).pc = .sought i x → x < m ∧ x * 2 * n < 2 ^ 31

theorem Sought.move {m n : ℕ} {p : Pool} (h : Sought m n p) (t : ℕ) (pc : Pc) (off : ℕ)
    (hpc : ∀ i x, pc = .sought i x → x < m ∧ x * 2 * n < 2 ^ 31) :
    Sought m n (p.move t pc off) := by
  refine ⟨h.1, fun u i x hu => ?_⟩
  simp only [Pool.move] at hu
  by_cases hut : u = t
  · subst hut
    rw [Function.update_self] at hu
    exact hpc i x hu
  · rw [Function.update_of_ne hut] at hu
    exact h.2 u i x hu

theorem step_sought {m n handle t : ℕ} {matrix : CharMatrix} {p p' : Pool} (h : Sought m n p)
    (hs : threadFunc m n handle matrix p t = some p') : Sought m n p' := by
  cases hpc : (p.threads t).pc with
  | start =>
    simp only [threadFunc, hpc, Option.some.injEq] at hs
    subst hs
    exact h.move _ _ _ fun i x he => by cases he
  | head i =>
    simp only [threadFunc, hpc] at hs
    split at hs
    · simp only [Option.bind_eq_bind, Option.bind_eq_some_iff, int32_eq_some] at hs
      obtain ⟨index, -, hs⟩ := hs
      split at hs
      · obtain rfl := Option.some.inj hs
        exact h.move _ _ _ fun i x he => by cases he
      · rename_i hlt
        simp only [Option.bind_eq_some_iff, int32_eq_some] at hs
        obtain ⟨off, ⟨hoff, -⟩, hs⟩ := hs
        obtain rfl := Option.some.inj hs
        refine h.move _ _ _ fun i x he => ?_
        cases he
        exact ⟨by omega, hoff⟩
    · obtain rfl := Option.some.inj hs
      exact h.move _ _ _ fun i x he => by cases he
  | sought i index =>
    simp only [threadFunc, hpc, Option.bind_eq_bind, Option.bind_eq_some_iff, Option.pure_def,
      Option.some.injEq] at hs
    obtain ⟨next, -, rfl⟩ := hs
    have hmove := h.move t (.computed i index) (p.threads t).off
      fun i x he => by cases he
    refine ⟨fun x hx => ?_, hmove.2⟩
    rcases List.mem_append.mp hx with hx | hx
    · exact h.1 x hx
    · rw [List.mem_singleton.mp hx]
      exact h.2 t i index hpc
  | computed i index =>
    simp only [threadFunc, hpc, Option.bind_eq_bind, Option.bind_eq_some_iff, Option.pure_def,
      Option.some.injEq] at hs
    obtain ⟨src, -, tmpWrite, -, rfl⟩ := hs
    exact h.move t (.head (i + 1)) ((p.threads t).off + 2 * n)
      fun i x he => by cases he
  | exited =>
    simp only [threadFunc, hpc, Option.some.injEq] at hs
    exact hs ▸ h

theorem run_sought {m n T handle : ℕ} {matrix : CharMatrix} {sched : List ℕ} {p p' : Pool}
    (h : Sought m n p) (hs : sched.foldlM (pick m n T handle matrix) p = some p') :
    Sought m n p' := by
  refine foldlM_keeps (fun p t p' hp h1 => ?_) h hs
  rcases pick_cases h1 with ⟨-, h1⟩ | ⟨-, rfl⟩
  · exact step_sought hp h1
  · exact hp

theorem threadWork_ok {behind : Behind} {sched : ℕ → List ℕ} {m n T handle g : ℕ}
    {M N : CharMatrix} {done : Done} (hT : 0 < T)
    (h : threadWork behind sched m n T handle g M N = .ok done) :
    (∀ x ∈ done.rows, x < m ∧ x * 2 * n < 2 ^ 31) ∧ behind ≠ .other := by
  rw [threadWork] at h
  split at h
  · cases h
  · rename_i p hrun
    have hs : Sought m n (.create N) :=
      ⟨fun x hx => absurd hx List.not_mem_nil, fun t i x he => by cases he⟩
    split at h
    · cases hjoin : joinThreads behind T n with
      | none =>
        rw [hjoin] at h
        cases h
      | some n' =>
        rw [hjoin] at h
        obtain rfl := Except.ok.inj h
        exact ⟨(run_sought hs hrun).1, joinThreads_ok hT hjoin⟩
    · cases h

/-! ### Every thread ends -/

/-- A bound on the steps a thread has left. -/
def Pc.left (handle : ℕ) : Pc → ℕ
  | .start => 3 * handle + 2
  | .head i => 3 * (handle - i) + 1
  | .sought i _ => 3 * (handle - (i + 1)) + 3
  | .computed i _ => 3 * (handle - (i + 1)) + 2
  | .exited => 0

/-- A step of thread `t` is one step less for `t`, and none for the others. -/
theorem step_left {m n handle t : ℕ} {matrix : CharMatrix} {p p' : Pool}
    (hs : threadFunc m n handle matrix p t = some p') :
    ((p'.threads t).pc.left handle ≤ (p.threads t).pc.left handle - 1) ∧
      ∀ u ≠ t, p'.threads u = p.threads u := by
  cases hpc : (p.threads t).pc with
  | start =>
    simp only [threadFunc, hpc, Option.some.injEq] at hs
    subst hs
    simp +contextual [Pool.move, Pc.left]
  | head i =>
    simp only [threadFunc, hpc] at hs
    split at hs
    · simp only [Option.bind_eq_bind, Option.bind_eq_some_iff] at hs
      obtain ⟨index, -, hs⟩ := hs
      split at hs
      · obtain rfl := Option.some.inj hs
        simp +contextual [Pool.move, Pc.left]
      · obtain ⟨off, -, hs⟩ := Option.bind_eq_some_iff.mp hs
        obtain rfl := Option.some.inj hs
        simp +contextual only [Pool.move, Function.update_self, Pc.left, ne_eq, not_false_eq_true,
          Function.update_of_ne, implies_true, and_true]
        omega
    · obtain rfl := Option.some.inj hs
      simp +contextual [Pool.move, Pc.left]
  | sought i index =>
    simp only [threadFunc, hpc, Option.bind_eq_bind, Option.bind_eq_some_iff, Option.pure_def,
      Option.some.injEq] at hs
    obtain ⟨next, -, rfl⟩ := hs
    simp +contextual [Pool.move, Pc.left]
  | computed i index =>
    simp only [threadFunc, hpc, Option.bind_eq_bind, Option.bind_eq_some_iff, Option.pure_def,
      Option.some.injEq] at hs
    obtain ⟨src, -, tmpWrite, -, rfl⟩ := hs
    simp +contextual [Pool.move, Pc.left]
  | exited =>
    simp only [threadFunc, hpc, Option.some.injEq] at hs
    subst hs
    simp [hpc, Pc.left]

theorem run_left {m n T handle t : ℕ} {matrix : CharMatrix} (ht : t < T) :
    ∀ {sched : List ℕ} {p p' : Pool}, sched.foldlM (pick m n T handle matrix) p = some p' →
    (p'.threads t).pc.left handle ≤ (p.threads t).pc.left handle - sched.count t
  | [], p, p', hs => by
    obtain rfl := Option.some.inj hs
    simp
  | u :: sched, p, p', hs => by
    rw [List.foldlM_cons] at hs
    obtain ⟨p1, h1, h2⟩ := Option.bind_eq_some_iff.mp hs
    have ih := run_left ht h2
    rcases pick_cases h1 with ⟨-, h1⟩ | ⟨hu, rfl⟩
    · obtain ⟨hlt, hother⟩ := step_left h1
      by_cases htu : u = t
      · subst htu
        rw [List.count_cons_self]
        omega
      · rw [List.count_cons_of_ne (by simpa using htu), ← hother t (Ne.symm htu)]
        exact ih
    · rw [List.count_cons_of_ne (by simp; omega)]
      exact ih

/-- A schedule that picks every thread often enough runs all of them to their
end. -/
theorem threadWork_joined {behind : Behind} {sched : ℕ → List ℕ} {m n T handle g : ℕ}
    (M N : CharMatrix) (hfair : ∀ t < T, 3 * handle + 2 ≤ (sched g).count t) :
    threadWork behind sched m n T handle g M N ≠ .error .notJoined := by
  rw [threadWork]
  split
  · exact fun h => by cases h
  · rename_i p hrun
    rw [if_pos]
    · exact bind_ne (orFault_ne (by decide) _) fun _ => ok_ne _
    · intro t ht
      have hle := run_left ht hrun
      have hcount := hfair t ht
      have hstart : ((Pool.create N).threads t).pc.left handle = 3 * handle + 2 := rfl
      have h0 : (p.threads t).pc.left handle = 0 := by omega
      cases hpc : (p.threads t).pc <;> simp [hpc, Pc.left] at h0
      rfl

/-! ### Agreement with the sequential mode -/

section Agreement

variable {behind : Behind} {sched : ℕ → List ℕ} {argv1 : FileName} {G : Grid} {nl : Bool} {fs : Fs}
  {buf : TmpBuffer} {k T : ℕ}

/-- Fair schedules end every generation. -/
theorem threadMode_joined (hfs : fs argv1 = some (G.inputText nl))
    (hfair : ∀ g, ∀ t < T, 3 * handleNumber G.m T + 2 ≤ (sched g).count t) :
    threadMode behind sched argv1 k T (.start fs buf) ≠ .error .notJoined := by
  refine workerMode_joined fun st1 M hread g M' N => threadWork_joined M' N fun t ht => ?_
  rw [Int.toNat_natCast] at ht ⊢
  refine Nat.le_trans ?_ (hfair g t ht)
  by_cases hw : 2 * G.n ≤ 20010
  · obtain ⟨matrix, buf', hread', -⟩ := readInput_text (.start fs buf) hfs hw
      (readInput_lt (.start fs buf) hfs hw rfl hread) (Or.inl rfl)
    rw [hread', Option.some.injEq, Prod.mk.injEq] at hread
    rw [← hread.1]
  · obtain ⟨buf', hread'⟩ := readInput_wide (.start fs buf) hfs (by omega) rfl rfl
    rw [hread', Option.some.injEq, Prod.mk.injEq] at hread
    rw [← hread.1, handleNumber_zero]
    omega

/-- What agreement with the sequential mode needs. -/
theorem thread_necessary (hfs : fs argv1 = some (G.inputText nl)) (hk : 0 < k) (hT : 0 < T)
    (h : Agrees G k (threadMode behind sched argv1 k T (.start fs buf))
      (sequentialMode argv1 k (.start fs buf))) :
    2 * G.n ≤ 20010 ∧ k < 10 ^ 8 ∧ (G.m - 1) * 2 * G.n < 2 ^ 31 ∧ behind ≠ .other := by
  obtain ⟨hw, hk', hQ⟩ := agrees_necessary hfs hk hT (fun g M N done hd => by
    apply List.eq_nil_iff_forall_not_mem.mpr
    intro x hx
    exact absurd ((threadWork_ok hT hd).1 x hx).1 (by omega)) h
  obtain ⟨r, ⟨hr, hb⟩, hperm⟩ := hQ
    (fun r => (∀ x ∈ r, x < G.m ∧ x * 2 * G.n < 2 ^ 31) ∧ behind ≠ .other)
    fun g M N done => threadWork_ok hT
  refine ⟨hw, hk', (hr (G.m - 1) ?_).2, hb⟩
  rw [hperm.mem_iff, List.mem_range]
  have := G.two_le_m
  omega

/-- **Thread mode against sequential mode.** On a grid of any size, with any
number of threads and of generations and under every schedule that runs the
threads of each generation to their end, the thread mode computes every row
once in each generation and leaves the sequential mode's `output.matrix`
exactly if the rows fit in `tmp_buffer`, the generations' names in
`generation_filename` and the offset of the last row in an `int`, and behind
`status` lies `n` or nothing that is used. -/
theorem thread_agrees_iff (hfs : fs argv1 = some (G.inputText nl)) (hk : 1 ≤ k) (hT : 1 ≤ T)
    (hint : T < 2 ^ 31)
    (hj : threadMode behind sched argv1 k T (.start fs buf) ≠ .error .notJoined) :
    Agrees G k (threadMode behind sched argv1 k T (.start fs buf))
        (sequentialMode argv1 k (.start fs buf)) ↔
      2 * G.n ≤ 20010 ∧ k < 10 ^ 8 ∧ (G.m - 1) * 2 * G.n < 2 ^ 31 ∧ behind ≠ .other := by
  refine ⟨thread_necessary hfs hk hT, fun ⟨hw, hk', hoff, hb⟩ => ?_⟩
  have hm : G.m < 2 ^ 31 := Nat.lt_of_lt_of_le (G.m_lt hoff) (by decide)
  exact workerMode_agrees hfs hw hm hk hk' hT (threadWork_computes sched hint hT hoff hb) hj

/-- Two threads on a square, their steps alternating; the joins overwrite `n`. -/
theorem thread_agrees_square : Agrees square 1
    (threadMode .n (fun _ => [0, 1, 0, 1, 0, 1, 0, 1, 0, 1]) ['a'] 1 (2 : ℕ)
      (.start (oneFile ['a'] (square.inputText true)) .blank))
    (sequentialMode ['a'] 1 (.start (oneFile ['a'] (square.inputText true)) .blank)) :=
  (thread_agrees_iff (oneFile_self _ _) le_rfl (by decide) (by decide)
    (threadMode_joined (oneFile_self _ _) fun _ => by decide)).mpr
    ⟨by decide, by decide, by decide, by decide⟩

/-- Two rows of 10006 living cells. -/
def wide : Grid := ⟨2, 10006, square.two_le_m, by decide, fun _ _ => true⟩

/-- The first 20010 bytes have no newline, so no row is computed. -/
theorem thread_wide : ¬ Agrees wide 1
    (threadMode .unused (fun _ => List.replicate 8 0) ['a'] 1 (1 : ℕ)
      (.start (oneFile ['a'] (wide.inputText true)) .blank))
    (sequentialMode ['a'] 1 (.start (oneFile ['a'] (wide.inputText true)) .blank)) := by
  intro h
  have hw := (thread_necessary (oneFile_self _ _) Nat.one_pos Nat.one_pos h).1
  exact absurd hw (by decide)

end Agreement

end Life
end LinuxProg
