/-
# Files of fixed-width records

A regular file is the list of its bytes. `pwrite` stores a block at an
offset, as `lseek` and `write` do: what lies under the block is replaced, a
gap before it reads as the filler. A file of `m` records of width `W` is
`(List.range m).flatMap rec`, and it does not matter in which order its
records were written: once every record is in place (`Stored`) and nothing
was written past the last one, the file is that list
(`eq_flatMap_of_stored`).

Key definitions: `pwrite`, `Stored`.
Key theorems: `stored_pwrite_self`, `stored_pwrite_ne`, `eq_flatMap_of_stored`,
`foldl_pwrite_append`.
-/
import Mathlib

namespace LinuxProg
namespace Records

variable {α : Type*}

/-- The file after `bs` was written at offset `off`; a hole reads as `z`. -/
def pwrite (z : α) (file : List α) (off : ℕ) (bs : List α) : List α :=
  file.take off ++ List.replicate (off - file.length) z ++ bs ++ file.drop (off + bs.length)

theorem length_pwrite (z : α) (file : List α) (off : ℕ) (bs : List α) :
    (pwrite z file off bs).length = max file.length (off + bs.length) := by
  simp only [pwrite, List.length_append, List.length_take, List.length_replicate, List.length_drop]
  omega

/-- The block reads back at its offset. -/
theorem pwrite_getElem?_in (z : α) (file : List α) (off : ℕ) (bs : List α) {q : ℕ}
    (hq : q < bs.length) : (pwrite z file off bs)[off + q]? = bs[q]? := by
  have hlen : (file.take off ++ List.replicate (off - file.length) z).length = off := by
    simp only [List.length_append, List.length_take, List.length_replicate]
    omega
  rw [pwrite, List.append_assoc, List.getElem?_append_right (by omega), hlen,
    Nat.add_sub_cancel_left, List.getElem?_append_left hq]

/-- Bytes of the file that the block does not cover stay. -/
theorem pwrite_getElem?_out (z : α) (file : List α) (off : ℕ) (bs : List α) {p : ℕ} {x : α}
    (hx : file[p]? = some x) (hp : p < off ∨ off + bs.length ≤ p) :
    (pwrite z file off bs)[p]? = some x := by
  obtain ⟨hlt, -⟩ := List.getElem?_eq_some_iff.mp hx
  rcases hp with hp | hp
  · have h1 : p < (file.take off).length := by rw [List.length_take]; omega
    rw [pwrite, List.append_assoc, List.append_assoc, List.getElem?_append_left h1,
      List.getElem?_take_of_lt hp, hx]
  · have hlen : (file.take off ++ List.replicate (off - file.length) z ++ bs).length =
        off + bs.length := by
      simp only [List.length_append, List.length_take, List.length_replicate]
      omega
    rw [pwrite, List.getElem?_append_right (by omega), hlen, List.getElem?_drop]
    rw [Nat.add_sub_cancel' hp, hx]

/-- Writing at the end of the file appends. -/
theorem pwrite_length (z : α) (file bs : List α) : pwrite z file file.length bs = file ++ bs := by
  simp [pwrite]

/-- Bytes written one at a time through one descriptor, from the end of the
file on, are appended in order. -/
theorem foldl_pwrite_append (z : α) : ∀ (bs file : List α),
    bs.foldl (fun (s : List α × ℕ) b => (pwrite z s.1 s.2 [b], s.2 + 1)) (file, file.length) =
      (file ++ bs, file.length + bs.length)
  | [], file => by simp
  | b :: bs, file => by
    have ih := foldl_pwrite_append z bs (file ++ [b])
    rw [List.length_append, List.length_singleton] at ih
    rw [List.foldl_cons, pwrite_length, ih]
    simp only [List.append_assoc, List.singleton_append, List.length_cons, Prod.mk.injEq, true_and]
    omega

/-! ### Records of one width -/

variable (W : ℕ) (rec : ℕ → List α)

/-- Record `i` is in place: the file has its bytes at `i * W`. -/
def Stored (file : List α) (i : ℕ) : Prop := ∀ q < W, file[i * W + q]? = (rec i)[q]?

variable {W rec}

/-- Byte ranges of different records do not meet. -/
theorem record_disjoint {i j q : ℕ} (hij : j ≠ i) (hq : q < W) :
    j * W + q < i * W ∨ i * W + W ≤ j * W + q := by
  rcases Nat.lt_or_gt_of_ne hij with h | h
  · left
    have : (j + 1) * W ≤ i * W := Nat.mul_le_mul_right W h
    rw [Nat.add_mul] at this
    omega
  · right
    have : (i + 1) * W ≤ j * W := Nat.mul_le_mul_right W h
    rw [Nat.add_mul] at this
    omega

theorem stored_pwrite_self (z : α) (file : List α) {i : ℕ} (hi : (rec i).length = W) :
    Stored W rec (pwrite z file (i * W) (rec i)) i :=
  fun _ hq => pwrite_getElem?_in z file (i * W) (rec i) (by omega)

theorem stored_pwrite_ne (z : α) {file bs : List α} {i j : ℕ} (hij : j ≠ i) (hb : bs.length = W)
    (hj : (rec j).length = W) (h : Stored W rec file j) :
    Stored W rec (pwrite z file (i * W) bs) j := by
  intro q hq
  have hx : (rec j)[q]? = some ((rec j).get ⟨q, by omega⟩) := by
    rw [List.getElem?_eq_getElem (by omega)]
    rfl
  rw [hx]
  apply pwrite_getElem?_out z file (i * W) bs ((h q hq).trans hx)
  rw [hb]
  exact record_disjoint hij hq

theorem length_flatMap_range (hrec : ∀ i, (rec i).length = W) (m : ℕ) :
    ((List.range m).flatMap rec).length = m * W := by
  simp [List.length_flatMap, hrec]

/-- A record file holds each of its records. -/
theorem stored_flatMap_range (hrec : ∀ i, (rec i).length = W) {m i : ℕ} (hi : i < m) :
    Stored W rec ((List.range m).flatMap rec) i := by
  induction m with
  | zero => omega
  | succ m ih =>
    intro q hq
    have hlen := length_flatMap_range hrec m
    rw [List.range_succ, List.flatMap_append, List.flatMap_singleton]
    rcases Nat.lt_or_ge i m with h | h
    · have hlt : i * W + q < m * W := by
        have : (i + 1) * W ≤ m * W := Nat.mul_le_mul_right W h
        rw [Nat.add_mul] at this
        omega
      rw [List.getElem?_append_left (by omega)]
      exact ih h q hq
    · obtain rfl : i = m := by omega
      rw [List.getElem?_append_right (by omega), hlen, Nat.add_sub_cancel_left]

/-- **Order of writes does not matter.** A file that holds records `0` to
`m - 1` and nothing after them is the concatenation of the records. -/
theorem eq_flatMap_of_stored (hrec : ∀ i, (rec i).length = W) {m : ℕ} {file : List α}
    (hlen : file.length ≤ m * W) (hst : ∀ i < m, Stored W rec file i) :
    file = (List.range m).flatMap rec := by
  apply List.ext_getElem?
  intro p
  rcases Nat.lt_or_ge p (m * W) with hp | hp
  · have hW : 0 < W := Nat.pos_of_ne_zero fun h => by simp [h] at hp
    have hi : p / W < m := (Nat.div_lt_iff_lt_mul hW).mpr hp
    have hpe : p / W * W + p % W = p := Nat.div_add_mod' p W
    have h1 := hst (p / W) hi (p % W) (Nat.mod_lt p hW)
    have h2 := stored_flatMap_range hrec hi (p % W) (Nat.mod_lt p hW)
    rw [hpe] at h1 h2
    rw [h1, h2]
  · rw [List.getElem?_eq_none (by omega), List.getElem?_eq_none]
    rw [length_flatMap_range hrec]
    exact hp

end Records
end LinuxProg
