/-
# Arrays written round a cursor

An array whose slots are written one after the other, from slot 0 on and
over again once the last one is written. After `n` writes the next one goes
to slot `n` modulo the length. `ring q n` is the array in the order its
entries were written: the first `n` slots while there are unwritten ones,
then all slots, read circularly from the cursor. A write appends, and on a
full array it drops the head (`ring_set_free`, `ring_set_full`).
-/
import Mathlib

namespace LinuxProg
namespace Rings

variable {α β : Type*}

/-- The entries of the array after `n` writes, the oldest first. -/
def ring (q : List α) (n : ℕ) : List α := if n < q.length then q.take n else q.rotate n

theorem ring_free {q : List α} {n : ℕ} (h : n < q.length) : ring q n = q.take n := if_pos h

theorem ring_full {q : List α} {n : ℕ} (h : q.length ≤ n) : ring q n = q.rotate n :=
  if_neg (Nat.not_lt.mpr h)

theorem length_ring (q : List α) (n : ℕ) : (ring q n).length = min n q.length := by
  unfold ring
  split
  · rw [List.length_take]
  · rw [List.length_rotate]
    omega

theorem ring_map (f : α → β) (q : List α) (n : ℕ) : ring (q.map f) n = (ring q n).map f := by
  unfold ring
  rw [List.length_map]
  split
  · exact List.map_take.symm
  · exact (List.map_rotate f q n).symm

/-- The slot at the cursor holds the oldest entry. -/
theorem rotate_eq_cons {q : List α} {n : ℕ} (hq : 0 < q.length) {x : α}
    (hx : q[n % q.length]? = some x) : ∃ t, q.rotate n = x :: t := by
  have hlt : n % q.length < q.length := Nat.mod_lt n hq
  refine ⟨(q.rotate n).tail, ?_⟩
  rw [← List.head?_rotate hlt, List.rotate_mod] at hx
  exact (List.cons_head?_tail hx).symm

/-- Overwriting the slot at the cursor and moving on. -/
theorem rotate_set {q : List α} {n : ℕ} (hq : 0 < q.length) (x : α) :
    (q.set (n % q.length) x).rotate (n + 1) = (q.rotate n).tail ++ [x] := by
  set c := n % q.length with hc
  have hlt : c < q.length := Nat.mod_lt n hq
  have hold : q.rotate n = q.drop c ++ q.take c := by
    rw [← List.rotate_mod, ← hc, List.rotate_eq_drop_append_take hlt.le]
  have hnew : (q.set c x).rotate n = x :: q.drop (c + 1) ++ q.take c := by
    rw [← List.rotate_mod, List.length_set, ← hc,
      List.rotate_eq_drop_append_take (by rw [List.length_set]; exact hlt.le),
      List.take_set_of_le le_rfl, List.drop_set, if_neg (lt_irrefl c), Nat.sub_self,
      List.drop_eq_getElem_cons hlt, List.set_cons_zero]
  have htail : (q.drop c ++ q.take c).tail = q.drop (c + 1) ++ q.take c := by
    rw [List.drop_eq_getElem_cons hlt]
    rfl
  rw [← List.rotate_rotate, hnew, hold, htail]
  simp

/-- A write to an unwritten slot. -/
theorem ring_set_free {q : List α} {n : ℕ} (h : n < q.length) (x : α) :
    ring (q.set n x) (n + 1) = ring q n ++ [x] := by
  have htake : (q.set n x).take (n + 1) = q.take n ++ [x] := by
    rw [List.take_set, List.take_succ_eq_append_getElem h,
      List.set_append_right _ _ (by rw [List.length_take]; omega), List.length_take,
      Nat.min_eq_left h.le, Nat.sub_self, List.set_cons_zero]
  rw [ring_free h]
  rcases Nat.lt_or_ge (n + 1) q.length with hlt | hge
  · rw [ring_free (by rw [List.length_set]; exact hlt), htake]
  · -- the last slot: the array is now read from slot 0
    obtain hlen : (q.set n x).length = n + 1 := by
      rw [List.length_set]
      omega
    rw [ring_full hlen.le, ← hlen, List.rotate_length, ← htake, ← hlen, List.take_length]

/-- A write to a full array. -/
theorem ring_set_full {q : List α} {n : ℕ} (hq : 0 < q.length) (h : q.length ≤ n) (x : α) :
    ring (q.set (n % q.length) x) (n + 1) = (ring q n).tail ++ [x] := by
  rw [ring_full h, ring_full (by rw [List.length_set]; omega), rotate_set hq]

end Rings
end LinuxProg
