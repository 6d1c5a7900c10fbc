/-
# Strings in memory

`str nul mem p` is the string at cell `p`, up to the first `nul`; `write mem p s`
is `mem` with `s` from cell `p` on. `At nul mem p s` says that `s` stands at
`p`: it does after it was written there (`At.of_write`), and stays where nothing
of it is written over (`At.write`).

`Rooms` are places for strings, each with the cells up to the next one. Strings
that are shorter than their rooms do not touch each other: one of them can be
replaced by any that fits its room (`Shows.write`).
-/
import Mathlib

namespace LinuxProg
namespace CStrings

variable {α : Type*} {nul : α}

/-- The string at `p`. -/
def str [DecidableEq α] (nul : α) (mem : List α) (p : ℕ) : List α :=
  (mem.drop p).takeWhile fun c => decide (c ≠ nul)

/-- `s` written from `p` on. -/
def write (mem : List α) (p : ℕ) (s : List α) : List α :=
  mem.take p ++ (s ++ mem.drop (p + s.length))

/-- `s` stands at `p`, with its `nul`. -/
structure At (nul : α) (mem : List α) (p : ℕ) (s : List α) : Prop where
  free : nul ∉ s
  cells : ∃ tail, mem.drop p = s ++ nul :: tail

theorem length_write {mem : List α} {p : ℕ} {s : List α} (h : p + s.length ≤ mem.length) :
    (write mem p s).length = mem.length := by
  unfold write
  rw [List.length_append, List.length_append, List.length_take, List.length_drop]
  omega

/-- What stands behind the cells written. -/
theorem drop_write_behind {mem : List α} {p q : ℕ} {s : List α} (h : p + s.length ≤ mem.length)
    (hq : p + s.length ≤ q) : (write mem p s).drop q = mem.drop q := by
  obtain ⟨k, rfl⟩ := Nat.exists_eq_add_of_le hq
  have hlen : (mem.take p ++ s).length = p + s.length := by
    rw [List.length_append, List.length_take_of_le (by omega)]
  unfold write
  rw [← List.append_assoc, ← List.drop_drop, List.drop_left' hlen, List.drop_drop]

/-- What stands before them. -/
theorem drop_write_before {mem : List α} {p q : ℕ} {s : List α} (hp : p ≤ mem.length)
    (hq : q ≤ p) : (write mem p s).drop q =
      (mem.drop q).take (p - q) ++ (s ++ mem.drop (p + s.length)) := by
  have hlen : q ≤ (mem.take p).length := by
    rw [List.length_take_of_le hp]
    exact hq
  unfold write
  rw [List.drop_append_of_le_length hlen, List.drop_take]

theorem At.str [DecidableEq α] {mem : List α} {p : ℕ} {s : List α} (h : At nul mem p s) :
    str nul mem p = s := by
  obtain ⟨hfree, tail, htail⟩ := h
  unfold CStrings.str
  rw [htail, List.takeWhile_append_of_pos, List.takeWhile_cons_of_neg, List.append_nil]
  · simp
  · intro c hc
    exact decide_eq_true fun h => hfree (h ▸ hc)

/-- A string that was just written. -/
theorem At.of_write {mem : List α} {p : ℕ} {s : List α} (hs : nul ∉ s)
    (h : p + s.length < mem.length) : At nul (CStrings.write mem p (s ++ [nul])) p s := by
  refine ⟨hs, mem.drop (p + (s ++ [nul]).length), ?_⟩
  rw [drop_write_before (by omega) le_rfl, Nat.sub_self, List.take_zero, List.nil_append,
    List.append_assoc, List.singleton_append]

/-- A string that nothing was written over. -/
theorem At.write {mem t : List α} {p q : ℕ} {s : List α} (hat : At nul mem q s)
    (h : p + t.length ≤ mem.length) (hne : q + s.length < p ∨ p + t.length ≤ q) :
    At nul (CStrings.write mem p t) q s := by
  obtain ⟨hfree, tail, htail⟩ := hat
  rcases hne with hlt | hle
  · refine ⟨hfree, tail.take (p - q - (s.length + 1)) ++ (t ++ mem.drop (p + t.length)), ?_⟩
    have htake : (s ++ nul :: tail).take (p - q) =
        s ++ nul :: tail.take (p - q - (s.length + 1)) := by
      obtain ⟨k, hk⟩ : ∃ k, p - q = s.length + (k + 1) := ⟨p - q - s.length - 1, by omega⟩
      rw [hk, List.take_length_add_append, List.take_succ_cons]
      congr 3
      omega
    rw [drop_write_before (by omega) (by omega), htail, htake, List.append_assoc, List.cons_append]
  · exact ⟨hfree, tail, (drop_write_behind h hle).trans htail⟩

/-! ### Rooms -/

/-- Places for strings, in order, below `stop`. -/
structure Rooms where
  slots : List ℕ
  stop : ℕ
  sorted : slots.Pairwise (· < ·)
  below : ∀ p ∈ slots, p < stop

namespace Rooms

variable (R : Rooms)

/-- The place of string `k`. -/
def slot (k : ℕ) : ℕ := R.slots.getD k R.stop

/-- The place after it. -/
def limit (k : ℕ) : ℕ := R.slot (k + 1)

/-- How many cells it has. -/
def room (k : ℕ) : ℕ := R.limit k - R.slot k

theorem slot_le_stop (k : ℕ) : R.slot k ≤ R.stop := by
  unfold slot
  rcases Nat.lt_or_ge k R.slots.length with h | h
  · rw [List.getD_eq_getElem _ _ h]
    exact (R.below _ (List.getElem_mem h)).le
  · rw [List.getD_eq_default _ _ h]

theorem slot_mono {j k : ℕ} (h : j ≤ k) : R.slot j ≤ R.slot k := by
  rcases Nat.lt_or_ge k R.slots.length with hk | hk
  · have hj : j < R.slots.length := by omega
    unfold slot
    rw [List.getD_eq_getElem _ _ hk, List.getD_eq_getElem _ _ hj]
    rcases Nat.lt_or_eq_of_le h with hlt | rfl
    · exact (List.pairwise_iff_getElem.mp R.sorted j k hj hk hlt).le
    · exact le_rfl
  · have := R.slot_le_stop j
    unfold slot at this ⊢
    rwa [List.getD_eq_default _ _ hk]

theorem limit_le_slot {j k : ℕ} (h : j < k) : R.limit j ≤ R.slot k := R.slot_mono h

theorem limit_le_stop (k : ℕ) : R.limit k ≤ R.stop := R.slot_le_stop (k + 1)

/-- A string that is shorter than its room ends before the next place. -/
theorem lt_room {k n : ℕ} : n < R.room k ↔ R.slot k + n < R.limit k := by
  have := R.slot_mono (Nat.le_succ k)
  unfold room limit
  omega

end Rooms

/-- The strings stand at the places, each in its room. -/
structure Shows (nul : α) (R : Rooms) (mem : List α) (a : List (List α)) : Prop where
  length : mem.length = R.stop
  here : ∀ k s, a[k]? = some s → At nul mem (R.slot k) s
  fits : ∀ k s, a[k]? = some s → s.length < R.room k

namespace Shows

variable {R : Rooms} {mem : List α} {a : List (List α)}

theorem str_eq [DecidableEq α] (h : Shows nul R mem a) {k : ℕ} {s : List α}
    (hs : a[k]? = some s) : str nul mem (R.slot k) = s := (h.here k s hs).str

/-- A cell after a store. -/
theorem cell_set {β : Type*} {l : List β} {k j : ℕ} {x y : β} (h : (l.set k x)[j]? = some y) :
    j = k ∧ y = x ∨ j ≠ k ∧ l[j]? = some y := by
  rw [List.getElem?_set] at h
  split at h
  · rename_i hkj
    split at h
    · exact Or.inl ⟨hkj.symm, (Option.some.inj h).symm⟩
    · cases h
  · rename_i hkj
    exact Or.inr ⟨Ne.symm hkj, h⟩

/-- **A string written into its room** leaves the others. -/
theorem write (h : Shows nul R mem a) {k : ℕ} {s : List α} (hs : nul ∉ s)
    (hroom : s.length < R.room k) :
    Shows nul R (CStrings.write mem (R.slot k) (s ++ [nul])) (a.set k s) := by
  rw [Rooms.lt_room] at hroom
  have hstop := R.limit_le_stop k
  have hlen : (s ++ [nul]).length = s.length + 1 := by
    rw [List.length_append, List.length_singleton]
  have hend : R.slot k + (s ++ [nul]).length ≤ mem.length := by
    rw [hlen, h.length]
    omega
  refine ⟨(length_write hend).trans h.length, fun j t ht => ?_, fun j t ht => ?_⟩
  · rcases cell_set ht with ⟨rfl, rfl⟩ | ⟨hne, ht⟩
    · exact At.of_write hs (by rw [h.length]; omega)
    · have hfit := R.lt_room.mp (h.fits j t ht)
      refine (h.here j t ht).write hend ?_
      rcases Nat.lt_or_gt_of_ne hne with hlt | hlt
      · have := R.limit_le_slot hlt
        omega
      · have := R.limit_le_slot hlt
        omega
  · rcases cell_set ht with ⟨rfl, rfl⟩ | ⟨-, ht⟩
    · exact R.lt_room.mpr hroom
    · exact h.fits j t ht

end Shows

end CStrings
end LinuxProg
