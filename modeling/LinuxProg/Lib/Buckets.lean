/-
# Counting the members of a set in buckets

The members of a changing set have values, and the values fall into the buckets
`0, 1, …, n - 1` by a monotone `key`. A bucket keeps how many members it has and
a value that bounds theirs, which starts again with the first member and does not
go down as long as there is one. A table keeps one value more, for the whole set:
it goes up with a member, and when the bucket that gave it becomes empty it is
read off the topmost bucket that has members.

`Tracks` says what the buckets know of the set, whatever the cached value is.
`Bounds` and `Exact` are two invariants of the cached value: that it is no
smaller than any member's, and that it is the value of the topmost bucket. Then
it lies in the bucket of the greatest member (`Tracks.exists_key_eq`), and only
within this bucket can it be too high.
-/
import Mathlib

namespace LinuxProg
namespace Buckets

variable {β ι : Type*} [LinearOrder β]

structure Bucket (β : Type*) where
  value : β
  tasks : ℕ

/-- The buckets with the value for the whole set. -/
structure Table (β : Type*) where
  value : β
  bucket : ℕ → Bucket β

/-- One more member, of the value `v`. -/
def Bucket.add (b : Bucket β) (v : β) : Bucket β :=
  ⟨if b.tasks + 1 = 1 ∨ b.value < v then v else b.value, b.tasks + 1⟩

/-- One member less. -/
def Bucket.drop (b : Bucket β) : Bucket β := { b with tasks := b.tasks - 1 }

/-- The value of the topmost bucket below `n` with members. -/
def top (bucket : ℕ → Bucket β) : ℕ → Option β
  | 0 => none
  | n + 1 => if (bucket n).tasks = 0 then top bucket n else some (bucket n).value

def Table.insert (t : Table β) (i : ℕ) (v : β) : Table β where
  value := if t.value < v then v else t.value
  bucket := Function.update t.bucket i ((t.bucket i).add v)

/-- The value when no member is left is `rest`. -/
def Table.remove (n : ℕ) (t : Table β) (i : ℕ) (rest : β) : Table β where
  value :=
    if (t.bucket i).drop.tasks ≠ 0 ∨ (t.bucket i).value < t.value then t.value
    else (top (Function.update t.bucket i (t.bucket i).drop) n).getD rest
  bucket := Function.update t.bucket i (t.bucket i).drop

@[simp]
theorem Bucket.add_tasks (b : Bucket β) (v : β) : (b.add v).tasks = b.tasks + 1 := rfl

omit [LinearOrder β] in
@[simp]
theorem Bucket.drop_tasks (b : Bucket β) : b.drop.tasks = b.tasks - 1 := rfl

omit [LinearOrder β] in
@[simp]
theorem Bucket.drop_value (b : Bucket β) : b.drop.value = b.value := rfl

theorem Bucket.le_add_value (b : Bucket β) (v : β) : v ≤ (b.add v).value := by
  unfold Bucket.add
  split
  · exact le_rfl
  · rename_i h
    exact not_lt.mp fun hlt => h (.inr hlt)

theorem Bucket.value_le_add_value {b : Bucket β} (h : b.tasks ≠ 0) (v : β) :
    b.value ≤ (b.add v).value := by
  unfold Bucket.add
  split
  · rename_i hor
    rcases hor with h1 | hlt
    · exact absurd (Nat.succ.inj h1) h
    · exact hlt.le
  · exact le_rfl

theorem Bucket.add_value (b : Bucket β) (v : β) :
    (b.add v).value = v ∨ b.tasks ≠ 0 ∧ (b.add v).value = b.value := by
  unfold Bucket.add
  split
  · exact .inl rfl
  · rename_i h
    exact .inr ⟨fun h0 => h (.inl (by rw [h0])), rfl⟩

/-! ### The topmost bucket -/

omit [LinearOrder β] in
theorem top_eq_none {bucket : ℕ → Bucket β} : ∀ {n : ℕ},
    top bucket n = none ↔ ∀ i < n, (bucket i).tasks = 0
  | 0 => by simp [top]
  | n + 1 => by
    unfold top
    split
    · rename_i h
      rw [top_eq_none, Nat.forall_lt_succ_right]
      exact (and_iff_left h).symm
    · rename_i h
      exact iff_of_false (by simp) fun hall => h (hall n n.lt_succ_self)

omit [LinearOrder β] in
theorem top_eq_some {bucket : ℕ → Bucket β} {v : β} : ∀ {n : ℕ},
    top bucket n = some v ↔ ∃ i < n, (bucket i).tasks ≠ 0 ∧ (bucket i).value = v ∧
      ∀ j, i < j → j < n → (bucket j).tasks = 0
  | 0 => by simp [top]
  | n + 1 => by
    unfold top
    split
    · rename_i h
      rw [top_eq_some]
      refine exists_congr fun i => ⟨?_, ?_⟩
      · rintro ⟨hi, htasks, hv, habove⟩
        refine ⟨hi.trans n.lt_succ_self, htasks, hv, fun j hij hj => ?_⟩
        rcases Nat.lt_succ_iff_lt_or_eq.mp hj with hj | rfl
        · exact habove j hij hj
        · exact h
      · rintro ⟨hi, htasks, hv, habove⟩
        have hin : i ≠ n := fun hin => htasks (hin ▸ h)
        exact ⟨by omega, htasks, hv, fun j hij hj => habove j hij (hj.trans n.lt_succ_self)⟩
    · rename_i h
      constructor
      · intro hv
        exact ⟨n, n.lt_succ_self, h, Option.some.inj hv, fun j hj hlt => by omega⟩
      · rintro ⟨i, hi, htasks, hv, habove⟩
        rcases Nat.lt_succ_iff_lt_or_eq.mp hi with hi | rfl
        · exact absurd (habove n hi n.lt_succ_self) h
        · rw [hv]

/-! ### What the buckets know of the set -/

variable {key : β → ℕ} {n : ℕ} {t : Table β} {A : Finset ι} {val : ι → β} {p : ι} {v : β}

/-- The buckets count the members of `A`, whose values are `val`. -/
structure Tracks (key : β → ℕ) (n : ℕ) (t : Table β) (A : Finset ι) (val : ι → β) : Prop where
  lt : ∀ v, key v < n
  tasks : ∀ i, (t.bucket i).tasks = (A.filter fun p => key (val p) = i).card
  le : ∀ p ∈ A, val p ≤ (t.bucket (key (val p))).value
  key : ∀ i, (t.bucket i).tasks ≠ 0 → key (t.bucket i).value = i

namespace Tracks

omit [LinearOrder β] in
private theorem card_ne_zero_iff {i : ℕ} :
    (A.filter fun p => key (val p) = i).card ≠ 0 ↔ ∃ p ∈ A, key (val p) = i := by
  rw [Finset.card_ne_zero]
  exact Finset.filter_nonempty_iff

theorem empty (hkey : ∀ v, key v < n) (h : ∀ i, (t.bucket i).tasks = 0) :
    Tracks key n t (∅ : Finset ι) val where
  lt := hkey
  tasks i := by rw [h i, Finset.filter_empty, Finset.card_empty]
  le p hp := absurd hp (Finset.notMem_empty p)
  key i hi := absurd (h i) hi

/-- The cached value does not matter. -/
theorem congr {t' : Table β} {val' : ι → β} (h : Tracks key n t A val) (ht : t'.bucket = t.bucket)
    (hval : ∀ p ∈ A, val' p = val p) : Tracks key n t' A val' where
  lt := h.lt
  tasks i := by
    have hsame : (A.filter fun q => key (val' q) = i) = A.filter fun q => key (val q) = i :=
      Finset.filter_congr fun q hq => by rw [hval q hq]
    rw [ht, h.tasks, hsame]
  le p hp := by
    rw [ht, hval p hp]
    exact h.le p hp
  key i hi := by
    rw [ht] at hi ⊢
    exact h.key i hi

theorem tasks_ne_zero (h : Tracks key n t A val) (hp : p ∈ A) :
    (t.bucket (key (val p))).tasks ≠ 0 := by
  rw [h.tasks]
  exact card_ne_zero_iff.mpr ⟨p, hp, rfl⟩

theorem exists_mem (h : Tracks key n t A val) {i : ℕ} (hi : (t.bucket i).tasks ≠ 0) :
    ∃ p ∈ A, key (val p) = i := by
  rw [h.tasks] at hi
  exact card_ne_zero_iff.mp hi

theorem top_eq_none_iff (h : Tracks key n t A val) : top t.bucket n = none ↔ A = ∅ := by
  rw [top_eq_none]
  constructor
  · intro hall
    refine Finset.eq_empty_of_forall_notMem fun p hp => ?_
    exact h.tasks_ne_zero hp (hall _ (h.lt _))
  · rintro rfl i -
    rw [h.tasks, Finset.filter_empty, Finset.card_empty]

/-- The topmost bucket's value is no smaller than that of any bucket with members. -/
theorem le_top (h : Tracks key n t A val) (hmono : Monotone key) (hv : top t.bucket n = some v)
    {i : ℕ} (hi : (t.bucket i).tasks ≠ 0) : (t.bucket i).value ≤ v ∧ i ≤ key v := by
  obtain ⟨j, hj, htasks, rfl, habove⟩ := top_eq_some.mp hv
  obtain ⟨p, -, hp⟩ := h.exists_mem hi
  have hij : i ≤ j := by
    by_contra hlt
    exact hi (habove i (not_le.mp hlt) (hp ▸ h.lt _))
  rw [h.key j htasks]
  refine ⟨?_, hij⟩
  rcases hij.lt_or_eq with hlt | rfl
  · by_contra hle
    have hkey := hmono (not_le.mp hle).le
    rw [h.key i hi, h.key j htasks] at hkey
    exact absurd hkey (not_le.mpr hlt)
  · exact le_rfl

theorem val_le_top (h : Tracks key n t A val) (hmono : Monotone key)
    (hv : top t.bucket n = some v) (hp : p ∈ A) : val p ≤ v :=
  (h.le p hp).trans (h.le_top hmono hv (h.tasks_ne_zero hp)).1

/-- The topmost bucket is that of some member, so of the greatest. -/
theorem exists_key_eq (h : Tracks key n t A val) (hv : top t.bucket n = some v) :
    ∃ p ∈ A, key (val p) = key v := by
  obtain ⟨i, -, htasks, rfl, -⟩ := top_eq_some.mp hv
  rw [h.key i htasks]
  exact h.exists_mem htasks

variable [DecidableEq ι]

omit [LinearOrder β] in
private theorem filter_insert_card {val' : ι → β} (hp : p ∉ A)
    (hval : ∀ q ∈ A, val' q = val q) (i : ℕ) :
    ((insert p A).filter fun q => key (val' q) = i).card =
      (A.filter fun q => key (val q) = i).card + if key (val' p) = i then 1 else 0 := by
  have hsame : (A.filter fun q => key (val' q) = i) = A.filter fun q => key (val q) = i :=
    Finset.filter_congr fun q hq => by rw [hval q hq]
  rw [Finset.filter_insert, hsame]
  split
  · rw [Finset.card_insert_of_notMem fun hmem => hp (Finset.mem_filter.mp hmem).1]
  · rfl

/-- A member comes. -/
theorem insert {val' : ι → β} (h : Tracks key n t A val) (hp : p ∉ A)
    (hval : ∀ q ∈ A, val' q = val q) :
    Tracks key n (t.insert (key (val' p)) (val' p)) (insert p A) val' where
  lt := h.lt
  tasks i := by
    rw [filter_insert_card hp hval, ← h.tasks]
    simp only [Table.insert, Function.update_apply]
    by_cases hi : i = key (val' p)
    · rw [if_pos hi, if_pos hi.symm, hi, Bucket.add_tasks]
    · rw [if_neg hi, if_neg (Ne.symm hi), Nat.add_zero]
  le q hq := by
    simp only [Table.insert, Function.update_apply]
    rcases Finset.mem_insert.mp hq with rfl | hq
    · rw [if_pos rfl]
      exact Bucket.le_add_value _ _
    · rw [hval q hq]
      split
      · rename_i hk
        rw [← hk]
        exact (h.le q hq).trans (Bucket.value_le_add_value (h.tasks_ne_zero hq) _)
      · exact h.le q hq
  key i hi := by
    simp only [Table.insert, Function.update_apply] at hi ⊢
    split
    · rename_i hk
      rcases Bucket.add_value (t.bucket (key (val' p))) (val' p) with heq | ⟨hne, heq⟩
      · rw [heq, hk]
      · rw [heq, h.key _ hne, hk]
    · rename_i hk
      rw [if_neg hk] at hi
      exact h.key i hi

/-- A member goes. -/
theorem remove (rest : β) (h : Tracks key n t A val) (hp : p ∈ A) :
    Tracks key n (t.remove n (key (val p)) rest) (A.erase p) val where
  lt := h.lt
  tasks i := by
    have hA : A.filter (fun q => key (val q) = i) =
        (Insert.insert p (A.erase p)).filter fun q => key (val q) = i := by
      rw [Finset.insert_erase hp]
    have hcard : ((Insert.insert p (A.erase p)).filter fun q => key (val q) = i).card =
        ((A.erase p).filter fun q => key (val q) = i).card + if key (val p) = i then 1 else 0 :=
      filter_insert_card (Finset.notMem_erase p A) (fun q _ => rfl) i
    rw [← hA, ← h.tasks] at hcard
    simp only [Table.remove, Function.update_apply]
    by_cases hi : i = key (val p)
    · rw [if_pos hi, Bucket.drop_tasks, ← hi, hcard, if_pos hi.symm, Nat.add_sub_cancel]
    · rw [if_neg hi, hcard, if_neg (Ne.symm hi), Nat.add_zero]
  le q hq := by
    simp only [Table.remove, Function.update_apply]
    have hle := h.le q (Finset.mem_of_mem_erase hq)
    split
    · rename_i hk
      rw [Bucket.drop_value, ← hk]
      exact hle
    · exact hle
  key i hi := by
    simp only [Table.remove, Function.update_apply] at hi ⊢
    split
    · rename_i hk
      rw [Bucket.drop_value, hk]
      rw [hk] at hi
      exact h.key _ (h.tasks_ne_zero hp)
    · rename_i hk
      rw [if_neg hk] at hi
      exact h.key i hi

end Tracks

/-! ### The value for the whole set -/

/-- No bucket with members has a greater value. -/
def Bounds (t : Table β) : Prop := ∀ i, (t.bucket i).tasks ≠ 0 → (t.bucket i).value ≤ t.value

/-- The value is that of the topmost bucket with members. -/
def Exact (n : ℕ) (t : Table β) : Prop := ∀ v, top t.bucket n = some v → v = t.value

theorem Bounds.val_le (h : Tracks key n t A val) (hb : Bounds t) (hp : p ∈ A) : val p ≤ t.value :=
  (h.le p hp).trans (hb _ (h.tasks_ne_zero hp))

theorem Tracks.exists_top (h : Tracks key n t A val) (hA : A ≠ ∅) : ∃ v, top t.bucket n = some v :=
  Option.ne_none_iff_exists'.mp fun hnone => hA (h.top_eq_none_iff.mp hnone)

theorem Exact.bounds (h : Tracks key n t A val) (hmono : Monotone key) (he : Exact n t) :
    Bounds t := by
  intro i hi
  obtain ⟨p, hp, -⟩ := h.exists_mem hi
  obtain ⟨v, hv⟩ := h.exists_top (Finset.ne_empty_of_mem hp)
  exact he v hv ▸ (h.le_top hmono hv hi).1

/-- The value lies in the bucket of some member. -/
theorem Exact.exists_key_eq (h : Tracks key n t A val) (he : Exact n t) (hA : A ≠ ∅) :
    ∃ p ∈ A, key (val p) = key t.value := by
  obtain ⟨v, hv⟩ := h.exists_top hA
  exact he v hv ▸ h.exists_key_eq hv

theorem Table.value_insert (t : Table β) (i : ℕ) (v : β) : (t.insert i v).value = max t.value v := by
  unfold Table.insert
  split
  · rename_i h
    exact (max_eq_right h.le).symm
  · rename_i h
    exact (max_eq_left (not_lt.mp h)).symm

theorem Bounds.insert (hb : Bounds t) (i : ℕ) (v : β) : Bounds (t.insert i v) := by
  intro j hj
  rw [Table.value_insert]
  simp only [Table.insert, Function.update_apply] at hj ⊢
  split
  · rcases Bucket.add_value (t.bucket i) v with heq | ⟨hne, heq⟩
    · exact heq.trans_le (le_max_right _ _)
    · exact heq.trans_le ((hb i hne).trans (le_max_left _ _))
  · rename_i hji
    rw [if_neg hji] at hj
    exact (hb j hj).trans (le_max_left _ _)

theorem Exact.insert [DecidableEq ι] (val' : ι → β) (h : Tracks key n t A val)
    (hmono : Monotone key) (he : Exact n t) (hp : p ∉ A) (hval : ∀ q ∈ A, val' q = val q)
    (hfirst : A = ∅ → t.value ≤ val' p) : Exact n (t.insert (key (val' p)) (val' p)) := by
  have h' := h.insert hp hval
  intro w hw
  apply le_antisymm
  · obtain ⟨i, -, htasks, rfl, -⟩ := top_eq_some.mp hw
    exact (he.bounds h hmono).insert _ _ i htasks
  · rw [Table.value_insert]
    have hnew : val' p ≤ w := h'.val_le_top hmono hw (Finset.mem_insert_self p A)
    refine max_le ?_ hnew
    by_cases hA : A = ∅
    · exact (hfirst hA).trans hnew
    · -- the bucket that was topmost still has members
      obtain ⟨u, hu⟩ := h.exists_top hA
      rw [← he u hu]
      obtain ⟨i, -, htasks, rfl, -⟩ := top_eq_some.mp hu
      by_cases hi : i = key (val' p)
      · have hle := Bucket.value_le_add_value htasks (val' p)
        refine hle.trans (le_trans (le_of_eq ?_) (h'.le_top hmono hw (i := i) ?_).1)
        · simp [Table.insert, hi]
        · simp [Table.insert, hi]
      · refine le_trans (le_of_eq ?_) (h'.le_top hmono hw (i := i) ?_).1
        · simp [Table.insert, hi]
        · simpa [Table.insert, Function.update_apply, hi] using htasks

section

variable {i : ℕ} {rest : β}

theorem Table.remove_value_bucket (t : Table β) (i j : ℕ) (rest : β) :
    ((t.remove n i rest).bucket j).value = (t.bucket j).value := by
  by_cases h : j = i <;> simp [Table.remove, h]

theorem Table.tasks_of_remove {j : ℕ} (h : ((t.remove n i rest).bucket j).tasks ≠ 0) :
    (t.bucket j).tasks ≠ 0 := by
  simp only [Table.remove, Function.update_apply] at h
  split at h
  · rename_i hj
    rw [Bucket.drop_tasks, ← hj] at h
    omega
  · exact h

/-- Either the value stays, or it is the topmost bucket's. -/
theorem Table.remove_value (t : Table β) (i : ℕ) (rest : β) :
    (t.remove n i rest).value = t.value ∧
        (((t.remove n i rest).bucket i).tasks ≠ 0 ∨ (t.bucket i).value < t.value) ∨
      (t.remove n i rest).value = (top (t.remove n i rest).bucket n).getD rest ∧
        ((t.remove n i rest).bucket i).tasks = 0 := by
  simp only [Table.remove, Function.update_self]
  split
  · rename_i h
    exact .inl ⟨rfl, h⟩
  · rename_i h
    exact .inr ⟨rfl, by_contra fun hne => h (.inl hne)⟩

theorem Bounds.remove (h' : Tracks key n (t.remove n i rest) A val) (hmono : Monotone key)
    (hb : Bounds t) : Bounds (t.remove n i rest) := by
  intro j hj
  rcases Table.remove_value (n := n) t i rest with ⟨heq, -⟩ | ⟨heq, -⟩
  · rw [heq, Table.remove_value_bucket]
    exact hb j (Table.tasks_of_remove hj)
  · obtain ⟨p, hp, -⟩ := h'.exists_mem hj
    obtain ⟨v, hv⟩ := h'.exists_top (Finset.ne_empty_of_mem hp)
    rw [heq, hv]
    exact (h'.le_top hmono hv hj).1

theorem Exact.remove (h : Tracks key n t A val) (hmono : Monotone key) {B : Finset ι}
    (h' : Tracks key n (t.remove n i rest) B val) (hA : A ≠ ∅) (he : Exact n t) :
    Exact n (t.remove n i rest) := by
  intro w hw
  rcases Table.remove_value (n := n) t i rest with ⟨heq, hor⟩ | ⟨heq, -⟩
  · apply le_antisymm
    · obtain ⟨j, -, htasks, rfl, -⟩ := top_eq_some.mp hw
      exact (he.bounds h hmono).remove h' hmono j htasks
    · -- the value comes from the bucket that was topmost, which still has members
      obtain ⟨u, hu⟩ := h.exists_top hA
      obtain ⟨j, -, htasks, hvalue, -⟩ := top_eq_some.mp hu
      have hj : ((t.remove n i rest).bucket j).tasks ≠ 0 := by
        by_cases hji : j = i
        · subst hji
          exact hor.resolve_right fun hlt => hlt.ne (hvalue.trans (he u hu))
        · simpa [Table.remove, Function.update_apply, hji] using htasks
      rw [heq, ← he u hu, ← hvalue, ← Table.remove_value_bucket (n := n) t i j rest]
      exact (h'.le_top hmono hw hj).1
  · rw [heq, hw]
    rfl

/-- With one member the value is that of its bucket. -/
theorem Exact.value_eq (h : Tracks key n t ({p} : Finset ι) val) (he : Exact n t) :
    (t.bucket (key (val p))).value = t.value := by
  obtain ⟨v, hv⟩ := h.exists_top (Finset.singleton_ne_empty p)
  obtain ⟨i, -, htasks, rfl, -⟩ := top_eq_some.mp hv
  obtain ⟨q, hq, rfl⟩ := h.exists_mem htasks
  rw [Finset.mem_singleton.mp hq] at hv
  exact he _ hv

/-- The only member leaves `rest` behind. -/
theorem Exact.value_remove [DecidableEq ι] (h : Tracks key n t ({p} : Finset ι) val)
    (he : Exact n t) : (t.remove n (key (val p)) rest).value = rest := by
  have h' := h.remove rest (Finset.mem_singleton_self p)
  have hempty : ({p} : Finset ι).erase p = ∅ := Finset.erase_singleton p
  rcases Table.remove_value (n := n) t (key (val p)) rest with ⟨-, hor⟩ | ⟨heq, -⟩
  · obtain ⟨q, hq, -⟩ | hlt := hor.imp_left h'.exists_mem
    · exact absurd (hempty ▸ hq) (Finset.notMem_empty q)
    · exact absurd (he.value_eq h) hlt.ne
  · rw [heq, h'.top_eq_none_iff.mpr hempty]
    rfl

end

end Buckets
end LinuxProg
