/-
# Arrays rearranged in place

`swap` exchanges two cells. `del` takes a cell out by moving the cells behind
it one down (`shift_eq_del`). `exchangeSort lo` is the loop nest

    for(i=lo;i<n;i++) for(j=lo;j<i;j++) if(a[i] < a[j]) swap

It sorts the cells from `lo` on: while the cells below `i` are sorted, the
inner loop carries the value of cell `i` through them (`carry`) and leaves the
cells up to `i` sorted. `pass r lo` is the same loop nest with any test `r`;
that the order is strict is all it takes (`pass_settled`).
-/
import Mathlib
import LinuxProg.Lib.Buffers

namespace LinuxProg
namespace Exchange

variable {α : Type*}

/-- Exchange cells `i` and `j`. -/
def swap (a : List α) (i j : ℕ) : List α :=
  match a[i]?, a[j]? with
  | some x, some y => (a.set i y).set j x
  | _, _ => a

theorem length_swap (a : List α) (i j : ℕ) : (swap a i j).length = a.length := by
  unfold swap
  split
  · rw [List.length_set, List.length_set]
  · rfl

theorem mem_of_mem_swap {a : List α} {i j : ℕ} {x : α} (h : x ∈ swap a i j) : x ∈ a := by
  unfold swap at h
  split at h
  · rename_i hi hj
    rcases List.mem_or_eq_of_mem_set h with h | rfl
    · rcases List.mem_or_eq_of_mem_set h with h | rfl
      · exact h
      · exact List.mem_of_getElem? hj
    · exact List.mem_of_getElem? hi
  · exact h

/-- A map of the values. -/
theorem map_swap {β : Type*} (f : α → β) (a : List α) (i j : ℕ) :
    (swap a i j).map f = swap (a.map f) i j := by
  unfold swap
  rw [List.getElem?_map, List.getElem?_map]
  cases a[i]? with
  | none => rfl
  | some x =>
    cases a[j]? with
    | none => rfl
    | some y =>
      show ((a.set i y).set j x).map f = ((a.map f).set i (f y)).set j (f x)
      rw [List.map_set, List.map_set]

/-- The cells in the order the array has them. -/
theorem swap_split (pre u v : List α) (x y : α) :
    swap (pre ++ x :: (u ++ y :: v)) pre.length (pre.length + (u.length + 1)) =
      pre ++ y :: (u ++ x :: v) := by
  have hx : (pre ++ x :: (u ++ y :: v))[pre.length]? = some x := by simp
  have hy : (pre ++ x :: (u ++ y :: v))[pre.length + (u.length + 1)]? = some y := by
    rw [List.getElem?_append_right (by omega), Nat.add_sub_cancel_left, List.getElem?_cons_succ]
    simp
  unfold swap
  rw [hx, hy]
  simp only
  rw [List.set_append_right _ _ le_rfl, Nat.sub_self, List.set_cons_zero,
    List.set_append_right _ _ (by omega), Nat.add_sub_cancel_left, List.set_cons_succ,
    List.set_append_right _ _ le_rfl, Nat.sub_self, List.set_cons_zero]

theorem perm_exchange (u v : List α) (x y : α) : (x :: (u ++ y :: v)).Perm (y :: (u ++ x :: v)) := by
  calc (x :: (u ++ y :: v)).Perm (x :: y :: (u ++ v)) := List.perm_middle.cons x
    _ |>.Perm (y :: x :: (u ++ v)) := List.Perm.swap y x _
    _ |>.Perm (y :: (u ++ x :: v)) := List.perm_middle.symm.cons y

/-- It does not matter in which order the cells are named. -/
theorem swap_comm (a : List α) (i j : ℕ) : swap a i j = swap a j i := by
  unfold swap
  cases hi : a[i]? with
  | none => cases a[j]? <;> rfl
  | some x =>
    cases hj : a[j]? with
    | none => rfl
    | some y =>
      simp only
      by_cases hij : i = j
      · subst hij
        rw [hi] at hj
        cases hj
        rfl
      · exact List.set_comm _ _ hij

theorem swap_self (a : List α) (i : ℕ) : swap a i i = a := by
  unfold swap
  cases hi : a[i]? with
  | none => rfl
  | some x =>
    obtain ⟨hlt, rfl⟩ := List.getElem?_eq_some_iff.mp hi
    simp

/-- Other cells stay. -/
theorem swap_getElem?_of_ne (a : List α) {i j k : ℕ} (hi : k ≠ i) (hj : k ≠ j) :
    (swap a i j)[k]? = a[k]? := by
  unfold swap
  split
  · rw [List.getElem?_set_ne (Ne.symm hj), List.getElem?_set_ne (Ne.symm hi)]
  · rfl

/-! ### Cells of a split array -/

theorem getD_append_cons (pre : List α) (x : α) (tail : List α) (j : ℕ) (d : α) :
    (pre ++ x :: tail).getD (pre.length + (j + 1)) d = tail.getD j d := by
  simp [List.getD_eq_getElem?_getD, List.getElem?_append_right]

theorem getD_append_self (pre : List α) (x : α) (tail : List α) (d : α) :
    (pre ++ x :: tail).getD pre.length d = x := by
  simp

/-! ### Taking a cell out -/

/-- Cell `n` goes, or the last one if there is no such cell. -/
def del (n : ℕ) (l : List α) : List α := if n < l.length then l.eraseIdx n else l.dropLast

theorem length_del (n : ℕ) {l : List α} (h : l ≠ []) : (del n l).length + 1 = l.length := by
  have := List.length_pos_iff.mpr h
  unfold del
  split
  · rename_i hn
    rw [List.length_eraseIdx_of_lt hn]
    omega
  · rw [List.length_dropLast]
    omega

theorem del_sublist (n : ℕ) (l : List α) : List.Sublist (del n l) l := by
  unfold del
  split
  · exact List.eraseIdx_sublist l n
  · exact List.dropLast_sublist l

/-- At most one cell of a kind goes. -/
theorem countP_del (p : α → Bool) (n : ℕ) (l : List α) : l.countP p ≤ (del n l).countP p + 1 := by
  unfold del
  split
  · rename_i hn
    have := (List.getElem_cons_eraseIdx_perm hn).countP_eq p
    rw [List.countP_cons] at this
    split at this <;> omega
  · rcases List.eq_nil_or_concat' l with rfl | ⟨l, x, rfl⟩
    · simp
    · rw [List.dropLast_concat, List.countP_append, List.countP_singleton]
      split <;> omega

theorem del_succ_cons (n : ℕ) (x : α) {l : List α} (h : l ≠ []) :
    del (n + 1) (x :: l) = x :: del n l := by
  unfold del
  rw [List.length_cons]
  by_cases hn : n < l.length
  · rw [if_pos (by omega), if_pos hn, List.eraseIdx_cons_succ]
  · rw [if_neg (by omega), if_neg hn, List.dropLast_cons_of_ne_nil h]

/-- The loop that moves the cells behind `x` one down. -/
theorem shift_eq (d : α) : ∀ (tail pre : List α) (x : α),
    ∃ z, (List.range' pre.length tail.length).foldl (fun a j => a.set j (a.getD (j + 1) d))
      (pre ++ x :: tail) = pre ++ (tail ++ [z])
  | [], pre, x => ⟨x, rfl⟩
  | y :: tail, pre, x => by
    obtain ⟨z, hz⟩ := shift_eq d tail (pre ++ [y]) y
    refine ⟨z, ?_⟩
    have hget : (pre ++ x :: y :: tail).getD (pre.length + 1) d = y :=
      getD_append_cons pre x (y :: tail) 0 d
    rw [List.length_cons, List.range'_succ, List.foldl_cons, hget,
      List.set_append_right _ _ le_rfl, Nat.sub_self, List.set_cons_zero]
    rw [List.length_append, List.length_singleton] at hz
    simpa using hz

/-- Moving down and making the array one shorter takes the cell out. -/
theorem shift_eq_del (d : α) (k : ℕ) (a : List α) :
    ((List.range' k (a.length - 1 - k)).foldl (fun a j => a.set j (a.getD (j + 1) d)) a).dropLast =
      del k a := by
  unfold del
  split
  · rename_i hk
    have hl : a = a.take k ++ a[k] :: a.drop (k + 1) := by
      rw [← List.drop_eq_getElem_cons hk, List.take_append_drop]
    have hpre : (a.take k).length = k := List.length_take_of_le hk.le
    have hn : a.length - 1 - k = (a.drop (k + 1)).length := by
      rw [List.length_drop]
      omega
    obtain ⟨z, hz⟩ := shift_eq d (a.drop (k + 1)) (a.take k) a[k]
    rw [hpre, ← hl] at hz
    rw [hn, hz, ← List.append_assoc, List.dropLast_concat, List.eraseIdx_eq_take_drop_succ]
  · rename_i hk
    rw [show a.length - 1 - k = 0 by omega]
    rfl

/-! ### Exchanging by any test -/

section Test

variable (r : α → α → Prop) [DecidableRel r]

/-- `for(j=lo;j<i;j++) if(r(a[i],a[j]))` exchange the two. -/
def passInner (lo i : ℕ) (a : List α) : List α :=
  (List.range' lo (i - lo)).foldl (fun a j =>
    match a[i]?, a[j]? with
    | some x, some y => if r x y then swap a i j else a
    | _, _ => a) a

/-- The loop nest with the test `r`. -/
def pass (lo : ℕ) (a : List α) : List α :=
  (List.range' lo (a.length - lo)).foldl (fun a i => passInner r lo i a) a

/-- Carry `x` through a list, leaving the one that `r` puts first each time. -/
def carry (x : α) : List α → List α
  | [] => [x]
  | y :: l => if r x y then x :: carry y l else y :: carry x l

theorem carry_perm : ∀ (x : α) (l : List α), (carry r x l).Perm (x :: l)
  | x, [] => List.Perm.refl _
  | x, y :: l => by
    unfold carry
    split
    · exact (carry_perm y l).cons x
    · exact ((carry_perm x l).cons y).trans (List.Perm.swap x y l)

theorem length_carry (x : α) (l : List α) : (carry r x l).length = l.length + 1 :=
  (carry_perm r x l).length_eq

/-- No cell comes after one that `r` puts behind it. -/
def Settled (l : List α) : Prop := l.Pairwise fun x y => ¬ r y x

variable {r} in
/-- Carrying through a settled list settles it again; it takes a strict order. -/
theorem Settled.carry [IsStrictOrder α r] : ∀ (x : α) {l : List α}, Settled r l →
    Settled r (carry r x l)
  | x, [], _ => List.pairwise_singleton _ x
  | x, y :: l, h => by
    obtain ⟨hy, hl⟩ := List.pairwise_cons.mp h
    unfold Exchange.carry
    split
    · rename_i hxy
      refine List.pairwise_cons.mpr ⟨fun z hz hzx => ?_, Settled.carry y hl⟩
      have hzy : r z y := IsTrans.trans z x y hzx hxy
      rcases List.mem_cons.mp ((carry_perm r y l).mem_iff.mp hz) with rfl | hz
      · exact irrefl z hzy
      · exact hy z hz hzy
    · rename_i hxy
      refine List.pairwise_cons.mpr ⟨fun z hz => ?_, Settled.carry x hl⟩
      rcases List.mem_cons.mp ((carry_perm r x l).mem_iff.mp hz) with rfl | hz
      · exact hxy
      · exact hy z hz

/-- The inner loop carries cell `i` through the cells before it. -/
theorem passInner_eq : ∀ (l pre : List α) (x : α) (post : List α),
    (List.range' pre.length l.length).foldl (fun a j =>
      match a[pre.length + l.length]?, a[j]? with
      | some x, some y => if r x y then swap a (pre.length + l.length) j else a
      | _, _ => a) (pre ++ (l ++ x :: post)) = pre ++ (carry r x l ++ post)
  | [], pre, x, post => rfl
  | y :: l, pre, x, post => by
    have hi : (pre ++ (y :: l ++ x :: post))[pre.length + (l.length + 1)]? = some x := by
      rw [List.getElem?_append_right (by omega), Nat.add_sub_cancel_left]
      simp
    have hj : (pre ++ (y :: l ++ x :: post))[pre.length]? = some y := by simp
    have hlen : ∀ z : α, (pre ++ [z]).length + l.length = pre.length + (l.length + 1) := by
      intro z
      rw [List.length_append, List.length_singleton]
      omega
    rw [List.length_cons, List.range'_succ, List.foldl_cons, hi, hj]
    simp only
    unfold carry
    split
    · -- the one put first stays, the other is carried on
      have ih := passInner_eq l (pre ++ [x]) y post
      rw [hlen, List.length_append, List.length_singleton] at ih
      rw [swap_comm, List.cons_append, swap_split]
      simpa using ih
    · have ih := passInner_eq l (pre ++ [y]) x post
      rw [hlen, List.length_append, List.length_singleton] at ih
      simpa using ih

/-- The outer loop, the cells `l` below `i` done. -/
theorem passOuter_eq (pre : List α) : ∀ (post l : List α),
    (List.range' (pre.length + l.length) post.length).foldl
      (fun a i => passInner r pre.length i a) (pre ++ (l ++ post)) =
      pre ++ post.foldl (fun l x => carry r x l) l
  | [], l => by simp
  | x :: post, l => by
    have hinner : passInner r pre.length (pre.length + l.length) (pre ++ (l ++ x :: post)) =
        pre ++ (carry r x l ++ post) := by
      rw [passInner, Nat.add_sub_cancel_left]
      exact passInner_eq r l pre x post
    have ih := passOuter_eq pre post (carry r x l)
    rw [length_carry, ← Nat.add_assoc] at ih
    rw [List.length_cons, List.range'_succ, List.foldl_cons, hinner, ih, List.foldl_cons]

/-- The pass inserts the cells from `lo` on one by one. -/
theorem pass_eq (pre l : List α) :
    pass r pre.length (pre ++ l) = pre ++ l.foldl (fun l x => carry r x l) [] := by
  have := passOuter_eq r pre l []
  rw [pass, List.length_append, Nat.add_sub_cancel_left]
  exact this

theorem foldl_carry_perm : ∀ (post l : List α),
    (post.foldl (fun l x => carry r x l) l).Perm (l ++ post)
  | [], l => by
    rw [List.append_nil]
    exact List.Perm.refl l
  | x :: post, l => by
    calc (post.foldl (fun l x => carry r x l) (carry r x l)).Perm (carry r x l ++ post) :=
          foldl_carry_perm post _
      _ |>.Perm (x :: l ++ post) := (carry_perm r x l).append_right post
      _ |>.Perm (l ++ x :: post) := List.perm_middle.symm

variable {r} in
theorem Settled.foldl [IsStrictOrder α r] : ∀ (post : List α) {l : List α}, Settled r l →
    Settled r (post.foldl (fun l x => Exchange.carry r x l) l)
  | [], _, h => h
  | x :: post, _, h => Settled.foldl post (h.carry x)

/-- **A pass** permutes the array. -/
theorem pass_perm (l : List α) : (pass r 0 l).Perm l := by
  have := foldl_carry_perm r l []
  rwa [← List.nil_append (l.foldl _ _), ← pass_eq r [] l] at this

/-- **A pass by a strict order** leaves no cell after one it belongs before. -/
theorem pass_settled [IsStrictOrder α r] (l : List α) : Settled r (pass r 0 l) := by
  have := Settled.foldl (r := r) l (l := []) List.Pairwise.nil
  rwa [← List.nil_append (l.foldl _ _), ← pass_eq r [] l] at this

variable {r} in
/-- A key that the test leaves equal is carried to the end, -/
theorem carry_map {κ : Type*} {key : α → κ} (h : ∀ x y, r x y → key x = key y) : ∀ (x : α)
    (l : List α), (carry r x l).map key = l.map key ++ [key x]
  | x, [] => rfl
  | x, y :: l => by
    unfold carry
    split
    · rename_i hxy
      rw [List.map_cons, carry_map h y l, List.map_cons, h x y hxy, List.cons_append]
    · rw [List.map_cons, carry_map h x l, List.map_cons, List.cons_append]

variable {r} in
/-- so a pass that only exchanges cells of one key leaves the keys where they are. -/
theorem pass_map {κ : Type*} {key : α → κ} (h : ∀ x y, r x y → key x = key y) (l : List α) :
    (pass r 0 l).map key = l.map key := by
  have hfold : ∀ post l : List α, (post.foldl (fun l x => carry r x l) l).map key =
      l.map key ++ post.map key := by
    intro post
    induction post with
    | nil => simp
    | cons x post ih =>
      intro l
      rw [List.foldl_cons, ih, carry_map h, List.map_cons, List.append_assoc, List.singleton_append]
  have hpass := pass_eq r [] l
  rw [List.nil_append, List.nil_append, List.length_nil] at hpass
  rw [hpass, hfold, List.map_nil, List.nil_append]

/-! ### Passes with cells that do not hold everything -/

variable (ok : ℕ → α → Prop) [∀ k, DecidablePred (ok k)]

/-- A turn of the inner loop, if the values exchanged may be put where they go. -/
def passWithinAt (i : ℕ) (a : List α) (j : ℕ) : Option (List α) :=
  match a[i]?, a[j]? with
  | some x, some y => if r x y then if ok i y ∧ ok j x then some (swap a i j) else none else some a
  | _, _ => some a

/-- The loop nest that stops at an exchange that may not be made. -/
def passWithin (a : List α) : Option (List α) :=
  (List.range a.length).foldlM
    (fun a i => (List.range i).foldlM (passWithinAt r ok i) a) a

variable {r ok}

/-- If it makes all exchanges it is the pass. -/
theorem passWithin_eq {a a' : List α} (h : passWithin r ok a = some a') : a' = pass r 0 a := by
  have hat : ∀ i b j b', passWithinAt r ok i b j = some b' → b' = match b[i]?, b[j]? with
      | some x, some y => if r x y then swap b i j else b
      | _, _ => b := by
    intro i b j b' hb
    unfold passWithinAt at hb
    split at hb
    · split at hb
      · rename_i hr
        split at hb
        · rw [if_pos hr]
          exact (Option.some.inj hb).symm
        · cases hb
      · rename_i hr
        rw [if_neg hr]
        exact (Option.some.inj hb).symm
    · exact (Option.some.inj hb).symm
  rw [passWithin] at h
  rw [Buffers.foldlM_eq_foldl (fun b i b' hb => Buffers.foldlM_eq_foldl (hat i) hb) h, pass,
    Nat.sub_zero, ← List.range_eq_range']
  unfold passInner
  simp only [Nat.sub_zero, ← List.range_eq_range']

/-- What is settled is not exchanged. -/
theorem passWithin_of_settled {a : List α} (h : Settled r a) : passWithin r ok a = some a := by
  have hat : ∀ i < a.length, ∀ j ∈ List.range i, passWithinAt r ok i a j = some a := by
    intro i hi j hj
    have hji : j < i := List.mem_range.mp hj
    unfold passWithinAt
    rw [List.getElem?_eq_getElem hi, List.getElem?_eq_getElem (hji.trans hi)]
    exact if_neg (List.pairwise_iff_getElem.mp h j i (hji.trans hi) hi hji)
  have hkeep : ∀ {l : List ℕ} {f : List α → ℕ → Option (List α)}, (∀ k ∈ l, f a k = some a) →
      l.foldlM f a = some a := by
    intro l f
    induction l with
    | nil => exact fun _ => rfl
    | cons k l ih =>
      intro hf
      obtain ⟨hk, hl⟩ := List.forall_mem_cons.mp hf
      rw [List.foldlM_cons, hk]
      exact ih hl
  exact hkeep fun i hi => hkeep (hat i (List.mem_range.mp hi))

/-- What the tests do not see of the values does not matter. -/
theorem passWithin_map {β : Type*} {key : α → β} {r' : β → β → Prop} [DecidableRel r']
    {ok' : ℕ → β → Prop} [∀ i, DecidablePred (ok' i)] (hr : ∀ x y, r' (key x) (key y) ↔ r x y)
    (hok : ∀ i x, ok' i (key x) ↔ ok i x) (a : List α) :
    (passWithin r ok a).map (List.map key) = passWithin r' ok' (a.map key) := by
  have hat : ∀ i j b, (passWithinAt r ok i b j).map (List.map key) =
      passWithinAt r' ok' i (b.map key) j := by
    intro i j b
    unfold passWithinAt
    rw [List.getElem?_map, List.getElem?_map]
    cases b[i]? with
    | none => rfl
    | some x =>
      cases b[j]? with
      | none => rfl
      | some y =>
        simp only [Option.map_some, hr, hok, ← map_swap]
        split
        · split <;> rfl
        · rfl
  unfold passWithin
  rw [List.length_map]
  refine Buffers.Follows.map_eq (Buffers.Follows.foldlM (fun i _ b c hb => ?_) rfl)
  refine Buffers.Follows.foldlM (fun j _ b c hb => ?_) hb
  rw [← hb, ← hat i j b]
  cases passWithinAt r ok i b j with
  | none => exact Buffers.Follows.of_none
  | some _ => exact Buffers.Follows.of_some rfl

end Test

theorem set_zipWith {β γ : Type*} (f : α → β → γ) : ∀ (a : List α) (b : List β) (i : ℕ) (x : α)
    (y : β), (List.zipWith f a b).set i (f x y) = List.zipWith f (a.set i x) (b.set i y)
  | [], b, i, x, y => by simp
  | _ :: _, [], i, x, y => by simp
  | _ :: _, _ :: _, 0, _, _ => rfl
  | _ :: a, _ :: b, i + 1, x, y => by
    rw [List.zipWith_cons_cons, List.set_cons_succ, set_zipWith f a b, List.set_cons_succ,
      List.set_cons_succ, List.zipWith_cons_cons]

/-- Arrays exchanged in step. -/
theorem swap_zipWith {β γ : Type*} (f : α → β → γ) {a : List α} {b : List β}
    (h : a.length = b.length) (i j : ℕ) :
    swap (List.zipWith f a b) i j = List.zipWith f (swap a i j) (swap b i j) := by
  have hcell : ∀ k : ℕ, (List.zipWith f a b)[k]? = none ∧ a[k]? = none ∧ b[k]? = none ∨
      ∃ x y, (List.zipWith f a b)[k]? = some (f x y) ∧ a[k]? = some x ∧ b[k]? = some y := by
    intro k
    rcases Nat.lt_or_ge k a.length with hk | hk
    · refine Or.inr ⟨a[k], b[k], ?_, List.getElem?_eq_getElem hk, List.getElem?_eq_getElem _⟩
      rw [List.getElem?_zipWith, List.getElem?_eq_getElem hk, List.getElem?_eq_getElem (h ▸ hk)]
    · refine Or.inl ⟨?_, List.getElem?_eq_none hk, List.getElem?_eq_none (h ▸ hk)⟩
      rw [List.getElem?_zipWith, List.getElem?_eq_none hk]
  unfold swap
  rcases hcell i with ⟨hc, ha, hb⟩ | ⟨x, y, hc, ha, hb⟩
  · rw [hc, ha, hb]
  · rcases hcell j with ⟨hc', ha', hb'⟩ | ⟨x', y', hc', ha', hb'⟩
    · rw [hc, ha, hb, hc', ha', hb']
    · rw [hc, ha, hb, hc', ha', hb']
      simp only [set_zipWith]

/-! ### Reversing -/

/-- Exchanging the cells `i` and `n - i - 1` from the ends of the middle part on. -/
theorem foldl_swap_reverse : ∀ (m pre post : List α), pre.length = post.length →
    (List.range' pre.length (m.length / 2)).foldl
      (fun a i => swap a i (pre.length + m.length + post.length - i - 1)) (pre ++ (m ++ post)) =
      pre ++ (m.reverse ++ post) := by
  intro m
  induction m using List.bidirectionalRec with
  | nil => simp
  | singleton x => simp
  | cons_append x m y ih =>
    intro pre post hlen
    have hlast : pre.length + (m.length + 2) + post.length - pre.length - 1 =
        pre.length + (m.length + 1) := by omega
    have hn : (pre ++ [y]).length + m.length + (x :: post).length =
        pre.length + (m.length + 2) + post.length := by
      simp only [List.length_append, List.length_cons, List.length_nil]
      omega
    have hrest := ih (pre ++ [y]) (x :: post) (by simp [hlen])
    rw [hn, List.length_append, List.length_singleton] at hrest
    have hm : (x :: (m ++ [y])).length = m.length + 2 := by simp
    rw [hm, Nat.add_div_right _ (by omega), List.range'_succ, List.foldl_cons, hlast]
    have hsplit := swap_split pre m post x y
    simp only [List.cons_append, List.append_assoc, List.nil_append, List.reverse_cons,
      List.reverse_append, List.reverse_nil] at hsplit hrest ⊢
    rw [hsplit, hrest]

/-- **Reversing in place.** -/
theorem foldl_swap_eq_reverse (a : List α) :
    (List.range (a.length / 2)).foldl (fun b i => swap b i (a.length - i - 1)) a = a.reverse := by
  have := foldl_swap_reverse a [] [] rfl
  simpa [List.range_eq_range'] using this

/-! ### One sorted arrangement -/

/-- Sorted by keys that are all different, a list has one arrangement. -/
theorem sorted_unique {κ : Type*} [LinearOrder κ] {key : α → κ} {l l' : List α} (hperm : l.Perm l')
    (hl : l.Pairwise fun x y => key x ≤ key y) (hl' : l'.Pairwise fun x y => key x ≤ key y)
    (hinj : ∀ x ∈ l, ∀ y ∈ l, key x = key y → x = y) : l = l' :=
  hperm.eq_of_pairwise (fun x y hx hy hxy hyx =>
    hinj x hx y (hperm.mem_iff.mpr hy) (le_antisymm hxy hyx)) hl hl'

/-! ### Exchange sort -/

variable [LinearOrder α]

/-- The inner loop, for cell `i`. -/
def exchangeInner (lo i : ℕ) (a : List α) : List α :=
  (List.range' lo (i - lo)).foldl (fun a j =>
    match a[i]?, a[j]? with
    | some x, some y => if x < y then swap a i j else a
    | _, _ => a) a

def exchangeSort (lo : ℕ) (a : List α) : List α :=
  (List.range' lo (a.length - lo)).foldl (fun a i => exchangeInner lo i a) a

theorem exchangeSort_eq_pass (lo : ℕ) (a : List α) : exchangeSort lo a = pass (· < ·) lo a := rfl

/-- **Exchange sort** sorts the cells from `lo` on and leaves those before. -/
theorem exchangeSort_spec (pre l : List α) :
    ∃ l', exchangeSort pre.length (pre ++ l) = pre ++ l' ∧ l'.Perm l ∧ l'.Pairwise (· ≤ ·) := by
  refine ⟨_, ?_, foldl_carry_perm (· < ·) l [], ?_⟩
  · rw [exchangeSort_eq_pass, pass_eq]
  · exact (Settled.foldl l List.Pairwise.nil).imp fun h => not_lt.mp h

end Exchange
end LinuxProg
