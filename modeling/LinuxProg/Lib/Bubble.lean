/-
# Bubble sort

`bubbleFrom after n` is the loop nest

    for(i=n;i>0;i--) for(j=0;j<i;j++) if(after(a[j],a[j+1])) swap

on the cells of an array. The inner loop carries a cell up to the first one
that it does not come after, and goes on with that one (`sink`), so it leaves
at `i` a cell that no cell below comes after (`sink_last`); the cells below are
then sorted by the rest of the loop.

It sorts when `after` compares keys in a linear order (`bubbleSort_sorted`).
-/
import Mathlib
import LinuxProg.Lib.Exchange

namespace LinuxProg
namespace Bubble

open Exchange

variable {α κ : Type*} (after : α → α → Bool)

/-- The inner loop. -/
def bubbleInner (i : ℕ) (a : List α) : List α :=
  (List.range' 0 i).foldl (fun a j =>
    match a[j]?, a[j + 1]? with
    | some x, some y => if after x y then swap a j (j + 1) else a
    | _, _ => a) a

def bubbleFrom : ℕ → List α → List α
  | 0, a => a
  | i + 1, a => bubbleFrom i (bubbleInner after (i + 1) a)

theorem length_bubbleFrom : ∀ (n : ℕ) (a : List α), (bubbleFrom after n a).length = a.length
  | 0, _ => rfl
  | n + 1, a => by
    have hinner : ∀ (is : List ℕ) (a : List α), (is.foldl (fun a j =>
        match a[j]?, a[j + 1]? with
        | some x, some y => if after x y then swap a j (j + 1) else a
        | _, _ => a) a).length = a.length := by
      intro is
      induction is with
      | nil => exact fun a => rfl
      | cons j is ih =>
        intro a
        rw [List.foldl_cons, ih]
        split
        · split
          · exact length_swap a j (j + 1)
          · rfl
        · rfl
    rw [bubbleFrom, length_bubbleFrom n, bubbleInner, hinner]

/-- Carry `x` up through a list. -/
def sink (x : α) : List α → List α
  | [] => [x]
  | y :: l => if after x y then y :: sink x l else x :: sink y l

theorem sink_perm : ∀ (x : α) (l : List α), (sink after x l).Perm (x :: l)
  | x, [] => List.Perm.refl _
  | x, y :: l => by
    unfold sink
    split
    · exact ((sink_perm x l).cons y).trans (List.Perm.swap x y l)
    · exact (sink_perm y l).cons x

/-- The inner loop from cell `pre.length` on. -/
theorem bubbleInner_eq : ∀ (l pre : List α) (x : α) (post : List α),
    (List.range' pre.length l.length).foldl (fun a j =>
      match a[j]?, a[j + 1]? with
      | some x, some y => if after x y then swap a j (j + 1) else a
      | _, _ => a) (pre ++ (x :: l ++ post)) = pre ++ (sink after x l ++ post)
  | [], pre, x, post => rfl
  | y :: l, pre, x, post => by
    have hx : (pre ++ (x :: y :: l ++ post))[pre.length]? = some x := by simp
    have hy : (pre ++ (x :: y :: l ++ post))[pre.length + 1]? = some y := by
      rw [List.getElem?_append_right (by omega), Nat.add_sub_cancel_left]
      rfl
    have hstep := fun z w => bubbleInner_eq l (pre ++ [z]) w post
    simp only [List.length_append, List.length_singleton, List.append_assoc,
      List.singleton_append] at hstep
    rw [List.length_cons, List.range'_succ, List.foldl_cons, hx, hy]
    simp only
    unfold sink
    split
    · have hswap := swap_split pre [] (l ++ post) x y
      simp only [List.length_nil, Nat.zero_add, List.nil_append] at hswap
      rw [List.cons_append, List.cons_append, hswap]
      exact hstep y x
    · exact hstep x y

variable [LinearOrder κ] {key : α → κ} {after}

/-- What is carried to the end is one of the greatest. -/
theorem sink_last (h : ∀ x y, after x y = true ↔ key y < key x) : ∀ (x : α) (l : List α),
    ∃ front m, sink after x l = front ++ [m] ∧ ∀ z ∈ x :: l, key z ≤ key m
  | x, [] => ⟨[], x, rfl, by simp⟩
  | x, y :: l => by
    unfold sink
    split
    · rename_i hxy
      obtain ⟨front, m, heq, hm⟩ := sink_last h x l
      have hx := hm x List.mem_cons_self
      refine ⟨y :: front, m, by rw [heq, List.cons_append], ?_⟩
      intro z hz
      rcases List.mem_cons.mp hz with rfl | hz
      · exact hx
      · rcases List.mem_cons.mp hz with rfl | hz
        · exact ((h x z).mp hxy).le.trans hx
        · exact hm z (List.mem_cons_of_mem x hz)
    · rename_i hxy
      obtain ⟨front, m, heq, hm⟩ := sink_last h y l
      refine ⟨x :: front, m, by rw [heq, List.cons_append], ?_⟩
      intro z hz
      rcases List.mem_cons.mp hz with rfl | hz
      · have hle : key z ≤ key y := not_lt.mp fun hlt => hxy ((h z y).mpr hlt)
        exact hle.trans (hm y List.mem_cons_self)
      · exact hm z hz

/-- **Bubble sort** of the first `n + 1` cells. -/
theorem bubbleFrom_sorted (h : ∀ x y, after x y = true ↔ key y < key x) : ∀ (n : ℕ)
    (front post : List α), front.length = n + 1 →
    ∃ l, bubbleFrom after n (front ++ post) = l ++ post ∧ l.Perm front ∧
      l.Pairwise fun x y => key x ≤ key y
  | 0, front, post, hlen => by
    obtain ⟨x, rfl⟩ := List.length_eq_one_iff.mp hlen
    exact ⟨[x], rfl, List.Perm.refl _, List.pairwise_singleton _ x⟩
  | n + 1, [], post, hlen => absurd hlen (by simp)
  | n + 1, x :: l, post, hlen => by
    have hl : l.length = n + 1 := by simpa using hlen
    obtain ⟨front, m, heq, hm⟩ := sink_last h x l
    have hperm : (front ++ [m]).Perm (x :: l) := heq ▸ sink_perm after x l
    have hfront : front.length = n + 1 := by
      have := hperm.length_eq
      rw [List.length_append, List.length_singleton, hlen] at this
      omega
    have hinner : bubbleInner after (n + 1) (x :: l ++ post) = front ++ m :: post := by
      have := bubbleInner_eq after l [] x post
      rw [bubbleInner, ← hl]
      simpa [heq] using this
    obtain ⟨l', hl', hperm', hsorted⟩ := bubbleFrom_sorted h n front (m :: post) hfront
    refine ⟨l' ++ [m], ?_, (hperm'.append_right [m]).trans hperm, ?_⟩
    · rw [bubbleFrom, hinner, hl', List.append_assoc, List.singleton_append]
    · refine List.pairwise_append.mpr ⟨hsorted, List.pairwise_singleton _ m, ?_⟩
      intro z hz w hw
      rw [List.mem_singleton.mp hw]
      exact hm z (hperm.mem_iff.mp (List.mem_append_left _ (hperm'.mem_iff.mp hz)))

/-- **Bubble sort** of the whole array. -/
theorem bubbleSort_sorted (h : ∀ x y, after x y = true ↔ key y < key x) (a : List α) :
    (bubbleFrom after (a.length - 1) a).Perm a ∧
      (bubbleFrom after (a.length - 1) a).Pairwise fun x y => key x ≤ key y := by
  cases a with
  | nil => exact ⟨List.Perm.refl _, List.Pairwise.nil⟩
  | cons x a =>
    obtain ⟨l, hl, hperm, hsorted⟩ := bubbleFrom_sorted h a.length (x :: a) [] rfl
    rw [List.append_nil, List.append_nil] at hl
    rw [List.length_cons, Nat.add_sub_cancel, hl]
    exact ⟨hperm, hsorted⟩

end Bubble
end LinuxProg
