/-
# The tree of task groups

A `task_group` has a pointer to its parent and a list of its children.
`sched_online_group` puts a group at the head of its parent's list and
`sched_offline_group` takes it off. `walk_tg_tree_from` goes through the groups
below one by these pointers alone, with two `goto`s into and out of a loop over
a list, and calls `down` when it enters a group and `up` when it leaves it. It
is the recursive walk of the tree (`walk_eq_visit`).
-/
import Mathlib
import LinuxProg.Lib.Transition
import LinuxProg.Lib.Trees

namespace LinuxProg
namespace Sched
namespace Groups

open Transition Trees

variable {G σ : Type*} [DecidableEq G]

/-! ### The walk -/

/-- Where `walk_tg_tree_from` is. -/
inductive Pos (G : Type*) where
  /-- At the label `down`. -/
  | down (parent : G)
  /-- In the loop over the children, with `child` next; `none` is the head of the list. -/
  | loop (parent : G) (child : Option G)
  | out (ret : ℤ)

/-- The entry after `child` in a list. -/
def listNext (child : G) (l : List G) : Option G := (l.dropWhile (· ≠ child)).tail.head?

variable (L : Links G) (start : G) (down up : G → σ → ℤ × σ)

/-- One round of `walk_tg_tree_from(start, down, up, data)`. -/
def walkStep : Pos G × σ → Pos G × σ
  | (.down parent, s) =>
    let (ret, s) := down parent s
    if ret ≠ 0 then (.out ret, s) else (.loop parent (L.children parent).head?, s)
  | (.loop _ (some child), s) => (.down child, s)
  | (.loop parent none, s) =>
    let (ret, s) := up parent s
    if ret ≠ 0 ∨ parent = start then (.out ret, s)
    else
      match L.parent parent with
      | some p => (.loop p (listNext parent (L.children p)), s)
      | none => (.out ret, s)
  | (.out ret, s) => (.out ret, s)

/-- `walk_tg_tree_from`, with the number of rounds that it may take. -/
def walkTgTreeFrom (fuel : ℕ) (s : σ) : Option (ℤ × σ) :=
  match (walkStep L start down up)^[fuel] (.down start, s) with
  | (.out ret, s) => some (ret, s)
  | _ => none

/-- `tg_nop`. -/
def tgNop (_ : G) (s : σ) : ℤ × σ := (0, s)

variable {L start down up} {f kids : Forest G} {p x : G} {s : σ}

theorem listNext_append {l l' : List G} (hx : x ∉ l) : listNext x (l ++ x :: l') = l'.head? := by
  unfold listNext
  rw [List.dropWhile_append_of_pos (by simpa using fun a ha => fun h : a = x => hx (h ▸ ha))]
  simp

/-- After the children of a group, or with an error on the way. -/
def after (p : G) (r : ℤ × σ) : Pos G × σ := if r.1 = 0 then (.loop p none, r.2) else (.out r.1, r.2)

theorem after_andThen (p : G) {r : ℤ × σ} {k : σ → ℤ × σ} {n : ℕ} {x : Pos G × σ}
    (herror : r.1 ≠ 0 → Within (walkStep L start down up) n x (.out r.1, r.2))
    (hgo : r.1 = 0 → Within (walkStep L start down up) n x (after p (k r.2))) :
    Within (walkStep L start down up) n x (after p (Forest.andThen r k)) := by
  by_cases hr : r.1 = 0
  · rw [Forest.andThen_zero hr]
    exact hgo hr
  · rw [Forest.andThen_error hr]
    unfold after
    rw [if_neg hr]
    exact herror hr

theorem walkStep_down (a : G) (s : σ) : walkStep L start down up (.down a, s) =
    if (down a s).1 ≠ 0 then (.out (down a s).1, (down a s).2)
    else (.loop a (L.children a).head?, (down a s).2) := rfl

/-- At the end of a list the walk leaves its group. -/
theorem walkStep_up {a : G} (ha : a ≠ start) (hp : L.parent a = some p) (s : σ) :
    walkStep L start down up (.loop a none, s) =
      if (up a s).1 ≠ 0 then (.out (up a s).1, (up a s).2)
      else (.loop p (listNext a (L.children p)), (up a s).2) := by
  show (if (up a s).1 ≠ 0 ∨ a = start then _ else match L.parent a with | some p => _ | none => _) = _
  simp only [ha, or_false, hp]

/-- The loop over a list of children visits the trees of the list. -/
theorem walkStep_forest : ∀ {p : G} {f : Forest G} (l : List G) (s : σ),
    L.children p = l ++ f.roots → (L.children p).Nodup → L.Linked p f → f.preorder.Nodup →
    start ∉ f.preorder → Within (walkStep L start down up) (3 * f.preorder.length)
      (.loop p f.roots.head?, s) (after p (f.visit down up s))
  | p, .nil, l, s, _, _, _, _, _ => Within.refl _ _
  | p, .node a kids rest, l, s, hp, hnodup, ⟨hparent, hchildren, hkids, hrest⟩, hf, hstart => by
    obtain ⟨hak, har, hnk, hnr, hdisj⟩ := Forest.nodup_preorder_node hf
    rw [Forest.mem_preorder_node, not_or, not_or] at hstart
    obtain ⟨hsa, hsk, hsr⟩ := hstart
    have hal : a ∉ l := by
      intro hal
      rw [hp] at hnodup
      exact (List.nodup_append.mp hnodup).2.2 a hal a List.mem_cons_self rfl
    have hnext : listNext a (L.children p) = rest.roots.head? := by
      rw [hp]
      exact listNext_append hal
    have hlen : (Forest.node a kids rest).preorder.length =
        kids.preorder.length + rest.preorder.length + 1 := by
      rw [Forest.preorder, List.length_cons, List.length_append]
    -- the rest of the list
    have hlast : ∀ s, Within (walkStep L start down up) (3 * rest.preorder.length)
        (.loop p rest.roots.head?, s) (after p (rest.visit down up s)) := by
      intro s
      apply walkStep_forest (l ++ [a]) s _ hnodup hrest hnr hsr
      rw [hp, List.append_assoc]
      rfl
    have hinner : ∀ s, Within (walkStep L start down up) (3 * kids.preorder.length)
        (.loop a kids.roots.head?, s) (after a (kids.visit down up s)) := by
      intro s
      apply walkStep_forest [] s hchildren _ hkids hnk hsk
      rw [hchildren]
      exact hnk.sublist kids.roots_sublist
    rw [hlen]
    apply Within.mono (m := (3 * kids.preorder.length + (3 * rest.preorder.length + 1)) + 1 + 1) _
      (by omega)
    apply Within.head
    show Within (walkStep L start down up) _ (Pos.down a, s) _
    apply Within.head
    rw [walkStep_down]
    apply after_andThen
    · intro hr
      rw [if_pos hr]
      exact (Within.refl _ _).mono (Nat.zero_le _)
    · intro hr
      rw [if_neg (not_not.mpr hr), hchildren]
      have hmid := hinner (down a s).2
      apply after_andThen
      · intro hr
        unfold after at hmid
        rw [if_neg hr] at hmid
        exact hmid.mono (Nat.le_add_right _ _)
      · intro hr
        unfold after at hmid
        rw [if_pos hr] at hmid
        refine hmid.trans (Within.head ?_)
        rw [walkStep_up (Ne.symm hsa) hparent]
        apply after_andThen
        · intro hr
          rw [if_pos hr]
          exact (Within.refl _ _).mono (Nat.zero_le _)
        · intro hr
          rw [if_neg (not_not.mpr hr), hnext]
          exact hlast _

/-- The walk with `goto`s through the pointers is the recursive walk of the tree
below `start`: each group is entered before and left after those below it, in
the order of the lists, up to the first visitor that returns an error. -/
theorem walk_eq_visit (hnodup : (start :: kids.preorder).Nodup)
    (hchildren : L.children start = kids.roots) (hlinked : L.Linked start kids) {fuel : ℕ}
    (hfuel : 3 * kids.preorder.length + 3 ≤ fuel) (s : σ) :
    walkTgTreeFrom L start down up fuel s =
      some ((Forest.node start kids .nil).visit down up s) := by
  obtain ⟨hstart, hnk⟩ := List.nodup_cons.mp hnodup
  have hroots : (L.children start).Nodup := hchildren ▸ hnk.sublist kids.roots_sublist
  have hkids : ∀ s, Within (walkStep L start down up) (3 * kids.preorder.length)
      (.loop start kids.roots.head?, s) (after start (kids.visit down up s)) :=
    fun s => walkStep_forest [] s hchildren hroots hlinked hnk hstart
  have hend : ∀ s, walkStep L start down up (.loop start none, s) =
      (.out (up start s).1, (up start s).2) := by
    intro s
    show (if (up start s).1 ≠ 0 ∨ start = start then _ else _) = _
    rw [if_pos (Or.inr rfl)]
  have hrun : Within (walkStep L start down up) (3 * kids.preorder.length + 1 + 1)
      (.down start, s) (.out ((Forest.node start kids .nil).visit down up s).1,
        ((Forest.node start kids .nil).visit down up s).2) := by
    apply Within.head
    rw [walkStep_down]
    unfold Forest.visit
    by_cases hr : (down start s).1 = 0
    · rw [if_neg (not_not.mpr hr), hchildren, Forest.andThen_zero hr]
      have hmid := hkids (down start s).2
      unfold after at hmid
      by_cases hr : (kids.visit down up (down start s).2).1 = 0
      · rw [if_pos hr] at hmid
        rw [Forest.andThen_zero hr]
        refine hmid.trans (Within.head ?_)
        rw [hend]
        by_cases hr : (up start (kids.visit down up (down start s).2).2).1 = 0
        · rw [Forest.andThen_zero hr]
          rw [hr]
          exact Within.refl _ _
        · rw [Forest.andThen_error hr]
          exact Within.refl _ _
      · rw [if_neg hr] at hmid
        rw [Forest.andThen_error hr]
        exact hmid.mono (Nat.le_add_right _ _)
    · rw [if_pos hr, Forest.andThen_error hr]
      exact (Within.refl _ _).mono (Nat.zero_le _)
  unfold walkTgTreeFrom
  rw [hrun.iterate rfl (by omega)]

/-- A group with two children, whose second visitor stops the walk. -/
theorem walk_eq_visit_stop : walkTgTreeFrom
    ⟨fun g => if g = 0 then none else some 0, fun g => if g = 0 then [1, 2] else []⟩ 0
    (fun g (s : List ℕ) => (if g = 2 then -22 else 0, g :: s)) tgNop 9 [] = some (-22, [2, 1, 0]) :=
  have hnodup : (0 :: (Forest.node 1 .nil (.node 2 .nil .nil)).preorder).Nodup := by decide
  walk_eq_visit hnodup rfl ⟨rfl, rfl, trivial, rfl, rfl, trivial, trivial⟩ (by decide) []

/-- A walk that has come to its end does not depend on how many rounds it may take. -/
theorem walk_mono {fuel fuel' : ℕ} {r : ℤ × σ} (h : walkTgTreeFrom L start down up fuel s = some r)
    (hle : fuel ≤ fuel') : walkTgTreeFrom L start down up fuel' s = some r := by
  unfold walkTgTreeFrom at h ⊢
  split at h
  · rename_i ret t heq
    have hrun : Within (walkStep L start down up) fuel (.down start, s) (.out ret, t) :=
      ⟨fuel, le_rfl, heq⟩
    rw [hrun.iterate rfl hle]
    exact h
  · cases h

end Groups
end Sched
end LinuxProg
