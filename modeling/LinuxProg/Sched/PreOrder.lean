/-
# The iteration over the groups below one

`css_for_each_descendant_pre` and `css_rightmost_descendant` belong to the
cgroup core, which is not part of these sources. What the scheduler relies on is
what is documented of them: a group comes before those below it, and from the
rightmost descendant of a group the iteration goes on behind all that is below
that group (`Iteration.PreOrder`). An iteration with this property is a parameter
of what uses it.

There is such an iteration: the one by the lists of the children
(`forEachDescendantPre_preOrder`).
-/
import Mathlib
import LinuxProg.Lib.Transition
import LinuxProg.Lib.Trees
import LinuxProg.Lib.Inherited
import LinuxProg.Sched.Groups

namespace LinuxProg
namespace Sched
namespace GroupClamps

open Transition Trees Groups

variable {G σ : Type*}

/-- A loop over a group and those below it, whose body tells if it goes below the
group it is at, with the number of rounds that it may take. -/
abbrev Iteration (G σ : Type*) := Links G → G → (G → σ → Bool × σ) → ℕ → σ → Option σ

/-- The loop takes the groups of a tree in pre-order, without those below a
group that it is not to go below; more rounds than it takes change nothing. -/
structure Iteration.PreOrder (iter : Iteration G σ) : Prop where
  refresh : ∀ {L : Links G} {top : G} {kids : Forest G}, (top :: kids.preorder).Nodup →
    L.children top = kids.roots → L.Linked top kids → ∀ visit, ∃ n, ∀ fuel ≥ n, ∀ s,
      iter L top visit fuel s = some ((Forest.node top kids .nil).refresh visit s)
  mono : ∀ {L : Links G} {top : G} {visit : G → σ → Bool × σ} {fuel fuel' : ℕ} {s t : σ},
    iter L top visit fuel s = some t → fuel ≤ fuel' → iter L top visit fuel' s = some t

/-- What the loop gives, it gives in pre-order. -/
theorem Iteration.PreOrder.eq_refresh {iter : Iteration G σ} (hiter : iter.PreOrder) {L : Links G}
    {top : G} {kids : Forest G} {visit : G → σ → Bool × σ} {fuel : ℕ} {s t : σ}
    (hnodup : (top :: kids.preorder).Nodup) (hchildren : L.children top = kids.roots)
    (hlinked : L.Linked top kids) (h : iter L top visit fuel s = some t) :
    (Forest.node top kids .nil).refresh visit s = t := by
  obtain ⟨n, hn⟩ := hiter.refresh hnodup hchildren hlinked visit
  have hrun := hiter.mono h (le_max_left fuel n)
  rw [hn _ (le_max_right _ _)] at hrun
  exact Option.some.inj hrun

/-! ### The iteration by the lists of the children -/

section

variable [DecidableEq G]

/-- Where the iteration is. -/
inductive Pos (G : Type*) where
  | visit (css : G)
  /-- On the way to the rightmost descendant. -/
  | rightmost (css : G)
  /-- After what is below `css`. -/
  | next (css : G)
  | done

variable (L : Links G) (top : G) (visit : G → σ → Bool × σ)

/-- One round of the iteration; `visit` tells if it goes below the group. -/
def preStep : Pos G × σ → Pos G × σ
  | (.visit css, s) =>
    let (below, s) := visit css s
    if below then
      match (L.children css).head? with
      | some child => (.visit child, s)
      | none => (.next css, s)
    else (.rightmost css, s)
  | (.rightmost css, s) =>
    match (L.children css).getLast? with
    | some child => (.rightmost child, s)
    | none => (.next css, s)
  | (.next css, s) =>
    if css = top then (.done, s)
    else
      match L.parent css with
      | some p =>
        match listNext css (L.children p) with
        | some sibling => (.visit sibling, s)
        | none => (.next p, s)
      | none => (.done, s)
  | (.done, s) => (.done, s)

/-- An iteration in pre-order. -/
def forEachDescendantPre (fuel : ℕ) (s : σ) : Option σ :=
  match (preStep L top visit)^[fuel] (.visit top, s) with
  | (.done, s) => some s
  | _ => none

variable {L top visit} {f kids rest : Forest G} {a p : G} {s : σ}

/-- From a group the iteration goes to its next sibling, or to the end of those
of its parent. -/
theorem preStep_next (ha : a ≠ top) (hp : L.parent a = some p) (s : σ) {l : List G}
    (hl : L.children p = l ++ (Forest.node a kids rest).roots) (hal : a ∉ l) :
    preStep L top visit (.next a, s) =
      match rest.roots.head? with
      | some sibling => (.visit sibling, s)
      | none => (.next p, s) := by
  show (if a = top then _ else match L.parent a with | some p => _ | none => _) = _
  rw [if_neg ha, hp]
  have hnext : listNext a (L.children p) = rest.roots.head? := by
    rw [hl]
    exact listNext_append hal
  show (match listNext a (L.children p) with | some sibling => _ | none => _) = _
  rw [hnext]

omit [DecidableEq G] in
theorem notMem_of_nodup_append {l l' : List G} (h : (l ++ a :: l').Nodup) : a ∉ l :=
  fun hal => (List.nodup_append.mp h).2.2 a hal a List.mem_cons_self rfl

/-- The way to the rightmost descendant goes to the last child of the last child
and so on, and the iteration goes on after the last of the children. -/
theorem preStep_rightmost : ∀ {p : G} {f : Forest G} (l : List G) (s : σ),
    L.children p = l ++ f.roots → (L.children p).Nodup → L.Linked p f → f.preorder.Nodup →
    top ∉ f.preorder → ∀ c, f.roots.getLast? = some c →
    Within (preStep L top visit) (2 * f.preorder.length) (.rightmost c, s) (.next p, s)
  | p, .node a kids .nil, l, s, hp, hnodup, ⟨hparent, hchildren, hkids, _⟩, hf, htop, c, hc => by
    obtain ⟨hak, -, hnk, -, -⟩ := Forest.nodup_preorder_node hf
    rw [Forest.mem_preorder_node, not_or, not_or] at htop
    obtain ⟨hta, htk, -⟩ := htop
    have hal : a ∉ l := notMem_of_nodup_append (hp ▸ hnodup)
    have hlen : (Forest.node a kids .nil).preorder.length = kids.preorder.length + 1 := by
      rw [Forest.preorder, List.length_cons, Forest.preorder, List.append_nil]
    cases (show some a = some c from hc)
    have hnext : preStep L top visit (.next a, s) = (.next p, s) :=
      preStep_next (Ne.symm hta) hparent s hp hal
    have hlast : Within (preStep L top visit) 1 (.next a, s) (.next p, s) := by
      apply Within.head
      rw [hnext]
      exact Within.refl _ _
    have hstep : preStep L top visit (.rightmost a, s) =
        match kids.roots.getLast? with
        | some child => (.rightmost child, s)
        | none => (.next a, s) := by
      show (match (L.children a).getLast? with | some child => _ | none => _) = _
      rw [hchildren]
    rw [hlen]
    cases hk : kids.roots.getLast? with
    | none =>
      rw [hk] at hstep
      apply Within.mono (m := 1 + 1) _ (by omega)
      apply Within.head
      rw [hstep]
      exact hlast
    | some child =>
      rw [hk] at hstep
      have hroots : (L.children a).Nodup := hchildren ▸ hnk.sublist kids.roots_sublist
      have hinner := preStep_rightmost [] s hchildren hroots hkids hnk htk child hk
      apply Within.mono (m := 2 * kids.preorder.length + 1 + 1) _ (by omega)
      apply Within.head
      rw [hstep]
      exact hinner.trans hlast
  | p, .node a kids (.node b kids' rest), l, s, hp, hnodup, ⟨_, _, _, hrest⟩, hf, htop, c, hc => by
    obtain ⟨-, -, -, hnr, -⟩ := Forest.nodup_preorder_node hf
    rw [Forest.mem_preorder_node, not_or, not_or] at htop
    have hp' : L.children p = (l ++ [a]) ++ (Forest.node b kids' rest).roots := by
      rw [hp, List.append_assoc]
      rfl
    have hc' : (Forest.node b kids' rest).roots.getLast? = some c := by
      rw [← hc]
      exact (List.getLast?_cons_cons).symm
    have h := preStep_rightmost (l ++ [a]) s hp' hnodup hrest hnr htop.2.2 c hc'
    have hlen : (Forest.node a kids (.node b kids' rest)).preorder.length =
        kids.preorder.length + (Forest.node b kids' rest).preorder.length + 1 := by
      show (a :: (kids.preorder ++ (Forest.node b kids' rest).preorder)).length = _
      rw [List.length_cons, List.length_append]
    exact h.mono (by omega)

/-- A group, and what is below it unless it is left out. -/
theorem preStep_visit (hchildren : L.children a = kids.roots) (hlinked : L.Linked a kids)
    (hnodup : kids.preorder.Nodup) (htop : top ∉ kids.preorder)
    (hkids : ∀ s c, kids.roots.head? = some c → Within (preStep L top visit)
      (3 * kids.preorder.length) (.visit c, s) (.next a, kids.refresh visit s)) (s : σ) :
    Within (preStep L top visit) (3 * kids.preorder.length + 2) (.visit a, s)
      (.next a, if (visit a s).1 then kids.refresh visit (visit a s).2 else (visit a s).2) := by
  have hroots : (L.children a).Nodup := hchildren ▸ hnodup.sublist kids.roots_sublist
  have hstep : preStep L top visit (.visit a, s) =
      if (visit a s).1 then
        match kids.roots.head? with
        | some child => (.visit child, (visit a s).2)
        | none => (.next a, (visit a s).2)
      else (.rightmost a, (visit a s).2) := by
    show (if (visit a s).1 then match (L.children a).head? with
      | some child => _ | none => _ else _) = _
    rw [hchildren]
  apply Within.head
  rw [hstep]
  by_cases hv : (visit a s).1 = true
  · rw [if_pos hv, if_pos hv]
    cases hk : kids.roots.head? with
    | none =>
      have hnil : kids = .nil := Forest.eq_nil_of_roots (List.head?_eq_none_iff.mp hk)
      rw [hnil]
      exact (Within.refl _ _).mono (Nat.zero_le _)
    | some child => exact (hkids _ child hk).mono (by omega)
  · rw [if_neg hv, if_neg hv]
    apply Within.head
    show Within _ _ (match (L.children a).getLast? with | some child => _ | none => _) _
    rw [hchildren]
    cases hk : kids.roots.getLast? with
    | none => exact (Within.refl _ _).mono (Nat.zero_le _)
    | some child =>
      exact (preStep_rightmost [] _ hchildren hroots hlinked hnodup htop child hk).mono (by omega)

/-- The iteration over the children of a group is the recursive one. -/
theorem preStep_forest : ∀ {p : G} {f : Forest G} (l : List G) (s : σ),
    L.children p = l ++ f.roots → (L.children p).Nodup → L.Linked p f → f.preorder.Nodup →
    top ∉ f.preorder → ∀ c, f.roots.head? = some c →
    Within (preStep L top visit) (3 * f.preorder.length) (.visit c, s)
      (.next p, f.refresh visit s)
  | p, .node a kids rest, l, s, hp, hnodup, ⟨hparent, hchildren, hkids, hrest⟩, hf, htop, c, hc => by
    obtain ⟨-, -, hnk, hnr, -⟩ := Forest.nodup_preorder_node hf
    rw [Forest.mem_preorder_node, not_or, not_or] at htop
    obtain ⟨hta, htk, htr⟩ := htop
    have hal : a ∉ l := notMem_of_nodup_append (hp ▸ hnodup)
    have hlen : (Forest.node a kids rest).preorder.length =
        kids.preorder.length + rest.preorder.length + 1 := by
      rw [Forest.preorder, List.length_cons, List.length_append]
    have hroots : (L.children a).Nodup := hchildren ▸ hnk.sublist kids.roots_sublist
    cases (show some a = some c from hc)
    have hbelow := preStep_visit hchildren hkids hnk htk
      (fun s c hc => preStep_forest [] s hchildren hroots hkids hnk htk c hc) s
    rw [hlen]
    unfold Forest.refresh
    apply Within.mono (m := (3 * kids.preorder.length + 2) + (3 * rest.preorder.length + 1)) _
      (by omega)
    refine hbelow.trans (Within.head ?_)
    rw [preStep_next (Ne.symm hta) hparent _ hp hal]
    cases hr : rest.roots.head? with
    | none =>
      have hnil : rest = .nil := Forest.eq_nil_of_roots (List.head?_eq_none_iff.mp hr)
      rw [hnil]
      exact (Within.refl _ _).mono (Nat.zero_le _)
    | some sibling =>
      have hp' : L.children p = (l ++ [a]) ++ rest.roots := by
        rw [hp, List.append_assoc]
        rfl
      exact preStep_forest (l ++ [a]) _ hp' hnodup hrest hnr htr sibling hr

/-- The iteration from a group on is the recursive one of the tree below it. -/
theorem forEachDescendantPre_eq (hnodup : (top :: kids.preorder).Nodup)
    (hchildren : L.children top = kids.roots) (hlinked : L.Linked top kids) {fuel : ℕ}
    (hfuel : 3 * kids.preorder.length + 3 ≤ fuel) (s : σ) :
    forEachDescendantPre L top visit fuel s =
      some ((Forest.node top kids .nil).refresh visit s) := by
  obtain ⟨htop, hnk⟩ := List.nodup_cons.mp hnodup
  have hroots : (L.children top).Nodup := hchildren ▸ hnk.sublist kids.roots_sublist
  have hbelow : Within (preStep L top visit) (3 * kids.preorder.length + 2) (.visit top, s)
      (.next top, (Forest.node top kids .nil).refresh visit s) :=
    preStep_visit hchildren hlinked hnk htop
      (fun s c hc => preStep_forest [] s hchildren hroots hlinked hnk htop c hc) s
  have hend : ∀ s, Within (preStep L top visit) 1 (.next top, s) (.done, s) := by
    intro s
    apply Within.head
    show Within _ _ (if top = top then _ else _) _
    rw [if_pos rfl]
    exact Within.refl _ _
  unfold forEachDescendantPre
  rw [(hbelow.trans (hend _)).iterate rfl (by omega)]

theorem forEachDescendantPre_mono {fuel fuel' : ℕ} {t : σ}
    (h : forEachDescendantPre L top visit fuel s = some t) (hle : fuel ≤ fuel') :
    forEachDescendantPre L top visit fuel' s = some t := by
  unfold forEachDescendantPre at h ⊢
  split at h
  · rename_i t' heq
    have hrun : Within (preStep L top visit) fuel (.visit top, s) (.done, t') := ⟨fuel, le_rfl, heq⟩
    rw [hrun.iterate rfl hle]
    exact h
  · cases h

theorem forEachDescendantPre_preOrder :
    Iteration.PreOrder (forEachDescendantPre : Iteration G σ) where
  refresh {_ _ kids} hnodup hchildren hlinked _ :=
    ⟨3 * kids.preorder.length + 3, fun _ hfuel s =>
      forEachDescendantPre_eq hnodup hchildren hlinked hfuel s⟩
  mono := forEachDescendantPre_mono

end

end GroupClamps
end Sched
end LinuxProg
