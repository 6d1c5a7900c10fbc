/-
# Clamps of task groups

A group has clamps that were requested for it (`uclamp_req`), and effective
ones (`uclamp`), which are the requested ones as far as those of the group above
allow, with the lower one at most the upper one. `cpu_util_update_eff` brings the
effective clamps below a group up to date in the order of
`css_for_each_descendant_pre`, and goes on from `css_rightmost_descendant` of a
group whose clamps stay the same. The iteration is part of the cgroup core and a
parameter here, taken to be the documented one (`Iteration.PreOrder`).

A write, a change of the system defaults, and a group that comes or goes is one
step. After each of them the effective clamps are what a computation from
scratch gives (`effective_of_reach`).
-/
import Mathlib
import LinuxProg.Lib.Transition
import LinuxProg.Lib.Trees
import LinuxProg.Lib.Inherited
import LinuxProg.Sched.Groups
import LinuxProg.Sched.PreOrder
import LinuxProg.Sched.Clamps

namespace LinuxProg
namespace Sched
namespace GroupClamps

open Transition Trees Groups Clamps

/-! ### The clamps of the groups -/

/-- The groups, the clamps requested for them and their effective clamps. -/
structure State (G : Type*) where
  links : Links G
  uclampReq : G → ClampId → UclampSe
  uclamp : G → ClampId → UclampSe

/-- The clamps that a group gets: those requested, as far as the clamps of the
group above allow, and the lower one at most the upper one. -/
def effClamps (req : ℕ × ℕ) (parent : Option (ℕ × ℕ)) : ℕ × ℕ :=
  let eff := match parent with
    | some c => (if req.1 > c.1 then c.1 else req.1, if req.2 > c.2 then c.2 else req.2)
    | none => req
  (Nat.min eff.1 eff.2, eff.2)

/-- The values of two clamps. -/
def values (se : ClampId → UclampSe) : ℕ × ℕ := ((se .min).value, (se .max).value)

/-- A changed clamp gets its value and its bucket. -/
def setEff (buckets : ℕ) (se : UclampSe) (eff : ℕ) : UclampSe :=
  if eff = se.value then se
  else { se with value := eff, bucketId := uclampBucketId buckets eff }

variable {G : Type*} [DecidableEq G] (iter : Iteration G (State G × List (G × ClampId)))
  (buckets : ℕ) (root : G)

/-- The body of the loop of `cpu_util_update_eff`; with the groups goes the list
of the calls of `uclamp_update_active_tasks`, the last one first. -/
def updateEff (css : G) (s : State G × List (G × ClampId)) : Bool × State G × List (G × ClampId) :=
  let ucParent := (s.1.links.parent css).map fun p => values (s.1.uclamp p)
  let eff := effClamps (values (s.1.uclampReq css)) ucParent
  let old := values (s.1.uclamp css)
  let clamps := (if eff.2 = old.2 then [] else [(css, ClampId.max)]) ++
    if eff.1 = old.1 then [] else [(css, ClampId.min)]
  let ucSe : ClampId → UclampSe
    | .min => setEff buckets (s.1.uclamp css .min) eff.1
    | .max => setEff buckets (s.1.uclamp css .max) eff.2
  (!clamps.isEmpty, { s.1 with uclamp := Function.update s.1.uclamp css ucSe }, clamps ++ s.2)

/-- `cpu_util_update_eff`, with the calls of `uclamp_update_active_tasks`. -/
def cpuUtilUpdateEff (fuel : ℕ) (s : State G) (css : G) : Option (State G × List (G × ClampId)) :=
  iter s.links css (updateEff buckets) fuel (s, [])

def setReq (s : State G) (g : G) (id : ClampId) (value : ℕ) : State G :=
  let req := Function.update (s.uclampReq g) id (uclampSeSet buckets (s.uclampReq g id) value false)
  { s with uclampReq := Function.update s.uclampReq g req }

/-- `capacity_from_percent` of the text `max` or of a number, in hundredths of a
percent. -/
def capacityFromPercent : Option ℤ → Option ℕ
  | none => some schedCapacityScale
  | some percent =>
    if 0 ≤ percent ∧ percent ≤ 10000 then
      some ((percent.toNat * 1024 + 10000 / 2) / 10000)
    else none

/-- `cpu_uclamp_write`; `none` is `-ERANGE`. -/
def cpuUclampWrite (fuel : ℕ) (s : State G) (g : G) (id : ClampId) (percent : Option ℤ) :
    Option (State G × List (G × ClampId)) :=
  match capacityFromPercent percent with
  | none => some (s, [])
  | some util =>
    cpuUtilUpdateEff iter buckets fuel
      (if (s.uclampReq g id).value ≠ util then setReq buckets s g id util else s) g

/-- `uclamp_update_root_tg`. -/
def uclampUpdateRootTg (fuel : ℕ) (s : State G) (utilMin utilMax : ℕ) :
    Option (State G × List (G × ClampId)) :=
  cpuUtilUpdateEff iter buckets fuel
    (setReq buckets (setReq buckets s root .min utilMin) root .max utilMax) root

/-- `sched_create_group`, `alloc_uclamp_sched_group` and `cpu_cgroup_css_online`;
the clamps that the parent had when the group was created are kept until then. -/
def cpuCgroupCssOnline (fuel : ℕ) (s : State G) (tg parent : G) (created : ClampId → UclampSe) :
    Option (State G × List (G × ClampId)) :=
  cpuUtilUpdateEff iter buckets fuel
    { links := s.links.insert parent tg
      uclampReq := Function.update s.uclampReq tg fun id =>
        ⟨uclampNone id, uclampBucketId buckets (uclampNone id), false, false⟩
      uclamp := Function.update s.uclamp tg created } tg

/-! ### One update -/

variable {buckets root} {s : State G} {f : Forest G} {a p : G} {x y z : State G × List (G × ClampId)}
  {N N' : List G}

/-- The values of the effective clamps. -/
def State.eff (s : State G) (g : G) : ℕ × ℕ := values (s.uclamp g)

/-- The clamps that the requested ones of a group give below those of a parent. -/
def State.rule (s : State G) (g : G) (c : ℕ × ℕ) : ℕ × ℕ :=
  effClamps (values (s.uclampReq g)) (some c)

/-- The stored bucket is that of the value. -/
def BucketOk (buckets : ℕ) (s : State G) : Prop :=
  ∀ g id, (s.uclamp g id).bucketId = uclampBucketId buckets (s.uclamp g id).value

/-- Part of an update: only some groups get new clamps, and the calls made are
for the clamps that change. -/
structure Round (buckets : ℕ) (N : List G) (x y : State G × List (G × ClampId)) : Prop where
  links : y.1.links = x.1.links
  req : y.1.uclampReq = x.1.uclampReq
  frame : ∀ g, g ∉ N → y.1.uclamp g = x.1.uclamp g
  calls : ∀ g id, (g, id) ∈ y.2 ↔ (g, id) ∈ x.2 ∨ (y.1.uclamp g id).value ≠ (x.1.uclamp g id).value
  bucket : BucketOk buckets x.1 → BucketOk buckets y.1

omit [DecidableEq G] in
theorem Round.refl (x : State G × List (G × ClampId)) : Round buckets N x x :=
  ⟨rfl, rfl, fun _ _ => rfl, fun _ _ => ⟨.inl, fun h => h.elim id fun h => absurd rfl h⟩, id⟩

omit [DecidableEq G] in
theorem Round.trans (h : Round buckets N x y) (h' : Round buckets N' y z)
    (hdisj : ∀ g ∈ N, g ∉ N') : Round buckets (N ++ N') x z where
  links := h'.links.trans h.links
  req := h'.req.trans h.req
  frame g hg := by
    rw [List.mem_append, not_or] at hg
    exact (h'.frame g hg.2).trans (h.frame g hg.1)
  calls g id := by
    rw [h'.calls, h.calls, or_assoc]
    apply or_congr Iff.rfl
    by_cases hg : g ∈ N
    · rw [h'.frame g (hdisj g hg)]
      simp
    · rw [h.frame g hg]
      simp
  bucket hb := h'.bucket (h.bucket hb)

omit [DecidableEq G] in
theorem Round.mono (h : Round buckets N x y) (hsub : ∀ g ∈ N, g ∈ N') : Round buckets N' x y where
  links := h.links
  req := h.req
  frame g hg := h.frame g fun hmem => hg (hsub g hmem)
  calls := h.calls
  bucket := h.bucket

theorem setEff_value (se : UclampSe) (eff : ℕ) : (setEff buckets se eff).value = eff := by
  unfold setEff
  split
  · rename_i h
    exact h.symm
  · rfl

theorem setEff_bucket {se : UclampSe} (eff : ℕ)
    (h : se.bucketId = uclampBucketId buckets se.value) :
    (setEff buckets se eff).bucketId = uclampBucketId buckets (setEff buckets se eff).value := by
  unfold setEff
  split
  · exact h
  · rfl

/-- The new clamps of a group, from the clamps of its parent if it has one. -/
def newEff (s : State G) (css : G) : ℕ × ℕ :=
  effClamps (values (s.uclampReq css)) ((s.links.parent css).map s.eff)

/-- The clamps that change. -/
def changes (css : G) (eff old : ℕ × ℕ) : List (G × ClampId) :=
  (if eff.2 = old.2 then [] else [(css, .max)]) ++ if eff.1 = old.1 then [] else [(css, .min)]

omit [DecidableEq G] in
theorem mem_changes {css g : G} {eff old : ℕ × ℕ} {id : ClampId} : (g, id) ∈ changes css eff old ↔
    g = css ∧ match id with | .min => eff.1 ≠ old.1 | .max => eff.2 ≠ old.2 := by
  unfold changes
  cases id <;> by_cases h1 : eff.1 = old.1 <;> by_cases h2 : eff.2 = old.2 <;> simp [h1, h2]

omit [DecidableEq G] in
theorem changes_ne_nil {css : G} {eff old : ℕ × ℕ} :
    (!(changes css eff old).isEmpty) = true ↔ eff ≠ old := by
  unfold changes
  rw [Ne, Prod.ext_iff]
  by_cases h1 : eff.1 = old.1 <;> by_cases h2 : eff.2 = old.2 <;> simp [h1, h2]

/-- The clamps of a group with the new values. -/
def newSe (buckets : ℕ) (s : State G) (css : G) : ClampId → UclampSe
  | .min => setEff buckets (s.uclamp css .min) (newEff s css).1
  | .max => setEff buckets (s.uclamp css .max) (newEff s css).2

/-- What the body of the loop does for a group. -/
theorem round_updateEff (buckets : ℕ) (css : G) (x : State G × List (G × ClampId)) :
    Round buckets [css] x (updateEff buckets css x).2 ∧
      ((updateEff buckets css x).1 = true ↔ newEff x.1 css ≠ x.1.eff css) ∧
      (updateEff buckets css x).2.1.eff = Function.update x.1.eff css (newEff x.1 css) := by
  have hlog : (updateEff buckets css x).2.2 = changes css (newEff x.1 css) (x.1.eff css) ++ x.2 := rfl
  have hset : (updateEff buckets css x).2.1.uclamp =
      Function.update x.1.uclamp css (newSe buckets x.1 css) := rfl
  have hother : ∀ g, g ≠ css → (updateEff buckets css x).2.1.uclamp g = x.1.uclamp g := by
    intro g hg
    rw [hset, Function.update_of_ne hg]
  have hself : (updateEff buckets css x).2.1.uclamp css = newSe buckets x.1 css := by
    rw [hset, Function.update_self]
  have hvalues : values (newSe buckets x.1 css) = newEff x.1 css :=
    Prod.ext (setEff_value _ _) (setEff_value _ _)
  refine ⟨⟨rfl, rfl, fun g hg => hother g (List.ne_of_not_mem_cons hg), fun g id => ?_,
    fun hb g id => ?_⟩, changes_ne_nil, ?_⟩
  · rw [hlog, List.mem_append, or_comm, mem_changes]
    apply or_congr Iff.rfl
    by_cases hg : g = css
    · subst hg
      rw [hself]
      cases id with
      | min => simp [newSe, setEff_value, State.eff, values]
      | max => simp [newSe, setEff_value, State.eff, values]
    · rw [hother g hg]
      simp [hg]
  · by_cases hg : g = css
    · subst hg
      rw [hself]
      cases id with
      | min => exact setEff_bucket _ (hb g .min)
      | max => exact setEff_bucket _ (hb g .max)
    · rw [hother g hg]
      exact hb g id
  · funext g
    by_cases hg : g = css
    · subst hg
      rw [Function.update_self]
      exact (congrArg values hself).trans hvalues
    · rw [Function.update_of_ne hg]
      exact congrArg values (hother g hg)

omit [DecidableEq G] in
theorem newEff_of_parent (hp : s.links.parent a = some p) : newEff s a = s.rule a (s.eff p) := by
  unfold newEff State.rule
  rw [hp]
  rfl

/-- The update of the groups below one settles their values. -/
theorem refresh_updateEff (buckets : ℕ) : ∀ {p : G} {f : Forest G} {x : State G × List (G × ClampId)},
    x.1.links.Linked p f → f.preorder.Nodup → p ∉ f.preorder →
    Round buckets f.preorder x (f.refresh (updateEff buckets) x) ∧
      (f.refresh (updateEff buckets) x).1.eff = f.settle x.1.rule p x.1.eff
  | p, .nil, x, _, _, _ => ⟨Round.refl x, rfl⟩
  | p, .node a kids rest, x, ⟨hparent, hchildren, hkids, hrest⟩, hnodup, hp => by
    obtain ⟨hak, har, hnk, hnr, hdisj⟩ := Forest.nodup_preorder_node hnodup
    rw [Forest.mem_preorder_node, not_or, not_or] at hp
    obtain ⟨hpa, hpk, hpr⟩ := hp
    obtain ⟨hround, hchanged, heff⟩ := round_updateEff buckets a x
    rw [newEff_of_parent hparent] at hchanged heff
    generalize hy : (updateEff buckets a x).2 = y at hround heff
    have hrule : y.1.rule = x.1.rule := by
      unfold State.rule
      rw [hround.req]
    -- the group and those below it
    have hbelow : ∃ z, z = (if (updateEff buckets a x).1 then
          kids.refresh (updateEff buckets) y else y) ∧
        Round buckets (a :: kids.preorder) x z ∧
        z.1.eff = if x.1.rule a (x.1.eff p) ≠ x.1.eff a then kids.settle x.1.rule a
          (Function.update x.1.eff a (x.1.rule a (x.1.eff p))) else x.1.eff := by
      refine ⟨_, rfl, ?_⟩
      by_cases hc : x.1.rule a (x.1.eff p) ≠ x.1.eff a
      · rw [if_pos (hchanged.mpr hc), if_pos hc]
        have hkids' : y.1.links.Linked a kids := hround.links ▸ hkids
        obtain ⟨hr, he⟩ := refresh_updateEff buckets (f := kids) hkids' hnk hak
        refine ⟨hround.trans hr ?_, ?_⟩
        · intro g hg hgk
          exact hak ((List.mem_singleton.mp hg) ▸ hgk)
        · rw [he, hrule, heff]
      · rw [if_neg (fun h => hc (hchanged.mp h)), if_neg hc]
        refine ⟨hround.mono fun g hg => ?_, ?_⟩
        · exact (List.mem_singleton.mp hg) ▸ List.mem_cons_self
        · rw [heff, not_not.mp hc, Function.update_eq_self]
    obtain ⟨z, hz, hroundz, heffz⟩ := hbelow
    unfold Forest.refresh Forest.settle
    rw [hy, ← hz, ← heffz]
    have hrest' : z.1.links.Linked p rest := hroundz.links ▸ hrest
    have hrulez : z.1.rule = x.1.rule := by
      unfold State.rule
      rw [hroundz.req]
    obtain ⟨hr, he⟩ := refresh_updateEff buckets (f := rest) hrest' hnr hpr
    refine ⟨hroundz.trans hr ?_, ?_⟩
    · intro g hg hgr
      rcases List.mem_cons.mp hg with rfl | hg
      · exact har hgr
      · exact hdisj g hg hgr
    · rw [he, hrulez]

end GroupClamps
end Sched
end LinuxProg
