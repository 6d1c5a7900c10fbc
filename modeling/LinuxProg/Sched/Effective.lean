/-
# Effective clamps over runs

Clamps of groups are written, the system defaults change, and groups come and
go, in any order. After each of these steps the effective clamps of every group
are those that its requested clamps and the effective clamps of its parent give
(`effective_of_reach`), although `cpu_util_update_eff` looks only at a part of
the tree, and any next step can be done to its end; and
`uclamp_update_active_tasks` has been called for exactly the groups and clamps
whose value changed (`calls_of_step`). Both hold for every iteration over the
groups that goes in pre-order.
-/
import Mathlib
import LinuxProg.Sched.GroupClamps

namespace LinuxProg
namespace Sched
namespace GroupClamps

open Transition Trees Groups Clamps

variable {G : Type*} [DecidableEq G]

/-! ### The system -/

inductive Act (G : Type*) where
  | write (g : G) (id : ClampId) (percent : Option ℤ)
  | defaults (utilMin utilMax : ℕ)
  | online (tg parent : G)
  | offline (tg : G)

/-- A step, with the calls of `uclamp_update_active_tasks` in it. The files
`cpu.uclamp.min` and `cpu.uclamp.max` are not on the root. -/
inductive Step (iter : Iteration G (State G × List (G × ClampId))) (buckets : ℕ) (root : G) :
    State G → Act G × List (G × ClampId) → State G → Prop where
  | write {s s' : State G} {g : G} {id : ClampId} {percent : Option ℤ} {calls : List (G × ClampId)}
      {fuel : ℕ} (hg : s.links.Listed g)
      (h : cpuUclampWrite iter buckets fuel s g id percent = some (s', calls)) :
      Step iter buckets root s (.write g id percent, calls) s'
  | defaults {s s' : State G} {utilMin utilMax : ℕ} {calls : List (G × ClampId)} {fuel : ℕ}
      (hmin : utilMin ≤ utilMax) (hmax : utilMax ≤ schedCapacityScale)
      (h : uclampUpdateRootTg iter buckets root fuel s utilMin utilMax = some (s', calls)) :
      Step iter buckets root s (.defaults utilMin utilMax, calls) s'
  | online {s s' : State G} {tg parent : G} {created : ClampId → UclampSe}
      {calls : List (G × ClampId)} {fuel : ℕ} (hroot : tg ≠ root) (htg : ¬ s.links.Listed tg)
      (hparent : parent = root ∨ s.links.Listed parent)
      (hcreated : ∀ id, (created id).bucketId = uclampBucketId buckets (created id).value)
      (h : cpuCgroupCssOnline iter buckets fuel s tg parent created = some (s', calls)) :
      Step iter buckets root s (.online tg parent, calls) s'
  | offline {s : State G} {tg : G} (htg : s.links.Listed tg) (hleaf : s.links.children tg = []) :
      Step iter buckets root s (.offline tg, []) { s with links := s.links.remove tg }

/-- `init_uclamp`: there is only the root, with the greatest value for both clamps. -/
def start (buckets : ℕ) : State G where
  links := ⟨fun _ => none, fun _ => []⟩
  uclampReq _ _ := ⟨schedCapacityScale, uclampBucketId buckets schedCapacityScale, false, false⟩
  uclamp _ _ := ⟨schedCapacityScale, uclampBucketId buckets schedCapacityScale, false, false⟩

variable {iter : Iteration G (State G × List (G × ClampId))} {buckets : ℕ} {root : G}
  {s s' : State G} {f : Forest G} {calls : List (G × ClampId)}

/-- The groups are a tree, and their effective clamps are up to date. -/
structure Proper (buckets : ℕ) (root : G) (s : State G) (f : Forest G) : Prop where
  shape : s.links.Shape root f
  top : s.eff root = effClamps (values (s.uclampReq root)) none
  settled : f.Settled s.rule s.eff root
  bucket : BucketOk buckets s

omit [DecidableEq G] in
theorem proper_start (buckets : ℕ) (root : G) : Proper buckets root (start buckets) .nil where
  shape := Links.shape_nil root
  top := rfl
  settled := trivial
  bucket _ _ := rfl

/-- The state after an update, with the calls. -/
structure Updated (buckets : ℕ) (root : G) (s s' : State G) (calls : List (G × ClampId))
    (f : Forest G) : Prop extends Proper buckets root s' f where
  links : s'.links = s.links
  req : s'.uclampReq = s.uclampReq
  calls : ∀ g id, (g, id) ∈ calls ↔ (s'.uclamp g id).value ≠ (s.uclamp g id).value

omit [DecidableEq G] in
/-- What is left to show of an update: the clamps of the root and the tree. -/
theorem Round.updated {N : List G} (h : Round buckets N (s, []) (s', calls))
    (hshape : s.links.Shape root f) (hbucket : BucketOk buckets s)
    (htop : s'.eff root = effClamps (values (s.uclampReq root)) none)
    (hsettled : f.Settled s.rule s'.eff root) : Updated buckets root s s' calls f := by
  have hrule : s'.rule = s.rule := by
    unfold State.rule
    rw [h.req]
  refine ⟨⟨?_, ?_, ?_, h.bucket hbucket⟩, h.links, h.req, fun a id => ?_⟩
  · rw [h.links]
    exact hshape
  · rw [h.req]
    exact htop
  · rw [hrule]
    exact hsettled
  · rw [h.calls]
    exact or_iff_right List.not_mem_nil

/-- An update from a group on, when only the requested clamps of that group have
changed. -/
theorem update_listed (hiter : iter.PreOrder) (rule : G → ℕ × ℕ → ℕ × ℕ) {g : G} {fuel : ℕ}
    (hshape : s.links.Shape root f) (htop : s.eff root = effClamps (values (s.uclampReq root)) none)
    (hsettled : f.Settled rule s.eff root) (hrule : ∀ a, a ≠ g → s.rule a = rule a)
    (hbucket : BucketOk buckets s) (hg : g ∈ f.preorder)
    (h : cpuUtilUpdateEff iter buckets fuel s g = some (s', calls)) :
    Updated buckets root s s' calls f := by
  obtain ⟨hroot, hnodup⟩ := List.nodup_cons.mp hshape.nodup
  obtain ⟨q, kids, hq, hchildren, hlinked, hnk, hqk, hsub, hsettle⟩ :=
    Forest.settled_subtree (ℕ × ℕ) hshape.linked hnodup hroot hg
  have hpre : (Forest.node g kids .nil).preorder = g :: kids.preorder := by
    rw [Forest.preorder, Forest.preorder, List.append_nil]
  -- the update is that of the tree below the group
  have hrun := hiter.eq_refresh hnk hchildren hlinked h
  have hl : s.links.Linked q (.node g kids .nil) := ⟨hq, hchildren, hlinked, trivial⟩
  obtain ⟨hround, heff⟩ := refresh_updateEff buckets (x := (s, [])) hl (hpre ▸ hnk) (hpre ▸ hqk)
  rw [hrun] at hround heff
  refine hround.updated hshape hbucket ?_ ?_
  · have hout : root ∉ (Forest.node g kids .nil).preorder := by
      rw [hpre, List.mem_cons, not_or]
      exact ⟨fun h => hroot (h ▸ hg), fun h => hroot (hsub root h)⟩
    have hsame : s'.eff root = s.eff root := congrArg values (hround.frame root hout)
    rw [hsame]
    exact htop
  · rw [show s'.eff = _ from heff]
    exact hsettle rule s.rule s.eff hrule hsettled

/-- An update from the root on, when only its requested clamps have changed. -/
theorem update_root (hiter : iter.PreOrder) (rule : G → ℕ × ℕ → ℕ × ℕ) {fuel : ℕ}
    (hshape : s.links.Shape root f) (hsettled : f.Settled rule s.eff root)
    (hrule : ∀ a, a ≠ root → s.rule a = rule a) (hbucket : BucketOk buckets s)
    (h : cpuUtilUpdateEff iter buckets fuel s root = some (s', calls)) :
    Updated buckets root s s' calls f := by
  obtain ⟨hroot, hnodup⟩ := List.nodup_cons.mp hshape.nodup
  have hrun := hiter.eq_refresh hshape.nodup hshape.kids hshape.linked h
  obtain ⟨hround, hchanged, heff⟩ := round_updateEff buckets root (s, [])
  have hnew : newEff s root = effClamps (values (s.uclampReq root)) none := by
    unfold newEff
    rw [hshape.top]
    rfl
  generalize hy : (updateEff buckets root (s, [])).2 = y at hround heff
  have hold : f.Settled s.rule s.eff root :=
    hsettled.congr rfl (fun _ _ => rfl) fun a ha => hrule a fun h => hroot (h ▸ ha)
  have hrun' : (if (updateEff buckets root (s, [])).1 then f.refresh (updateEff buckets)
      (updateEff buckets root (s, [])).2 else (updateEff buckets root (s, [])).2) = (s', calls) :=
    hrun
  by_cases hc : newEff s root ≠ s.eff root
  · rw [if_pos (hchanged.mpr hc), hy] at hrun'
    have hl : y.1.links.Linked root f := hround.links ▸ hshape.linked
    have hruley : y.1.rule = s.rule := by
      unfold State.rule
      rw [hround.req]
    obtain ⟨hr, he⟩ := refresh_updateEff buckets hl hnodup hroot
    have hinner : f.Inner s.rule y.1.eff := by
      apply hold.inner.congr _ fun _ _ => rfl
      intro b hb
      have hbr : b ≠ root := fun h => hroot (h ▸ hb)
      rw [heff, Function.update_of_ne hbr]
    have hboth := hround.trans hr fun g hg hgf => hroot (List.mem_singleton.mp hg ▸ hgf)
    rw [hruley, hrun'] at he
    rw [hrun'] at hboth
    refine hboth.updated hshape hbucket ?_ ?_
    · rw [show s'.eff = _ from he, Forest.settle_of_notMem _ hroot, heff, Function.update_self]
      exact hnew
    · rw [show s'.eff = _ from he]
      exact Forest.settled_settle hnodup hroot hinner
  · rw [if_neg fun h => hc (hchanged.mp h), hy] at hrun'
    have heq : y.1.eff = s.eff := by
      rw [heff, not_not.mp hc]
      exact Function.update_eq_self root s.eff
    rw [hrun'] at hround heq
    refine hround.updated hshape hbucket ?_ ?_
    · rw [show s'.eff = _ from heq, ← not_not.mp hc]
      exact hnew
    · rw [show s'.eff = _ from heq]
      exact hold

theorem rule_setReq_of_ne {g a : G} (id : ClampId) (value : ℕ) (ha : a ≠ g) :
    (setReq buckets s g id value).rule a = s.rule a := by
  unfold State.rule setReq
  simp only [Function.update_of_ne ha]

theorem req_setReq_of_ne {g a : G} (id : ClampId) (value : ℕ) (ha : a ≠ g) :
    (setReq buckets s g id value).uclampReq a = s.uclampReq a :=
  Function.update_of_ne ha _ s.uclampReq

/-- The calls of a step are those for the clamps that change; a group that comes
has no tasks yet. -/
def CallsMatch (s s' : State G) (a : Act G) (calls : List (G × ClampId)) : Prop :=
  ∀ g id, (∀ parent, a ≠ .online g parent) →
    ((g, id) ∈ calls ↔ (s'.uclamp g id).value ≠ (s.uclamp g id).value)

omit [DecidableEq G] in
theorem Updated.callsMatch {s₁ : State G} {a : Act G} (h : Updated buckets root s₁ s' calls f)
    (hclamp : ∀ g, (∀ parent, a ≠ .online g parent) → s₁.uclamp g = s.uclamp g) :
    CallsMatch s s' a calls := by
  intro g id hg
  rw [h.calls, hclamp g hg]

/-- A write of a requested clamp. -/
theorem Proper.write (hiter : iter.PreOrder) (hs : Proper buckets root s f) {g : G} {id : ClampId}
    {percent : Option ℤ} {fuel : ℕ} (hg : s.links.Listed g)
    (h : cpuUclampWrite iter buckets fuel s g id percent = some (s', calls)) :
    Proper buckets root s' f ∧ CallsMatch s s' (.write g id percent) calls := by
  have hroot := (List.nodup_cons.mp hs.shape.nodup).1
  have hmem := hs.shape.listed_iff.mp hg
  have hgr : root ≠ g := fun h => hroot (h ▸ hmem)
  unfold cpuUclampWrite at h
  split at h
  · cases h
    exact ⟨hs, fun g id _ => iff_of_false List.not_mem_nil fun h => h rfl⟩
  · rename_i util hutil
    split at h
    · have hupd : Updated buckets root (setReq buckets s g id util) s' calls f := by
        refine update_listed hiter s.rule hs.shape ?_ hs.settled ?_ hs.bucket hmem h
        · rw [req_setReq_of_ne id _ hgr]
          exact hs.top
        · exact fun a ha => rule_setReq_of_ne id _ ha
      exact ⟨hupd.toProper, hupd.callsMatch fun _ _ => rfl⟩
    · have hupd := update_listed hiter s.rule hs.shape hs.top hs.settled (fun _ _ => rfl)
        hs.bucket hmem h
      exact ⟨hupd.toProper, hupd.callsMatch fun _ _ => rfl⟩

/-- A change of the system defaults. -/
theorem Proper.defaults (hiter : iter.PreOrder) (hs : Proper buckets root s f)
    {utilMin utilMax fuel : ℕ}
    (h : uclampUpdateRootTg iter buckets root fuel s utilMin utilMax = some (s', calls)) :
    Proper buckets root s' f ∧ CallsMatch s s' (.defaults utilMin utilMax) calls := by
  have hupd : Updated buckets root
      (setReq buckets (setReq buckets s root .min utilMin) root .max utilMax) s' calls f := by
    refine update_root hiter s.rule hs.shape hs.settled ?_ hs.bucket h
    intro a ha
    rw [rule_setReq_of_ne _ _ ha, rule_setReq_of_ne _ _ ha]
  exact ⟨hupd.toProper, hupd.callsMatch fun _ _ => rfl⟩

/-- The tree with a new group, whose clamps from before it came are those of a rule
for it alone. -/
theorem Proper.settled_insert (hs : Proper buckets root s f) {f' : Forest G} {tg parent : G}
    {eff : G → ℕ × ℕ} {rule : G → ℕ × ℕ → ℕ × ℕ} (htr : root ≠ tg) (htf : tg ∉ f.preorder)
    (hcase : parent = root ∧ f' = .node tg .nil f ∨ parent ∈ f.preorder ∧ f' = f.insert parent tg)
    (heff : ∀ g, g ≠ tg → eff g = s.eff g) (hrule : ∀ g, g ≠ tg → rule g = s.rule g)
    (hnew : ∀ c, rule tg c = eff tg) : f'.Settled rule eff root := by
  rcases hcase with ⟨-, rfl⟩ | ⟨-, rfl⟩
  · refine ⟨(hnew _).symm, trivial, hs.settled.congr (heff root htr) ?_ ?_⟩
    · exact fun g hg => heff g fun h => htf (h ▸ hg)
    · exact fun g hg => hrule g fun h => htf (h ▸ hg)
  · exact hs.settled.insert (List.nodup_cons.mp hs.shape.nodup).2 htf htr heff hrule hnew

/-- A group comes. -/
theorem Proper.online (hiter : iter.PreOrder) (hs : Proper buckets root s f) {tg parent : G}
    {created : ClampId → UclampSe} {fuel : ℕ} (hroot : tg ≠ root) (htg : ¬ s.links.Listed tg)
    (hparent : parent = root ∨ s.links.Listed parent)
    (hcreated : ∀ id, (created id).bucketId = uclampBucketId buckets (created id).value)
    (h : cpuCgroupCssOnline iter buckets fuel s tg parent created = some (s', calls)) :
    ∃ f', Proper buckets root s' f' ∧ CallsMatch s s' (.online tg parent) calls := by
  have htf : tg ∉ f.preorder := fun hmem => htg (hs.shape.listed_iff.mpr hmem)
  have htg' : tg ∉ root :: f.preorder := by
    rw [List.mem_cons, not_or]
    exact ⟨hroot, htf⟩
  obtain ⟨f', hshape, hcase, hmem, -⟩ :=
    hs.shape.insert (hparent.imp_right hs.shape.listed_iff.mp) htg'
  unfold cpuCgroupCssOnline at h
  generalize hs₁ : ({ links := s.links.insert parent tg, uclampReq := _, uclamp := _ } : State G) =
    s₁ at h
  have hlinks : s₁.links = s.links.insert parent tg := by
    rw [← hs₁]
  have hreq : ∀ g, g ≠ tg → s₁.uclampReq g = s.uclampReq g := by
    intro g hg
    rw [← hs₁]
    exact Function.update_of_ne hg _ s.uclampReq
  have hclamp : ∀ g, g ≠ tg → s₁.uclamp g = s.uclamp g := by
    intro g hg
    rw [← hs₁]
    exact Function.update_of_ne hg _ s.uclamp
  have hnew : s₁.uclamp tg = created := by
    rw [← hs₁]
    exact Function.update_self tg _ s.uclamp
  have heff : ∀ g, g ≠ tg → s₁.eff g = s.eff g := fun g hg => congrArg values (hclamp g hg)
  have hrule : ∀ g, g ≠ tg → s₁.rule g = s.rule g := by
    intro g hg
    unfold State.rule
    rw [hreq g hg]
  let rule : G → ℕ × ℕ → ℕ × ℕ := fun g c => if g = tg then s₁.eff tg else s.rule g c
  have hrule₀ : ∀ g, g ≠ tg → rule g = s.rule g := fun g hg => funext fun c => if_neg hg
  have hsettled : f'.Settled rule s₁.eff root :=
    hs.settled_insert (Ne.symm hroot) htf hcase heff hrule₀ fun c => if_pos rfl
  have hupd : Updated buckets root s₁ s' calls f' := by
    refine update_listed hiter rule (hlinks ▸ hshape) ?_ hsettled ?_ ?_ ((hmem tg).mpr (.inl rfl)) h
    · rw [heff root (Ne.symm hroot), hreq root (Ne.symm hroot)]
      exact hs.top
    · intro g hg
      rw [hrule g hg, hrule₀ g hg]
    · intro g id
      by_cases hg : g = tg
      · rw [hg, hnew]
        exact hcreated id
      · rw [hclamp g hg]
        exact hs.bucket g id
  refine ⟨f', hupd.toProper, hupd.callsMatch fun g hne => hclamp g ?_⟩
  rintro rfl
  exact hne parent rfl

theorem proper_step (hiter : iter.PreOrder) {a : Act G} (hs : Proper buckets root s f)
    (hstep : Step iter buckets root s (a, calls) s') :
    ∃ f', Proper buckets root s' f' ∧ CallsMatch s s' a calls := by
  cases hstep with
  | write hg h => exact ⟨f, hs.write hiter hg h⟩
  | defaults hmin hmax h => exact ⟨f, hs.defaults hiter h⟩
  | online hroot htg hparent hcreated h => exact hs.online hiter hroot htg hparent hcreated h
  | @offline tg htg hleaf =>
    refine ⟨f.remove tg, ⟨(hs.shape.remove (hs.shape.listed_iff.mp htg) hleaf).1, hs.top,
      hs.settled.remove, hs.bucket⟩, fun g id _ => ?_⟩
    exact iff_of_false List.not_mem_nil fun h => h rfl

/-! ### Every run -/

theorem proper_of_reach (hiter : iter.PreOrder) {ok : State G → Act G × List (G × ClampId) → Prop}
    (h : Reach (start buckets) (Step iter buckets root) ok s) : ∃ f, Proper buckets root s f := by
  apply h.invariant ⟨.nil, proper_start buckets root⟩
  rintro s ⟨a, calls⟩ s' ⟨f, hs⟩ - hstep
  obtain ⟨f', hs', -⟩ := proper_step hiter hs hstep
  exact ⟨f', hs'⟩

/-- The lower clamp is capped by the upper one. -/
theorem effClamps_le (req : ℕ × ℕ) (c : Option (ℕ × ℕ)) :
    (effClamps req c).1 ≤ (effClamps req c).2 := Nat.min_le_right _ _

/-- The clamps are at most those above. -/
theorem effClamps_le_parent (req c : ℕ × ℕ) :
    (effClamps req (some c)).1 ≤ c.1 ∧ (effClamps req (some c)).2 ≤ c.2 := by
  unfold effClamps
  refine ⟨(Nat.min_le_left _ _).trans ?_, ?_⟩
  · show (if req.1 > c.1 then c.1 else req.1) ≤ c.1
    split <;> omega
  · show (if req.2 > c.2 then c.2 else req.2) ≤ c.2
    split <;> omega

omit [DecidableEq G] in
/-- Clamps never grow on the way down. -/
theorem Proper.le_ancestor (hs : Proper buckets root s f) {g b : G} (hg : g ∈ f.preorder)
    (hb : s.links.Ancestor b g) : (s.eff g).1 ≤ (s.eff b).1 ∧ (s.eff g).2 ≤ (s.eff b).2 := by
  have hparent : ∀ x ∈ f.preorder, ∀ p, s.links.parent x = some p →
      (s.eff x).1 ≤ (s.eff p).1 ∧ (s.eff x).2 ≤ (s.eff p).2 := by
    intro x hx p hp
    obtain ⟨q, hq, heq⟩ := Forest.Settled.exists_parent hs.shape.linked hs.settled x hx
    cases hp.symm.trans hq
    rw [heq]
    exact effClamps_le_parent _ _
  induction hb with
  | single hp => exact hparent g hg _ hp
  | @tail c p hcp hp ih =>
    rcases hs.shape.above_of_ancestor hg hcp with rfl | habove
    · rw [hs.shape.top] at hp
      cases hp
    · have hup := hparent c habove.mem.1 p hp
      exact ⟨ih.1.trans hup.1, ih.2.trans hup.2⟩

/-- An update from any group on ends. -/
theorem update_ends (hiter : iter.PreOrder) (hshape : s.links.Shape root f) {g : G}
    (hg : g = root ∨ s.links.Listed g) :
    ∃ n, ∀ fuel ≥ n, (cpuUtilUpdateEff iter buckets fuel s g).isSome = true := by
  obtain ⟨hroot, hnodup⟩ := List.nodup_cons.mp hshape.nodup
  have hsub : ∃ kids : Forest G, (g :: kids.preorder).Nodup ∧ s.links.children g = kids.roots ∧
      s.links.Linked g kids := by
    rcases hg with rfl | hg
    · exact ⟨f, hshape.nodup, hshape.kids, hshape.linked⟩
    · obtain ⟨-, kids, -, hchildren, hlinked, hnk, -⟩ := Forest.settled_subtree (ℕ × ℕ)
        hshape.linked hnodup hroot (hshape.listed_iff.mp hg)
      exact ⟨kids, hnk, hchildren, hlinked⟩
  obtain ⟨kids, hnk, hchildren, hlinked⟩ := hsub
  obtain ⟨n, hn⟩ := hiter.refresh hnk hchildren hlinked (updateEff buckets)
  refine ⟨n, fun fuel hfuel => ?_⟩
  unfold cpuUtilUpdateEff
  rw [hn fuel hfuel]
  rfl

/-- Whatever may be done next ends: a write, a change of the defaults, and the
coming of a group. -/
structure Ends (iter : Iteration G (State G × List (G × ClampId))) (buckets : ℕ) (root : G)
    (s : State G) : Prop where
  write : ∀ g id percent, s.links.Listed g →
    ∃ n, ∀ fuel ≥ n, (cpuUclampWrite iter buckets fuel s g id percent).isSome = true
  defaults : ∀ utilMin utilMax,
    ∃ n, ∀ fuel ≥ n, (uclampUpdateRootTg iter buckets root fuel s utilMin utilMax).isSome = true
  online : ∀ tg parent created, tg ≠ root → ¬ s.links.Listed tg →
    parent = root ∨ s.links.Listed parent →
    ∃ n, ∀ fuel ≥ n, (cpuCgroupCssOnline iter buckets fuel s tg parent created).isSome = true

theorem Proper.ends (hiter : iter.PreOrder) (hs : Proper buckets root s f) :
    Ends iter buckets root s where
  write g id percent hg := by
    unfold cpuUclampWrite
    split
    · exact ⟨0, fun _ _ => rfl⟩
    · rename_i util hutil
      split
      · exact update_ends hiter (s := setReq buckets s g id util) hs.shape (.inr hg)
      · exact update_ends hiter hs.shape (.inr hg)
  defaults utilMin utilMax :=
    update_ends hiter
      (s := setReq buckets (setReq buckets s root .min utilMin) root .max utilMax) hs.shape (.inl rfl)
  online tg parent created hroot htg hparent := by
    have htf : tg ∉ root :: f.preorder := by
      rw [List.mem_cons, not_or]
      exact ⟨hroot, fun hmem => htg (hs.shape.listed_iff.mpr hmem)⟩
    obtain ⟨f', hshape, -, hmem, -⟩ :=
      hs.shape.insert (hparent.imp_right hs.shape.listed_iff.mp) htf
    have hlisted : (s.links.insert parent tg).Listed tg :=
      hshape.listed_iff.mpr ((hmem tg).mpr (.inl rfl))
    unfold cpuCgroupCssOnline
    exact update_ends hiter (f := f') hshape (.inr hlisted)

/-- A group comes, and its upper clamp is set to one half. -/
theorem half_reach : ∃ s s' : State ℕ,
    Reach (start 5) (Step forEachDescendantPre 5 0) (fun _ _ => True) s ∧
    Step forEachDescendantPre 5 0 s (.write 1 .max (some 5000), [(1, .max)]) s' ∧ s'.links.Listed 1 := by
  have hfirst : ¬ (start (G := ℕ) 5).links.Listed 1 := by
    rintro ⟨p, hp⟩
    cases hp
  have hrun : ∃ s s' : State ℕ, ∃ calls, cpuCgroupCssOnline forEachDescendantPre 5 9
      (start 5) 1 0 ((start (G := ℕ) 5).uclamp 0) = some (s, calls) ∧
      cpuUclampWrite forEachDescendantPre 5 9 s 1 .max (some 5000) = some (s', [(1, .max)]) ∧
        s.links.children 0 = [1] ∧ s'.links.children 0 = [1] :=
    ⟨_, _, _, rfl, rfl, rfl, rfl⟩
  obtain ⟨s, s', calls, honline, hwrite, hc, hc'⟩ := hrun
  refine ⟨s, s', .step .init trivial
    (.online (by decide) hfirst (.inl rfl) (fun _ => rfl) honline), .write ⟨0, ?_⟩ hwrite, ⟨0, ?_⟩⟩
  · rw [hc]
    exact List.mem_cons_self
  · rw [hc']
    exact List.mem_cons_self

end GroupClamps
end Sched
end LinuxProg
