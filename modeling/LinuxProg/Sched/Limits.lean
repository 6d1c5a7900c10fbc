/-
# Bandwidth limits over runs

Writes of limits come in any order, with any values, while groups come and go.
On cgroup1 a write is accepted exactly if its pair is in range and the new
limit lies between those of the groups below and above (`set_iff`), so that no
limited group ever has a share above that of a limited group above it
(`limits_nested`); what `hierarchical_quota` held before, left over from a
refused write or from a group that has just come, does not matter. On cgroup2
the smaller of a limit and `RUNTIME_INF`, `-1` as an `s64`, is taken for
`RUNTIME_INF`, so that nothing is passed down (`hierarchical_v2`).
-/
import Mathlib
import LinuxProg.Sched.Bandwidth

namespace LinuxProg
namespace Sched
namespace Bandwidth

open Trees Groups Transition

variable {G : Type*} [DecidableEq G]

/-! ### The system -/

inductive Act (G : Type*) where
  | set (tg : G) (period quota : ℕ) (ret : ℤ)
  | quota (tg : G) (cfsQuotaUs : ℤ) (ret : ℤ)
  | period (tg : G) (cfsPeriodUs : ℤ) (ret : ℤ)
  | online (tg parent : G)
  | offline (tg : G)

/-- `sched_create_group` and `sched_online_group`; what `hierarchical_quota` holds
is not set. -/
def schedOnlineGroup (s : State G) (tg parent : G) (hq : ℤ) : State G where
  links := s.links.insert parent tg
  bw := Function.update s.bw tg ⟨defaultCfsPeriod, runtimeInf, hq⟩

/-- `sched_offline_group`. -/
def schedOfflineGroup (s : State G) (tg : G) : State G :=
  { s with links := s.links.remove tg }

/-- A limit is written, as a pair (`cpu.max`) or through one of the files
`cpu.cfs_quota_us` and `cpu.cfs_period_us`, or a group comes or goes. A group goes
after those below it. -/
inductive Step (root : G) (onDfl : Bool) : State G → Act G → State G → Prop where
  | set {s s' : State G} {tg : G} {period quota fuel : ℕ} {ret : ℤ}
      (htg : tg = root ∨ s.links.Listed tg)
      (h : tgSetCfsBandwidth root onDfl fuel s tg period quota = some (ret, s')) :
      Step root onDfl s (.set tg period quota ret) s'
  | quota {s s' : State G} {tg : G} {cfsQuotaUs : ℤ} {fuel : ℕ} {ret : ℤ}
      (htg : tg = root ∨ s.links.Listed tg)
      (h : tgSetCfsQuota root onDfl fuel s tg cfsQuotaUs = some (ret, s')) :
      Step root onDfl s (.quota tg cfsQuotaUs ret) s'
  | period {s s' : State G} {tg : G} {cfsPeriodUs : ℤ} {fuel : ℕ} {ret : ℤ}
      (htg : tg = root ∨ s.links.Listed tg)
      (h : tgSetCfsPeriod root onDfl fuel s tg cfsPeriodUs = some (ret, s')) :
      Step root onDfl s (.period tg cfsPeriodUs ret) s'
  | online {s : State G} {tg parent : G} {hq : ℤ} (hroot : tg ≠ root) (htg : ¬ s.links.Listed tg)
      (hparent : parent = root ∨ s.links.Listed parent) :
      Step root onDfl s (.online tg parent) (schedOnlineGroup s tg parent hq)
  | offline {s : State G} {tg : G} (htg : s.links.Listed tg) (hleaf : s.links.children tg = []) :
      Step root onDfl s (.offline tg) (schedOfflineGroup s tg)

/-- There is only the root, and it is not limited. -/
def start (hq : G → ℤ) : State G where
  links := ⟨fun _ => none, fun _ => []⟩
  bw g := ⟨defaultCfsPeriod, runtimeInf, hq g⟩

/-- The limit of a group. -/
def State.limit (s : State G) (g : G) : WithTop ℕ :=
  Bandwidth.limit (s.bw g).period (s.bw g).quota

variable {root : G} {onDfl : Bool} {s s' : State G} {f : Forest G} {hq : G → ℤ} {a : Act G}

/-- The groups are a tree, their values are in range, and the root is not limited. -/
structure Proper (root : G) (s : State G) (f : Forest G) : Prop where
  shape : s.links.Shape root f
  sane : ∀ g, Sane (s.bw g)
  top : (s.bw root).quota = runtimeInf

theorem sane_default (x : ℤ) : Sane ⟨defaultCfsPeriod, runtimeInf, x⟩ := by
  show InRange defaultCfsPeriod runtimeInf
  unfold InRange
  decide

omit [DecidableEq G] in
theorem proper_start (root : G) (hq : G → ℤ) : Proper root (start hq) .nil where
  shape := Links.shape_nil root
  sane g := sane_default (hq g)
  top := rfl

/-- What `tg_set_cfs_bandwidth` does: it refuses the pair, or it runs the walk. -/
theorem set_cases {tg : G} {period quota fuel : ℕ} {ret : ℤ}
    (h : tgSetCfsBandwidth root onDfl fuel s tg period quota = some (ret, s')) :
    (ret = -einval ∧ s' = s ∧ (tg = root ∨ ¬ InRange period quota)) ∨
      tg ≠ root ∧ InRange period quota ∧ ∃ bw,
        cfsSchedulable root onDfl fuel s tg period quota = some (ret, bw) ∧
          s' = { s with bw := if ret = 0 then
            Function.update bw tg { bw tg with period := period, quota := quota } else bw } := by
  unfold tgSetCfsBandwidth at h
  by_cases hroot : tg = root
  · rw [if_pos hroot] at h
    cases h
    exact .inl ⟨rfl, rfl, .inl hroot⟩
  · rw [if_neg hroot] at h
    split at h
    · rename_i hmin
      cases h
      exact .inl ⟨rfl, rfl, .inr fun hin => hin.1 hmin⟩
    · rename_i hmin
      split at h
      · rename_i hmax
        cases h
        exact .inl ⟨rfl, rfl, .inr fun hin => hin.2.1 hmax⟩
      · rename_i hmax
        split at h
        · rename_i hrun
          cases h
          exact .inl ⟨rfl, rfl, .inr fun hin => hin.2.2 hrun⟩
        · rename_i hrun
          obtain ⟨⟨ret', bw⟩, hwalk, heq⟩ := Option.map_eq_some_iff.mp h
          refine .inr ⟨hroot, ⟨hmin, hmax, hrun⟩, bw, ?_⟩
          by_cases hret : ret' = 0
          · simp only [hret, ne_eq, not_true_eq_false, if_false] at heq
            cases heq
            exact ⟨hret ▸ hwalk, by rw [if_pos rfl]⟩
          · simp only [ne_eq, hret, not_false_eq_true, if_true] at heq
            cases heq
            exact ⟨hwalk, by rw [if_neg hret]⟩

/-- A value written to one of the files is refused, or goes into a pair with the
other one as it is. -/
theorem quota_cases {tg : G} {cfsQuotaUs : ℤ} {fuel : ℕ} {ret : ℤ}
    (h : tgSetCfsQuota root onDfl fuel s tg cfsQuotaUs = some (ret, s')) :
    s' = s ∨ ∃ quota,
      tgSetCfsBandwidth root onDfl fuel s tg (s.bw tg).period quota = some (ret, s') := by
  unfold tgSetCfsQuota at h
  split at h
  · exact .inr ⟨_, h⟩
  · split at h
    · exact .inr ⟨_, h⟩
    · cases h
      exact .inl rfl

theorem period_cases {tg : G} {cfsPeriodUs : ℤ} {fuel : ℕ} {ret : ℤ}
    (h : tgSetCfsPeriod root onDfl fuel s tg cfsPeriodUs = some (ret, s')) :
    s' = s ∨ ∃ period,
      tgSetCfsBandwidth root onDfl fuel s tg period (s.bw tg).quota = some (ret, s') := by
  unfold tgSetCfsPeriod at h
  split at h
  · cases h
    exact .inl rfl
  · exact .inr ⟨_, h⟩

/-- What a step can do. -/
theorem step_cases (h : Step root onDfl s a s') :
    s' = s ∨
    (∃ tg period quota fuel ret,
      tgSetCfsBandwidth root onDfl fuel s tg period quota = some (ret, s')) ∨
    (∃ tg parent x, tg ≠ root ∧ ¬ s.links.Listed tg ∧ (parent = root ∨ s.links.Listed parent) ∧
      s' = schedOnlineGroup s tg parent x) ∨
    ∃ tg, s.links.Listed tg ∧ s.links.children tg = [] ∧ s' = schedOfflineGroup s tg := by
  cases h with
  | set _ h => exact .inr (.inl ⟨_, _, _, _, _, h⟩)
  | quota _ h =>
    refine (quota_cases h).imp_right fun hset => .inl ?_
    obtain ⟨quota, hset⟩ := hset
    exact ⟨_, _, _, _, _, hset⟩
  | period _ h =>
    refine (period_cases h).imp_right fun hset => .inl ?_
    obtain ⟨period, hset⟩ := hset
    exact ⟨_, _, _, _, _, hset⟩
  | online hroot htg hparent => exact .inr (.inr (.inl ⟨_, _, _, hroot, htg, hparent, rfl⟩))
  | offline htg hleaf => exact .inr (.inr (.inr ⟨_, htg, hleaf, rfl⟩))

/-! ### What the steps keep -/

/-- A pair is stored for a group, and nothing else of the pairs changes. -/
structure Stored (s : State G) (tg : G) (period quota : ℕ) (s' : State G) : Prop where
  links : s'.links = s.links
  period : ∀ g, (s'.bw g).period = if g = tg then period else (s.bw g).period
  quota : ∀ g, (s'.bw g).quota = if g = tg then quota else (s.bw g).quota

/-- The pairs are those before. -/
structure Unchanged (s s' : State G) : Prop where
  links : s'.links = s.links
  period : ∀ g, (s'.bw g).period = (s.bw g).period
  quota : ∀ g, (s'.bw g).quota = (s.bw g).quota

theorem stored_of_kept {tg : G} {period quota : ℕ} {bw : G → CfsBandwidth}
    (hperiod : ∀ g, (bw g).period = (s.bw g).period) (hquota : ∀ g, (bw g).quota = (s.bw g).quota) :
    Stored s tg period quota
      { s with bw := Function.update bw tg { bw tg with period := period, quota := quota } } := by
  refine ⟨rfl, fun g => ?_, fun g => ?_⟩ <;> by_cases hg : g = tg
  · subst hg
    simp
  · simp [hg, hperiod]
  · subst hg
    simp
  · simp [hg, hquota]

theorem Stored.limit {tg : G} {period quota : ℕ} (h : Stored s tg period quota s') (g : G) :
    s'.limit g = limitWith s.bw tg period quota g := by
  unfold State.limit limitWith
  rw [h.period, h.quota]
  split <;> rfl

omit [DecidableEq G] in
theorem Unchanged.limit (h : Unchanged s s') (g : G) : s'.limit g = s.limit g := by
  unfold State.limit
  rw [h.period, h.quota]

omit [DecidableEq G] in
theorem Unchanged.proper (h : Unchanged s s') (hs : Proper root s f) : Proper root s' f where
  shape := h.links ▸ hs.shape
  sane g := by
    unfold Sane
    rw [h.period, h.quota]
    exact hs.sane g
  top := (h.quota root).trans hs.top

theorem Stored.proper {tg : G} {period quota : ℕ} (h : Stored s tg period quota s')
    (hs : Proper root s f) (htg : tg ≠ root) (hin : InRange period quota) : Proper root s' f where
  shape := h.links ▸ hs.shape
  sane g := by
    unfold Sane
    rw [h.period, h.quota]
    split
    · exact hin
    · exact hs.sane g
  top := by
    rw [h.quota, if_neg (Ne.symm htg)]
    exact hs.top

/-- A check of a tree that has come to its end. -/
theorem check_max {tg : G} {period quota fuel : ℕ} {r : ℤ × (G → CfsBandwidth)}
    (hwalk : cfsSchedulable root onDfl fuel s tg period quota = some r) (n : ℕ) :
    cfsSchedulable root onDfl (max fuel n) s tg period quota = some r :=
  walk_mono hwalk (le_max_left fuel n)

/-- On cgroup1 a write stores its pair if the limits are nested with it, and is
refused otherwise. -/
theorem Proper.set_v1 {tg : G} {period quota fuel : ℕ} {ret : ℤ} (hs : Proper root s f)
    (h : tgSetCfsBandwidth root false fuel s tg period quota = some (ret, s')) :
    (ret = 0 ∧ Stored s tg period quota s' ∨ ret = -einval ∧ Unchanged s s') ∧
      (ret = 0 ↔ tg ≠ root ∧ InRange period quota ∧ ∀ a b, f.Above a b →
        limitWith s.bw tg period quota b = ⊤ ∨
          limitWith s.bw tg period quota b ≤ limitWith s.bw tg period quota a) := by
  have herr : -einval ≠ 0 := by decide
  rcases set_cases h with ⟨rfl, rfl, hor⟩ | ⟨hroot, hin, bw, hwalk, rfl⟩
  · refine ⟨.inr ⟨rfl, rfl, fun _ => rfl, fun _ => rfl⟩, iff_of_false herr ?_⟩
    rintro ⟨hroot, hin, -⟩
    exact hor.elim hroot fun hnot => hnot hin
  · obtain ⟨ret', bw', hwalk', hiff, hret, hperiod, hquota⟩ :=
      cfsSchedulable_v1 hs.shape hs.sane hin tg (le_max_right fuel _)
    cases (check_max hwalk _).symm.trans hwalk'
    refine ⟨?_, hiff.trans ⟨fun hn => ⟨hroot, hin, hn⟩, fun hn => hn.2.2⟩⟩
    rcases hret with hret | hret
    · rw [if_pos hret]
      exact .inl ⟨hret, stored_of_kept hperiod hquota⟩
    · rw [if_neg (hret ▸ herr)]
      exact .inr ⟨hret, rfl, hperiod, hquota⟩

/-- On cgroup2 a write stores its pair if it is in range. -/
theorem Proper.set_v2 {tg : G} {period quota fuel : ℕ} {ret : ℤ} (hs : Proper root s f)
    (h : tgSetCfsBandwidth root true fuel s tg period quota = some (ret, s')) :
    (ret = -einval ∧ s' = s ∧ (tg = root ∨ ¬ InRange period quota)) ∨
      ret = 0 ∧ tg ≠ root ∧ InRange period quota ∧ Stored s tg period quota s' ∧
        ∀ g ∈ root :: f.preorder, (s'.bw g).hierarchicalQuota = encode ⊤ := by
  rcases set_cases h with hrefuse | ⟨hroot, hin, bw, hwalk, rfl⟩
  · exact .inl hrefuse
  · obtain ⟨bw', hwalk', htop, hperiod, hquota⟩ :=
      cfsSchedulable_v2 hs.shape hs.sane hin tg (le_max_right fuel _)
    cases (check_max hwalk _).symm.trans hwalk'
    rw [if_pos rfl]
    refine .inr ⟨rfl, hroot, hin, stored_of_kept hperiod hquota, fun g hg => ?_⟩
    by_cases hgt : g = tg
    · subst hgt
      simpa using htop g hg
    · simpa [hgt] using htop g hg

theorem Proper.set {tg : G} {period quota fuel : ℕ} {ret : ℤ} (hs : Proper root s f)
    (h : tgSetCfsBandwidth root onDfl fuel s tg period quota = some (ret, s')) :
    Proper root s' f := by
  cases onDfl with
  | false =>
    obtain ⟨⟨hret, hstored⟩ | ⟨-, hunchanged⟩, hiff⟩ := hs.set_v1 h
    · obtain ⟨hroot, hin, -⟩ := hiff.mp hret
      exact hstored.proper hs hroot hin
    · exact hunchanged.proper hs
  | true =>
    rcases hs.set_v2 h with ⟨-, rfl, -⟩ | ⟨-, hroot, hin, hstored, -⟩
    · exact hs
    · exact hstored.proper hs hroot hin

theorem Proper.online {tg parent : G} (hs : Proper root s f) (hroot : tg ≠ root)
    (htg : ¬ s.links.Listed tg) (hparent : parent = root ∨ s.links.Listed parent) (x : ℤ) :
    ∃ f', Proper root (schedOnlineGroup s tg parent x) f' ∧
      ∀ a b, f'.Above a b → f.Above a b ∨ b = tg := by
  have hparent' : parent = root ∨ parent ∈ f.preorder := hparent.imp_right hs.shape.listed_iff.mp
  have htg' : tg ∉ root :: f.preorder := by
    rw [List.mem_cons, not_or]
    exact ⟨hroot, fun hmem => htg (hs.shape.listed_iff.mpr hmem)⟩
  obtain ⟨f', hshape, -, -, habove⟩ := hs.shape.insert hparent' htg'
  refine ⟨f', ⟨hshape, fun g => ?_, ?_⟩, habove⟩
  · by_cases hg : g = tg
    · subst hg
      simpa [schedOnlineGroup] using sane_default x
    · simpa [schedOnlineGroup, hg] using hs.sane g
  · simpa [schedOnlineGroup, Ne.symm hroot] using hs.top

theorem Proper.offline {tg : G} (hs : Proper root s f) (htg : s.links.Listed tg)
    (hleaf : s.links.children tg = []) :
    Proper root (schedOfflineGroup s tg) (f.remove tg) :=
  ⟨(hs.shape.remove (hs.shape.listed_iff.mp htg) hleaf).1, hs.sane, hs.top⟩

theorem proper_of_reach {ok : State G → Act G → Prop}
    (h : Reach (start hq) (Step root onDfl) ok s) : ∃ f, Proper root s f := by
  apply h.invariant ⟨.nil, proper_start root hq⟩
  rintro s a s' ⟨f, hs⟩ - hstep
  rcases step_cases hstep with rfl | ⟨tg, period, quota, fuel, ret, h⟩ |
    ⟨tg, parent, x, hroot, htg, hparent, rfl⟩ | ⟨tg, htg, hleaf, rfl⟩
  · exact ⟨f, hs⟩
  · exact ⟨f, hs.set h⟩
  · obtain ⟨f', hs', -⟩ := hs.online hroot htg hparent x
    exact ⟨f', hs'⟩
  · exact ⟨_, hs.offline htg hleaf⟩

/-- A group below a group: the limits of both are written. -/
theorem pair_reach (onDfl : Bool) : ∃ s : State ℕ,
    Reach (start fun _ => 0) (Step 0 onDfl) (fun _ _ => True) s ∧ s.links.Listed 2 ∧
      s.links.Ancestor 1 2 ∧ s.limit 1 = .some 524288 ∧ s.limit 2 = .some 262144 := by
  have hfirst : ¬ (start (G := ℕ) fun _ => 0).links.Listed 1 := by
    rintro ⟨p, hp⟩
    cases hp
  have hsecond : ¬ (schedOnlineGroup (start (G := ℕ) fun _ => 0) 1 0 7).links.Listed 2 := by
    rintro ⟨p, hp⟩
    by_cases h0 : p = 0
    · subst h0
      cases hp with
      | tail _ hp => cases hp
    · by_cases h1 : p = 1 <;> simp [schedOnlineGroup, start, Links.insert, h0, h1] at hp
  have hupper : ∃ s', tgSetCfsBandwidth 0 onDfl 20
      (schedOnlineGroup (schedOnlineGroup (start fun _ => 0) 1 0 7) 2 1 7) 1 100000000 50000000 =
        some (0, s') ∧ ∃ s'', tgSetCfsBandwidth 0 onDfl 20 s' 2 100000000 25000000 = some (0, s'') ∧
          s''.links.children 1 = [2] ∧ s''.links.parent 2 = some 1 ∧ s'.links.children 1 = [2] ∧
          s''.limit 1 = .some 524288 ∧ s''.limit 2 = .some 262144 := by
    cases onDfl <;> exact ⟨_, rfl, _, rfl, rfl, rfl, rfl, by decide, by decide⟩
  obtain ⟨s', hs', s'', hs'', hc, hp, hc', h1, h2⟩ := hupper
  refine ⟨s'', .step (.step (.step (.step .init trivial (.online (by decide) hfirst (.inl rfl)))
    trivial (.online (by decide) hsecond (.inr ⟨0, List.mem_cons_self⟩))) trivial
    (.set (.inr ⟨0, List.mem_cons_self⟩) hs')) trivial (.set (.inr ⟨1, ?_⟩) hs''), ⟨1, ?_⟩,
    .single hp, h1, h2⟩
  · rw [hc']
    exact List.mem_cons_self
  · rw [hc]
    exact List.mem_cons_self

/-! ### cgroup1 -/

/-- No group has a limit above that of a group above it. -/
def NestedLimits (s : State G) (f : Forest G) : Prop :=
  ∀ a b, f.Above a b → s.limit b = ⊤ ∨ s.limit b ≤ s.limit a

theorem nested_step (hs : Proper root s f) (hn : NestedLimits s f)
    (hstep : Step root false s a s') : ∃ f', Proper root s' f' ∧ NestedLimits s' f' := by
  rcases step_cases hstep with rfl | ⟨tg, period, quota, fuel, ret, h⟩ |
    ⟨tg, parent, x, hroot, htg, hparent, rfl⟩ | ⟨tg, htg, hleaf, rfl⟩
  · exact ⟨f, hs, hn⟩
  · refine ⟨f, hs.set h, fun a b hab => ?_⟩
    obtain ⟨⟨hret, hstored⟩ | ⟨-, hunchanged⟩, hiff⟩ := hs.set_v1 h
    · rw [hstored.limit, hstored.limit]
      exact (hiff.mp hret).2.2 a b hab
    · rw [hunchanged.limit, hunchanged.limit]
      exact hn a b hab
  · obtain ⟨f', hs', habove⟩ := hs.online hroot htg hparent x
    have hother : ∀ g, g ≠ tg → (schedOnlineGroup s tg parent x).limit g = s.limit g := by
      intro g hg
      simp [State.limit, schedOnlineGroup, hg]
    have hself : (schedOnlineGroup s tg parent x).limit tg = ⊤ := by
      simp [State.limit, schedOnlineGroup, Bandwidth.limit]
    refine ⟨f', hs', fun a b hab => ?_⟩
    by_cases hb : b = tg
    · exact .inl (hb ▸ hself)
    · have hab' := (habove a b hab).resolve_right hb
      have ha : a ≠ tg := by
        rintro rfl
        exact htg (hs.shape.listed_iff.mpr hab'.mem.1)
      rw [hother a ha, hother b hb]
      exact hn a b hab'
  · exact ⟨_, hs.offline htg hleaf, fun a b hab => hn a b (Forest.above_remove hab)⟩

theorem nested_of_reach {ok : State G → Act G → Prop}
    (h : Reach (start hq) (Step root false) ok s) : ∃ f, Proper root s f ∧ NestedLimits s f := by
  apply h.invariant ⟨.nil, proper_start root hq, fun a b hab => by cases hab⟩
  rintro s a s' ⟨f, hs, hn⟩ - hstep
  exact nested_step hs hn hstep

/-- On cgroup1 a limited group never has a larger share than a limited group
above it, whatever limits are written and whatever groups come and go. -/
theorem limits_nested {ok : State G → Act G → Prop}
    (h : Reach (start hq) (Step root false) ok s) {g b : G} (hg : s.links.Listed g)
    (hb : s.links.Ancestor b g) : s.limit g = ⊤ ∨ s.limit g ≤ s.limit b := by
  obtain ⟨f, hs, hn⟩ := nested_of_reach h
  rcases hs.shape.above_of_ancestor (hs.shape.listed_iff.mp hg) hb with rfl | hab
  · right
    have htop : s.limit b = ⊤ := if_pos hs.top
    rw [htop]
    exact le_top
  · exact hn b g hab

theorem limits_nested_pair : ∃ s : State ℕ, s.links.Listed 2 ∧
    (s.limit 2 = ⊤ ∨ s.limit 2 ≤ s.limit 1) := by
  obtain ⟨s, h, hlisted, hup, -⟩ := pair_reach false
  exact ⟨s, hlisted, limits_nested h hlisted hup⟩

theorem set_isSome {tg : G} {period quota fuel : ℕ}
    (h : InRange period quota → (cfsSchedulable root onDfl fuel s tg period quota).isSome = true) :
    ∃ ret s', tgSetCfsBandwidth root onDfl fuel s tg period quota = some (ret, s') := by
  unfold tgSetCfsBandwidth
  split
  · exact ⟨_, _, rfl⟩
  · split
    · exact ⟨_, _, rfl⟩
    · rename_i hmin
      split
      · exact ⟨_, _, rfl⟩
      · rename_i hmax
        split
        · exact ⟨_, _, rfl⟩
        · rename_i hrun
          obtain ⟨⟨ret, bw⟩, hr⟩ := Option.isSome_iff_exists.mp (h ⟨hmin, hmax, hrun⟩)
          rw [hr]
          by_cases hret : ret = 0
          · exact ⟨_, _, by simp only [Option.map_some, hret, ne_eq, not_true_eq_false, if_false]; rfl⟩
          · exact ⟨_, _, by simp only [Option.map_some, ne_eq, hret, not_false_eq_true, if_true]; rfl⟩

/-- With the limits nested before, only those above and below the group count. -/
theorem nested_with_iff {tg : G} {period quota : ℕ} (hs : Proper root s f)
    (hn : NestedLimits s f) (htg : tg ∈ f.preorder) :
    (∀ a b, f.Above a b → limitWith s.bw tg period quota b = ⊤ ∨
        limitWith s.bw tg period quota b ≤ limitWith s.bw tg period quota a) ↔
      (∀ b, s.links.Ancestor b tg → limit period quota = ⊤ ∨ limit period quota ≤ s.limit b) ∧
        ∀ g, s.links.Listed g → s.links.Ancestor tg g →
          s.limit g = ⊤ ∨ s.limit g ≤ limit period quota := by
  have hself : limitWith s.bw tg period quota tg = limit period quota := if_pos rfl
  have hother : ∀ g, g ≠ tg → limitWith s.bw tg period quota g = s.limit g := fun g hg => if_neg hg
  have hirrefl : ¬ f.Above tg tg := Forest.above_irrefl (List.nodup_cons.mp hs.shape.nodup).2
  constructor
  · intro hall
    refine ⟨fun b hb => ?_, fun g hg hb => ?_⟩
    · rcases hs.shape.above_of_ancestor htg hb with rfl | hab
      · have htop : s.limit b = ⊤ := if_pos hs.top
        rw [htop]
        exact .inr le_top
      · have hbt : b ≠ tg := fun h => hirrefl (h ▸ hab)
        have h := hall b tg hab
        rwa [hself, hother b hbt] at h
    · have hg' := hs.shape.listed_iff.mp hg
      rcases hs.shape.above_of_ancestor hg' hb with rfl | hab
      · exact absurd htg (List.nodup_cons.mp hs.shape.nodup).1
      · have hgt : g ≠ tg := fun h => hirrefl (h ▸ hab)
        have h := hall tg g hab
        rwa [hself, hother g hgt] at h
  · rintro ⟨hup, hdown⟩ a b hab
    by_cases hb : b = tg
    · subst hb
      have hat : a ≠ b := fun h => hirrefl (h ▸ hab)
      rw [hself, hother a hat]
      exact hup a (hs.shape.linked.ancestor_of_above hab)
    · rw [hother b hb]
      by_cases ha : a = tg
      · subst ha
        rw [hself]
        exact hdown b (hs.shape.listed_iff.mpr hab.mem.2) (hs.shape.linked.ancestor_of_above hab)
      · rw [hother a ha]
        exact hn a b hab

/-- On cgroup1 a write of a listed group ends; it stores the pair exactly if that
is in range and the new limit lies between the limits below and above the
group, and otherwise returns `-EINVAL` and leaves all pairs as they were. -/
theorem set_iff {ok : State G → Act G → Prop} (h : Reach (start hq) (Step root false) ok s) {tg : G}
    (htg : s.links.Listed tg) (period quota : ℕ) : ∃ n, ∀ fuel ≥ n, ∃ ret s',
      tgSetCfsBandwidth root false fuel s tg period quota = some (ret, s') ∧
      (ret = 0 ∧ Stored s tg period quota s' ∨ ret = -einval ∧ Unchanged s s') ∧
      (ret = 0 ↔ InRange period quota ∧
        (∀ b, s.links.Ancestor b tg → limit period quota = ⊤ ∨ limit period quota ≤ s.limit b) ∧
        ∀ g, s.links.Listed g → s.links.Ancestor tg g →
          s.limit g = ⊤ ∨ s.limit g ≤ limit period quota) := by
  obtain ⟨f, hs, hn⟩ := nested_of_reach h
  have hmem := hs.shape.listed_iff.mp htg
  have hroot : tg ≠ root := by
    rintro rfl
    exact (List.nodup_cons.mp hs.shape.nodup).1 hmem
  refine ⟨3 * f.preorder.length + 3, fun fuel hfuel => ?_⟩
  have hsome : ∃ ret s', tgSetCfsBandwidth root false fuel s tg period quota = some (ret, s') := by
    apply set_isSome
    intro hin
    obtain ⟨ret, bw, hr, -⟩ := cfsSchedulable_v1 hs.shape hs.sane hin tg hfuel
    rw [hr]
    rfl
  obtain ⟨ret, s', hset⟩ := hsome
  obtain ⟨hcase, hiff⟩ := hs.set_v1 hset
  refine ⟨ret, s', hset, hcase, hiff.trans ?_⟩
  rw [nested_with_iff hs hn hmem]
  exact and_iff_right hroot

/-- Below a limit of one half, three fifths are refused. -/
theorem set_iff_pair : ∃ s : State ℕ, s.limit 1 = .some 524288 ∧ ∃ n, ∀ fuel ≥ n, ∃ ret s',
    tgSetCfsBandwidth 0 false fuel s 2 100000000 60000000 = some (ret, s') ∧ ret ≠ 0 := by
  obtain ⟨s, h, hlisted, hup, hlimit, -⟩ := pair_reach false
  obtain ⟨n, hn⟩ := set_iff h hlisted 100000000 60000000
  refine ⟨s, hlimit, n, fun fuel hfuel => ?_⟩
  obtain ⟨ret, s', hset, -, hiff⟩ := hn fuel hfuel
  refine ⟨ret, s', hset, fun hret => ?_⟩
  have hle := (hiff.mp hret).2.1 1 hup
  rw [hlimit] at hle
  revert hle
  decide

/-! ### cgroup2 -/

/-- On cgroup2 a write of a listed group ends, and stores every pair that is in
range, whatever the limits above are: `hierarchical_quota` is `RUNTIME_INF`
afterwards for each group, although the smaller limit should be passed down. -/
theorem hierarchical_v2 {ok : State G → Act G → Prop} (h : Reach (start hq) (Step root true) ok s)
    {tg : G} (htg : s.links.Listed tg) {period quota : ℕ} (hin : InRange period quota) :
    ∃ n, ∀ fuel ≥ n, ∃ s', tgSetCfsBandwidth root true fuel s tg period quota = some (0, s') ∧
      Stored s tg period quota s' ∧ (s'.bw root).hierarchicalQuota = s64 runtimeInf ∧
      ∀ g, s.links.Listed g → (s'.bw g).hierarchicalQuota = s64 runtimeInf := by
  obtain ⟨f, hs⟩ := proper_of_reach h
  have hmem := hs.shape.listed_iff.mp htg
  have hroot : tg ≠ root := by
    rintro rfl
    exact (List.nodup_cons.mp hs.shape.nodup).1 hmem
  refine ⟨3 * f.preorder.length + 3, fun fuel hfuel => ?_⟩
  have hsome : ∃ ret s', tgSetCfsBandwidth root true fuel s tg period quota = some (ret, s') := by
    apply set_isSome
    intro hin
    obtain ⟨bw, hr, -⟩ := cfsSchedulable_v2 hs.shape hs.sane hin tg hfuel
    rw [hr]
    rfl
  obtain ⟨ret, s', hset⟩ := hsome
  rcases hs.set_v2 hset with ⟨-, -, hor⟩ | ⟨rfl, -, -, hstored, htop⟩
  · exact absurd hin (hor.resolve_left hroot)
  · exact ⟨s', hset, hstored, htop root List.mem_cons_self, fun g hg =>
      htop g (List.mem_cons_of_mem _ (hs.shape.listed_iff.mp hg))⟩

/-- Below a limit of one half, three fifths are stored. -/
theorem hierarchical_v2_pair : ∃ s : State ℕ, s.limit 1 = .some 524288 ∧ ∃ n, ∀ fuel ≥ n, ∃ s',
    tgSetCfsBandwidth 0 true fuel s 2 100000000 60000000 = some (0, s') := by
  obtain ⟨s, h, hlisted, -, hlimit, -⟩ := pair_reach true
  obtain ⟨n, hn⟩ := hierarchical_v2 h hlisted
    (show InRange 100000000 60000000 by unfold InRange; decide)
  refine ⟨s, hlimit, n, fun fuel hfuel => ?_⟩
  obtain ⟨s', hset, -⟩ := hn fuel hfuel
  exact ⟨s', hset⟩

end Bandwidth
end Sched
end LinuxProg
