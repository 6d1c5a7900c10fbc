/-
# Limits of the CFS bandwidth of task groups

A group may be limited to a quota of run time in each period.
`tg_set_cfs_bandwidth` checks a new pair by a walk of all groups, which keeps
the smallest limit on the way down in `hierarchical_quota` (`-1`, which is also
`RUNTIME_INF`, for none). The writes of the files `cfs_quota_us`,
`cfs_period_us` and `cpu.max` come down to it; the value that a file leaves as
it is may have been read before the write of another file, so that any pair of
values can come. Groups come and go between the writes.

`u64` values are natural numbers, `s64` values integers. The header values are
those of the kernel: `BW_SHIFT` is 20 and a quota below `2 ^ 44` microseconds
is not lost in `to_ratio`.
-/
import Mathlib
import LinuxProg.Lib.Transition
import LinuxProg.Lib.Trees
import LinuxProg.Sched.Groups

namespace LinuxProg
namespace Sched
namespace Bandwidth

open Trees Groups Transition

/-! ### Ratios -/

def runtimeInf : ℕ := 18446744073709551615
def bwShift : ℕ := 20
def bwUnit : ℕ := 1048576
def nsecPerUsec : ℕ := 1000
def nsecPerMsec : ℕ := 1000000
def nsecPerSec : ℕ := 1000000000
def u64Max : ℕ := 18446744073709551615
def einval : ℤ := 22

def maxCfsQuotaPeriod : ℕ := 1 * nsecPerSec
def minCfsQuotaPeriod : ℕ := 1 * nsecPerMsec
/-- `MAX_BW * NSEC_PER_USEC`. -/
def maxCfsRuntime : ℕ := 17592186044415 * nsecPerUsec
/-- `default_cfs_period()`. -/
def defaultCfsPeriod : ℕ := 100000000

/-- The conversion to `u64`. -/
def u64 (x : ℤ) : ℕ := (x % 18446744073709551616).toNat

/-- The conversion of a `u64` to `s64`. -/
def s64 (n : ℕ) : ℤ := if n < 9223372036854775808 then n else n - 18446744073709551616

def toRatio (period runtime : ℕ) : ℕ :=
  if runtime = runtimeInf then bwUnit
  else if period = 0 then 0
  else (runtime * 2 ^ bwShift % 18446744073709551616) / period

/-- The fields of `cfs_bandwidth` that limit a group. -/
structure CfsBandwidth where
  period : ℕ
  quota : ℕ
  hierarchicalQuota : ℤ

/-! ### The check -/

variable {G : Type*} [DecidableEq G]

def tgGetCfsQuota (b : CfsBandwidth) : ℤ :=
  if b.quota = runtimeInf then -1 else (b.quota / nsecPerUsec : ℕ)

def tgGetCfsPeriod (b : CfsBandwidth) : ℤ := (b.period / nsecPerUsec : ℕ)

/-- `struct cfs_schedulable_data`. -/
structure SchedulableData (G : Type*) where
  tg : G
  period : ℕ
  quota : ℕ

def normalizeCfsQuota (bw : G → CfsBandwidth) (tg : G) (d : SchedulableData G) : ℕ :=
  let period := if tg = d.tg then d.period else u64 (tgGetCfsPeriod (bw tg))
  let quota := if tg = d.tg then d.quota else u64 (tgGetCfsQuota (bw tg))
  if quota = runtimeInf ∨ quota = u64 (-1) then runtimeInf else toRatio period quota

def setHierarchicalQuota (bw : G → CfsBandwidth) (tg : G) (quota : ℤ) : G → CfsBandwidth :=
  Function.update bw tg { bw tg with hierarchicalQuota := quota }

/-- `tg_cfs_schedulable_down`; `onDfl` is `cgroup_subsys_on_dfl(cpu_cgrp_subsys)`,
true on cgroup2. -/
def tgCfsSchedulableDown (L : Links G) (onDfl : Bool) (d : SchedulableData G) (tg : G)
    (bw : G → CfsBandwidth) : ℤ × (G → CfsBandwidth) :=
  match L.parent tg with
  | none => (0, setHierarchicalQuota bw tg (s64 runtimeInf))
  | some parent =>
    let quota := s64 (normalizeCfsQuota bw tg d)
    let parentQuota := (bw parent).hierarchicalQuota
    if onDfl then (0, setHierarchicalQuota bw tg (min quota parentQuota))
    else if u64 quota = runtimeInf then (0, setHierarchicalQuota bw tg parentQuota)
    else if u64 parentQuota ≠ runtimeInf ∧ quota > parentQuota then (-einval, bw)
    else (0, setHierarchicalQuota bw tg quota)

/-- The groups and their bandwidth. -/
structure State (G : Type*) where
  links : Links G
  bw : G → CfsBandwidth

variable (root : G) (onDfl : Bool) (fuel : ℕ) (s : State G)

/-- The data of the walk, in microseconds. -/
def schedulableData (tg : G) (period quota : ℕ) : SchedulableData G :=
  if quota ≠ runtimeInf then ⟨tg, period / nsecPerUsec, quota / nsecPerUsec⟩
  else ⟨tg, period, quota⟩

/-- `__cfs_schedulable`; `fuel` bounds the rounds of the walk. -/
def cfsSchedulable (tg : G) (period quota : ℕ) : Option (ℤ × (G → CfsBandwidth)) :=
  walkTgTreeFrom s.links root (tgCfsSchedulableDown s.links onDfl (schedulableData tg period quota))
    tgNop fuel s.bw

/-- The pair is one that `tg_set_cfs_bandwidth` lets through to the walk. -/
def InRange (period quota : ℕ) : Prop :=
  ¬(quota < minCfsQuotaPeriod ∨ period < minCfsQuotaPeriod) ∧ ¬ period > maxCfsQuotaPeriod ∧
    ¬(quota ≠ runtimeInf ∧ quota > maxCfsRuntime)

/-- `tg_set_cfs_bandwidth`, without the timers and runqueues. -/
def tgSetCfsBandwidth (tg : G) (period quota : ℕ) : Option (ℤ × State G) :=
  if tg = root then some (-einval, s)
  else if quota < minCfsQuotaPeriod ∨ period < minCfsQuotaPeriod then some (-einval, s)
  else if period > maxCfsQuotaPeriod then some (-einval, s)
  else if quota ≠ runtimeInf ∧ quota > maxCfsRuntime then some (-einval, s)
  else
    (cfsSchedulable root onDfl fuel s tg period quota).map fun (ret, bw) =>
      if ret ≠ 0 then (ret, { s with bw := bw })
      else
        (ret, { s with
          bw := Function.update bw tg { bw tg with period := period, quota := quota } })

/-- `tg_set_cfs_quota`. -/
def tgSetCfsQuota (tg : G) (cfsQuotaUs : ℤ) : Option (ℤ × State G) :=
  let period := (s.bw tg).period
  if cfsQuotaUs < 0 then tgSetCfsBandwidth root onDfl fuel s tg period runtimeInf
  else if u64 cfsQuotaUs ≤ u64Max / nsecPerUsec then
    tgSetCfsBandwidth root onDfl fuel s tg period (u64 cfsQuotaUs * nsecPerUsec)
  else some (-einval, s)

/-- `tg_set_cfs_period`. -/
def tgSetCfsPeriod (tg : G) (cfsPeriodUs : ℤ) : Option (ℤ × State G) :=
  if u64 cfsPeriodUs > u64Max / nsecPerUsec then some (-einval, s)
  else
    tgSetCfsBandwidth root onDfl fuel s tg (u64 cfsPeriodUs * nsecPerUsec) (s.bw tg).quota

/-! ### Limits -/

/-- The limit of a group, as a share of a CPU in units of `2 ^ -20`. -/
def limit (period quota : ℕ) : WithTop ℕ :=
  if quota = runtimeInf then ⊤ else .some (toRatio (period / nsecPerUsec) (quota / nsecPerUsec))

/-- A limit in `hierarchical_quota`. -/
def encode : WithTop ℕ → ℤ
  | .none => -1
  | .some n => n

variable {root onDfl fuel s} {bw : G → CfsBandwidth} {tg g : G} {period quota : ℕ}

theorem encode_top : encode ⊤ = -1 := rfl

theorem encode_coe (n : ℕ) : encode (.some n) = n := rfl

theorem encode_le_iff {x y : ℕ} : encode (.some x) ≤ encode (.some y) ↔ x ≤ y := by
  rw [encode_coe, encode_coe]
  exact Int.ofNat_le

/-- The values of a group that may be limited. -/
def Sane (b : CfsBandwidth) : Prop := InRange b.period b.quota

theorem toRatio_lt (h : 2 ≤ period) : toRatio period quota < 9223372036854775808 := by
  unfold toRatio
  split
  · decide
  · split
    · decide
    · have hlt : quota * 2 ^ bwShift % 18446744073709551616 < 18446744073709551616 :=
        Nat.mod_lt _ (by decide)
      calc quota * 2 ^ bwShift % 18446744073709551616 / period
          ≤ quota * 2 ^ bwShift % 18446744073709551616 / 2 := Nat.div_le_div_left h (by decide)
        _ < 9223372036854775808 := by omega

theorem s64_ratio (h : 2 ≤ period) :
    s64 (toRatio period quota) = encode (.some (toRatio period quota)) := if_pos (toRatio_lt h)

/-- No limit is taken for none. -/
theorem u64_encode {n : ℕ} (h : n < 9223372036854775808) :
    u64 (encode (.some n)) ≠ runtimeInf := by
  rw [encode_coe]
  unfold u64 runtimeInf
  omega

theorem u64_encode_top : u64 (encode ⊤) = runtimeInf := by decide

theorem InRange.period_pos (h : InRange period quota) : 2 ≤ period / nsecPerUsec := by
  obtain ⟨h, -, -⟩ := h
  simp only [minCfsQuotaPeriod, nsecPerMsec, nsecPerUsec] at h ⊢
  omega

/-- The value that the walk takes for a group, with the new pair for one of them. -/
def limitWith (bw : G → CfsBandwidth) (tg : G) (period quota : ℕ) (g : G) : WithTop ℕ :=
  if g = tg then limit period quota else limit (bw g).period (bw g).quota

theorem normalize_eq (hbw : Sane (bw g)) (h : InRange period quota) :
    s64 (normalizeCfsQuota bw g (schedulableData tg period quota)) =
      encode (limitWith bw tg period quota g) := by
  -- a quota of 0 is not let through, so that the difference of the units is not seen
  have hsmall : ∀ {p q : ℕ}, InRange p q → q ≠ runtimeInf → q / nsecPerUsec ≠ runtimeInf ∧
      q / nsecPerUsec ≠ u64 (-1) := by
    intro p q hpq hq
    obtain ⟨-, -, hmax⟩ := hpq
    have hle : q ≤ maxCfsRuntime := not_lt.mp fun h => hmax ⟨hq, h⟩
    simp only [maxCfsRuntime, nsecPerUsec, runtimeInf, u64] at hle ⊢
    omega
  have hself : (schedulableData tg period quota).tg = tg := by
    unfold schedulableData
    split <;> rfl
  unfold normalizeCfsQuota limitWith limit
  rw [hself]
  by_cases hg : g = tg
  · simp only [hg, if_true, schedulableData]
    by_cases hq : quota = runtimeInf
    · simp [hq, s64, runtimeInf, encode_top]
    · simp only [hq, ne_eq, not_false_eq_true, if_true, if_false]
      rw [if_neg (not_or.mpr (hsmall h hq))]
      exact s64_ratio h.period_pos
  · simp only [hg, if_false]
    have hperiod : u64 (tgGetCfsPeriod (bw g)) = (bw g).period / nsecPerUsec := by
      obtain ⟨-, hmax, -⟩ := hbw
      simp only [u64, tgGetCfsPeriod, maxCfsQuotaPeriod, nsecPerSec, nsecPerUsec] at hmax ⊢
      omega
    by_cases hq : (bw g).quota = runtimeInf
    · have hquota : tgGetCfsQuota (bw g) = -1 := if_pos hq
      rw [hquota, if_pos (Or.inr rfl), if_pos hq]
      decide
    · have hquota : u64 (tgGetCfsQuota (bw g)) = (bw g).quota / nsecPerUsec := by
        obtain ⟨-, -, hmax⟩ := hbw
        have hle : (bw g).quota ≤ maxCfsRuntime := not_lt.mp fun h => hmax ⟨hq, h⟩
        simp only [u64, tgGetCfsQuota, hq, if_false, maxCfsRuntime, nsecPerUsec] at hle ⊢
        omega
      rw [hquota, hperiod, if_neg (not_or.mpr (hsmall hbw hq)), if_neg hq]
      exact s64_ratio hbw.period_pos

/-- The limit fits in `s64`. -/
def Fits (x : WithTop ℕ) : Prop := ∀ n : ℕ, x = .some n → n < 9223372036854775808

theorem fits_limit (h : InRange period quota) : Fits (limit period quota) := by
  unfold limit
  intro n hn
  split at hn
  · cases hn
  · cases hn
    exact toRatio_lt h.period_pos

theorem fits_limitWith (hbw : Sane (bw g)) (h : InRange period quota) :
    Fits (limitWith bw tg period quota g) := by
  unfold limitWith
  split
  · exact fits_limit h
  · exact fits_limit hbw

theorem Fits.inf {x y : WithTop ℕ} (hx : Fits x) (hy : Fits y) : Fits (x ⊓ y) := by
  rcases le_total x y with h | h
  · rwa [inf_eq_left.mpr h]
  · rwa [inf_eq_right.mpr h]

theorem setHierarchicalQuota_self (bw : G → CfsBandwidth) (tg : G) (x : ℤ) :
    (setHierarchicalQuota bw tg x tg).hierarchicalQuota = x := by
  simp [setHierarchicalQuota]

theorem setHierarchicalQuota_of_ne (x : ℤ) (h : g ≠ tg) :
    setHierarchicalQuota bw tg x g = bw g := Function.update_of_ne h _ bw

/-- The periods and quotas are kept, and all of the groups outside. -/
structure Kept (f : Forest G) (bw bw' : G → CfsBandwidth) : Prop where
  period : ∀ g, (bw' g).period = (bw g).period
  quota : ∀ g, (bw' g).quota = (bw g).quota
  outside : ∀ g, g ∉ f.preorder → bw' g = bw g

theorem kept_set (bw : G → CfsBandwidth) (tg : G) (x : ℤ) :
    (∀ g, (setHierarchicalQuota bw tg x g).period = (bw g).period) ∧
      ∀ g, (setHierarchicalQuota bw tg x g).quota = (bw g).quota := by
  constructor <;> intro g <;> by_cases hg : g = tg
  · subst hg
    simp [setHierarchicalQuota]
  · rw [setHierarchicalQuota_of_ne x hg]
  · subst hg
    simp [setHierarchicalQuota]
  · rw [setHierarchicalQuota_of_ne x hg]

theorem limitWith_congr {bw' : G → CfsBandwidth} (hp : (bw' g).period = (bw g).period)
    (hq : (bw' g).quota = (bw g).quota) :
    limitWith bw' tg period quota g = limitWith bw tg period quota g := by
  unfold limitWith
  rw [hp, hq]

section

variable {L : Links G} {p a : G} {c : WithTop ℕ}

/-- On cgroup1 a group passes if it has no limit or at most the one above it. -/
theorem down_v1 (tg : G) (hparent : L.parent a = some p) (hbw : Sane (bw a)) (h : InRange period quota)
    (hc : (bw p).hierarchicalQuota = encode c) (hfits : Fits c) :
    tgCfsSchedulableDown L false (schedulableData tg period quota) a bw =
      if limitWith bw tg period quota a = ⊤ ∨ limitWith bw tg period quota a ≤ c then
        (0, setHierarchicalQuota bw a (encode (limitWith bw tg period quota a ⊓ c)))
      else (-einval, bw) := by
  have hr : Fits (limitWith bw tg period quota a) := fits_limitWith hbw h
  unfold tgCfsSchedulableDown
  simp only [hparent, Bool.false_eq_true, if_false, normalize_eq hbw h, hc]
  generalize limitWith bw tg period quota a = r at hr
  induction r using WithTop.recTopCoe with
  | top =>
    rw [if_pos u64_encode_top, if_pos (Or.inl rfl), top_inf_eq]
  | coe r =>
    rw [if_neg (u64_encode (hr r rfl))]
    induction c using WithTop.recTopCoe with
    | top =>
      rw [if_neg (fun h => h.1 u64_encode_top), if_pos (Or.inr le_top), inf_top_eq]
    | coe c =>
      have hne := u64_encode (hfits c rfl)
      by_cases hrc : r ≤ c
      · have hle : WithTop.some r ≤ WithTop.some c := WithTop.coe_le_coe.mpr hrc
        rw [if_neg (fun h => (encode_le_iff.mpr hrc).not_gt h.2), if_pos (Or.inr hle),
          inf_eq_left.mpr hle]
      · have hgt : encode (.some r) > encode (.some c) :=
          not_le.mp fun h => hrc (encode_le_iff.mp h)
        rw [if_pos ⟨hne, hgt⟩, if_neg]
        rintro (h | h)
        · cases h
        · exact hrc (WithTop.coe_le_coe.mp h)

omit [DecidableEq G] in
theorem Kept.trans {f f' f'' : Forest G} {bw' bw'' : G → CfsBandwidth} (h : Kept f bw bw')
    (h' : Kept f' bw' bw'') (hf : ∀ g ∈ f.preorder, g ∈ f''.preorder)
    (hf' : ∀ g ∈ f'.preorder, g ∈ f''.preorder) : Kept f'' bw bw'' where
  period g := (h'.period g).trans (h.period g)
  quota g := (h'.quota g).trans (h.quota g)
  outside g hg := (h'.outside g fun hmem => hg (hf' g hmem)).trans
    (h.outside g fun hmem => hg (hf g hmem))

omit [DecidableEq G] in
theorem Kept.sane {f : Forest G} {bw' : G → CfsBandwidth} (h : Kept f bw bw')
    (hbw : ∀ g, Sane (bw g)) (g : G) : Sane (bw' g) := by
  unfold Sane
  rw [h.period, h.quota]
  exact hbw g

theorem Kept.limitWith_eq {f : Forest G} {bw' : G → CfsBandwidth} (h : Kept f bw bw') :
    limitWith bw' tg period quota = limitWith bw tg period quota :=
  funext fun g => limitWith_congr (h.period g) (h.quota g)

theorem kept_setHierarchicalQuota (bw : G → CfsBandwidth) (x : ℤ) {kids rest : Forest G} :
    Kept (.node a kids rest) bw (setHierarchicalQuota bw a x) := by
  refine ⟨(kept_set bw a x).1, (kept_set bw a x).2, fun g hg => ?_⟩
  apply setHierarchicalQuota_of_ne
  rintro rfl
  exact hg List.mem_cons_self

/-- On cgroup1 the walk passes exactly if the limits are nested, and it changes
nothing but `hierarchical_quota`. -/
theorem visit_v1 (tg : G) (h : InRange period quota) : ∀ {p : G} {f : Forest G} {bw : G → CfsBandwidth}
    {c : WithTop ℕ}, L.Linked p f → f.preorder.Nodup → p ∉ f.preorder → (∀ g, Sane (bw g)) →
    (bw p).hierarchicalQuota = encode c → Fits c → ∀ r, r = f.visit
      (tgCfsSchedulableDown L false (schedulableData tg period quota)) tgNop bw →
    (r.1 = 0 ↔ f.Nested (limitWith bw tg period quota) c) ∧ (r.1 = 0 ∨ r.1 = -einval) ∧
      Kept f bw r.2
  | p, .nil, bw, c, _, _, _, _, _, _, r, hr => by
    subst hr
    exact ⟨iff_of_true rfl trivial, .inl rfl, fun _ => rfl, fun _ => rfl, fun _ _ => rfl⟩
  | p, .node a kids rest, bw, c, ⟨hparent, _, hkids, hrest⟩, hf, hp, hbw, hc, hfits, r, hr => by
    obtain ⟨hak, har, hnk, hnr, hdisj⟩ := Forest.nodup_preorder_node hf
    rw [Forest.mem_preorder_node, not_or, not_or] at hp
    obtain ⟨hpa, hpk, hpr⟩ := hp
    have hka : ∀ g ∈ kids.preorder, g ∈ (Forest.node a kids rest).preorder :=
      fun g hg => Forest.mem_preorder_node.mpr (.inr (.inl hg))
    have hra : ∀ g ∈ rest.preorder, g ∈ (Forest.node a kids rest).preorder :=
      fun g hg => Forest.mem_preorder_node.mpr (.inr (.inr hg))
    have hdown := down_v1 tg hparent (hbw a) h hc hfits
    have herr : -einval ≠ 0 := by decide
    unfold Forest.visit at hr
    unfold Forest.Nested
    by_cases hpass : limitWith bw tg period quota a = ⊤ ∨ limitWith bw tg period quota a ≤ c
    · rw [if_pos hpass] at hdown
      rw [hdown, Forest.andThen_zero rfl] at hr
      generalize hbw' : setHierarchicalQuota bw a (encode (limitWith bw tg period quota a ⊓ c)) = bw'
        at hr
      have hkept : Kept (.node a kids rest) bw bw' := hbw' ▸ kept_setHierarchicalQuota bw _
      have hfits' : Fits (limitWith bw tg period quota a ⊓ c) :=
        (fits_limitWith (hbw a) h).inf hfits
      have ha : (bw' a).hierarchicalQuota = encode (limitWith bw tg period quota a ⊓ c) :=
        hbw' ▸ setHierarchicalQuota_self bw a _
      have hbwp : bw' p = bw p := hbw' ▸ setHierarchicalQuota_of_ne _ hpa
      -- the children, with the smaller limit
      obtain ⟨hiff, herrk, hkeptk⟩ :=
        visit_v1 tg h (f := kids) hkids hnk hak (hkept.sane hbw) ha hfits' _ rfl
      rw [hkept.limitWith_eq] at hiff
      have hkept' := hkept.trans hkeptk (fun _ hg => hg) hka
      by_cases hk : (kids.visit (tgCfsSchedulableDown L false (schedulableData tg period quota))
          tgNop bw').1 = 0
      · rw [Forest.andThen_zero hk, Forest.andThen_zero (k := _) rfl] at hr
        -- the siblings, with the limit of the parent
        have hcp := (congrArg CfsBandwidth.hierarchicalQuota
          ((hkeptk.outside p hpk).trans hbwp)).trans hc
        obtain ⟨hiffr, herrr, hkeptr⟩ :=
          visit_v1 tg h (f := rest) hrest hnr hpr (hkept'.sane hbw) hcp hfits r hr
        rw [hkept'.limitWith_eq] at hiffr
        refine ⟨?_, herrr, hkept'.trans hkeptr (fun _ hg => hg) hra⟩
        rw [hiffr]
        exact ⟨fun hrest => ⟨hpass, hiff.mp hk, hrest⟩, fun hall => hall.2.2⟩
      · rw [Forest.andThen_error hk] at hr
        subst hr
        refine ⟨iff_of_false hk fun hall => hk (hiff.mpr hall.2.1), herrk, hkept'⟩
    · rw [if_neg hpass] at hdown
      rw [hdown, Forest.andThen_error herr] at hr
      subst hr
      refine ⟨iff_of_false herr fun h => hpass h.1, .inr rfl, ?_⟩
      exact ⟨fun _ => rfl, fun _ => rfl, fun _ _ => rfl⟩

/-- On cgroup2 a group passes; below `RUNTIME_INF` it gets `RUNTIME_INF`. -/
theorem down_v2 (tg : G) (hparent : L.parent a = some p) (hbw : Sane (bw a))
    (h : InRange period quota) (hp : (bw p).hierarchicalQuota = encode ⊤) :
    tgCfsSchedulableDown L true (schedulableData tg period quota) a bw =
      (0, setHierarchicalQuota bw a (encode ⊤)) := by
  have hle : encode ⊤ ≤ encode (limitWith bw tg period quota a) := by
    cases limitWith bw tg period quota a with
    | top => exact le_rfl
    | coe n =>
      show (-1 : ℤ) ≤ (n : ℤ)
      omega
  unfold tgCfsSchedulableDown
  simp only [hparent, if_true, normalize_eq hbw h, hp]
  rw [min_eq_right hle]

theorem visit_v2 (tg : G) (h : InRange period quota) : ∀ {p : G} {f : Forest G}
    {bw : G → CfsBandwidth}, L.Linked p f → f.preorder.Nodup → p ∉ f.preorder →
    (∀ g, Sane (bw g)) → (bw p).hierarchicalQuota = encode ⊤ → ∀ r, r = f.visit
      (tgCfsSchedulableDown L true (schedulableData tg period quota)) tgNop bw →
    r.1 = 0 ∧ Kept f bw r.2 ∧ ∀ g ∈ f.preorder, (r.2 g).hierarchicalQuota = encode ⊤
  | p, .nil, bw, _, _, _, _, _, r, hr => by
    subst hr
    exact ⟨rfl, ⟨fun _ => rfl, fun _ => rfl, fun _ _ => rfl⟩, fun g hg => by cases hg⟩
  | p, .node a kids rest, bw, ⟨hparent, _, hkids, hrest⟩, hf, hp, hbw, hc, r, hr => by
    obtain ⟨hak, har, hnk, hnr, hdisj⟩ := Forest.nodup_preorder_node hf
    rw [Forest.mem_preorder_node, not_or, not_or] at hp
    obtain ⟨hpa, hpk, hpr⟩ := hp
    have hka : ∀ g ∈ kids.preorder, g ∈ (Forest.node a kids rest).preorder :=
      fun g hg => Forest.mem_preorder_node.mpr (.inr (.inl hg))
    have hra : ∀ g ∈ rest.preorder, g ∈ (Forest.node a kids rest).preorder :=
      fun g hg => Forest.mem_preorder_node.mpr (.inr (.inr hg))
    unfold Forest.visit at hr
    rw [down_v2 tg hparent (hbw a) h hc, Forest.andThen_zero rfl] at hr
    generalize hbw' : setHierarchicalQuota bw a (encode ⊤) = bw' at hr
    have hkept : Kept (.node a kids rest) bw bw' := hbw' ▸ kept_setHierarchicalQuota bw _
    have ha : (bw' a).hierarchicalQuota = encode ⊤ := hbw' ▸ setHierarchicalQuota_self bw a _
    have hbwp : bw' p = bw p := hbw' ▸ setHierarchicalQuota_of_ne _ hpa
    obtain ⟨hk, hkeptk, htopk⟩ :=
      visit_v2 tg h (f := kids) hkids hnk hak (hkept.sane hbw) ha _ rfl
    have hkept' := hkept.trans hkeptk (fun _ hg => hg) hka
    rw [Forest.andThen_zero hk, Forest.andThen_zero (k := _) rfl] at hr
    have hcp := (congrArg CfsBandwidth.hierarchicalQuota
      ((hkeptk.outside p hpk).trans hbwp)).trans hc
    obtain ⟨hr0, hkeptr, htopr⟩ :=
      visit_v2 tg h (f := rest) hrest hnr hpr (hkept'.sane hbw) hcp r hr
    refine ⟨hr0, hkept'.trans hkeptr (fun _ hg => hg) hra, fun g hg => ?_⟩
    rcases Forest.mem_preorder_node.mp hg with rfl | hg | hg
    · rw [hkeptr.outside g har, hkeptk.outside g hak]
      exact ha
    · rw [hkeptr.outside g (hdisj g hg)]
      exact htopk g hg
    · exact htopr g hg

end

section

variable {f : Forest G} {L : Links G}

/-- The check of a tree, after the root. -/
theorem cfsSchedulable_eq (hs : s.links.Shape root f) (tg : G) (period quota : ℕ)
    (hfuel : 3 * f.preorder.length + 3 ≤ fuel) :
    cfsSchedulable root onDfl fuel s tg period quota =
      some (f.visit (tgCfsSchedulableDown s.links onDfl (schedulableData tg period quota)) tgNop
        (setHierarchicalQuota s.bw root (encode ⊤))) := by
  have hwalk : cfsSchedulable root onDfl fuel s tg period quota = _ :=
    walk_eq_visit hs.nodup hs.kids hs.linked hfuel s.bw
  -- the root has no limit
  have hdown : tgCfsSchedulableDown s.links onDfl (schedulableData tg period quota) root s.bw =
      (0, setHierarchicalQuota s.bw root (encode ⊤)) := by
    unfold tgCfsSchedulableDown
    rw [hs.top]
    rfl
  rw [Forest.visit, hdown, Forest.andThen_zero rfl] at hwalk
  exact hwalk.trans (congrArg some (Forest.andThen_nop _))

/-- On cgroup1 the check passes exactly if no group has a limit above that of a
group above it. -/
theorem cfsSchedulable_v1 (hs : s.links.Shape root f) (hbw : ∀ g, Sane (s.bw g))
    (h : InRange period quota) (tg : G) (hfuel : 3 * f.preorder.length + 3 ≤ fuel) :
    ∃ ret bw', cfsSchedulable root false fuel s tg period quota = some (ret, bw') ∧
      (ret = 0 ↔ ∀ a b, f.Above a b → limitWith s.bw tg period quota b = ⊤ ∨
        limitWith s.bw tg period quota b ≤ limitWith s.bw tg period quota a) ∧
      (ret = 0 ∨ ret = -einval) ∧ (∀ g, (bw' g).period = (s.bw g).period) ∧
      ∀ g, (bw' g).quota = (s.bw g).quota := by
  obtain ⟨hroot, hnodup⟩ := List.nodup_cons.mp hs.nodup
  have hwalk : cfsSchedulable root false fuel s tg period quota = _ :=
    cfsSchedulable_eq hs tg period quota hfuel
  generalize hbw' : setHierarchicalQuota s.bw root (encode ⊤) = bw at hwalk
  have hkept : Kept (.node root f .nil) s.bw bw := hbw' ▸ kept_setHierarchicalQuota s.bw _
  have hc : (bw root).hierarchicalQuota = encode ⊤ := hbw' ▸ setHierarchicalQuota_self s.bw root _
  have hfits : Fits ⊤ := by
    intro n hn
    cases hn
  obtain ⟨hiff, herr, hkeptf⟩ :=
    visit_v1 tg h hs.linked hnodup hroot (hkept.sane hbw) hc hfits _ rfl
  rw [hkept.limitWith_eq, Forest.nested_iff] at hiff
  have hiff' := hiff.trans (and_iff_right fun _ _ => Or.inr le_top)
  exact ⟨_, _, hwalk, hiff', herr, fun g => (hkeptf.period g).trans (hkept.period g),
    fun g => (hkeptf.quota g).trans (hkept.quota g)⟩

/-- On cgroup2 the check passes, and leaves no limit in `hierarchical_quota`. -/
theorem cfsSchedulable_v2 (hs : s.links.Shape root f) (hbw : ∀ g, Sane (s.bw g))
    (h : InRange period quota) (tg : G) (hfuel : 3 * f.preorder.length + 3 ≤ fuel) :
    ∃ bw', cfsSchedulable root true fuel s tg period quota = some (0, bw') ∧
      (∀ g ∈ root :: f.preorder, (bw' g).hierarchicalQuota = encode ⊤) ∧
      (∀ g, (bw' g).period = (s.bw g).period) ∧ ∀ g, (bw' g).quota = (s.bw g).quota := by
  obtain ⟨hroot, hnodup⟩ := List.nodup_cons.mp hs.nodup
  have hwalk : cfsSchedulable root true fuel s tg period quota = _ :=
    cfsSchedulable_eq hs tg period quota hfuel
  generalize hbw' : setHierarchicalQuota s.bw root (encode ⊤) = bw at hwalk
  have hkept : Kept (.node root f .nil) s.bw bw := hbw' ▸ kept_setHierarchicalQuota s.bw _
  have hc : (bw root).hierarchicalQuota = encode ⊤ := hbw' ▸ setHierarchicalQuota_self s.bw root _
  obtain ⟨hzero, hkeptf, htop⟩ := visit_v2 tg h hs.linked hnodup hroot (hkept.sane hbw) hc _ rfl
  refine ⟨_, hwalk.trans (congrArg some (Prod.ext hzero rfl)), fun g hg => ?_,
    fun g => (hkeptf.period g).trans (hkept.period g),
    fun g => (hkeptf.quota g).trans (hkept.quota g)⟩
  rcases List.mem_cons.mp hg with rfl | hg
  · exact (congrArg CfsBandwidth.hierarchicalQuota (hkeptf.outside _ hroot)).trans hc
  · exact htop g hg

end

end Bandwidth
end Sched
end LinuxProg
