/-
# Merging the options of myls

The merging loop of `main` is guarded by `!strstr(argv[1],tmp1)` right after
`tmp1` was copied from `argv[1]`, so nothing is merged (`mergeOption_eq`) and
the letters of the later options are dropped. The places in `option` are not
adjusted when `argv` is shifted, so from three options on a path is taken out
in place of an option (`exists_dash_dels`). `normalise_iff` says exactly when
the outcome is right nevertheless.
-/
import Mathlib
import LinuxProg.Myls.Args

namespace LinuxProg
namespace Myls

open Exchange

variable {prog o : Str} {args rest l : List Str} {option : List ℕ} {q : ℕ}

/-! ### Taking the options out -/

theorem deleteAt_eq (k : ℕ) (argv : List Str) : deleteAt k argv = del k argv :=
  shift_eq_del [] k argv

/-- The list behind `argv[1]` after deletions at the places noted. -/
def dels (option : List ℕ) (is : List ℕ) (l : List Str) : List Str :=
  is.foldl (fun l i => del (option.getD i 0 - 2) l) l

theorem length_dels (option : List ℕ) : ∀ (is : List ℕ) {l : List Str}, is.length ≤ l.length →
    (dels option is l).length + is.length = l.length
  | [], _, _ => rfl
  | i :: is, l, h => by
    rw [List.length_cons] at h
    have hl : l ≠ [] := List.ne_nil_of_length_pos (by omega)
    have hd := length_del (option.getD i 0 - 2) hl
    have ih := length_dels option is (l := del (option.getD i 0 - 2) l) (by omega)
    rw [List.length_cons]
    change (dels option is (del (option.getD i 0 - 2) l)).length + _ = _
    omega

theorem dels_sublist : ∀ (is : List ℕ) (l : List Str), List.Sublist (dels option is l) l
  | [], l => List.Sublist.refl l
  | _ :: is, _ => (dels_sublist is _).trans (del_sublist _ _)

theorem countP_dels (option : List ℕ) : ∀ (is : List ℕ) (l : List Str),
    l.countP dash ≤ (dels option is l).countP dash + is.length
  | [], _ => le_rfl
  | i :: is, l => by
    have h1 := countP_del dash (option.getD i 0 - 2) l
    have h2 := countP_dels option is (del (option.getD i 0 - 2) l)
    rw [List.length_cons]
    change _ ≤ (dels option is (del (option.getD i 0 - 2) l)).countP dash + _
    omega

/-- A turn of the merging loop merges nothing. -/
theorem mergeOption_eq {l : List Str} (ho : o.length < 1024) (hl : l ≠ []) {i : ℕ}
    (hi : 2 ≤ option.getD i 0) : mergeOption option (prog :: o :: l) i =
      some (prog :: o :: del (option.getD i 0 - 2) l) := by
  have hcopy : strcpy1024 o = some o := if_pos ho
  obtain ⟨k, hk⟩ : ∃ k, option.getD i 0 = k + 2 := ⟨option.getD i 0 - 2, by omega⟩
  have hdel : deleteAt (k + 2) (prog :: o :: l) = prog :: o :: del k l := by
    rw [deleteAt_eq, del_succ_cons (k + 1) prog (List.cons_ne_nil o l), del_succ_cons k o hl]
  simp only [mergeOption, List.getElem?_cons_succ, List.getElem?_cons_zero, Option.bind_eq_bind,
    Option.bind_some, hcopy, strstr_self, if_true, hk, hdel, Nat.add_sub_cancel]

theorem mergeOption_none {l : List Str} (ho : 1024 ≤ o.length) (i : ℕ) :
    mergeOption option (prog :: o :: l) i = none := by
  have hcopy : strcpy1024 o = none := if_neg (Nat.not_lt.mpr ho)
  simp [mergeOption, hcopy]

theorem mergeOptions_fold (ho : o.length < 1024) : ∀ {is : List ℕ} {l : List Str},
    is.length ≤ l.length → (∀ i ∈ is, 2 ≤ option.getD i 0) →
    is.foldlM (mergeOption option) (prog :: o :: l) = some (prog :: o :: dels option is l)
  | [], _, _, _ => rfl
  | i :: is, l, hlen, h => by
    rw [List.length_cons] at hlen
    have hl : l ≠ [] := List.ne_nil_of_length_pos (by omega)
    have hd := length_del (option.getD i 0 - 2) hl
    rw [List.foldlM_cons, mergeOption_eq ho hl (h i List.mem_cons_self)]
    exact mergeOptions_fold ho (by omega) fun j hj => h j (List.mem_cons_of_mem i hj)

/-! ### What is left -/

theorem Partitioned.head {x : Str} {l : List Str} (h : Partitioned (x :: l))
    (hc : 0 < (x :: l).countP dash) : dash x = true := by
  obtain ⟨y, hy, hd⟩ := List.countP_pos_iff.mp hc
  rcases List.mem_cons.mp hy with rfl | hy
  · exact hd
  · exact (List.pairwise_cons.mp h).1 y hy hd

/-- A list with one option, in front, is that option and paths. -/
theorem Partitioned.cons_of_one {l : List Str} (h : Partitioned l) (hc : l.countP dash = 1) :
    ∃ x ps, l = x :: ps ∧ dash x = true ∧ ∀ y ∈ ps, dash y = false := by
  cases l with
  | nil => simp at hc
  | cons x ps =>
    have hx := h.head (by omega)
    refine ⟨x, ps, rfl, hx, fun y hy => ?_⟩
    rw [List.countP_cons, if_pos hx] at hc
    have h0 : ps.countP dash = 0 := by omega
    simpa using List.countP_eq_zero.mp h0 y hy

/-- From three options on the last deletion does not take out the option in
front. -/
theorem exists_dash_dels {l : List Str} (hq : 3 ≤ q) (hc : l.countP dash + 1 = q)
    (hlen : q ≤ l.length) (hpart : Partitioned l) (hlast : q ≤ option.getD (q - 1) 0) :
    ∃ x ∈ dels option (List.range' 1 (q - 1)) l, dash x = true := by
  have hsplit : List.range' 1 (q - 1) = List.range' 1 (q - 2) ++ [q - 1] := by
    rw [show q - 1 = (q - 2) + 1 by omega, List.range'_1_concat, Nat.add_comm 1]
  set l1 := dels option (List.range' 1 (q - 2)) l with hl1
  have hlen1 : l1.length + (q - 2) = l.length := by
    have := length_dels option (List.range' 1 (q - 2)) (l := l) (by rw [List.length_range']; omega)
    rwa [List.length_range'] at this
  have hc1 : 0 < l1.countP dash := by
    have := countP_dels option (List.range' 1 (q - 2)) l
    rw [List.length_range', ← hl1] at this
    omega
  have hpart1 : Partitioned l1 := hpart.sublist (dels_sublist _ _)
  have hdels : dels option (List.range' 1 (q - 1)) l = del (option.getD (q - 1) 0 - 2) l1 := by
    rw [hsplit, dels, List.foldl_append]
    rfl
  obtain ⟨k, hk⟩ : ∃ k, option.getD (q - 1) 0 - 2 = k + 1 := ⟨option.getD (q - 1) 0 - 3, by omega⟩
  cases hl : l1 with
  | nil => rw [hl] at hc1; simp at hc1
  | cons x l2 =>
    rw [hl] at hc1 hpart1 hlen1
    have hl2 : l2 ≠ [] := List.ne_nil_of_length_pos (by rw [List.length_cons] at hlen1; omega)
    rw [hdels, hl, hk, del_succ_cons k x hl2]
    exact ⟨x, List.mem_cons_self, hpart1.head hc1⟩

/-- The state when the options are in front. -/
structure Gathered (prog o : Str) (args : List Str) (q : ℕ) (option : List ℕ) (l : List Str) :
    Prop where
  eq : normalise (prog :: args) = (mergeOptions option q (prog :: o :: l)).map (exchangeSort 2)
  perm : (o :: l).Perm args
  part : Partitioned l
  lower : ∀ t, 1 ≤ t → t < q → t + 1 ≤ option.getD t 0
  second : q = 2 → option.getD 1 0 = 2

theorem exists_gathered {u v : List Str} (hprog : dash prog = false)
    (hu : ∀ x ∈ u, dash x = false) (ho : dash o = true)
    (hq : (u ++ o :: v).countP dash = q) (hq' : q ≤ 1024) :
    ∃ option l, Gathered prog o (u ++ o :: v) q option l := by
  have hlen : (places (prog :: (u ++ o :: v))).length = q := by
    rw [length_places, List.countP_cons_of_neg (by simp [hprog]), hq]
  obtain ⟨option, hoption⟩ : ∃ option, option =
    places (prog :: (u ++ o :: v)) ++ List.replicate (1024 - q) 0 := ⟨_, rfl⟩
  have hgather : gather (prog :: (u ++ o :: v)) = some (option, q) := by
    rw [gather_eq, if_pos (by omega), hlen, hoption]
  have hfirst : option.getD 0 0 = 1 + u.length := by
    have := places_head hprog hu ho (v := v)
    rw [hoption, List.getD_eq_getElem?_getD, ← List.head?_eq_getElem?, List.head?_append, this]
    rfl
  obtain ⟨rest, hswap, hrest⟩ := swap_first prog u v o
  have hcount : rest.countP dash + 1 = q := by
    rw [← hq, ← hrest.countP_eq, List.countP_cons_of_pos ho]
  have hlow : ∀ t, 1 ≤ t → t < q → t + 1 ≤ option.getD t 0 := fun t _ ht => by
    rw [hoption]
    exact places_lower hprog (by omega)
  obtain ⟨s, l, hs, hsargv, hperm, hpart, hlower, hcase⟩ :=
    pull_spec prog o hcount hq' (by rw [hoption]; simp; omega) hlow
  refine ⟨s.option, l, ?_, (hperm.cons o).trans hrest, hpart, hlower, fun hq2 => ?_⟩
  · have hmap : ∀ x : Option (List Str), x.bind (fun argv => some (exchangeSort 2 argv)) =
        x.map (exchangeSort 2) := fun x => by cases x <;> rfl
    rw [normalise, hgather]
    simp only [Option.bind_eq_bind, Option.bind_some, hfirst, hswap, hs, hsargv, hmap]
  · refine Nat.le_antisymm ?_ (hlower 1 le_rfl (by omega))
    rcases hcase with ⟨rfl, hopt⟩ | hle
    · -- the second option was in front already
      obtain ⟨k, y, hk, hy, hd⟩ := second_place hprog hu ho hswap (by omega)
      obtain ⟨x, ps, hl, -, hps⟩ := hpart.cons_of_one (by omega)
      rw [hopt, hoption, getD_places (by omega), hk]
      cases k with
      | zero => exact le_rfl
      | succ k =>
        rw [hl, List.getElem?_cons_succ] at hy
        rw [hps y (List.mem_of_getElem? hy)] at hd
        cases hd
    · omega

theorem Gathered.count (h : Gathered prog o args q option l) (hq : args.countP dash = q)
    (ho : dash o = true) : l.countP dash + 1 = q := by
  rw [← hq, ← h.perm.countP_eq, List.countP_cons_of_pos ho]

/-- More options than `option` has room for. -/
theorem normalise_many (hprog : dash prog = false) (hmany : 1024 < args.countP dash) :
    normalise (prog :: args) = none := by
  have hlen : (places (prog :: args)).length = args.countP dash := by
    rw [length_places, List.countP_cons_of_neg (by simp [hprog])]
  rw [normalise, gather_eq, if_neg (by omega)]
  rfl

/-- Nothing is merged; cells are taken out and the rest is sorted. -/
theorem Gathered.normalise_eq (h : Gathered prog o args q option l) (hq : args.countP dash = q)
    (ho : dash o = true) (hbound : q = 1 ∨ o.length < 1024) :
    ∃ rest, normalise (prog :: args) = some (prog :: o :: rest) ∧
      rest.Perm (dels option (List.range' 1 (q - 1)) l) ∧ rest.Pairwise (· ≤ ·) := by
  have hcount := h.count hq ho
  have hmerge : mergeOptions option q (prog :: o :: l) =
      some (prog :: o :: dels option (List.range' 1 (q - 1)) l) := by
    rcases hbound with rfl | hlt
    · rfl
    · refine mergeOptions_fold hlt ?_ fun i hi => ?_
      · rw [List.length_range']
        have := List.countP_le_length (p := dash) (l := l)
        omega
      · obtain ⟨h1, h2⟩ := List.mem_range'_1.mp hi
        have := h.lower i h1 (by omega)
        omega
  obtain ⟨rest, hrest, hperm, hsorted⟩ :=
    exchangeSort_spec [prog, o] (dels option (List.range' 1 (q - 1)) l)
  refine ⟨rest, ?_, hperm, hsorted⟩
  rw [h.eq, hmerge, Option.map_some]
  exact congrArg some hrest

/-- A long first option overruns `tmp1`. -/
theorem Gathered.normalise_none (h : Gathered prog o args q option l) (hq : 2 ≤ q)
    (hlong : 1024 ≤ o.length) : normalise (prog :: args) = none := by
  obtain ⟨m, rfl⟩ : ∃ m, q = m + 2 := ⟨q - 2, by omega⟩
  rw [h.eq, mergeOptions, show m + 2 - 1 = m + 1 by omega, List.range'_succ, List.foldlM_cons,
    mergeOption_none hlong]
  rfl

/-- One option: nothing is deleted. Two: the one behind the first goes. -/
theorem Gathered.dels_eq (h : Gathered prog o args q option l) (hcount : l.countP dash + 1 = q)
    (hq : q ≤ 2) : dels option (List.range' 1 (q - 1)) l = l.filter (! dash ·) := by
  obtain rfl | rfl : q = 1 ∨ q = 2 := by omega
  · have hall : ∀ y ∈ l, (! dash y) = true := fun y hy => by
      simpa using List.countP_eq_zero.mp (by omega : l.countP dash = 0) y hy
    rw [List.filter_eq_self.mpr hall]
    rfl
  · obtain ⟨x, ps, rfl, hx, hps⟩ := h.part.cons_of_one (by omega)
    have hall : ∀ y ∈ ps, (! dash y) = true := fun y hy => by rw [hps y hy]; rfl
    rw [List.filter_cons_of_neg (by simp [hx]), List.filter_eq_self.mpr hall]
    change del (option.getD 1 0 - 2) (x :: ps) = ps
    rw [h.second rfl, del, if_pos (by simp)]
    rfl

/-- **What the deletions leave**: the paths, if there are at most two options or
no path. -/
theorem Gathered.dels_perm_iff (h : Gathered prog o args q option l) (hq : args.countP dash = q)
    (ho : dash o = true) :
    (dels option (List.range' 1 (q - 1)) l).Perm (args.filter (! dash ·)) ↔
      q ≤ 2 ∨ args.filter (! dash ·) = [] := by
  have hcount := h.count hq ho
  have hpaths : (args.filter (! dash ·)).Perm (l.filter (! dash ·)) := by
    have := (h.perm.filter (! dash ·)).symm
    rwa [List.filter_cons_of_neg (by simp [ho])] at this
  have hlen : (args.filter (! dash ·)).length + l.countP dash = l.length := by
    rw [hpaths.length_eq, ← List.countP_eq_length_filter, Nat.add_comm,
      List.length_eq_countP_add_countP dash]
    simp only [Bool.not_eq_true, Bool.decide_eq_false]
  constructor
  · intro hperm
    by_contra hnot
    rw [not_or, Nat.not_le, ← Ne, ← List.length_pos_iff] at hnot
    obtain ⟨hq3, hpos⟩ := hnot
    have hlast := h.lower (q - 1) (by omega) (by omega)
    obtain ⟨x, hx, hd⟩ := exists_dash_dels hq3 hcount (by omega) h.part
      (show q ≤ option.getD (q - 1) 0 by omega)
    have := (List.mem_filter.mp (hperm.mem_iff.mp hx)).2
    rw [hd] at this
    cases this
  · intro hcase
    rcases hcase with hq2 | hnil
    · rw [h.dels_eq hcount hq2]
      exact hpaths.symm
    · rw [hnil, List.length_nil] at hlen
      have := length_dels option (List.range' 1 (q - 1)) (l := l)
        (by rw [List.length_range']; omega)
      rw [List.length_range'] at this
      rw [hnil, List.perm_nil, ← List.length_eq_zero_iff]
      omega

/-! ### When the arguments come out right -/

/-- An option argument starts with `-`. -/
def isOption (s : Str) : Bool := s.head? == some '-'

def optionArgs (args : List Str) : List Str := args.filter isOption

def pathArgs (args : List Str) : List Str := args.filter (! isOption ·)

/-- What the branch is for: `argv[1]` has the letters of all options, and the
sorted paths are behind it. The order on strings is that of `strcmp`. -/
def Normalised (prog : Str) (args : List Str) : Prop :=
  ∃ opts paths, normalise (prog :: args) = some (prog :: opts :: paths) ∧
    (∀ o ∈ optionArgs args, ∀ c ∈ o.tail, c ∈ opts) ∧
    paths.Perm (pathArgs args) ∧ paths.Pairwise (· ≤ ·)

theorem dash_eq_isOption {a : Str} (h : isOption a = true ∨ '-' ∉ a) : dash a = isOption a := by
  rcases h with h | h
  · obtain ⟨t, rfl⟩ := List.head?_eq_some_iff.mp (beq_iff_eq.mp h)
    rw [h, dash_iff]
    exact List.mem_cons_self
  · have hopt : isOption a = false := by
      rw [isOption, beq_eq_false_iff_ne]
      exact fun hh => h (List.mem_of_head? hh)
    rw [hopt, ← Bool.not_eq_true, dash_iff]
    exact h

theorem optionArgs_eq (h : ∀ a ∈ args, isOption a = true ∨ '-' ∉ a) :
    optionArgs args = args.filter dash :=
  List.filter_congr fun a ha => (dash_eq_isOption (h a ha)).symm

theorem pathArgs_eq (h : ∀ a ∈ args, isOption a = true ∨ '-' ∉ a) :
    pathArgs args = args.filter (! dash ·) :=
  List.filter_congr fun a ha => by rw [dash_eq_isOption (h a ha)]

theorem not_normalised (h : normalise (prog :: args) = none) : ¬ Normalised prog args := by
  rintro ⟨opts, paths, hn, -⟩
  rw [h] at hn
  cases hn

/-- **The arguments of `myls`** come out right exactly when the first option
has all the letters, there are at most two options or no path, and no buffer is
overrun. -/
theorem normalise_iff (hprog : '-' ∉ prog) (hargs : ∀ a ∈ args, isOption a = true ∨ '-' ∉ a)
    (ho : (optionArgs args).head? = some o) :
    Normalised prog args ↔
      (∀ p ∈ optionArgs args, ∀ c ∈ p.tail, c ∈ o) ∧
      ((optionArgs args).length ≤ 2 ∨ pathArgs args = []) ∧
      (optionArgs args).length ≤ 1024 ∧ ((optionArgs args).length = 1 ∨ o.length < 1024) := by
  have hprog : dash prog = false := by
    rw [← Bool.not_eq_true, dash_iff]
    exact hprog
  have hfirst := ho
  rw [optionArgs_eq hargs, List.head?_filter, List.find?_eq_some_iff_append] at hfirst
  obtain ⟨hdash, u, v, hsplit, hu⟩ := hfirst
  have hu : ∀ x ∈ u, dash x = false := fun x hx => by simpa using hu x hx
  obtain ⟨q, hq⟩ : ∃ q, args.countP dash = q := ⟨_, rfl⟩
  have hlen : (optionArgs args).length = q := by
    rw [optionArgs_eq hargs, ← List.countP_eq_length_filter, hq]
  rw [hlen]
  rcases Nat.lt_or_ge 1024 q with hmany | hq'
  · refine iff_of_false (not_normalised (normalise_many hprog ?_)) fun h => by omega
    rw [hq]
    exact hmany
  · obtain ⟨option, l, hg⟩ : ∃ option l, Gathered prog o args q option l := by
      rw [hsplit] at hq ⊢
      exact exists_gathered hprog hu hdash hq hq'
    by_cases hbound : q = 1 ∨ o.length < 1024
    · obtain ⟨rest, heq, hperm, hsorted⟩ := hg.normalise_eq hq hdash hbound
      have hdels := hg.dels_perm_iff hq hdash
      rw [← pathArgs_eq hargs] at hdels
      constructor
      · rintro ⟨opts, paths, hn, hletters, hpaths, -⟩
        rw [heq] at hn
        cases hn
        exact ⟨hletters, hdels.mp (hperm.symm.trans hpaths), hq', hbound⟩
      · rintro ⟨hletters, hcase, -⟩
        exact ⟨o, rest, heq, hletters, hperm.trans (hdels.mpr hcase), hsorted⟩
    · have hpos : 0 < q := by
        rw [← hq, List.countP_pos_iff]
        exact ⟨o, hsplit ▸ List.mem_append_right u List.mem_cons_self, hdash⟩
      refine iff_of_false (not_normalised (hg.normalise_none ?_ ?_)) fun h => hbound h.2.2.2
      · omega
      · omega

/-- `myls d -lt b -l`: the letters of the second option are in the first. -/
theorem normalise_iff_two :
    Normalised ['m', 'y', 'l', 's'] [['d'], ['-', 'l', 't'], ['b'], ['-', 'l']] :=
  (normalise_iff (o := ['-', 'l', 't']) (by decide) (by decide) (by decide)).mpr
    ⟨by simp [optionArgs, isOption], Or.inl (by decide), Nat.le_of_ble_eq_true rfl,
      Or.inr (by decide)⟩

/-- `myls -l -t d`: the `t` is lost. -/
theorem letter_lost : ¬ Normalised ['m', 'y', 'l', 's'] [['-', 'l'], ['-', 't'], ['d']] := by
  obtain ⟨option, l, hg⟩ : ∃ option l, Gathered ['m', 'y', 'l', 's'] ['-', 'l']
      ([] ++ ['-', 'l'] :: [['-', 't'], ['d']]) 2 option l :=
    exists_gathered (by decide) (by simp) (by decide) (by decide) (by omega)
  obtain ⟨rest, hn, -⟩ := hg.normalise_eq (by decide) (by decide) (Or.inr (by decide))
  rintro ⟨opts, paths, heq, hletters, -⟩
  rw [List.nil_append] at hn
  rw [hn] at heq
  cases heq
  exact absurd (hletters ['-', 't'] (by decide) 't' (by decide)) (by decide)

end Myls
end LinuxProg
