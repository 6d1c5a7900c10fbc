/-
# The arguments of myls

`main` of `myls.c`, when an argument has a `-`: it notes the places of the
options (`gather`), brings the first one to `argv[1]` and the others behind it
(`pull`), is to merge them into `argv[1]` and takes them out of `argv` one by
one (`mergeOptions`), and sorts the paths. A string is the list of its bytes
without the NUL; `argv` is the list of the first `argc` pointers. A store past
`option[1024]` or `tmp1[1024]` is `none`.

The first two loops do what they are for: `option` has the places of the
options in order (`gather_eq`), and the options come to stand before the paths
(`pull_spec`). The places written into `option` on the way are at least those
the options have then, which is all the merging loop needs to stay clear of
`argv[1]`.
-/
import Mathlib
import LinuxProg.Lib.Buffers
import LinuxProg.Lib.Exchange

namespace LinuxProg
namespace Myls

open Buffers Exchange

/-- A C string. -/
abbrev Str := List Char

/-- `strstr(hay,needle)` is not `NULL`. -/
def strstr (hay needle : Str) : Bool := decide (needle <:+: hay)

/-- `strstr(s,"-")`. -/
def dash (s : Str) : Bool := strstr s ['-']

/-- `strcpy(tmp1,s)` into `char tmp1[1024]`. -/
def strcpy1024 (s : Str) : Option Str := if s.length < 1024 then some s else none

/-- The loop that stores the places of the options; `option_index` is how many. -/
def gather (argv : List Str) : Option (List ℕ × ℕ) :=
  (List.range argv.length).foldlM (fun (s : List ℕ × ℕ) i =>
    if dash (argv.getD i []) then (setAt s.1 s.2 i).map (·, s.2 + 1) else some s)
    (List.replicate 1024 0, 0)

structure Pull where
  argv : List Str
  option : List ℕ
  tmpIndex : ℕ

/-- The body of the loops that bring the options to the front. -/
def pullAt (i : ℕ) (s : Pull) (j : ℕ) : Option Pull :=
  if dash (s.argv.getD i []) = false ∧ dash (s.argv.getD j []) = true then
    (setAt s.option s.tmpIndex i).map fun option => ⟨swap s.argv i j, option, s.tmpIndex + 1⟩
  else some s

def pullInner (s : Pull) (i : ℕ) : Option Pull :=
  (List.range' i (s.argv.length - i)).foldlM (pullAt i) s

def pull (argv : List Str) (option : List ℕ) : Option Pull :=
  (List.range' 2 (argv.length - 2)).foldlM pullInner ⟨argv, option, 1⟩

/-- `argc--; for(j=k;j<argc;j++) argv[j] = argv[j+1];` -/
def deleteAt (k : ℕ) (argv : List Str) : List Str :=
  ((List.range' k (argv.length - 1 - k)).foldl (fun a j => a.set j (a.getD (j + 1) [])) argv).dropLast

/-- One turn of the merging loop. -/
def mergeOption (option : List ℕ) (argv : List Str) (i : ℕ) : Option (List Str) := do
  let argv1 ← argv[1]?
  let tmp1 ← strcpy1024 argv1
  let argv ← if strstr argv1 tmp1 then some argv
    else do
      let o ← argv[option.getD i 0]?
      let tmp1 ← strcpy1024 (tmp1 ++ o.drop 1)
      some (argv.set 1 tmp1)
  some (deleteAt (option.getD i 0) argv)

def mergeOptions (option : List ℕ) (optionIndex : ℕ) (argv : List Str) : Option (List Str) :=
  (List.range' 1 (optionIndex - 1)).foldlM (mergeOption option) argv

/-- The branch of `main` for arguments with options, up to the listing. -/
def normalise (argv : List Str) : Option (List Str) := do
  let (option, optionIndex) ← gather argv
  let s ← pull (swap argv 1 (option.getD 0 0)) option
  let argv ← mergeOptions s.option optionIndex s.argv
  some (exchangeSort 2 argv)

/-! ### Options and paths -/

theorem dash_iff {s : Str} : dash s = true ↔ '-' ∈ s := by
  rw [dash, strstr, decide_eq_true_eq, List.singleton_infix_iff]

theorem strstr_self (s : Str) : strstr s s = true := decide_eq_true List.infix_rfl

/-! ### Gathering -/

/-- The gathering loop over any places. -/
theorem gather_fold (p : ℕ → Bool) : ∀ (is found : List ℕ), found.length ≤ 1024 →
    is.foldlM (fun (s : List ℕ × ℕ) i =>
      if p i then (setAt s.1 s.2 i).map (·, s.2 + 1) else some s)
      (found ++ List.replicate (1024 - found.length) 0, found.length) =
    if (found ++ is.filter p).length ≤ 1024 then
      some (found ++ is.filter p ++ List.replicate (1024 - (found ++ is.filter p).length) 0,
        (found ++ is.filter p).length)
    else none
  | [], found, h => by simp [h]
  | i :: is, found, h => by
    rw [List.foldlM_cons]
    by_cases hp : p i = true
    · rw [if_pos hp, List.filter_cons_of_pos hp]
      rcases Nat.lt_or_ge found.length 1024 with hlt | hge
      · obtain ⟨m, hm⟩ : ∃ m, 1024 - found.length = m + 1 := ⟨1023 - found.length, by omega⟩
        have hset : (found ++ List.replicate (1024 - found.length) 0).set found.length i =
            (found ++ [i]) ++ List.replicate (1024 - (found ++ [i]).length) 0 := by
          rw [List.set_append_right _ _ le_rfl, Nat.sub_self, hm, List.replicate_succ,
            List.set_cons_zero, List.append_assoc, List.singleton_append, List.length_append,
            List.length_singleton, show 1024 - (found.length + 1) = m by omega]
        have ih := gather_fold p is (found ++ [i]) (by simp; omega)
        rw [setAt, if_pos (by simp; omega), hset]
        simp only [Option.map_some, Option.bind_eq_bind, Option.bind_some]
        rw [List.length_append, List.length_singleton] at ih
        rw [List.append_assoc, List.singleton_append] at ih
        rw [List.append_assoc, List.singleton_append, List.length_append, List.length_singleton]
        simpa using ih
      · rw [setAt, if_neg (by simp; omega), if_neg (by simp; omega)]
        rfl
    · rw [if_neg hp, List.filter_cons_of_neg hp]
      exact gather_fold p is found h

/-- The places of the options. -/
def places (argv : List Str) : List ℕ :=
  (List.range argv.length).filter fun i => dash (argv.getD i [])

theorem gather_eq (argv : List Str) :
    gather argv = if (places argv).length ≤ 1024 then
      some (places argv ++ List.replicate (1024 - (places argv).length) 0, (places argv).length)
    else none :=
  gather_fold _ (List.range argv.length) [] (Nat.zero_le _)

theorem length_places (argv : List Str) : (places argv).length = argv.countP dash := by
  have hmap : (List.range argv.length).map (fun i => argv.getD i []) = argv := by
    apply List.ext_getElem
    · simp
    · intro i h1 h2
      rw [List.getElem_map, List.getElem_range, List.getD_eq_getElem _ _ h2]
  rw [places, ← List.countP_eq_length_filter]
  conv_rhs => rw [← hmap, List.countP_map]
  rfl

theorem mem_places {argv : List Str} {i : ℕ} :
    i ∈ places argv ↔ i < argv.length ∧ dash (argv.getD i []) = true := by
  rw [places, List.mem_filter, List.mem_range]

/-- The places increase. -/
theorem places_lt (argv : List Str) : (places argv).Pairwise (· < ·) :=
  List.Pairwise.filter _ List.pairwise_lt_range

/-- Entries of an increasing list without `0`. -/
theorem succ_le_getElem {l : List ℕ} (hl : l.Pairwise (· < ·)) (h1 : ∀ x ∈ l, 1 ≤ x) :
    ∀ (t : ℕ) (h : t < l.length), t + 1 ≤ l[t]
  | 0, h => h1 _ (List.getElem_mem h)
  | t + 1, h => by
    have ih := succ_le_getElem hl h1 t (by omega)
    have := List.pairwise_iff_getElem.mp hl t (t + 1) (by omega) h (by omega)
    omega

variable {prog : Str} {args : List Str}

theorem places_pos (hprog : dash prog = false) : ∀ x ∈ places (prog :: args), 1 ≤ x := by
  intro x hx
  rcases Nat.eq_zero_or_pos x with rfl | hpos
  · rw [mem_places] at hx
    simp [hprog] at hx
  · exact hpos

/-- The first option, at `option[0]`. -/
theorem places_head {u v : List Str} {o : Str} (hprog : dash prog = false)
    (hu : ∀ x ∈ u, dash x = false) (ho : dash o = true) :
    (places (prog :: (u ++ o :: v))).head? = some (1 + u.length) := by
  rw [places, List.head?_filter, List.find?_range_eq_some]
  refine ⟨?_, by simp; omega, fun j hj => ?_⟩
  · rw [Nat.add_comm, List.getD_cons_succ]
    simpa using ho
  · cases j with
    | zero => simp [hprog]
    | succ j =>
      have hj : j < u.length := by omega
      rw [List.getD_cons_succ, List.getD_append _ _ _ _ hj, List.getD_eq_getElem _ _ hj,
        hu _ (List.getElem_mem hj)]
      rfl

/-- It is brought to `argv[1]`. -/
theorem swap_first (prog : Str) (u v : List Str) (o : Str) :
    ∃ rest, swap (prog :: (u ++ o :: v)) 1 (1 + u.length) = prog :: o :: rest ∧
      (o :: rest).Perm (u ++ o :: v) := by
  cases u with
  | nil => exact ⟨v, swap_self _ 1, List.Perm.refl _⟩
  | cons x u =>
    exact ⟨u ++ x :: v, swap_split [prog] u v x o, perm_exchange u v o x⟩

/-- The places as an array cell. -/
theorem getD_places {argv : List Str} {n t : ℕ} (ht : t < (places argv).length) :
    (places argv ++ List.replicate n 0).getD t 0 = (places argv)[t] := by
  rw [List.getD_append _ _ _ _ ht, List.getD_eq_getElem _ _ ht]

theorem places_lower (hprog : dash prog = false) {n t : ℕ}
    (ht : t < (places (prog :: args)).length) :
    t + 1 ≤ (places (prog :: args) ++ List.replicate n 0).getD t 0 := by
  rw [getD_places ht]
  exact succ_le_getElem (places_lt _) (places_pos hprog) t ht

/-- Of two options the second is behind the first and stays where it is when
the first is brought to `argv[1]`. -/
theorem second_place {u v rest : List Str} {o : Str} (hprog : dash prog = false)
    (hu : ∀ x ∈ u, dash x = false) (ho : dash o = true)
    (hswap : swap (prog :: (u ++ o :: v)) 1 (1 + u.length) = prog :: o :: rest)
    (ht : 1 < (places (prog :: (u ++ o :: v))).length) :
    ∃ k y, (places (prog :: (u ++ o :: v)))[1] = k + 2 ∧ rest[k]? = some y ∧ dash y = true := by
  have hhead := places_head hprog hu ho (v := v)
  have hpair := places_lt (prog :: (u ++ o :: v))
  have hmem : (places (prog :: (u ++ o :: v)))[1] ∈ places (prog :: (u ++ o :: v)) :=
    List.getElem_mem ht
  have hlt := List.pairwise_iff_getElem.mp hpair 0 1 (by omega) ht (by omega)
  rw [List.head?_eq_getElem?, List.getElem?_eq_getElem (by omega)] at hhead
  rw [Option.some.inj hhead] at hlt
  generalize (places (prog :: (u ++ o :: v)))[1] = p at hlt hmem
  obtain ⟨hp, hd⟩ := mem_places.mp hmem
  obtain ⟨k, rfl⟩ : ∃ k, p = k + 2 := ⟨p - 2, by omega⟩
  have hcell := swap_getElem?_of_ne (prog :: (u ++ o :: v)) (i := 1) (j := 1 + u.length)
    (k := k + 2) (by omega) (by omega)
  rw [hswap, List.getElem?_cons_succ, List.getElem?_cons_succ, List.getElem?_eq_getElem hp] at hcell
  rw [List.getD_eq_getElem _ _ hp] at hd
  exact ⟨k, _, rfl, hcell, hd⟩

/-! ### Bringing the options to the front -/

/-- Options before paths. -/
def Partitioned (l : List Str) : Prop := l.Pairwise fun x y => dash y = true → dash x = true

variable {s : Pull} {i : ℕ}

/-- Nothing is exchanged with an option, -/
theorem pullAt_of_dash (h : dash (s.argv.getD i []) = true) : ∀ js : List ℕ,
    js.foldlM (pullAt i) s = some s
  | [] => rfl
  | j :: js => by
    rw [List.foldlM_cons, pullAt, if_neg fun hc => by rw [h] at hc; cases hc.1]
    exact pullAt_of_dash h js

/-- nor for a path. -/
theorem pullAt_of_not_dash : ∀ js : List ℕ, (∀ j ∈ js, dash (s.argv.getD j []) = false) →
    js.foldlM (pullAt i) s = some s
  | [], _ => rfl
  | j :: js, h => by
    rw [List.foldlM_cons, pullAt, if_neg fun hc => by rw [h j List.mem_cons_self] at hc; cases hc.2]
    exact pullAt_of_not_dash js fun k hk => h k (List.mem_cons_of_mem j hk)

/-- The inner loop at an option, or with no option after the place. -/
theorem pullInner_stay {pre tail : List Str} {x : Str} (hs : s.argv = pre ++ x :: tail)
    (h : dash x = true ∨ ∀ y ∈ tail, dash y = false) : pullInner s pre.length = some s := by
  rcases h with hx | htail
  · exact pullAt_of_dash (by rw [hs, getD_append_self]; exact hx) _
  · cases hx : dash x with
    | true => exact pullAt_of_dash (by rw [hs, getD_append_self]; exact hx) _
    | false =>
      apply pullAt_of_not_dash
      intro j hj
      obtain ⟨hle, hlt⟩ := List.mem_range'_1.mp hj
      rw [hs, List.length_append, List.length_cons] at hlt
      rw [hs]
      obtain ⟨c, rfl⟩ := Nat.exists_eq_add_of_le hle
      cases c with
      | zero => rw [Nat.add_zero, getD_append_self, hx]
      | succ c =>
        have hc : c < tail.length := by omega
        rw [getD_append_cons, List.getD_eq_getElem _ _ hc]
        exact htail _ (List.getElem_mem hc)

/-- The inner loop at a path: the next option takes its place. -/
theorem pullInner_swap {pre u v : List Str} {x o : Str} (hs : s.argv = pre ++ x :: (u ++ o :: v))
    (hx : dash x = false) (hu : ∀ y ∈ u, dash y = false) (ho : dash o = true)
    (htmp : s.tmpIndex < s.option.length) :
    pullInner s pre.length = some ⟨pre ++ o :: (u ++ x :: v), s.option.set s.tmpIndex pre.length,
      s.tmpIndex + 1⟩ := by
  have hlen : s.argv.length - pre.length = (u.length + 1) + (1 + v.length) := by
    rw [hs]
    simp only [List.length_append, List.length_cons]
    omega
  have hbefore : (List.range' pre.length (u.length + 1)).foldlM (pullAt pre.length) s = some s := by
    apply pullAt_of_not_dash
    intro j hj
    obtain ⟨hle, hlt⟩ := List.mem_range'_1.mp hj
    rw [hs]
    obtain ⟨c, rfl⟩ := Nat.exists_eq_add_of_le hle
    cases c with
    | zero => rw [Nat.add_zero, getD_append_self, hx]
    | succ c =>
      have hc : c < u.length := by omega
      rw [getD_append_cons, List.getD_append _ _ _ _ hc, List.getD_eq_getElem _ _ hc]
      exact hu _ (List.getElem_mem hc)
  have hat : pullAt pre.length s (pre.length + (u.length + 1)) =
      some ⟨pre ++ o :: (u ++ x :: v), s.option.set s.tmpIndex pre.length, s.tmpIndex + 1⟩ := by
    have hi : dash (s.argv.getD pre.length []) = false := by rw [hs, getD_append_self, hx]
    have hj : dash (s.argv.getD (pre.length + (u.length + 1)) []) = true := by
      rw [hs, getD_append_cons, getD_append_self, ho]
    rw [pullAt, if_pos ⟨hi, hj⟩, setAt, if_pos htmp, hs, swap_split]
    rfl
  rw [pullInner, hlen, ← List.range'_append_1, List.foldlM_append, hbefore]
  simp only [Option.bind_eq_bind, Option.bind_some]
  rw [Nat.add_comm 1, List.range'_succ, List.foldlM_cons, hat]
  exact pullAt_of_dash (by rw [getD_append_self]; exact ho) _

/-- What the outer loop has at place `i` of `argv`: the places before hold
options, or no option is behind a path; and what is in `option`. -/
structure PullInv (prog o : Str) (rest : List Str) (option : List ℕ) (q i : ℕ) (s : Pull) :
    Prop where
  argv : ∃ l, s.argv = prog :: o :: l ∧ l.Perm rest ∧
    ((∀ x ∈ l.take (i - 2), dash x = true) ∨ Partitioned l)
  length : s.option.length = 1024
  tmp : 1 ≤ s.tmpIndex ∧ s.tmpIndex ≤ i - 1
  lower : ∀ t, 1 ≤ t → t < q → t + 1 ≤ s.option.getD t 0
  upper : ∀ t, 1 ≤ t → t < s.tmpIndex → s.option.getD t 0 ≤ q
  none : s.tmpIndex = 1 → s.argv = prog :: o :: rest ∧ s.option = option

variable {o : Str} {rest : List Str} {option : List ℕ} {q : ℕ}

/-- The first option of a list that has one. -/
theorem exists_first {l : List Str} (h : ∃ y ∈ l, dash y = true) :
    ∃ u o v, l = u ++ o :: v ∧ (∀ y ∈ u, dash y = false) ∧ dash o = true := by
  obtain ⟨o, ho⟩ := Option.isSome_iff_exists.mp (List.find?_isSome.mpr h)
  obtain ⟨hd, u, v, rfl, hu⟩ := List.find?_eq_some_iff_append.mp ho
  exact ⟨u, o, v, rfl, fun y hy => by simpa using hu y hy, hd⟩

theorem partitioned_append {a b : List Str} (ha : ∀ x ∈ a, dash x = true)
    (hb : ∀ y ∈ b, dash y = false) : Partitioned (a ++ b) := by
  refine List.pairwise_append.mpr ⟨?_, ?_, fun x hx y _ _ => ha x hx⟩
  · exact List.pairwise_of_forall_mem_list fun x hx y _ _ => ha x hx
  · refine List.pairwise_of_forall_mem_list fun x _ y hy hd => ?_
    rw [hb y hy] at hd
    cases hd

theorem PullInv.front (h : PullInv prog o rest option q i s) {l : List Str}
    (hs : s.argv = prog :: o :: l) :
    l.Perm rest ∧ ((∀ x ∈ l.take (i - 2), dash x = true) ∨ Partitioned l) := by
  obtain ⟨l', hs', h'⟩ := h.argv
  rw [hs] at hs'
  cases hs'
  exact h'

variable {Q tail u v : List Str} {x y : Str}

/-- The places up to that of `y`. -/
theorem forall_take_snoc (hQ : ∀ z ∈ Q, dash z = true) (hy : dash y = true) (t : List Str) :
    ∀ z ∈ (Q ++ y :: t).take (Q.length + 3 - 2), dash z = true := by
  intro z hz
  rw [show Q ++ y :: t = (Q ++ [y]) ++ t by simp, List.take_left' (by simp)] at hz
  rcases List.mem_append.mp hz with hz | hz
  · exact hQ z hz
  · rwa [List.mem_singleton.mp hz]

/-- A turn that exchanges nothing. -/
theorem PullInv.stay (h : PullInv prog o rest option q (Q.length + 2) s)
    (hs : s.argv = prog :: o :: (Q ++ x :: tail))
    (hstay : dash x = true ∨ ∀ y ∈ tail, dash y = false) :
    PullInv prog o rest option q (Q.length + 3) s := by
  obtain ⟨hperm, hfront⟩ := h.front hs
  have htmp := h.tmp
  refine ⟨⟨_, hs, hperm, ?_⟩, h.length, ⟨htmp.1, by omega⟩, h.lower, h.upper, h.none⟩
  rcases hfront with hall | hpart
  · rw [Nat.add_sub_cancel, List.take_left] at hall
    by_cases hx : dash x = true
    · exact Or.inl (forall_take_snoc hall hx tail)
    · right
      refine partitioned_append hall fun y hy => ?_
      rcases List.mem_cons.mp hy with rfl | hy
      · exact Bool.eq_false_of_not_eq_true hx
      · exact hstay.resolve_left hx y hy
  · exact Or.inr hpart

/-- Where a path stands before an option, the places before it hold options. -/
theorem PullInv.options_before (h : PullInv prog o rest option q (Q.length + 2) s)
    (hs : s.argv = prog :: o :: (Q ++ x :: (u ++ y :: v))) (hx : dash x = false)
    (hy : dash y = true) : ∀ z ∈ Q, dash z = true := by
  obtain ⟨-, hfront⟩ := h.front hs
  rw [Nat.add_sub_cancel, List.take_left] at hfront
  refine hfront.resolve_right fun hpart => ?_
  have hxt := (List.pairwise_append.mp hpart).2.1
  have := (List.pairwise_cons.mp hxt).1 y (List.mem_append_right u List.mem_cons_self) hy
  rw [hx] at this
  cases this

/-- A turn that exchanges the path `x` and the option `y`. -/
theorem PullInv.swap (hq : rest.countP dash + 1 = q) (hq' : q ≤ 1024)
    (h : PullInv prog o rest option q (Q.length + 2) s)
    (hs : s.argv = prog :: o :: (Q ++ x :: (u ++ y :: v))) (hx : dash x = false)
    (hy : dash y = true) :
    s.tmpIndex < s.option.length ∧ PullInv prog o rest option q (Q.length + 3)
      ⟨prog :: o :: (Q ++ y :: (u ++ x :: v)), s.option.set s.tmpIndex (Q.length + 2),
        s.tmpIndex + 1⟩ := by
  obtain ⟨hperm, -⟩ := h.front hs
  have hall := h.options_before hs hx hy
  have hcount : Q.length + 1 ≤ rest.countP dash := by
    rw [← hperm.countP_eq, List.countP_append, List.countP_cons, List.countP_append,
      List.countP_cons, List.countP_eq_length.mpr hall, if_pos hy]
    omega
  have htmp := h.tmp
  have hlt : s.tmpIndex < s.option.length := by
    rw [h.length]
    omega
  have hself : (s.option.set s.tmpIndex (Q.length + 2)).getD s.tmpIndex 0 = Q.length + 2 := by
    rw [List.getD_eq_getElem?_getD, List.getElem?_set_self hlt, Option.getD_some]
  have hother : ∀ t, s.tmpIndex ≠ t →
      (s.option.set s.tmpIndex (Q.length + 2)).getD t 0 = s.option.getD t 0 := by
    intro t ht
    rw [List.getD_eq_getElem?_getD, List.getElem?_set_ne ht, ← List.getD_eq_getElem?_getD]
  refine ⟨hlt, ⟨_, rfl, ?_, Or.inl (forall_take_snoc hall hy _)⟩, ?_, ⟨?_, ?_⟩, ?_, ?_, ?_⟩
  · exact ((perm_exchange u v y x).append_left Q).trans hperm
  · exact List.length_set.trans h.length
  · exact Nat.le_add_left 1 s.tmpIndex
  · change s.tmpIndex + 1 ≤ _
    omega
  · intro t ht htq
    by_cases hte : s.tmpIndex = t
    · rw [← hte, hself]
      omega
    · rw [hother t hte]
      exact h.lower t ht htq
  · intro t ht htm
    change t < s.tmpIndex + 1 at htm
    by_cases hte : s.tmpIndex = t
    · rw [← hte, hself]
      omega
    · rw [hother t hte]
      exact h.upper t ht (by omega)
  · intro hc
    change s.tmpIndex + 1 = 1 at hc
    omega

/-- A turn of the outer loop. -/
theorem pullInv_step (hq : rest.countP dash + 1 = q) (hq' : q ≤ 1024) {i : ℕ} (hi : 2 ≤ i)
    (hlt : i < s.argv.length) (h : PullInv prog o rest option q i s) :
    ∃ s', pullInner s i = some s' ∧ PullInv prog o rest option q (i + 1) s' := by
  obtain ⟨l, hs, -⟩ := h.argv
  have hil : i - 2 < l.length := by
    rw [hs, List.length_cons, List.length_cons] at hlt
    omega
  obtain ⟨Q, x, tail, rfl, hQ⟩ : ∃ Q x tail, l = Q ++ x :: tail ∧ Q.length = i - 2 :=
    ⟨l.take (i - 2), l[i - 2], l.drop (i - 2 + 1), by simp, List.length_take_of_le hil.le⟩
  obtain rfl : Q.length + 2 = i := by omega
  have hpre : s.argv = (prog :: o :: Q) ++ x :: tail := hs
  by_cases hstay : dash x = true ∨ ∀ y ∈ tail, dash y = false
  · exact ⟨s, pullInner_stay hpre hstay, h.stay hs hstay⟩
  · rw [not_or, Bool.not_eq_true] at hstay
    obtain ⟨hx, hsome⟩ := hstay
    simp only [not_forall, Bool.not_eq_false, exists_prop] at hsome
    obtain ⟨u, y, v, rfl, hu, hy⟩ := exists_first hsome
    obtain ⟨htmp, hinv⟩ := h.swap hq hq' hs hx hy
    exact ⟨_, pullInner_swap hpre hx hu hy htmp, hinv⟩

/-- **The options come to the front**, and the places noted for them are at
most one too far on for each option before. -/
theorem pull_spec (prog o : Str) (hq : rest.countP dash + 1 = q) (hq' : q ≤ 1024)
    (hlen : option.length = 1024)
    (hlow : ∀ t, 1 ≤ t → t < q → t + 1 ≤ option.getD t 0) :
    ∃ s l, pull (prog :: o :: rest) option = some s ∧ s.argv = prog :: o :: l ∧ l.Perm rest ∧
      Partitioned l ∧ (∀ t, 1 ≤ t → t < q → t + 1 ≤ s.option.getD t 0) ∧
      ((l = rest ∧ s.option = option) ∨ s.option.getD 1 0 ≤ q) := by
  have hinit : PullInv prog o rest option q (2 + 0) ⟨prog :: o :: rest, option, 1⟩ := by
    refine ⟨⟨rest, rfl, List.Perm.refl _, Or.inl ?_⟩, hlen, ⟨le_rfl, le_rfl⟩, hlow, ?_, ?_⟩
    · exact fun x hx => absurd hx (by simp)
    · exact fun t h1 h2 => absurd h2 (Nat.not_lt.mpr h1)
    · exact fun _ => ⟨rfl, rfl⟩
  obtain ⟨s, hs, hinv⟩ := foldlM_inv (f := fun s c => pullInner s (2 + c))
    (fun c s => PullInv prog o rest option q (2 + c) s) (c := rest.length) hinit
    fun c hc s h => by
      obtain ⟨l, hargv, hperm, -⟩ := h.argv
      refine pullInv_step hq hq' (by omega) ?_ h
      rw [hargv, List.length_cons, List.length_cons, hperm.length_eq]
      omega
  obtain ⟨l, hargv, hperm, hfront⟩ := hinv.argv
  refine ⟨s, l, ?_, hargv, hperm, ?_, hinv.lower, ?_⟩
  · rw [pull, List.length_cons, List.length_cons,
      show rest.length + 1 + 1 - 2 = rest.length by omega, List.range'_eq_map_range,
      List.foldlM_map]
    exact hs
  · rcases hfront with hall | hpart
    · rw [Nat.add_sub_cancel_left, ← hperm.length_eq, List.take_length] at hall
      have := partitioned_append hall fun y hy => absurd hy List.not_mem_nil
      rwa [List.append_nil] at this
    · exact hpart
  · rcases Nat.lt_or_ge 1 s.tmpIndex with h1 | h1
    · exact Or.inr (hinv.upper 1 le_rfl h1)
    · obtain ⟨ha, ho⟩ := hinv.none (Nat.le_antisymm h1 hinv.tmp.1)
      rw [hargv] at ha
      exact Or.inl ⟨(List.cons.inj (List.cons.inj ha).2).2, ho⟩

end Myls
end LinuxProg
