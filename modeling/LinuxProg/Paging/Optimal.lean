/-
# OPT is optimal

`OPT` keeps in `arr[j]` how far away the next use of reference `j` is: set up
for all references at first, counted down by one a turn, and made `-1` when
the page is referenced again or evicted. The table is exact (`OptInv`): at the
start of a turn `arr[j]` is one more than the place of the page in the string
still to come, if `j` is the last use of a page in a frame, and `-1` if not.
So the largest entry is that of a page with the farthest next use, and a run
of `OPT` is a `Farthest` schedule (`opt_farthest`), which no schedule beats.
-/
import Mathlib
import LinuxProg.Lib.Belady
import LinuxProg.Lib.Frames
import LinuxProg.Paging.Input
import LinuxProg.Paging.Residency

namespace LinuxProg
namespace Paging

open Belady Buffers Frames

variable {elem : ℕ → Option ℤ} {σ w ρ : List ℤ} {q r : ℤ}

/-! ### The loops of OPT on a reference string -/

/-- The distance to the next use of a page in the string to come, or to its
end. -/
def nextUse (q : ℤ) (ρ : List ℤ) : ℤ := 1 + (ρ.idxOf q : ℤ)

theorem nextUse_cons_ne (h : r ≠ q) (ρ : List ℤ) : nextUse q (r :: ρ) = nextUse q ρ + 1 := by
  rw [nextUse, nextUse, List.idxOf_cons_ne _ h]
  push_cast
  ring

/-- Places and the pages found there. -/
def Shows (elem : ℕ → Option ℤ) (ks : List ℕ) (xs : List ℤ) : Prop :=
  List.Forall₂ (fun k x => elem k = some (x + 48) ∧ x + 48 ≠ 0) ks xs

theorem Reads.shows (h : Reads elem σ) {t n : ℕ} (hn : t + n ≤ σ.length) :
    Shows elem ((slots.drop t).take n) ((σ.drop t).take n) := by
  induction n generalizing t with
  | zero => exact .nil
  | succ n ih =>
    have hlt : t < σ.length := by omega
    rw [slots_drop (hlt.trans_le h.length), List.drop_eq_getElem_cons hlt, List.take_succ_cons,
      List.take_succ_cons]
    exact .cons ⟨h.page t hlt, h.nonzero _ (List.getElem_mem hlt)⟩ (ih (by omega))

/-- The search for a repetition. -/
theorem repeated_eq {j : ℕ} {ks : List ℕ} {xs : List ℤ} (hj : elem j = some (q + 48))
    (h : Shows elem ks xs) : repeated elem j ks = some (decide (q ∈ xs)) := by
  induction h with
  | nil => simp [repeated]
  | @cons k x ks xs hk _ ih =>
    rw [repeated, hj, hk.1]
    simp only [Option.bind_eq_bind, Option.bind_some, ih, List.mem_cons, add_left_inj]
    by_cases hx : q = x
    · simp [hx]
    · simp [hx]

/-- The count to the next use: it stops at the page, at a zero, or at the end
of the buffer. -/
theorem distance_eq {i : ℕ} {ks js : List ℕ} {xs : List ℤ} (hi : elem i = some (q + 48))
    (h : Shows elem ks xs) (hend : js = [] ∨ ∃ z zs, js = z :: zs ∧ elem z = some 0) :
    distance elem i (ks ++ js) = some (nextUse q xs) := by
  induction h with
  | nil =>
    rcases hend with rfl | ⟨z, zs, rfl, hz⟩
    · rfl
    · simp [distance, hz, nextUse]
  | @cons k x ks xs hk _ ih =>
    rw [List.cons_append, distance, hk.1, hi, ih]
    simp only [Option.bind_eq_bind, Option.bind_some, add_left_inj]
    rw [if_neg hk.2]
    by_cases hx : q = x
    · rw [if_pos hx, hx, nextUse, List.idxOf_cons_self]
      rfl
    · rw [if_neg hx, nextUse_cons_ne (Ne.symm hx), Option.map_some]

theorem distance_some {i : ℕ} : ∀ {js : List ℕ}, (∃ x, elem i = some x) →
    (∀ j ∈ js, ∃ y, elem j = some y) → ∃ v, distance elem i js = some v
  | [], _, _ => ⟨1, rfl⟩
  | j :: js, hi, hjs => by
    obtain ⟨v, hv⟩ := distance_some (i := i) hi fun k hk => hjs k (List.mem_cons_of_mem j hk)
    obtain ⟨x, hx⟩ := hi
    obtain ⟨y, hy⟩ := hjs j List.mem_cons_self
    rw [distance, hy, hx, hv]
    simp only [Option.bind_eq_bind, Option.bind_some, Option.map_some]
    split
    · exact ⟨1, rfl⟩
    · split
      · exact ⟨1, rfl⟩
      · exact ⟨v + 1, rfl⟩

/-- **The initial distances are exact.** -/
theorem Reads.initDistances (h : Reads elem σ) :
    ∃ arr, initDistances elem = some arr ∧ arr.length = 31 ∧
      ∀ a q b, σ = a ++ q :: b → arr[a.length]? = some (nextUse q b) := by
  have hsome : ∀ t < 31, ∃ v, distance elem (2 * t) (slots.drop (t + 1)) = some v := by
    intro t ht
    apply distance_some (h.inside t ht)
    intro j hj
    obtain ⟨t', ht', rfl⟩ := List.mem_map.mp (List.mem_of_mem_drop hj)
    exact h.inside t' (List.mem_range.mp ht')
  set g : ℕ → ℤ := fun t => (distance elem (2 * t) (slots.drop (t + 1))).getD 0 with hg
  have hval : ∀ t < 31, distance elem (2 * t) (slots.drop (t + 1)) = some (g t) := by
    intro t ht
    obtain ⟨v, hv⟩ := hsome t ht
    simp only [hg, hv, Option.getD_some]
  have hfill := fillLoop_eq (a := List.replicate 31 (0 : ℤ)) (by simp) hval
  refine ⟨_, hfill, by simp, fun a q b hσ => ?_⟩
  have hlen : a.length < σ.length := by
    rw [hσ, List.length_append, List.length_cons]
    omega
  have hlt : a.length < 31 := hlen.trans_le h.length
  have hpage : elem (2 * a.length) = some (q + 48) := (hσ ▸ h).page_at
  have hdrop : σ.drop (a.length + 1) = b := by simp [hσ]
  -- the pages after the reference, then a zero or the end of the buffer
  have hshow := h.shows (t := a.length + 1) (n := b.length) (by simp [hσ]; omega)
  rw [hdrop, List.take_length] at hshow
  have hend : (slots.drop (a.length + 1)).drop b.length = [] ∨ ∃ z zs,
      (slots.drop (a.length + 1)).drop b.length = z :: zs ∧ elem z = some 0 := by
    have hL : a.length + 1 + b.length = σ.length := by simp [hσ]; omega
    rw [List.drop_drop, hL]
    rcases Nat.lt_or_ge σ.length 31 with hlt | hge
    · exact Or.inr ⟨_, _, slots_drop hlt, h.stop hlt⟩
    · exact Or.inl (List.drop_of_length_le (by simpa [slots] using hge))
  have hdist := distance_eq hpage hshow hend
  rw [List.take_append_drop] at hdist
  rw [List.getElem?_append_left (by simpa using hlt), List.getElem?_map, List.getElem?_range hlt]
  simp only [Option.map_some, hg, hdist, Option.getD_some]

/-- The loop over the references so far: those repeated up to now are out. -/
theorem dropRepeated_eq {t : ℕ} {arr : List ℤ} (rep : ℕ → Bool) (ht : t ≤ arr.length)
    (hrep : ∀ j < t,
      repeated elem (2 * j) ((slots.drop (j + 1)).take (t - j)) = some (rep j)) :
    ∃ arr', dropRepeated elem (2 * t) arr = some arr' ∧ arr'.length = arr.length ∧
      ∀ j, arr'[j]? = if j < t ∧ rep j = true then some (-1) else arr[j]? := by
  have hdiv : 2 * t / 2 = t := by omega
  rw [dropRepeated, hdiv]
  apply foldlM_inv fun c (a : List ℤ) => a.length = arr.length ∧
    ∀ j, a[j]? = if j < c ∧ rep j = true then some (-1) else arr[j]?
  · exact ⟨rfl, fun j => by rw [if_neg (by omega)]⟩
  · intro c hc a ha
    rw [hrep c hc]
    refine ⟨_, rfl, ?_⟩
    by_cases hr : rep c = true
    · rw [if_pos hr]
      refine ⟨by rw [List.length_set, ha.1], fun j => ?_⟩
      rw [List.getElem?_set]
      by_cases hj : c = j
      · subst hj
        rw [if_pos rfl, if_pos (by omega), if_pos ⟨by omega, hr⟩]
      · rw [if_neg hj, ha.2 j]
        have : j < c + 1 ∧ rep j = true ↔ j < c ∧ rep j = true := by
          constructor <;> exact fun h => ⟨by omega, h.2⟩
        simp only [this]
    · rw [if_neg hr]
      refine ⟨ha.1, fun j => ?_⟩
      rw [ha.2 j]
      have : j < c + 1 ∧ rep j = true ↔ j < c ∧ rep j = true := by
        constructor
        · intro h
          refine ⟨Nat.lt_of_le_of_ne (by omega) fun hjc => hr (hjc ▸ h.2), h.2⟩
        · exact fun h => ⟨by omega, h.2⟩
      simp only [this]

theorem countDown_getElem? (t : ℕ) (arr : List ℤ) (j : ℕ) :
    (countDown (2 * t) arr)[j]? =
      if j < t then arr[j]?.map (fun v => if 1 < v then v - 1 else v) else arr[j]? := by
  have hdiv : 2 * t / 2 = t := by omega
  rw [countDown, hdiv]
  clear hdiv
  induction t with
  | zero => rfl
  | succ t ih =>
    rw [List.range_succ, List.foldl_append, List.foldl_cons, List.foldl_nil, List.getElem?_modify,
      ih]
    by_cases hj : t = j
    · subst hj
      rw [if_neg (Nat.lt_irrefl t), if_pos (Nat.lt_succ_self t)]
      simp
    · have : j < t + 1 ↔ j < t := by omega
      simp [hj, this]

theorem countDown_length (t : ℕ) (arr : List ℤ) : (countDown (2 * t) arr).length = arr.length := by
  rw [countDown]
  induction List.range (2 * t / 2) generalizing arr with
  | nil => rfl
  | cons j js ih => rw [List.foldl_cons, ih, List.length_modify]

/-- The index found by `vector_update` is that of a largest entry. -/
theorem maxIndx_spec (arr : List ℤ) : ∀ n, 0 < n →
    maxIndx arr n < n ∧ ∀ i < n, arr.getD i 0 ≤ arr.getD (maxIndx arr n) 0
  | 0, h => absurd h (Nat.lt_irrefl 0)
  | n + 1, _ => by
    have hsucc : maxIndx arr (n + 1) = if arr.getD (maxIndx arr n) 0 < arr.getD n 0 then n
        else maxIndx arr n := by
      rw [maxIndx, List.range_succ, List.foldl_append, List.foldl_cons, List.foldl_nil]
      rfl
    rcases Nat.eq_zero_or_pos n with rfl | hpos
    · refine ⟨by simp [maxIndx], fun i hi => ?_⟩
      obtain rfl : i = 0 := by omega
      simp [maxIndx]
    · obtain ⟨hlt, hmax⟩ := maxIndx_spec arr n hpos
      rw [hsucc]
      split
      · rename_i h
        refine ⟨Nat.lt_succ_self n, fun i hi => ?_⟩
        rcases Nat.lt_succ_iff_lt_or_eq.mp hi with hi | rfl
        · exact (hmax i hi).trans h.le
        · exact le_rfl
      · rename_i h
        refine ⟨by omega, fun i hi => ?_⟩
        rcases Nat.lt_succ_iff_lt_or_eq.mp hi with hi | rfl
        · exact hmax i hi
        · exact not_lt.mp h

/-! ### The table of distances -/

/-- The table is exact between two turns, the references `w` behind it and
`ρ` ahead: a reference that is the last use of a page in a frame has the
distance to its next use, another one `-1`; those ahead have theirs. -/
structure Exact (vector w ρ arr : List ℤ) : Prop where
  length : arr.length = 31
  past : ∀ a q b, w = a ++ q :: b →
    arr[a.length]? = some (if q ∉ b ∧ q ∈ vector then nextUse q ρ else -1)
  ahead : ∀ a q b, ρ = a ++ q :: b → arr[w.length + a.length]? = some (nextUse q b)

/-- The table at the hit test of reference `r`. -/
structure AtTest (vector w : List ℤ) (r : ℤ) (ρ arr : List ℤ) : Prop where
  length : arr.length = 31
  past : ∀ a q b, w = a ++ q :: b →
    arr[a.length]? = some (if q ∉ b ++ [r] ∧ q ∈ vector then nextUse q ρ else -1)
  now : arr[w.length]? = some (nextUse r ρ)
  ahead : ∀ a q b, ρ = a ++ q :: b → arr[w.length + 1 + a.length]? = some (nextUse q b)

variable {vector vector' arr : List ℤ}

/-- A reference among those before and including `r`. -/
theorem snoc_eq_append {a b : List ℤ} (h : w ++ [r] = a ++ q :: b) :
    (b = [] ∧ a = w ∧ q = r) ∨ ∃ b', b = b' ++ [r] ∧ w = a ++ q :: b' := by
  obtain rfl | ⟨b', x, rfl⟩ := List.eq_nil_or_concat' b
  · obtain ⟨h1, h2⟩ := List.append_inj' h rfl
    exact Or.inl ⟨rfl, h1.symm, (List.singleton_inj.mp h2).symm⟩
  · rw [← List.cons_append, ← List.append_assoc] at h
    obtain ⟨h1, h2⟩ := List.append_inj' h rfl
    exact Or.inr ⟨b', by rw [List.singleton_inj.mp h2], h1⟩

/-- The two loops before the hit test: what is repeated goes out, what stays
comes one nearer. -/
theorem Exact.atTest (h : Reads elem (w ++ r :: ρ)) (hex : Exact vector w (r :: ρ) arr) :
    ∃ arr1, dropRepeated elem (2 * w.length) arr = some arr1 ∧
      AtTest vector w r ρ (countDown (2 * w.length) arr1) := by
  have hw : w.length < 31 := by
    have := h.length
    rw [List.length_append, List.length_cons] at this
    omega
  set σ := w ++ r :: ρ with hσ
  set rep : ℕ → Bool := fun j => decide (σ.getD j 0 ∈ (σ.drop (j + 1)).take (w.length - j)) with hrep
  have hlen := hex.length
  obtain ⟨arr1, hdrop, hlen1, harr1⟩ := dropRepeated_eq rep (show w.length ≤ arr.length by omega)
    (fun j hj => by
      have hjσ : j < σ.length := by rw [hσ, List.length_append]; omega
      rw [repeated_eq (h.page j hjσ) (h.shows (by rw [hσ, List.length_append, List.length_cons]; omega))]
      simp only [hrep, List.getD_eq_getElem _ _ hjσ])
  have hout : ∀ j, w.length ≤ j → (countDown (2 * w.length) arr1)[j]? = arr[j]? := by
    intro j hj
    rw [countDown_getElem?, if_neg (by omega), harr1, if_neg (by omega)]
  refine ⟨arr1, hdrop, ?_, fun a q b hw' => ?_, ?_, fun a q b hρ => ?_⟩
  · rw [countDown_length, hlen1, hlen]
  · have hj : a.length < w.length := by rw [hw', List.length_append, List.length_cons]; omega
    have hrepj : rep a.length = decide (q ∈ b ++ [r]) := by
      have h1 : σ.getD a.length 0 = q := by simp [hσ, hw']
      have h2 : (σ.drop (a.length + 1)).take (w.length - a.length) = b ++ [r] := by
        have h3 : w.length - a.length = b.length + 1 := by
          rw [hw', List.length_append, List.length_cons]
          omega
        rw [h3]
        simp [hσ, hw', List.take_append]
      simp only [hrep, h1, h2]
    rw [countDown_getElem?, if_pos hj, harr1, hrepj, hex.past a q b hw']
    by_cases hq : q ∈ b ++ [r]
    · rw [if_pos ⟨hj, by simpa using hq⟩, if_neg (fun hc => hc.1 hq)]
      rfl
    · have hq' : q ∉ b ∧ r ≠ q := by
        rw [List.mem_append, List.mem_singleton, not_or] at hq
        exact ⟨hq.1, Ne.symm hq.2⟩
      rw [if_neg (fun hc => hq (by simpa using hc.2)), nextUse_cons_ne hq'.2]
      by_cases hv : q ∈ vector
      · have hpos : 0 < nextUse q ρ := by rw [nextUse]; omega
        rw [if_pos ⟨hq'.1, hv⟩, if_pos ⟨hq, hv⟩, Option.map_some, if_pos (by omega)]
        congr 1
        omega
      · rw [if_neg (fun hc => hv hc.2), if_neg (fun hc => hv hc.2)]
        rfl
  · rw [hout _ le_rfl]
    exact hex.ahead [] r ρ rfl
  · rw [hout _ (by omega), Nat.add_assoc, Nat.add_comm 1]
    exact hex.ahead (r :: a) q b (by rw [hρ, List.cons_append])

/-- After a hit or a load the table is exact again. -/
theorem AtTest.exact (h : AtTest vector w r ρ arr) (hr : r ∈ vector')
    (hmem : ∀ q ∈ w, q ≠ r → (q ∈ vector' ↔ q ∈ vector)) : Exact vector' (w ++ [r]) ρ arr := by
  refine ⟨h.length, fun a q b hs => ?_, fun a q b hρ => ?_⟩
  · rcases snoc_eq_append hs with ⟨rfl, rfl, rfl⟩ | ⟨b', rfl, hw⟩
    · rw [if_pos ⟨List.not_mem_nil, hr⟩]
      exact h.now
    · rw [h.past a q b' hw]
      congr 1
      apply if_congr _ rfl rfl
      refine and_congr_right fun hq => (hmem q (by rw [hw]; simp) ?_).symm
      rw [List.mem_append, List.mem_singleton, not_or] at hq
      exact hq.2
  · rw [List.length_append, List.length_singleton]
    exact h.ahead a q b hρ

/-- The last use of a page. -/
theorem exists_last (h : q ∈ w) : ∃ a b, w = a ++ q :: b ∧ q ∉ b := by
  obtain ⟨c, d, hcd, hc⟩ := List.eq_append_cons_of_mem (List.mem_reverse.mpr h)
  refine ⟨d.reverse, c.reverse, ?_, by rwa [List.mem_reverse]⟩
  rw [← List.reverse_reverse w, hcd]
  simp

/-- A page has one last use. -/
theorem last_unique : ∀ {a a' b b' : List ℤ}, a ++ q :: b = a' ++ q :: b' → q ∉ b → q ∉ b' →
    a.length = a'.length
  | [], [], _, _, _, _, _ => rfl
  | [], y :: a', b, b', h, hb, _ => by
    obtain ⟨-, h⟩ := List.cons.inj h
    exact absurd (h ▸ List.mem_append_right a' List.mem_cons_self) hb
  | x :: a, [], b, b', h, _, hb' => by
    obtain ⟨-, h⟩ := List.cons.inj h
    exact absurd (h ▸ List.mem_append_right a List.mem_cons_self) hb'
  | x :: a, y :: a', b, b', h, hb, hb' => by
    obtain ⟨-, h⟩ := List.cons.inj h
    rw [List.length_cons, List.length_cons, last_unique h hb hb']

/-- After an eviction the table is exact again. -/
theorem AtTest.exact_evict {a b : List ℤ} {g : ℤ} (h : AtTest vector w r ρ arr)
    (hw : w = a ++ g :: b) (hg : g ∉ b ++ [r]) (hr : r ∈ vector')
    (hmem : ∀ q, q ≠ r → (q ∈ vector' ↔ q ∈ vector ∧ q ≠ g)) :
    Exact vector' (w ++ [r]) ρ (arr.set a.length (-1)) := by
  have ha : a.length < w.length := by rw [hw, List.length_append, List.length_cons]; omega
  have hgb : g ∉ b ∧ g ≠ r := by
    rw [List.mem_append, List.mem_singleton, not_or] at hg
    exact hg
  refine ⟨List.length_set.trans h.length, fun a' q b' hs => ?_, fun a' q b' hρ => ?_⟩
  · rcases snoc_eq_append hs with ⟨rfl, rfl, rfl⟩ | ⟨b', rfl, hw'⟩
    · rw [if_pos ⟨List.not_mem_nil, hr⟩, List.getElem?_set_ne (by omega)]
      exact h.now
    · by_cases hlen : a.length = a'.length
      · -- the entry of the page evicted
        obtain ⟨rfl, htail⟩ := List.append_inj (hw.symm.trans hw') hlen
        obtain ⟨rfl, rfl⟩ := List.cons.inj htail
        have hout : g ∉ vector' := fun hc => ((hmem g hgb.2).mp hc).2 rfl
        obtain ⟨hlt, -⟩ := List.getElem?_eq_some_iff.mp (h.past a g b hw)
        rw [if_neg fun hc => hout hc.2, List.getElem?_set_self hlt]
      · rw [List.getElem?_set_ne hlen, h.past a' q b' hw']
        congr 1
        apply if_congr _ rfl rfl
        refine and_congr_right fun hq => ?_
        rw [List.mem_append, List.mem_singleton, not_or] at hq
        rw [hmem q hq.2]
        refine ⟨fun hv => ⟨hv, fun hqg => hlen ?_⟩, fun hv => hv.1⟩
        subst hqg
        exact last_unique (hw.symm.trans hw') hgb.1 hq.1
  · rw [List.length_append, List.length_singleton, List.getElem?_set_ne (by omega)]
    exact h.ahead a' q b' hρ

/-- **The victim of OPT** is a page in a frame whose next use is farthest. -/
theorem AtTest.victim (h : AtTest vector w r ρ arr) (hne : vector ≠ [])
    (hseen : ∀ p ∈ vector, p ∈ w) (hr : r ∉ vector) :
    ∃ a g b, w = a ++ g :: b ∧ a.length = maxIndx arr w.length ∧ g ∉ b ++ [r] ∧ g ∈ vector ∧
      ∀ p ∈ vector, ρ.idxOf p ≤ ρ.idxOf g := by
  -- each page in a frame has its distance in the table
  have hentry : ∀ p ∈ vector, ∃ i < w.length, arr.getD i 0 = nextUse p ρ := by
    intro p hp
    obtain ⟨a, b, hw, hb⟩ := exists_last (hseen p hp)
    refine ⟨a.length, by rw [hw, List.length_append, List.length_cons]; omega, ?_⟩
    have hnot : p ∉ b ++ [r] := by
      rw [List.mem_append, List.mem_singleton, not_or]
      exact ⟨hb, fun hc => hr (hc ▸ hp)⟩
    rw [List.getD_eq_getElem?_getD, h.past a p b hw, if_pos ⟨hnot, hp⟩]
    rfl
  obtain ⟨p0, hp0⟩ := List.exists_mem_of_ne_nil vector hne
  have hpos : 0 < w.length := List.length_pos_of_mem (hseen p0 hp0)
  obtain ⟨hlt, hmax⟩ := maxIndx_spec arr w.length hpos
  set m := maxIndx arr w.length with hm
  have hw : w = w.take m ++ w[m] :: w.drop (m + 1) := by
    rw [← List.drop_eq_getElem_cons hlt, List.take_append_drop]
  have hval := h.past _ _ _ hw
  rw [List.length_take, Nat.min_eq_left hlt.le] at hval
  have hle : ∀ p ∈ vector, nextUse p ρ ≤ arr.getD m 0 := by
    intro p hp
    obtain ⟨i, hi, he⟩ := hentry p hp
    exact he ▸ hmax i hi
  rw [List.getD_eq_getElem?_getD, hval, Option.getD_some] at hle
  by_cases hc : w[m] ∉ w.drop (m + 1) ++ [r] ∧ w[m] ∈ vector
  · rw [if_pos hc] at hle
    refine ⟨_, _, _, hw, by rw [List.length_take, Nat.min_eq_left hlt.le], hc.1, hc.2, ?_⟩
    intro p hp
    have := hle p hp
    rw [nextUse, nextUse] at this
    omega
  · -- a distance is positive, so the largest entry is one
    have := hle p0 hp0
    rw [if_neg hc, nextUse] at this
    omega

/-! ### A turn of OPT -/

/-- What OPT keeps: frames filled in order with pages it has seen, none
twice, and an exact table. -/
structure OptInv (F : ℕ) (w ρ : List ℤ) (s : Opt) : Prop where
  length : s.vector.length = F
  filled : Filled (-1) s.vector s.vectorNumber
  single : Single (-1) s.vector
  seen : ∀ p ∈ s.vector, p ≠ -1 → p ∈ w
  exact : Exact s.vector w ρ s.arr

/-- The last loop of `vector_update` overwrites one slot. -/
theorem map_replace {g : ℤ} : ∀ {v : List ℤ}, v.count g = 1 →
    v.map (fun x => if x = g then r else x) = v.set (v.idxOf g) r
  | [], h => by simp at h
  | x :: v, h => by
    by_cases hx : x = g
    · subst hx
      rw [List.count_cons_self] at h
      have hnot : x ∉ v := List.count_eq_zero.mp (by omega)
      rw [List.map_cons, if_pos rfl, List.idxOf_cons_self, List.set_cons_zero]
      have hid : v.map (fun y => if y = x then r else y) = v.map id :=
        List.map_congr_left fun y hy => if_neg fun hc : y = x => hnot (hc ▸ hy)
      rw [hid, List.map_id]
    · rw [List.count_cons_of_ne hx] at h
      rw [List.map_cons, if_neg hx, List.idxOf_cons_ne _ hx, List.set_cons_succ, map_replace h]

variable {F : ℕ} {s : Opt}

/-- The pages of a table after one was replaced. -/
theorem mem_set_idxOf {v : List ℤ} {g : ℤ} (hs : Single (-1) v) (hg : g ∈ v) (hg1 : g ≠ -1)
    (hq : q ≠ r) : q ∈ v.set (v.idxOf g) r ↔ q ∈ v ∧ q ≠ g := by
  have hc := count_set_add (List.getElem?_idxOf hg) r q
  rw [if_neg (Ne.symm hq)] at hc
  rw [← List.count_pos_iff, ← List.count_pos_iff]
  by_cases hqg : g = q
  · subst hqg
    have := hs g hg1
    rw [if_pos rfl] at hc
    exact ⟨fun h => by omega, fun h => absurd rfl h.2⟩
  · rw [if_neg hqg] at hc
    exact ⟨fun h => ⟨by omega, Ne.symm hqg⟩, fun h => by omega⟩

/-- The state after the reference `r` keeps the invariant and is that of a step
of a farthest-next-use schedule. -/
def OptStep (F : ℕ) (w : List ℤ) (r : ℤ) (ρ : List ℤ) (s s' : Opt) : Prop :=
  OptInv F (w ++ [r]) ρ s' ∧ ∃ d, s'.pageFault = s.pageFault + d ∧
    ∀ k, Farthest F (pages (-1) s'.vector) ρ k → Farthest F (pages (-1) s.vector) (r :: ρ) (k + d)

theorem OptInv.hit (hi : OptInv F w (r :: ρ) s) (ht : AtTest s.vector w r ρ arr) (hr : r ≠ -1)
    (hmem : r ∈ s.vector) : OptStep F w r ρ s { s with arr := arr } := by
  refine ⟨⟨hi.length, hi.filled, hi.single, ?_, ?_⟩, 0, rfl, fun k hk => ?_⟩
  · exact fun p hp hp1 => List.mem_append_left _ (hi.seen p hp hp1)
  · exact ht.exact hmem fun _ _ _ => Iff.rfl
  · exact .hit (mem_pages.mpr ⟨hr, hmem⟩) hk

/-- A page stored in a slot has been seen. -/
theorem OptInv.seen_set (hi : OptInv F w (r :: ρ) s) (n : ℕ) :
    ∀ p ∈ s.vector.set n r, p ≠ -1 → p ∈ w ++ [r] := by
  intro p hp hp1
  rcases List.mem_or_eq_of_mem_set hp with hp | rfl
  · exact List.mem_append_left _ (hi.seen p hp hp1)
  · exact List.mem_append_right w List.mem_cons_self

/-- A fault with a free frame. -/
theorem OptInv.load (hi : OptInv F w (r :: ρ) s) (ht : AtTest s.vector w r ρ arr) (hr : r ≠ -1)
    (hw : ∀ p ∈ w, p ≠ -1) (hmem : r ∉ s.vector) (hn : s.vectorNumber < F) :
    OptStep F w r ρ s
      ⟨s.vector.set s.vectorNumber r, s.vectorNumber + 1, s.pageFault + 1, arr⟩ := by
  have hlt : s.vectorNumber < s.vector.length := hi.length ▸ hn
  have hfree := hi.filled.getElem? hlt
  refine ⟨⟨List.length_set.trans hi.length, hi.filled.set hlt hr, single_set hi.single hmem,
    hi.seen_set _, ?_⟩, 1, rfl, fun k hk => ?_⟩
  · refine ht.exact (List.mem_set hlt r) fun p hp hpr => ?_
    rw [hi.filled.mem_set hlt (hw p hp), or_iff_left hpr]
  · rw [pages_load hi.single hmem hr hfree] at hk
    refine .load (notMem_pages hmem) ?_ hk
    rw [← hi.length]
    exact card_pages_lt hi.single (List.mem_of_getElem? hfree)

/-- A fault with all frames in use: the page `g` goes. -/
theorem OptInv.evict {a b : List ℤ} {g : ℤ} (hi : OptInv F w (r :: ρ) s)
    (ht : AtTest s.vector w r ρ arr) (hr : r ≠ -1) (hmem : r ∉ s.vector) (hn : F ≤ s.vectorNumber)
    (hw : w = a ++ g :: b) (hgb : g ∉ b ++ [r]) (hgv : g ∈ s.vector)
    (hfar : ∀ p ∈ s.vector, ρ.idxOf p ≤ ρ.idxOf g) :
    OptStep F w r ρ s ⟨s.vector.set (s.vector.idxOf g) r, s.vectorNumber + 1, s.pageFault + 1,
      arr.set a.length (-1)⟩ := by
  have hfull : -1 ∉ s.vector := hi.filled.full (by rw [hi.length]; exact hn)
  have hg1 : g ≠ -1 := fun hc => hfull (hc ▸ hgv)
  have hlt : s.vector.idxOf g < s.vector.length := List.idxOf_lt_length_iff.mpr hgv
  refine ⟨⟨List.length_set.trans hi.length, ?_, single_set hi.single hmem, hi.seen_set _, ?_⟩,
    1, rfl, fun k hk => ?_⟩
  · refine filled_of_full (notMem_set hfull hr) ?_
    rw [List.length_set, hi.length]
    exact hn.trans (Nat.le_succ _)
  · exact ht.exact_evict hw hgb (List.mem_set hlt r) fun q hq =>
      mem_set_idxOf hi.single hgv hg1 hq
  · rw [pages_set hi.single hmem hr (List.getElem?_idxOf hgv)] at hk
    refine .evict (notMem_pages hmem) ?_ (mem_pages.mpr ⟨hg1, hgv⟩) ?_ hk
    · rw [card_pages_eq hi.single hfull, hi.length]
    · exact fun p hp => hfar p (mem_pages.mp hp).2

/-- `vector_update` with all frames in use: it overwrites one slot, that of a
page whose next use is farthest. -/
theorem OptInv.vectorUpdate_full (hF : 1 ≤ F) (h : Reads elem (w ++ r :: ρ))
    (hi : OptInv F w (r :: ρ) s) (ht : AtTest s.vector w r ρ arr) (hmem : r ∉ s.vector)
    (hn : F ≤ s.vectorNumber) (n : ℕ) :
    ∃ a g b, w = a ++ g :: b ∧ g ∉ b ++ [r] ∧ g ∈ s.vector ∧
      (∀ p ∈ s.vector, ρ.idxOf p ≤ ρ.idxOf g) ∧
      vectorUpdate F elem ⟨s.vector, s.vectorNumber, n, arr⟩ (2 * w.length) =
        some ⟨s.vector.set (s.vector.idxOf g) r, s.vectorNumber, n, arr.set a.length (-1)⟩ := by
  have hfull : -1 ∉ s.vector := hi.filled.full (by rw [hi.length]; exact hn)
  have hne : s.vector ≠ [] := List.ne_nil_of_length_pos (by rw [hi.length]; omega)
  obtain ⟨a, g, b, hw, ha, hgb, hgv, hfar⟩ := ht.victim hne
    (fun p hp => hi.seen p hp fun hc => hfull (hc ▸ hp)) hmem
  refine ⟨a, g, b, hw, hgb, hgv, hfar, ?_⟩
  have hrpage := h.page_at
  have hgpage : elem (a.length * 2) = some (g + 48) := by
    rw [hw, List.append_assoc] at h
    rw [Nat.mul_comm]
    exact h.page_at
  have hcount : s.vector.count g = 1 := by
    have := hi.single g fun hc => hfull (hc ▸ hgv)
    have := List.count_pos_iff.mpr hgv
    omega
  have hdiv : 2 * w.length / 2 = w.length := by omega
  unfold vectorUpdate
  simp only [Option.bind_eq_bind, hrpage, Option.bind_some, Int.add_sub_cancel,
    if_neg (Nat.not_lt.mpr hn), hdiv, ← ha, hgpage, map_replace hcount, if_pos (find_iff.mpr hgv)]

/-- **A turn of OPT** keeps the invariant and is a step of a farthest-next-use
schedule. -/
theorem optTurn_step (hF : 1 ≤ F) (h : Reads elem (w ++ r :: ρ)) (hi : OptInv F w (r :: ρ) s) :
    ∃ s', optTurn F elem elem s (2 * w.length) r = some s' ∧ OptStep F w r ρ s s' := by
  obtain ⟨arr1, hdrop, htest⟩ := hi.exact.atTest h
  have hr1 : r ≠ -1 := h.marker r (by simp)
  unfold optTurn
  simp only [Option.bind_eq_bind, hdrop, Option.bind_some]
  by_cases hmem : r ∈ s.vector
  · rw [if_pos (find_iff.mpr hmem)]
    exact ⟨_, rfl, hi.hit htest hr1 hmem⟩
  rw [if_neg (by rwa [find_iff])]
  by_cases hn : s.vectorNumber < F
  · unfold vectorUpdate
    simp only [Option.bind_eq_bind, h.page_at, Option.bind_some, Int.add_sub_cancel]
    rw [if_pos hn]
    refine ⟨_, rfl, hi.load htest hr1 (fun p hp => ?_) hmem hn⟩
    exact h.marker p (List.mem_append_left _ hp)
  · obtain ⟨a, g, b, hw, hgb, hgv, hfar, hupdate⟩ :=
      hi.vectorUpdate_full hF h htest hmem (Nat.le_of_not_lt hn) (s.pageFault + 1)
    rw [hupdate]
    exact ⟨_, rfl, hi.evict htest hr1 hmem (Nat.le_of_not_lt hn) hw hgb hgv hfar⟩

/-! ### Main results -/

theorem Reads.length_lt (h : Reads elem (w ++ r :: ρ)) : w.length < 31 := by
  have := h.length
  rw [List.length_append, List.length_cons] at this
  omega

/-- The main loop at the reference behind `w`. -/
theorem Reads.mainLoop_cons {S : Type} {body : S → ℕ → ℤ → Option S} {s s1 : S}
    (h : Reads elem (w ++ r :: ρ)) (hturn : body s (2 * w.length) r = some s1) (is : List ℕ) :
    mainLoop elem body (2 * w.length :: is) s = mainLoop elem body is s1 := by
  have hr0 : r + 48 ≠ 0 := h.nonzero r (by simp)
  rw [mainLoop, h.page_at]
  simp only [Option.bind_eq_bind, Option.bind_some, Int.add_sub_cancel]
  rw [if_neg hr0, hturn, Option.bind_some]

/-- **OPT is a farthest-next-use schedule.** -/
theorem opt_farthest (hF : 1 ≤ F) : ∀ (ρ w : List ℤ) (s : Opt), Reads elem (w ++ ρ) →
    OptInv F w ρ s → ∃ s' k, mainLoop elem (optTurn F elem elem) (slots.drop w.length) s = some s' ∧
      s'.pageFault = s.pageFault + k ∧ Farthest F (pages (-1) s.vector) ρ k
  | [], w, s, h, _ => by
    rw [List.append_nil] at h
    refine ⟨s, 0, ?_, rfl, .nil _⟩
    rcases Nat.lt_or_ge w.length 31 with hlt | hge
    · rw [slots_drop hlt, mainLoop, h.stop hlt]
      rfl
    · rw [List.drop_of_length_le (by simpa [slots] using hge)]
      rfl
  | r :: ρ, w, s, h, hi => by
    obtain ⟨s1, hturn, hi1, d, hd, hstep⟩ := optTurn_step hF h hi
    have h' : Reads elem ((w ++ [r]) ++ ρ) := by rwa [List.append_assoc, List.singleton_append]
    obtain ⟨s', k, hloop, hk, hfar⟩ := opt_farthest hF ρ (w ++ [r]) s1 h' hi1
    rw [List.length_append, List.length_singleton] at hloop
    refine ⟨s', k + d, ?_, by omega, hstep k hfar⟩
    rw [slots_drop h.length_lt, h.mainLoop_cons hturn]
    exact hloop

/-- Empty frames and the initial distances. -/
theorem Reads.optInv_init (F : ℕ) (h : Reads elem σ) : ∃ arr, Paging.initDistances elem = some arr ∧
    OptInv F [] σ ⟨List.replicate F (-1), 0, 0, arr⟩ := by
  obtain ⟨arr, harr, hlen, hval⟩ := h.initDistances
  refine ⟨arr, harr, List.length_replicate, filled_replicate _ _, single_replicate _ _, ?_, hlen, ?_,
    ?_⟩
  · exact fun p hp hp1 => absurd (List.mem_replicate.mp hp).2 hp1
  · exact fun a q b hs => absurd hs.symm (by simp)
  · intro a q b hs
    rw [List.length_nil, Nat.zero_add]
    exact hval a q b hs

/-- The whole of `OPT`, from empty frames. -/
theorem Reads.opt (hF : 1 ≤ F) (h : Reads elem σ) :
    ∃ s, opt F elem elem = some s ∧ Farthest F ∅ σ s.pageFault := by
  obtain ⟨arr, harr, hi⟩ := h.optInv_init F
  obtain ⟨s, k, hs, hk, hfar⟩ := opt_farthest hF σ [] _ h hi
  rw [pages_replicate] at hfar
  refine ⟨s, ?_, ?_⟩
  · rw [Paging.opt, harr]
    exact hs
  · rw [hk, Nat.zero_add]
    exact hfar

/-- FIFO is a schedule. -/
theorem Reads.fifo (hF : 1 ≤ F) (h : Reads elem σ) :
    ∃ s, fifo F elem = some s ∧ Run F ∅ σ s.pageFault := by
  have hσ := h.marker
  obtain ⟨s, k, hs, -, -, hk, hrun⟩ := (fifo_serves F hσ).run hσ σ [] (fifoInit F) List.prefix_rfl
    (fifoInv_init hF) (single_replicate _ _)
  refine ⟨s, ?_, ?_⟩
  · rw [Paging.fifo, mainLoop_eq elem (fun s r => some (fifoTurn F s r)), h.references]
    exact hs
  · rw [hk]
    simpa [fifoInit, pages_replicate] using hrun

/-- SCR is a schedule. -/
theorem Reads.scr (hF : 1 ≤ F) (h : Reads elem σ) :
    ∃ s, scr F elem = some s ∧ Run F ∅ σ s.pageFault := by
  have hσ := h.marker
  obtain ⟨s, k, hs, -, -, hk, hrun⟩ := (scr_serves hF hσ).run hσ σ [] (scrInit F) List.prefix_rfl
    (scrInv_init F) (single_replicate _ _)
  refine ⟨s, ?_, ?_⟩
  · rw [Paging.scr, mainLoop_eq elem (scrTurn F), h.references]
    exact hs
  · rw [hk]
    simpa [scrInit, pages_replicate] using hrun

/-- The fault counts of the simulators on a file, with `page_reference` a
buffer of 62 bytes. -/
def optFaults (file : List ℕ) : Option ℕ :=
  let (frames, buf) := readInput 62 file
  (opt frames.toNat (byteAt buf) (byteAt buf)).map Opt.pageFault

def fifoFaults (file : List ℕ) : Option ℕ :=
  let (frames, buf) := readInput 62 file
  (fifo frames.toNat (byteAt buf)).map Fifo.pageFault

def scrFaults (file : List ℕ) : Option ℕ :=
  let (frames, buf) := readInput 62 file
  (scr frames.toNat (byteAt buf)).map Scr.pageFault

/-- **OPT is optimal.** For every number of frames and every string of at most
31 pages, OPT is a demand-paging schedule and none has fewer faults; FIFO and
SCR are such schedules. -/
theorem opt_optimal (F : ℕ) (hF : 1 ≤ F) (ds : List (Fin 10)) (hlen : ds.length ≤ 31)
    (newline : Bool) :
    ∃ k, optFaults (inputFile F ds newline) = some k ∧ Run F ∅ (pagesOf ds) k ∧
      (∀ k', Run F ∅ (pagesOf ds) k' → k ≤ k') ∧
      (∃ k', fifoFaults (inputFile F ds newline) = some k' ∧ k ≤ k') ∧
      ∃ k', scrFaults (inputFile F ds newline) = some k' ∧ k ≤ k' := by
  have hreads := reads_inputFile F newline hlen
  have hframes : (readInput 62 (inputFile F ds newline)).1.toNat = F := by
    rw [readInput_inputFile F newline hlen le_rfl]
    exact Int.toNat_natCast F
  obtain ⟨s, hs, hfar⟩ := hreads.opt hF
  obtain ⟨f, hf, hfifo⟩ := hreads.fifo hF
  obtain ⟨c, hc, hscr⟩ := hreads.scr hF
  have hopt : ∀ k', Run F ∅ (pagesOf ds) k' → s.pageFault ≤ k' := fun k' hk' =>
    farthest_le_run hfar (by simp) hk'
  refine ⟨s.pageFault, ?_, hfar.run, hopt, ⟨f.pageFault, ?_, hopt _ hfifo⟩, c.pageFault, ?_, hopt _ hscr⟩
  · simp only [optFaults, hframes, hs, Option.map_some]
  · simp only [fifoFaults, hframes, hf, Option.map_some]
  · simp only [scrFaults, hframes, hc, Option.map_some]

/-- Belady's string on three frames. -/
theorem opt_optimal_belady : ∃ k, optFaults (inputFile 3 [1, 2, 3, 4, 1, 2, 5, 1, 2, 3, 4, 5] true)
    = some k ∧ Run 3 ∅ (pagesOf [1, 2, 3, 4, 1, 2, 5, 1, 2, 3, 4, 5]) k ∧
      (∀ k', Run 3 ∅ (pagesOf [1, 2, 3, 4, 1, 2, 5, 1, 2, 3, 4, 5]) k' → k ≤ k') :=
  let ⟨k, h, hrun, hk, _⟩ := opt_optimal 3 (by decide) [1, 2, 3, 4, 1, 2, 5, 1, 2, 3, 4, 5] (by decide) true
  ⟨k, h, hrun, hk⟩

end Paging
end LinuxProg
