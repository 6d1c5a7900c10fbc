/-
# Frame tables

A page table of `F` frames kept in an array: a slot holds a page, or the
marker `e` of an empty frame. A reference is served by one `Step`: a hit
leaves the table, a miss stores the page in an empty slot, or in any slot
once none is empty.

Whatever slot each step picks, no page ever occupies two slots (`Single`),
the page just referenced occupies one (`Step.count_self`), and the steps are a
demand-paging schedule on the set of pages stored (`Step.run`).
-/
import Mathlib
import LinuxProg.Lib.Belady

namespace LinuxProg
namespace Frames

open Belady

variable {α : Type*} [DecidableEq α] {e r p : α} {q q' : List α} {i d : ℕ}

/-- No page occupies two slots. -/
def Single (e : α) (q : List α) : Prop := ∀ p, p ≠ e → q.count p ≤ 1

/-- The pages stored in the table. -/
def pages (e : α) (q : List α) : Finset α := q.toFinset.erase e

/-- One reference served, with the number of faults it took. -/
inductive Step (e : α) : List α → α → List α → ℕ → Prop where
  | hit {q : List α} {r : α} : r ∈ q → Step e q r q 0
  | load {q : List α} {r : α} {i : ℕ} : r ∉ q → q[i]? = some e → Step e q r (q.set i r) 1
  | evict {q : List α} {r : α} {i : ℕ} : r ∉ q → e ∉ q → i < q.length → Step e q r (q.set i r) 1

/-! ### The table as a set -/

theorem mem_pages : p ∈ pages e q ↔ p ≠ e ∧ p ∈ q := by
  rw [pages, Finset.mem_erase, List.mem_toFinset]

theorem single_replicate (e : α) (F : ℕ) : Single e (List.replicate F e) := by
  intro p hp
  rw [List.count_replicate, if_neg (by simpa using Ne.symm hp)]
  omega

theorem pages_replicate (e : α) (F : ℕ) : pages e (List.replicate F e) = ∅ := by
  rw [Finset.eq_empty_iff_forall_notMem]
  intro p hp
  rw [mem_pages, List.mem_replicate] at hp
  exact hp.1 hp.2.2

/-- Slots are empty or hold a page of their own. -/
theorem card_pages (h : Single e q) : (pages e q).card + q.count e = q.length := by
  induction q with
  | nil => rfl
  | cons a q ih =>
    have hq : Single e q := fun p hp => le_trans (List.count_le_count_cons) (h p hp)
    have ih := ih hq
    by_cases ha : a = e
    · have hp : pages e (a :: q) = pages e q := by
        ext p
        rw [mem_pages, mem_pages, List.mem_cons, ha]
        exact ⟨fun h => ⟨h.1, h.2.resolve_left h.1⟩, fun h => ⟨h.1, Or.inr h.2⟩⟩
      rw [hp, ha, List.count_cons_self, List.length_cons]
      omega
    · have hnot : a ∉ pages e q := by
        intro hmem
        have h1 := h a ha
        have h2 : 0 < q.count a := List.count_pos_iff.mpr (mem_pages.mp hmem).2
        rw [List.count_cons_self] at h1
        omega
      have hp : pages e (a :: q) = insert a (pages e q) := by
        ext p
        rw [Finset.mem_insert, mem_pages, mem_pages, List.mem_cons]
        constructor
        · rintro ⟨h1, rfl | h2⟩
          · exact Or.inl rfl
          · exact Or.inr ⟨h1, h2⟩
        · rintro (rfl | ⟨h1, h2⟩)
          · exact ⟨ha, Or.inl rfl⟩
          · exact ⟨h1, Or.inr h2⟩
      rw [hp, Finset.card_insert_of_notMem hnot, List.count_cons_of_ne (Ne.symm ha |>.symm),
        List.length_cons]
      omega

/-- The occurrences of a page after slot `i`, with `g` in it, was overwritten. -/
theorem count_set_add {g : α} (hi : q[i]? = some g) (r p : α) :
    (q.set i r).count p + (if g = p then 1 else 0) = q.count p + if r = p then 1 else 0 := by
  obtain ⟨hlt, hget⟩ := List.getElem?_eq_some_iff.mp hi
  have hg : g ∈ q := List.mem_of_getElem? hi
  have hpos : g = p → 0 < q.count p := fun h => List.count_pos_iff.mpr (h ▸ hg)
  rw [List.count_set hlt, hget]
  simp only [beq_iff_eq]
  by_cases h1 : g = p
  · have := hpos h1
    rw [if_pos h1]
    omega
  · rw [if_neg h1]
    omega

/-! ### What a step keeps -/

theorem single_set (hs : Single e q) (hr : r ∉ q) : Single e (q.set i r) := by
  intro p hp
  rcases Nat.lt_or_ge i q.length with hi | hi
  · have hc := count_set_add (List.getElem?_eq_getElem hi) r p
    by_cases hrp : r = p
    · subst hrp
      rw [List.count_eq_zero.mpr hr, if_pos rfl] at hc
      omega
    · have := hs p hp
      rw [if_neg hrp] at hc
      omega
  · rw [List.set_eq_of_length_le hi]
    exact hs p hp

theorem count_set_self (hr : r ∉ q) (hi : i < q.length) : (q.set i r).count r = 1 := by
  have hc := count_set_add (List.getElem?_eq_getElem hi) r r
  have hne : q[i] ≠ r := fun h => hr (h ▸ List.getElem_mem hi)
  rw [List.count_eq_zero.mpr hr, if_neg hne, if_pos rfl] at hc
  exact hc

omit [DecidableEq α] in
theorem Step.length (h : Step e q r q' d) : q'.length = q.length := by
  cases h with
  | hit => rfl
  | load => exact List.length_set
  | evict => exact List.length_set

theorem Step.single (h : Step e q r q' d) (hs : Single e q) : Single e q' := by
  cases h with
  | hit => exact hs
  | load hr => exact single_set hs hr
  | evict hr => exact single_set hs hr

/-- The page just referenced occupies exactly one slot. -/
theorem Step.count_self (h : Step e q r q' d) (hs : Single e q) (hre : r ≠ e) :
    q'.count r = 1 := by
  cases h with
  | hit hr =>
    have := hs r hre
    have : 0 < q.count r := List.count_pos_iff.mpr hr
    omega
  | load hr hi => exact count_set_self hr (List.getElem?_eq_some_iff.mp hi).1
  | evict hr _ hi => exact count_set_self hr hi

/-- The pages after slot `i`, with `g` in it, was given to `r`. -/
theorem pages_set {g : α} (hs : Single e q) (hr : r ∉ q) (hre : r ≠ e) (hi : q[i]? = some g) :
    pages e (q.set i r) = insert r ((pages e q).erase g) := by
  ext p
  rw [Finset.mem_insert, Finset.mem_erase, mem_pages, mem_pages, ← List.count_pos_iff,
    ← List.count_pos_iff]
  have hc := count_set_add hi r p
  by_cases hrp : r = p
  · subst hrp
    have : g ≠ r := fun h => hr (h ▸ List.mem_of_getElem? hi)
    rw [if_neg this, if_pos rfl] at hc
    exact ⟨fun _ => Or.inl rfl, fun _ => ⟨hre, by omega⟩⟩
  · rw [if_neg hrp] at hc
    by_cases hgp : g = p
    · subst hgp
      rw [if_pos rfl] at hc
      refine ⟨fun h => ?_, fun h => ?_⟩
      · have := hs g h.1
        omega
      · rcases h with h | h
        · exact absurd h.symm hrp
        · exact absurd rfl h.1
    · rw [if_neg hgp] at hc
      refine ⟨fun h => Or.inr ⟨Ne.symm hgp, h.1, by omega⟩, fun h => ?_⟩
      rcases h with h | h
      · exact absurd h.symm hrp
      · exact ⟨h.2.1, by omega⟩

/-- The pages after a page was loaded into an empty slot. -/
theorem pages_load (hs : Single e q) (hr : r ∉ q) (hre : r ≠ e) (hi : q[i]? = some e) :
    pages e (q.set i r) = insert r (pages e q) := by
  have he : e ∉ pages e q := fun h => (mem_pages.mp h).1 rfl
  rw [pages_set hs hr hre hi, Finset.erase_eq_of_notMem he]

/-- A table with an empty slot is not full. -/
theorem card_pages_lt (hs : Single e q) (he : e ∈ q) : (pages e q).card < q.length := by
  have := card_pages hs
  have : 0 < q.count e := List.count_pos_iff.mpr he
  omega

/-- A table without an empty slot is full. -/
theorem card_pages_eq (hs : Single e q) (he : e ∉ q) : (pages e q).card = q.length := by
  have := card_pages hs
  rw [List.count_eq_zero.mpr he] at this
  exact this

theorem notMem_pages (hr : r ∉ q) : r ∉ pages e q := fun h => hr (mem_pages.mp h).2

/-- **A step is a step of a schedule** on the pages stored. -/
theorem Step.run {σ : List α} {k : ℕ} (h : Step e q r q' d) (hs : Single e q) (hre : r ≠ e)
    (hrun : Run q.length (pages e q') σ k) : Run q.length (pages e q) (r :: σ) (k + d) := by
  cases h with
  | hit hr => exact .hit (mem_pages.mpr ⟨hre, hr⟩) hrun
  | load hr hi =>
    rw [pages_load hs hr hre hi] at hrun
    exact .load (notMem_pages hr) (card_pages_lt hs (List.mem_of_getElem? hi)) hrun
  | @evict i hr he hi =>
    have hi' := List.getElem?_eq_getElem hi
    have hmem : q[i] ∈ pages e q :=
      mem_pages.mpr ⟨fun h => he (h ▸ List.getElem_mem hi), List.getElem_mem hi⟩
    rw [pages_set hs hr hre hi'] at hrun
    exact .evict (notMem_pages hr) (card_pages_eq hs he).ge hmem hrun

/-! ### Filling the frames in order -/

/-- The first `n` slots hold pages, the others are empty. -/
def Filled (e : α) (q : List α) (n : ℕ) : Prop := e ∉ q.take n ∧ ∀ x ∈ q.drop n, x = e

omit [DecidableEq α] in
theorem filled_replicate (e : α) (F : ℕ) : Filled e (List.replicate F e) 0 :=
  ⟨by simp, fun _ hx => (List.mem_replicate.mp hx).2⟩

omit [DecidableEq α] in
theorem Filled.full {n : ℕ} (h : Filled e q n) (hn : q.length ≤ n) : e ∉ q := by
  have := h.1
  rwa [List.take_of_length_le hn] at this

omit [DecidableEq α] in
theorem filled_of_full {n : ℕ} (h : e ∉ q) (hn : q.length ≤ n) : Filled e q n := by
  rw [Filled, List.take_of_length_le hn, List.drop_of_length_le hn]
  exact ⟨h, fun _ hx => absurd hx List.not_mem_nil⟩

omit [DecidableEq α] in
theorem Filled.getElem? {n : ℕ} (h : Filled e q n) (hn : n < q.length) : q[n]? = some e := by
  have hmem : q[n] ∈ q.drop n := by
    rw [List.drop_eq_getElem_cons hn]
    exact List.mem_cons_self
  rw [List.getElem?_eq_getElem hn, h.2 _ hmem]

omit [DecidableEq α] in
/-- The next free slot gets a page. -/
theorem Filled.set {n : ℕ} (h : Filled e q n) (hn : n < q.length) (hre : r ≠ e) :
    Filled e (q.set n r) (n + 1) := by
  have htake : (q.set n r).take (n + 1) = q.take n ++ [r] := by
    rw [List.take_set, List.take_succ_eq_append_getElem hn,
      List.set_append_right _ _ (by rw [List.length_take]; omega)]
    simp [Nat.min_eq_left hn.le]
  have hdrop : (q.set n r).drop (n + 1) = q.drop (n + 1) := List.drop_set_of_lt (by omega)
  refine ⟨?_, fun x hx => h.2 x ?_⟩
  · rw [htake, List.mem_append, List.mem_singleton]
    exact fun hmem => hmem.elim h.1 fun he => hre he.symm
  · rw [hdrop] at hx
    exact List.mem_of_mem_drop (by rwa [List.drop_drop] : x ∈ (q.drop n).drop 1)

omit [DecidableEq α] in
/-- Taking a free slot adds a page and loses none. -/
theorem Filled.mem_set {n : ℕ} (h : Filled e q n) (hn : n < q.length) (hp : p ≠ e) :
    p ∈ q.set n r ↔ p ∈ q ∨ p = r := by
  constructor
  · exact List.mem_or_eq_of_mem_set
  · rintro (hc | rfl)
    · obtain ⟨i, hi, rfl⟩ := List.getElem_of_mem hc
      have hne : n ≠ i := by
        rintro rfl
        have := h.getElem? hn
        rw [List.getElem?_eq_getElem hn] at this
        exact hp (Option.some.inj this)
      exact List.mem_of_getElem? (i := i) (by
        rw [List.getElem?_set_ne hne, List.getElem?_eq_getElem hi])
    · exact List.mem_set hn p

omit [DecidableEq α] in
theorem notMem_set (he : e ∉ q) (hre : r ≠ e) : e ∉ q.set i r := fun h =>
  (List.mem_or_eq_of_mem_set h).elim he fun h => hre h.symm

/-! ### Simulators -/

section Serve

variable {S : Type*} {turn : S → α → Option S} {table : S → List α} {fault : S → ℕ}
  {Inv : List α → S → Prop} {σ : List α}

/-- The turns of a simulator are steps of its table, as long as what it keeps
of the references so far (`Inv`) holds. -/
def Serves (e : α) (turn : S → α → Option S) (table : S → List α) (fault : S → ℕ)
    (Inv : List α → S → Prop) (σ : List α) : Prop :=
  ∀ w r s, w ++ [r] <+: σ → Inv w s → Single e (table s) →
    ∃ s' d, turn s r = some s' ∧ Inv (w ++ [r]) s' ∧ fault s' = fault s + d ∧
      Step e (table s) r (table s') d

omit [DecidableEq α] in
/-- Turns that cannot fail. -/
theorem foldlM_some (turn : S → α → S) (σ : List α) (s : S) :
    σ.foldlM (fun s r => some (turn s r)) s = some (σ.foldl turn s) :=
  List.foldlM_pure

/-- **Every reference is served**: the simulator goes through its reference
string, its table never holds a page twice, and it is a schedule. -/
theorem Serves.run (h : Serves e turn table fault Inv σ) (hσ : ∀ r ∈ σ, r ≠ e) :
    ∀ (ρ w : List α) (s : S), w ++ ρ <+: σ → Inv w s → Single e (table s) →
    ∃ s' k, ρ.foldlM turn s = some s' ∧ Inv (w ++ ρ) s' ∧ Single e (table s') ∧
      fault s' = fault s + k ∧ Run (table s).length (pages e (table s)) ρ k
  | [], w, s, _, hi, hs => by
    rw [List.append_nil]
    exact ⟨s, 0, rfl, hi, hs, rfl, .nil _⟩
  | r :: ρ, w, s, hpre, hi, hs => by
    have hpre' : (w ++ [r]) ++ ρ <+: σ := by rwa [List.append_assoc, List.singleton_append]
    have hr : r ≠ e := hσ r (hpre.subset (by simp))
    obtain ⟨s1, d, ht, hi1, hd, hstep⟩ := h w r s ((List.prefix_append _ ρ).trans hpre') hi hs
    obtain ⟨s', k, hf, hi', hs', hk, hrun⟩ := Serves.run h hσ ρ (w ++ [r]) s1 hpre' hi1
      (hstep.single hs)
    rw [hstep.length] at hrun
    refine ⟨s', k + d, ?_, by simpa using hi', hs', by omega, hstep.run hs hr hrun⟩
    rw [List.foldlM_cons, ht]
    exact hf

/-- **Residency**: after every reference its page is in exactly one slot. -/
theorem Serves.count_self (h : Serves e turn table fault Inv σ) (hσ : ∀ r ∈ σ, r ≠ e) {s : S}
    (hi : Inv [] s) (hs : Single e (table s)) {w : List α} (hw : w ++ [r] <+: σ) :
    ∃ s', (w ++ [r]).foldlM turn s = some s' ∧ (table s').count r = 1 ∧ Single e (table s') := by
  obtain ⟨s1, -, hf, hi1, hs1, -, -⟩ := h.run hσ w [] s ((List.prefix_append _ _).trans hw) hi hs
  rw [List.nil_append] at hi1
  obtain ⟨s', d, ht, -, -, hstep⟩ := h w r s1 hw hi1 hs1
  have hr : r ≠ e := hσ r (hw.subset (by simp))
  refine ⟨s', ?_, hstep.count_self hs1 hr, hstep.single hs1⟩
  rw [List.foldlM_append, hf]
  simpa using ht

end Serve

end Frames
end LinuxProg
