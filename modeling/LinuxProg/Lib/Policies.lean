/-
# Replacement policies

A replacement policy as a state of its own and the answer it gives to each
reference: a hit, a load into a free frame, or the eviction of a page. The
policies here keep lists of pages: second chance a queue of pages with their
bits, LRU the pages in the order of their last use.

A simulator that keeps a frame table simulates a policy along a reference
string (`Simulates`) if every turn changes the table the way the policy
answers. Then it runs through the string, ends related to the policy's state
and faults where the policy does (`Simulates.run`).

Key definitions: `Reply`, `Answered`, `Policy`, `Simulates`, `fifo`, `spare`,
`secondChance`, `recent`, `age`, `lru`.
Key theorems: `Simulates.run`, `after_fifo`, `pairwise_recent`, `after_lru`.
-/
import Mathlib

namespace LinuxProg
namespace Policies

variable {α : Type*} {Λ : Type*}

/-- How a reference is answered. -/
inductive Reply (α : Type*) where
  | hit
  | load
  | evict (victim : α)
  deriving DecidableEq, Repr

/-- The faults of an answer. -/
def Reply.faults : Reply α → ℕ
  | .hit => 0
  | .load => 1
  | .evict _ => 1

/-- The table `q'` after a reference to `r` was answered on the table `q`; `e`
marks an empty frame. -/
inductive Answered (e : α) (q : List α) (r : α) : List α → Reply α → Prop where
  | hit : r ∈ q → Answered e q r q .hit
  | load {i : ℕ} : r ∉ q → q[i]? = some e → Answered e q r (q.set i r) .load
  | evict {i : ℕ} {v : α} : r ∉ q → e ∉ q → q[i]? = some v → Answered e q r (q.set i r) (.evict v)

/-- The page evicted is the one that was in the slot. -/
theorem Answered.victim {e r v : α} {q : List α} {i : ℕ} (hi : i < q.length)
    (h : Answered e q r (q.set i r) (.evict v)) : q[i]? = some v := by
  generalize hq : q.set i r = q' at h
  cases h with
  | @evict j _ hr _ hv =>
    have hij : i = j := by
      by_contra hij
      have hget : (q.set j r)[i]? = some r := by rw [← hq, List.getElem?_set_self hi]
      rw [List.getElem?_set_ne (Ne.symm hij)] at hget
      exact hr (List.mem_of_getElem? hget)
    rw [hij]
    exact hv

/-- A miss on a full table evicts. -/
theorem Answered.full {e r : α} {q q' : List α} {a : Reply α} (h : Answered e q r q' a) (hr : r ∉ q)
    (he : e ∉ q) : ∃ v, a = .evict v := by
  cases h with
  | hit hmem => exact absurd hmem hr
  | load _ hslot => exact absurd (List.mem_of_getElem? hslot) he
  | @evict _ v => exact ⟨v, rfl⟩

/-- A policy: from its state and a reference to its next state and the answer. -/
abbrev Policy (α Λ : Type*) := Λ → α → Λ × Reply α

/-- The state of the policy after a reference string. -/
def Policy.after (P : Policy α Λ) (L : Λ) (σ : List α) : Λ := σ.foldl (fun L r => (P L r).1) L

/-- The references at which the policy faults. -/
def Policy.misses (P : Policy α Λ) : Λ → List α → List α
  | _, [] => []
  | L, r :: σ => List.replicate (P L r).2.faults r ++ P.misses (P L r).1 σ

theorem Policy.after_snoc (P : Policy α Λ) (L : Λ) (σ : List α) (r : α) :
    P.after L (σ ++ [r]) = (P (P.after L σ) r).1 := by
  simp only [Policy.after, List.foldl_append, List.foldl_cons, List.foldl_nil]

theorem Policy.misses_snoc (P : Policy α Λ) (r : α) : ∀ (σ : List α) (L : Λ),
    P.misses L (σ ++ [r]) = P.misses L σ ++ List.replicate (P (P.after L σ) r).2.faults r
  | [], L => by simp [Policy.misses, Policy.after]
  | x :: σ, L => by
    rw [List.cons_append, Policy.misses, Policy.misses, Policy.misses_snoc P r σ, List.append_assoc]
    rfl

theorem Policy.after_append (P : Policy α Λ) (L : Λ) (w u : List α) :
    P.after L (w ++ u) = P.after (P.after L w) u := by
  simp [Policy.after, List.foldl_append]

theorem Policy.misses_append (P : Policy α Λ) : ∀ (L : Λ) (w u : List α),
    P.misses L (w ++ u) = P.misses L w ++ P.misses (P.after L w) u
  | L, [], u => rfl
  | L, r :: w, u => by
    rw [List.cons_append, Policy.misses, Policy.misses, Policy.misses_append P _ w u,
      List.append_assoc]
    rfl

theorem Policy.misses_subset (P : Policy α Λ) : ∀ (u : List α) (L : Λ), P.misses L u ⊆ u
  | [], _ => fun _ hp => hp
  | r :: u, L => by
    intro p hp
    rw [Policy.misses, List.mem_append] at hp
    rcases hp with hp | hp
    · simp [List.eq_of_mem_replicate hp]
    · exact List.mem_cons_of_mem r (P.misses_subset u _ hp)

/-! ### Simulation -/

section Simulation

variable {S : Type*} {e : α} {turn : S → α → Option S} {table : S → List α} {fault : S → ℕ}
  {P : Policy α Λ} {R : List α → S → Λ → Prop} {σ : List α}

/-- The references at which a simulator counts a fault. -/
def faulted (turn : S → α → Option S) (fault : S → ℕ) : S → List α → List α
  | _, [] => []
  | s, r :: ρ =>
    match turn s r with
    | none => []
    | some s' => List.replicate (fault s' - fault s) r ++ faulted turn fault s' ρ

/-- Along the reference string `σ` every turn answers as the policy does, and
keeps what relates the references so far, the simulator and the policy. -/
def Simulates (e : α) (turn : S → α → Option S) (table : S → List α) (fault : S → ℕ)
    (P : Policy α Λ) (R : List α → S → Λ → Prop) (σ : List α) : Prop :=
  ∀ w r s L, w ++ [r] <+: σ → R w s L →
    ∃ s', turn s r = some s' ∧ R (w ++ [r]) s' (P L r).1 ∧
      fault s' = fault s + (P L r).2.faults ∧ Answered e (table s) r (table s') (P L r).2

/-- **A simulation goes through**: the simulator and the policy end related,
and have the same faults. -/
theorem Simulates.run (h : Simulates e turn table fault P R σ) :
    ∀ (ρ w : List α) (s : S) (L : Λ), w ++ ρ <+: σ → R w s L →
    ∃ s', ρ.foldlM turn s = some s' ∧ R (w ++ ρ) s' (P.after L ρ) ∧
      faulted turn fault s ρ = P.misses L ρ ∧ fault s' = fault s + (P.misses L ρ).length
  | [], w, s, L, _, hR => by
    rw [List.append_nil]
    exact ⟨s, rfl, hR, rfl, rfl⟩
  | r :: ρ, w, s, L, hpre, hR => by
    have hpre' : (w ++ [r]) ++ ρ <+: σ := by rwa [List.append_assoc, List.singleton_append]
    obtain ⟨s1, hturn, hR1, hf1, -⟩ := h w r s L ((List.prefix_append _ ρ).trans hpre') hR
    obtain ⟨s', hs', hR', hmiss, hf'⟩ := Simulates.run h ρ (w ++ [r]) s1 (P L r).1 hpre' hR1
    rw [List.append_assoc, List.singleton_append] at hR'
    refine ⟨s', ?_, hR', ?_, ?_⟩
    · rw [List.foldlM_cons, hturn]
      exact hs'
    · rw [faulted, hturn, Policy.misses]
      simp only [hmiss, hf1, Nat.add_sub_cancel_left]
    · rw [hf', hf1, Policy.misses, List.length_append, List.length_replicate]
      omega

/-- What a run reaches before its next reference, and that reference's turn. -/
theorem Simulates.next (h : Simulates e turn table fault P R σ) {s : S} {L : Λ} (hR : R [] s L)
    {w : List α} {r : α} (hw : w ++ [r] <+: σ) :
    ∃ s1 s2, w.foldlM turn s = some s1 ∧ R w s1 (P.after L w) ∧
      fault s1 = fault s + (P.misses L w).length ∧ turn s1 r = some s2 ∧
      fault s2 = fault s1 + (P (P.after L w) r).2.faults ∧
      Answered e (table s1) r (table s2) (P (P.after L w) r).2 := by
  obtain ⟨s1, hs1, hR1, -, hf1⟩ := h.run w [] s L ((List.prefix_append _ _).trans hw) hR
  obtain ⟨s2, hturn, -, hf2, hans⟩ := h w r s1 _ hw hR1
  exact ⟨s1, s2, hs1, hR1, hf1, hturn, hf2, hans⟩

end Simulation

variable [DecidableEq α]

/-! ### FIFO -/

/-- The queue of the last loaded pages, the oldest at its head. -/
def fifo (F : ℕ) : Policy α (List α) := fun L r =>
  if r ∈ L then (L, .hit)
  else if L.length < F then (L ++ [r], .load)
  else
    match L with
    | [] => ([r], .load)
    | v :: L => (L ++ [r], .evict v)

theorem faults_fifo (F : ℕ) (L : List α) (r : α) :
    (fifo F L r).2.faults = if r ∈ L then 0 else 1 := by
  unfold fifo
  split_ifs
  · rfl
  · rfl
  · cases L <;> rfl

/-- The queue holds the pages of the last faults. -/
theorem after_fifo {F : ℕ} (hF : 1 ≤ F) (σ : List α) :
    (fifo F).after [] σ = ((fifo F).misses [] σ).drop (((fifo F).misses [] σ).length - F) := by
  induction σ using List.reverseRecOn with
  | nil => simp [Policy.after, Policy.misses]
  | append_singleton σ r ih =>
    rw [Policy.after_snoc, Policy.misses_snoc]
    set L := (fifo F).after [] σ with hL
    set H := (fifo F).misses [] σ with hH
    have hlen : L.length = min H.length F := by
      rw [ih, List.length_drop]
      omega
    unfold fifo
    split_ifs with h1 h2
    · simpa [Reply.faults] using ih
    · have hle : H.length ≤ F - 1 := by omega
      rw [Nat.sub_eq_zero_of_le (by omega : H.length ≤ F), List.drop_zero] at ih
      simp only [Reply.faults, List.replicate_one, List.length_append, List.length_singleton]
      rw [Nat.sub_eq_zero_of_le (by omega), List.drop_zero, ih]
    · cases hL' : L with
      | nil =>
        rw [hL', List.length_nil] at h2
        omega
      | cons v L' =>
        have hge : F ≤ H.length := by omega
        simp only [Reply.faults, List.replicate_one, List.length_append, List.length_singleton]
        rw [List.drop_append_of_le_length (by omega),
          show H.length + 1 - F = H.length - F + 1 by omega, ← List.tail_drop, ← ih, hL',
          List.tail_cons]

/-! ### Second chance -/

/-- The queue after the heads with a set bit were moved to the tail, with
their bits cleared. -/
def spare : List (α × Bool) → List (α × Bool)
  | [] => []
  | (p, true) :: L => spare (L ++ [(p, false)])
  | (p, false) :: L => (p, false) :: L
termination_by L => L.countP Prod.snd
decreasing_by simp

/-- A hit sets the bit of the page; a miss appends the page with a clear bit,
to a full queue in the place of the first page found with a clear bit. -/
def secondChance (F : ℕ) : Policy α (List (α × Bool)) := fun L r =>
  if r ∈ L.map Prod.fst then (L.map fun x => if x.1 = r then (x.1, true) else x, .hit)
  else if L.length < F then (L ++ [(r, false)], .load)
  else
    match spare L with
    | [] => ([(r, false)], .load)
    | v :: L => (L ++ [(r, false)], .evict v.1)

/-! ### LRU -/

/-- The pages of a reference string, the last used first. -/
def recent (w : List α) : List α := w.foldl (fun L r => r :: L.erase r) []

/-- The number of references since the last one to `p`. -/
def age (w : List α) (p : α) : ℕ := w.reverse.idxOf p

/-- The `F` pages last used, the last one first. -/
def lru (F : ℕ) : Policy α (List α) := fun L r =>
  ((r :: L.erase r).take F,
    if r ∈ L then .hit
    else if L.length < F then .load
    else
      match L.getLast? with
      | none => .load
      | some v => .evict v)

theorem faults_lru (F : ℕ) (L : List α) (r : α) :
    (lru F L r).2.faults = if r ∈ L then 0 else 1 := by
  unfold lru
  split_ifs
  · rfl
  · rfl
  · cases L.getLast? <;> rfl

theorem getLast?_of_lru_evict {F : ℕ} {L : List α} {r v : α} (h : (lru F L r).2 = .evict v) :
    L.getLast? = some v := by
  simp only [lru] at h
  split at h
  · cases h
  · split at h
    · cases h
    · split at h
      · cases h
      · rename_i hlast
        rw [hlast, Reply.evict.inj h]

theorem recent_snoc (w : List α) (r : α) : recent (w ++ [r]) = r :: (recent w).erase r := by
  simp only [recent, List.foldl_append, List.foldl_cons, List.foldl_nil]

theorem age_snoc (w : List α) (r p : α) :
    age (w ++ [r]) p = if r = p then 0 else age w p + 1 := by
  rw [age, List.reverse_append, List.reverse_singleton, List.singleton_append, List.idxOf_cons]
  by_cases h : r = p
  · simp [h]
  · rw [if_neg h, beq_false_of_ne h, cond_false, age]

theorem nodup_recent (w : List α) : (recent w).Nodup := by
  induction w using List.reverseRecOn with
  | nil => exact List.nodup_nil
  | append_singleton w r ih =>
    rw [recent_snoc]
    exact List.nodup_cons.mpr ⟨ih.not_mem_erase, ih.erase r⟩

theorem mem_recent {w : List α} {p : α} : p ∈ recent w ↔ p ∈ w := by
  induction w using List.reverseRecOn with
  | nil => simp [recent]
  | append_singleton w r ih =>
    rw [recent_snoc, List.mem_cons, List.mem_append, List.mem_singleton,
      (nodup_recent w).mem_erase_iff, ih]
    tauto

theorem length_recent (w : List α) : (recent w).length = w.toFinset.card := by
  rw [← List.toFinset_card_of_nodup (nodup_recent w)]
  congr 1
  ext p
  rw [List.mem_toFinset, List.mem_toFinset, mem_recent]

/-- The pages stand in the order of their last uses. -/
theorem pairwise_recent (w : List α) : (recent w).Pairwise fun p q => age w p < age w q := by
  induction w using List.reverseRecOn with
  | nil => exact List.Pairwise.nil
  | append_singleton w r ih =>
    have hne : ∀ p ∈ (recent w).erase r, r ≠ p := by
      rintro p hp rfl
      exact (nodup_recent w).not_mem_erase hp
    rw [recent_snoc, List.pairwise_cons]
    constructor
    · intro p hp
      rw [age_snoc, age_snoc, if_pos rfl, if_neg (hne p hp)]
      omega
    · apply (ih.sublist (List.erase_sublist)).imp_of_mem
      intro p q hp hq hlt
      rw [age_snoc, age_snoc, if_neg (hne p hp), if_neg (hne q hq)]
      omega

/-- The page last in the list of the pages last used was used before all
others of the list. -/
theorem age_lt_of_getLast {w : List α} {F : ℕ} {v p : α}
    (hv : ((recent w).take F).getLast? = some v) (hp : p ∈ (recent w).take F) (hne : p ≠ v) :
    age w p < age w v := by
  obtain ⟨L, hL⟩ := List.getLast?_eq_some_iff.mp hv
  have hpair := (pairwise_recent w).sublist (List.take_sublist F _)
  rw [hL] at hp hpair
  rw [List.pairwise_append] at hpair
  rw [List.mem_append, List.mem_singleton] at hp
  exact hpair.2.2 p (hp.resolve_right hne) v (List.mem_singleton.mpr rfl)

/-- Erasing an element from a list changes its first `k` elements as it
changes the list of the first `k + 1`. -/
theorem take_erase (r : α) : ∀ (L : List α) (k : ℕ),
    (L.erase r).take k = ((L.take (k + 1)).erase r).take k
  | [], k => by simp
  | x :: L, k => by
    rw [List.take_succ_cons]
    by_cases hx : x = r
    · subst hx
      rw [List.erase_cons_head, List.erase_cons_head, List.take_take, Nat.min_self]
    · rw [List.erase_cons_tail (by simpa using hx), List.erase_cons_tail (by simpa using hx)]
      cases k with
      | zero => rfl
      | succ k => rw [List.take_succ_cons, List.take_succ_cons, take_erase r L k]

/-- The policy keeps the `F` pages last used. -/
theorem lru_take_recent (F : ℕ) (w : List α) (r : α) :
    (lru F ((recent w).take F) r).1 = (recent (w ++ [r])).take F := by
  rw [recent_snoc]
  simp only [lru]
  cases F with
  | zero => rfl
  | succ k => rw [List.take_succ_cons, List.take_succ_cons, take_erase r (recent w) k]

theorem after_lru (F : ℕ) (w : List α) : (lru F).after [] w = (recent w).take F := by
  induction w using List.reverseRecOn with
  | nil => simp [recent, Policy.after]
  | append_singleton w r ih => rw [Policy.after_snoc, ih, lru_take_recent]

theorem take_erase_of_notMem {r : α} : ∀ {L : List α} {k : ℕ}, r ∉ L.take k →
    (L.erase r).take k = L.take k
  | [], _, _ => rfl
  | _ :: _, 0, _ => rfl
  | x :: L, k + 1, h => by
    rw [List.take_succ_cons, List.mem_cons, not_or] at h
    have hx : ¬ (x == r) = true := by simpa using Ne.symm h.1
    rw [List.erase_cons_tail hx, List.take_succ_cons, List.take_succ_cons, take_erase_of_notMem h.2]

/-- References that are pairwise distinct are the pages last used. -/
theorem take_recent_of_nodup : ∀ (k : ℕ) (w : List α), (w.reverse.take k).Nodup →
    (recent w).take k = w.reverse.take k
  | 0, w, _ => rfl
  | k + 1, w, h => by
    obtain rfl | ⟨w, r, rfl⟩ := List.eq_nil_or_concat' w
    · rfl
    rw [List.reverse_append, List.reverse_singleton, List.singleton_append, List.take_succ_cons,
      List.nodup_cons] at h
    have ih := take_recent_of_nodup k w h.2
    have hr : r ∉ (recent w).take k := by
      rw [ih]
      exact h.1
    rw [recent_snoc, List.reverse_append, List.reverse_singleton, List.singleton_append,
      List.take_succ_cons, List.take_succ_cons, take_erase_of_notMem hr, ih]

end Policies
end LinuxProg
