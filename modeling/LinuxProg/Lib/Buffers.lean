/-
# Arrays stored cell by cell

C loops fill an array with one assignment `a[k] = v` a turn. `setAt` is that
assignment with its bound (`none` is a store outside the array), and a loop
`for k < c` of such stores (`fillLoop`) replaces the first `c` cells and
leaves the others (`fillLoop_eq`).

Key definitions: `setAt`, `fillLoop`, `readInto`, `Follows`.
Key theorems: `fillLoop_eq`, `foldlM_inv`, `foldlM_keeps`, `foldlM_forall`,
`foldlM_guard`, `Follows.foldlM`.
-/
import Mathlib

namespace LinuxProg
namespace Buffers

variable {α β : Type*}

/-- `a[k] = v`; `none` if `k` is outside the array. -/
def setAt (a : List α) (k : ℕ) (v : α) : Option (List α) :=
  if k < a.length then some (a.set k v) else none

/-- `for (k = 0; k < c; k++) a[k] = f(k);`, where computing `f k` may fail. -/
def fillLoop (c : ℕ) (f : ℕ → Option α) (a : List α) : Option (List α) :=
  (List.range c).foldlM (fun row k => (f k).bind (setAt row k)) a

/-- A buffer after `read` put `bytes` at its front. -/
def readInto (buf bytes : List α) : List α := bytes ++ buf.drop bytes.length

theorem length_readInto {buf bytes : List α} (h : bytes.length ≤ buf.length) :
    (readInto buf bytes).length = buf.length := by
  rw [readInto, List.length_append, List.length_drop]
  omega

theorem readInto_getElem? (buf : List α) {bytes : List α} {k : ℕ} (h : k < bytes.length) :
    (readInto buf bytes)[k]? = bytes[k]? :=
  List.getElem?_append_left h

theorem fillLoop_succ (c : ℕ) (f : ℕ → Option α) (a : List α) :
    fillLoop (c + 1) f a = (fillLoop c f a).bind fun row => (f c).bind (setAt row c) := by
  simp only [fillLoop, List.range_succ, List.foldlM_append, List.foldlM_cons, List.foldlM_nil,
    bind_pure]
  rfl

/-- The loop stores `g 0, …, g (c - 1)` and leaves the cells after them. -/
theorem fillLoop_eq {f : ℕ → Option α} {g : ℕ → α} {a : List α} : ∀ {c : ℕ}, c ≤ a.length →
    (∀ k < c, f k = some (g k)) → fillLoop c f a = some ((List.range c).map g ++ a.drop c)
  | 0, _, _ => by simp [fillLoop]
  | c + 1, hc, hf => by
    have hset : ((List.range c).map g ++ a.drop c).set c (g c) =
        (List.range c).map g ++ (g c :: a.drop (c + 1)) := by
      rw [List.set_append_right _ _ (by simp), List.length_map, List.length_range, Nat.sub_self,
        List.drop_eq_getElem_cons (by omega), List.set_cons_zero]
    have hlen : c < ((List.range c).map g ++ a.drop c).length := by
      simp only [List.length_append, List.length_map, List.length_range, List.length_drop]
      omega
    rw [fillLoop_succ, fillLoop_eq (by omega) fun k hk => hf k (by omega)]
    simp only [Option.bind_some, hf c (by omega), setAt, if_pos hlen, hset]
    simp [List.range_succ]

/-- Loop rule for a loop over `0, …, c - 1` that may fail: if every turn
succeeds and takes `P i` to `P (i + 1)`, the loop succeeds and ends in `P c`. -/
theorem foldlM_inv {f : β → ℕ → Option β} (P : ℕ → β → Prop) {b : β} {c : ℕ} (h0 : P 0 b)
    (hs : ∀ i < c, ∀ x, P i x → ∃ y, f x i = some y ∧ P (i + 1) y) :
    ∃ y, (List.range c).foldlM f b = some y ∧ P c y := by
  induction c with
  | zero => exact ⟨b, rfl, h0⟩
  | succ c ih =>
    obtain ⟨x, hx, hP⟩ := ih fun i hi => hs i (by omega)
    obtain ⟨y, hy, hP'⟩ := hs c (by omega) x hP
    refine ⟨y, ?_, hP'⟩
    rw [List.range_succ, List.foldlM_append, hx]
    simp [hy]

/-- What every turn that succeeds keeps, a loop that succeeds keeps. -/
theorem foldlM_keeps {γ : Type*} {f : β → γ → Option β} {P : β → Prop}
    (hP : ∀ b x b', P b → f b x = some b' → P b') : ∀ {l : List γ} {b b' : β}, P b →
    l.foldlM f b = some b' → P b'
  | [], _, _, h, hs => Option.some.inj hs ▸ h
  | x :: l, b, b', h, hs => by
    rw [List.foldlM_cons] at hs
    obtain ⟨b1, h1, h2⟩ := Option.bind_eq_some_iff.mp hs
    exact foldlM_keeps hP (hP b x b1 h h1) h2

/-- If a loop over a list succeeds, every turn did: what a turn that succeeds
shows of its element holds of all elements. -/
theorem foldlM_forall {γ : Type*} {f : β → γ → Option β} {Q : γ → Prop}
    (hQ : ∀ b x b', f b x = some b' → Q x) : ∀ {l : List γ} {b b' : β},
    l.foldlM f b = some b' → ∀ x ∈ l, Q x
  | [], _, _, _, x, hx => absurd hx List.not_mem_nil
  | y :: l, b, b', h, x, hx => by
    rw [List.foldlM_cons] at h
    obtain ⟨b1, h1, h2⟩ := Option.bind_eq_some_iff.mp h
    rcases List.mem_cons.mp hx with rfl | hx
    · exact hQ _ _ _ h1
    · exact foldlM_forall hQ h2 x hx

/-- A loop that does not fail does what its turns do when they do not. -/
theorem foldlM_eq_foldl {γ : Type*} {f : β → γ → Option β} {g : β → γ → β}
    (h : ∀ b x b', f b x = some b' → b' = g b x) : ∀ {l : List γ} {b b' : β},
    l.foldlM f b = some b' → b' = l.foldl g b
  | [], _, _, hs => (Option.some.inj hs).symm
  | x :: l, b, b', hs => by
    rw [List.foldlM_cons] at hs
    obtain ⟨b1, h1, h2⟩ := Option.bind_eq_some_iff.mp hs
    rw [List.foldl_cons, ← h b x b1 h1]
    exact foldlM_eq_foldl h h2

/-- A loop over lists of elements. -/
theorem foldlM_flatten {γ : Type*} {f : β → γ → Option β} : ∀ {ls : List (List γ)} {b : β},
    ls.flatten.foldlM f b = ls.foldlM (fun b l => l.foldlM f b) b
  | [], _ => rfl
  | l :: ls, b => by
    rw [List.flatten_cons, List.foldlM_append, List.foldlM_cons]
    congr 1
    funext b'
    exact foldlM_flatten

/-- A loop that fails at an element that fails a test: the loop without the test,
if no element fails it. -/
theorem foldlM_guard {γ : Type*} {p : γ → Bool} {f : β → γ → Option β} : ∀ (l : List γ) (b : β),
    l.foldlM (fun b x => if p x then f b x else none) b =
      if ∀ x ∈ l, p x = true then l.foldlM f b else none
  | [], b => by simp
  | x :: l, b => by
    rw [List.foldlM_cons, List.foldlM_cons]
    by_cases hx : p x = true
    · have hall : (∀ y ∈ x :: l, p y = true) ↔ ∀ y ∈ l, p y = true := by simp [hx]
      rw [if_pos hx, if_congr hall rfl rfl]
      cases f b x with
      | none => simp
      | some b' =>
        simp only [Option.bind_eq_bind, Option.bind_some]
        exact foldlM_guard l b'
    · rw [if_neg hx, if_neg fun h => hx (h x List.mem_cons_self)]
      rfl

/-! ### Runs in step -/

section Following

variable {σ τ σ' τ' : Type*}

/-- `x` follows `y`: where `y` has a result, `x` has one that goes with it by
`Q`; where `y` has none, `x` has none, if `exact`. -/
structure Follows (Q : σ → τ → Prop) (exact : Prop) (x : Option σ) (y : Option τ) : Prop where
  some : ∀ t, y = some t → ∃ s, x = some s ∧ Q s t
  none : exact → y = none → x = none

namespace Follows

variable {Q : σ → τ → Prop} {Q' : σ' → τ' → Prop} {exact : Prop} {x : Option σ} {y : Option τ}

theorem of_some {s : σ} {t : τ} (h : Q s t) : Follows Q exact (.some s) (.some t) where
  some t' ht := ⟨s, rfl, (Option.some.inj ht) ▸ h⟩
  none _ ht := by cases ht

theorem of_none : Follows Q exact (.none : Option σ) (.none : Option τ) where
  some _ ht := by cases ht
  none _ _ := rfl

theorem bind (h : Follows Q exact x y) {f : σ → Option σ'} {g : τ → Option τ'}
    (hf : ∀ s t, Q s t → Follows Q' exact (f s) (g t)) :
    Follows Q' exact (x.bind f) (y.bind g) where
  some t' ht := by
    obtain ⟨t, hy, ht⟩ := Option.bind_eq_some_iff.mp ht
    obtain ⟨s, rfl, hQ⟩ := h.some t hy
    exact (hf s t hQ).some t' ht
  none hexact ht := by
    cases hy : y with
    | none => rw [h.none hexact hy, Option.bind_none]
    | some t =>
      obtain ⟨s, rfl, hQ⟩ := h.some t hy
      rw [hy] at ht
      exact (hf s t hQ).none hexact ht

theorem map (h : Follows Q exact x y) {f : σ → σ'} {g : τ → τ'}
    (hf : ∀ s t, Q s t → Q' (f s) (g t)) : Follows Q' exact (x.map f) (y.map g) := by
  rw [Option.map_eq_bind, Option.map_eq_bind]
  exact h.bind fun s t hQ => of_some (hf s t hQ)

/-- A result of `x` comes from one of `y`. -/
theorem of_result (h : Follows Q exact x y) (hexact : exact) {s : σ} (hs : x = .some s) :
    ∃ t, y = .some t ∧ Q s t := by
  cases hy : y with
  | none =>
    rw [h.none hexact hy] at hs
    cases hs
  | some t =>
    obtain ⟨s', hs', hQ⟩ := h.some t hy
    cases hs.symm.trans hs'
    exact ⟨t, rfl, hQ⟩

/-- The same run, seen through `view`. -/
theorem map_eq {view : σ → τ} (h : Follows (fun s t => view s = t) True x y) : x.map view = y := by
  cases hy : y with
  | none => rw [h.none trivial hy, Option.map_none]
  | some t =>
    obtain ⟨s, rfl, hs⟩ := h.some t hy
    rw [Option.map_some, hs]

theorem mono {P : σ → τ → Prop} (h : Follows Q exact x y) (hP : ∀ s t, Q s t → P s t) :
    Follows P exact x y where
  some t ht := by
    obtain ⟨s, hs, hQ⟩ := h.some t ht
    exact ⟨s, hs, hP s t hQ⟩
  none := h.none

/-- Loops in step. -/
theorem foldlM {γ : Type*} {f : σ → γ → Option σ} {g : τ → γ → Option τ} : ∀ {l : List γ},
    (∀ c ∈ l, ∀ s t, Q s t → Follows Q exact (f s c) (g t c)) → ∀ {s : σ} {t : τ}, Q s t →
      Follows Q exact (l.foldlM f s) (l.foldlM g t)
  | [], _, _, _, hQ => of_some hQ
  | c :: l, h, s, t, hQ => by
    obtain ⟨hc, hl⟩ := List.forall_mem_cons.mp h
    rw [List.foldlM_cons, List.foldlM_cons]
    exact (hc s t hQ).bind fun s t hQ => foldlM hl hQ

end Follows

end Following

end Buffers
end LinuxProg
