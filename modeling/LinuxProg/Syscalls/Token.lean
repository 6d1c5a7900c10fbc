/-
# The tokens of a calculation

`parse_token` of the test program for the system calls (`OS과제/과제3/test.c`)
takes a line apart into a number, an operator and a number. A `-` in front is
the sign of the first number, and the first character after it that is not a
digit is the operator. The characters are the list of their codes, up to the
NUL and behind it; `int` arithmetic is modulo `2 ^ 32`, and each value has with
it the exact results of the operations it took (`Calc`).

The text of two numbers with an operator between them is read back
(`parseToken_text`), the smallest `int` too: its digits wrap around, and so does
the negation. But `buffer[i]` is added before `'0'` is subtracted, so near the
largest `int` the sum is past it although the number is not: no operation
overflows exactly if both numbers are 48 short of that (`noOverflow_iff`).
-/
import Mathlib
import LinuxProg.Paging.Input
import LinuxProg.Top.Process

namespace LinuxProg
namespace Syscalls

open Paging (isDigit decimal decimalValue decimalValue_decimal decimal_isDigit decimal_ne_nil)
open LinuxProg.Top (intText)

/-- What an `int` is after the operation. -/
def toInt (t : ℤ) : ℤ := Int.bmod t (2 ^ 32)

/-- `t` is a value of type `int`. -/
def InInt (t : ℤ) : Prop := -2 ^ 31 ≤ t ∧ t < 2 ^ 31

instance : DecidablePred InInt := fun t => inferInstanceAs (Decidable (-2 ^ 31 ≤ t ∧ t < 2 ^ 31))

/-- A value, and the results of the operations on the way. -/
structure Calc where
  value : ℤ
  results : List ℤ

def Calc.zero : Calc := ⟨0, []⟩

/-- One more operation. -/
def Calc.then (x : Calc) (f : ℤ → ℤ) : Calc := ⟨toInt (f x.value), x.results ++ [f x.value]⟩

/-- A `char` as an `int`. -/
def charValue (c : ℕ) : ℤ := Int.bmod c 256

/-- `x * 10 + c - '0'` -/
def accumulate (x : Calc) (c : ℕ) : Calc :=
  ((x.then (· * 10)).then (· + charValue c)).then (· - 48)

/-- `x *= -1` -/
def negate (x : Calc) : Calc := x.then (· * -1)

/-- The first loop from place `i` on: `*a`, `check`, and `*ch` with `index` if
there is an operator. -/
def firstLoop (i : ℕ) : List ℕ → Calc → Bool → Calc × Bool × Option (ℕ × ℕ)
  | [], a, check => (a, check, none)
  | c :: cs, a, check =>
    if i = 0 ∧ c = 45 then firstLoop (i + 1) cs a true
    else if isDigit c then firstLoop (i + 1) cs (accumulate a c) check
    else (a, check, some (c, i + 1))

/-- `*a`, `*ch` and `*b`. -/
structure Token where
  a : Calc
  ch : ℕ
  b : Calc

/-- `parse_token`; without an operator `index` is `-1` outside the buffer. -/
def parseToken (buffer : List ℕ) : Option Token :=
  let s := buffer.takeWhile fun c => decide (c ≠ 0)
  let (a, check, found) := firstLoop 0 s .zero false
  let a := if check then negate a else a
  found.map fun (ch, index) =>
    let check := buffer.getD index 0 == 45
    let index := if check then index + 1 else index
    let b := (s.drop index).foldl accumulate .zero
    ⟨a, ch, if check then negate b else b⟩

/-- The text of `a op b`, with its NUL and whatever is behind it. -/
def text (a b : ℤ) (op : ℕ) (rest : List ℕ) : List ℕ := intText a ++ op :: (intText b ++ 0 :: rest)

/-- No operation of `parse_token` overflows. -/
def NoOverflow (buffer : List ℕ) : Prop :=
  ∃ t, parseToken buffer = some t ∧ ∀ x ∈ t.a.results ++ t.b.results, InInt x

/-! ### Digits -/

theorem isDigit_iff {c : ℕ} : isDigit c = true ↔ 48 ≤ c ∧ c ≤ 57 := by
  simp [isDigit]

theorem toInt_of_inInt {t : ℤ} (h : InInt t) : toInt t = t := by
  unfold InInt at h
  unfold toInt
  rw [Int.bmod_def]
  split <;> omega

theorem charValue_digit {c : ℕ} (h : isDigit c = true) : charValue c = c := by
  rw [isDigit_iff] at h
  unfold charValue
  rw [Int.bmod_def]
  split <;> omega

/-- Digits read one after the other, from the value `v` on. -/
def valueFrom (v : ℕ) (ds : List ℕ) : ℕ := ds.foldl (fun a d => a * 10 + (d - 48)) v

theorem valueFrom_cons (v d : ℕ) (ds : List ℕ) :
    valueFrom v (d :: ds) = valueFrom (v * 10 + (d - 48)) ds := by
  unfold valueFrom
  rw [List.foldl_cons]

theorem valueFrom_decimal (n : ℕ) : valueFrom 0 (decimal n) = n := decimalValue_decimal n

theorem le_valueFrom : ∀ (ds : List ℕ) (v : ℕ), v ≤ valueFrom v ds
  | [], v => le_rfl
  | d :: ds, v => by
    have ih := le_valueFrom ds (v * 10 + (d - 48))
    rw [valueFrom_cons]
    omega

/-- The value after a digit, modulo `2 ^ 32`. -/
theorem accumulate_value {x : Calc} {v c : ℕ} (hx : x.value = toInt v) (hc : isDigit c = true) :
    (accumulate x c).value = toInt (v * 10 + (c - 48) : ℕ) := by
  have h48 := (isDigit_iff.mp hc).1
  unfold accumulate Calc.then
  simp only [hx, charValue_digit hc]
  unfold toInt
  rw [Int.bmod_sub_bmod, add_sub_assoc, Int.bmod_add_bmod,
    Int.add_bmod_eq_add_bmod_right _ Int.bmod_mul_bmod]
  congr 1
  push_cast [h48]
  ring

theorem foldl_accumulate_value : ∀ {ds : List ℕ} {x : Calc} {v : ℕ}, x.value = toInt v →
    (∀ c ∈ ds, isDigit c = true) → (ds.foldl accumulate x).value = toInt (valueFrom v ds)
  | [], _, _, hx, _ => hx
  | c :: ds, x, v, hx, hds => by
    rw [List.foldl_cons, valueFrom_cons]
    exact foldl_accumulate_value (accumulate_value hx (hds c List.mem_cons_self))
      fun d hd => hds d (List.mem_cons_of_mem c hd)

/-! ### The text of a calculation -/

/-- What is computed from the text of a number: from its digits, and its sign. -/
def magnitude (n : ℕ) : Calc := (decimal n).foldl accumulate .zero

def signed (a : ℤ) : Calc := if a < 0 then negate (magnitude a.natAbs) else magnitude a.natAbs

theorem intText_eq (a : ℤ) :
    intText a = (if a < 0 then [45] else []) ++ decimal a.natAbs := by
  cases a with
  | ofNat n => rfl
  | negSucc n =>
    rw [if_pos (Int.negSucc_lt_zero n)]
    rfl

theorem digit_ne {c d : ℕ} (hc : isDigit c = true) (hd : isDigit d = false) : c ≠ d := by
  rintro rfl
  rw [hc] at hd
  cases hd

theorem intText_ne_nul {a : ℤ} {c : ℕ} (h : c ∈ intText a) : c ≠ 0 := by
  rw [intText_eq] at h
  rcases List.mem_append.mp h with h | h
  · split at h
    · rw [List.mem_singleton.mp h]
      decide
    · cases h
  · exact digit_ne (decimal_isDigit _ c h) rfl

/-- The first loop takes the digits up to the operator. -/
theorem firstLoop_digits {op : ℕ} (hop : isDigit op = false) (rest : List ℕ) : ∀ {ds : List ℕ}
    {i : ℕ} {a : Calc} {check : Bool}, (∀ c ∈ ds, isDigit c = true) → i + ds.length ≠ 0 →
    firstLoop i (ds ++ op :: rest) a check =
      (ds.foldl accumulate a, check, some (op, i + ds.length + 1))
  | [], i, a, check, _, hi => by
    rw [List.nil_append, firstLoop, if_neg fun h => hi h.1, if_neg (by simp [hop])]
    rfl
  | c :: ds, i, a, check, hds, hi => by
    have hc : isDigit c = true := hds c List.mem_cons_self
    have hrest : ∀ d ∈ ds, isDigit d = true := fun d hd => hds d (List.mem_cons_of_mem c hd)
    rw [List.cons_append, firstLoop, if_neg fun h => digit_ne hc (d := 45) rfl h.2, if_pos hc,
      firstLoop_digits hop rest hrest (by omega), List.foldl_cons, List.length_cons,
      Nat.add_right_comm i 1, ← Nat.add_assoc]

theorem firstLoop_intText {op : ℕ} (hop : isDigit op = false) (a : ℤ) (rest : List ℕ) :
    firstLoop 0 (intText a ++ op :: rest) .zero false =
      (magnitude a.natAbs, decide (a < 0), some (op, (intText a).length + 1)) := by
  have hlen := List.length_pos_iff.mpr (decimal_ne_nil a.natAbs)
  have hdigits := decimal_isDigit a.natAbs
  rw [intText_eq]
  by_cases ha : a < 0
  · rw [if_pos ha, List.append_assoc, List.singleton_append, firstLoop, if_pos ⟨rfl, rfl⟩,
      firstLoop_digits hop rest hdigits (by omega), List.length_append, List.length_singleton,
      decide_eq_true ha, magnitude]
  · rw [if_neg ha, List.nil_append, firstLoop_digits hop rest hdigits (by omega), Nat.zero_add,
      decide_eq_false ha, magnitude]

/-- The second number, from behind the operator on. -/
theorem second_intText (b : ℤ) (rest : List ℕ) :
    ((intText b ++ 0 :: rest).getD 0 0 == 45) = decide (b < 0) ∧
      (intText b).drop (if b < 0 then 1 else 0) = decimal b.natAbs := by
  rw [intText_eq]
  by_cases hb : b < 0
  · rw [if_pos hb, if_pos hb, decide_eq_true hb]
    exact ⟨rfl, rfl⟩
  · rw [if_neg hb, if_neg hb, decide_eq_false hb]
    obtain ⟨c, t, hct, hc⟩ := Top.decimal_cons b.natAbs
    refine ⟨?_, rfl⟩
    rw [hct, List.nil_append, List.cons_append, List.getD_cons_zero]
    exact beq_false_of_ne (digit_ne hc rfl)

/-- **What `parse_token` computes** from the text of two numbers. -/
theorem parseToken_eq {op : ℕ} (hop : isDigit op = false) (hnul : op ≠ 0) (a b : ℤ)
    (rest : List ℕ) : parseToken (text a b op rest) = some ⟨signed a, op, signed b⟩ := by
  have hs : (text a b op rest).takeWhile (fun c => decide (c ≠ 0)) = intText a ++ op :: intText b := by
    have hsplit : text a b op rest = (intText a ++ op :: intText b) ++ 0 :: rest := by
      simp [text]
    rw [hsplit, List.takeWhile_append_of_pos, List.takeWhile_cons_of_neg (by simp),
      List.append_nil]
    intro c hc
    apply decide_eq_true
    rcases List.mem_append.mp hc with hc | hc
    · exact intText_ne_nul hc
    · rcases List.mem_cons.mp hc with rfl | hc
      · exact hnul
      · exact intText_ne_nul hc
  have hget : (text a b op rest).getD ((intText a).length + 1) 0 =
      (intText b ++ 0 :: rest).getD 0 0 := by
    unfold text
    rw [List.getD_append_right _ _ _ _ (by omega), Nat.add_sub_cancel_left, List.getD_cons_succ]
  have hdrop : ∀ k, (intText a ++ op :: intText b).drop ((intText a).length + 1 + k) =
      (intText b).drop k := by
    intro k
    rw [Nat.add_assoc, List.drop_length_add_append, Nat.add_comm 1, List.drop_succ_cons]
  obtain ⟨hsign, hdigits⟩ := second_intText b rest
  unfold parseToken
  simp only [hs, firstLoop_intText hop, Option.map_some, hget, hsign]
  by_cases hb : b < 0
  · rw [if_pos hb] at hdigits
    simp only [decide_eq_true hb, if_true, hdrop, hdigits]
    simp [signed, magnitude, hb]
  · rw [if_neg hb] at hdigits
    have hdrop' := hdrop 0
    rw [Nat.add_zero] at hdrop'
    simp only [decide_eq_false hb, Bool.false_eq_true, if_false, hdrop', hdigits]
    simp [signed, magnitude, hb]

/-! ### The numbers are read back -/

theorem magnitude_value (n : ℕ) : (magnitude n).value = toInt n := by
  have h := foldl_accumulate_value (x := .zero) (v := 0) rfl (decimal_isDigit n)
  rw [valueFrom_decimal] at h
  exact h

/-- The sign is right, for the smallest `int` too. -/
theorem signed_value {a : ℤ} (ha : InInt a) : (signed a).value = a := by
  unfold signed
  split
  · rename_i hneg
    calc (negate (magnitude a.natAbs)).value = toInt (toInt a.natAbs * -1) := by
          rw [← magnitude_value]
          rfl
      _ = toInt (a.natAbs * -1) := Int.bmod_mul_bmod
      _ = toInt a := by
          congr 1
          omega
      _ = a := toInt_of_inInt ha
  · rename_i hpos
    rw [magnitude_value, show (a.natAbs : ℤ) = a by omega, toInt_of_inInt ha]

/-- **The text of two numbers is read back.** -/
theorem parseToken_text {a b : ℤ} {op : ℕ} (ha : InInt a) (hb : InInt b)
    (hop : isDigit op = false) (hnul : op ≠ 0) (rest : List ℕ) :
    (parseToken (text a b op rest)).map (fun t => (t.a.value, t.ch, t.b.value)) =
      some (a, op, b) := by
  rw [parseToken_eq hop hnul, Option.map_some, signed_value ha, signed_value hb]

/-- The smallest `int`, minus itself. -/
theorem parseToken_text_min :
    (parseToken (text (-2147483648) (-2147483648) 45 [])).map
      (fun t => (t.a.value, t.ch, t.b.value)) = some (-2147483648, 45, -2147483648) :=
  parseToken_text (by decide) (by decide) rfl (by decide) []

/-! ### Overflow -/

theorem results_then {x : Calc} {f : ℤ → ℤ} :
    (∀ t ∈ (x.then f).results, InInt t) ↔ (∀ t ∈ x.results, InInt t) ∧ InInt (f x.value) := by
  unfold Calc.then
  simp [or_imp, forall_and]

/-- What is on record stays on record. -/
theorem results_foldl : ∀ {ds : List ℕ} {x : Calc} {t : ℤ}, t ∈ x.results →
    t ∈ (ds.foldl accumulate x).results
  | [], _, _, h => h
  | c :: ds, x, t, h => by
    rw [List.foldl_cons]
    apply results_foldl
    unfold accumulate Calc.then
    simp [h]

/-- A digit: the sum before the subtraction decides. -/
theorem accumulate_spec {x : Calc} {v c : ℕ} (hx : x.value = v) (hc : isDigit c = true) :
    ((∀ t ∈ (accumulate x c).results, InInt t) ↔
      (∀ t ∈ x.results, InInt t) ∧ v * 10 + c < 2 ^ 31) ∧
    (v * 10 + c < 2 ^ 31 → (accumulate x c).value = (v * 10 + (c - 48) : ℕ)) := by
  have hdigit := isDigit_iff.mp hc
  have htimes : InInt (v * 10 : ℤ) → toInt (v * 10) = v * 10 := toInt_of_inInt
  have hplus : InInt (v * 10 + c : ℤ) → toInt (v * 10 + c) = v * 10 + c := toInt_of_inInt
  have hminus : InInt (v * 10 + c - 48 : ℤ) → toInt (v * 10 + c - 48) = v * 10 + c - 48 :=
    toInt_of_inInt
  unfold InInt at htimes hplus hminus
  constructor
  · unfold accumulate
    rw [results_then, results_then, results_then, and_assoc, and_assoc]
    refine and_congr_right fun _ => ?_
    unfold Calc.then InInt
    simp only [hx, charValue_digit hc]
    constructor
    · rintro ⟨h10, hsum, -⟩
      rw [htimes h10] at hsum
      omega
    · intro hlt
      rw [htimes (by omega), hplus (by omega)]
      omega
  · intro hlt
    unfold accumulate Calc.then
    simp only [hx, charValue_digit hc]
    rw [htimes (by omega), hplus (by omega), hminus (by omega)]
    omega

/-- The digits of a number from the value `v` on. -/
theorem foldl_inInt_iff : ∀ {ds : List ℕ} {x : Calc} {v : ℕ}, x.value = v →
    (∀ c ∈ ds, isDigit c = true) →
    ((∀ t ∈ (ds.foldl accumulate x).results, InInt t) ↔
      (∀ t ∈ x.results, InInt t) ∧ (ds ≠ [] → valueFrom v ds + 48 < 2 ^ 31))
  | [], x, v, _, _ => by simp
  | c :: ds, x, v, hx, hds => by
    have hc := hds c List.mem_cons_self
    have hrest : ∀ d ∈ ds, isDigit d = true := fun d hd => hds d (List.mem_cons_of_mem c hd)
    have hdigit := isDigit_iff.mp hc
    have hle := le_valueFrom ds (v * 10 + (c - 48))
    obtain ⟨hiff, hvalue⟩ := accumulate_spec hx hc
    rw [List.foldl_cons, valueFrom_cons]
    by_cases hlt : v * 10 + c < 2 ^ 31
    · rw [foldl_inInt_iff (hvalue hlt) hrest, hiff, and_assoc]
      refine and_congr_right fun _ => ⟨fun h _ => ?_, fun h => ⟨hlt, fun _ => h (List.cons_ne_nil _ _)⟩⟩
      by_cases hnil : ds = []
      · subst hnil
        unfold valueFrom
        rw [List.foldl_nil]
        omega
      · exact h.2 hnil
    · constructor
      · intro h
        exact absurd (hiff.mp fun t ht => h t (results_foldl ht)).2 hlt
      · rintro ⟨-, h⟩
        have := h (List.cons_ne_nil _ _)
        omega

theorem signed_inInt_iff {a : ℤ} (ha : -2147483647 ≤ a ∧ a ≤ 2147483647) :
    (∀ t ∈ (signed a).results, InInt t) ↔ -2147483599 ≤ a ∧ a ≤ 2147483599 := by
  have hmag : (∀ t ∈ (magnitude a.natAbs).results, InInt t) ↔
      -2147483599 ≤ a ∧ a ≤ 2147483599 := by
    have h := foldl_inInt_iff (x := .zero) (v := 0) rfl (decimal_isDigit a.natAbs)
    rw [valueFrom_decimal] at h
    rw [magnitude, h]
    have hzero : ∀ t ∈ Calc.zero.results, InInt t := fun t ht => absurd ht List.not_mem_nil
    constructor
    · rintro ⟨-, hlt⟩
      have := hlt (decimal_ne_nil _)
      omega
    · intro hle
      refine ⟨hzero, fun _ => ?_⟩
      omega
  unfold signed
  split
  · have hsign : InInt ((magnitude a.natAbs).value * -1) := by
      have habs : toInt a.natAbs = a.natAbs := toInt_of_inInt ⟨by omega, by omega⟩
      rw [magnitude_value, habs]
      constructor <;> omega
    unfold negate
    rw [results_then, hmag, and_iff_left hsign]
  · exact hmag

/-- **No operation overflows exactly if both numbers are at most
`2147483599`**, up to their sign. -/
theorem noOverflow_iff {a b : ℤ} {op : ℕ} (ha : -2147483647 ≤ a ∧ a ≤ 2147483647)
    (hb : -2147483647 ≤ b ∧ b ≤ 2147483647) (hop : isDigit op = false) (hnul : op ≠ 0)
    (rest : List ℕ) : NoOverflow (text a b op rest) ↔
      (-2147483599 ≤ a ∧ a ≤ 2147483599) ∧ (-2147483599 ≤ b ∧ b ≤ 2147483599) := by
  unfold NoOverflow
  rw [parseToken_eq hop hnul, ← signed_inInt_iff ha, ← signed_inInt_iff hb]
  simp [or_imp, forall_and]

/-- The largest `int`: `214748364 * 10 + '7'` is past it. -/
theorem overflow_max : ¬ NoOverflow (text 2147483647 0 43 []) := by
  rintro ⟨t, ht, h⟩
  have hlog : ∀ t ∈ parseToken (text 2147483647 0 43 []), 2147483695 ∈ t.a.results := by
    decide +kernel
  have := h 2147483695 (List.mem_append_left _ (hlog t ht))
  exact absurd this (by decide)

/-- A sum below it. -/
theorem noOverflow_iff_sum : NoOverflow (text 2147483599 (-1) 43 []) ↔
    (-2147483599 ≤ (2147483599 : ℤ) ∧ (2147483599 : ℤ) ≤ 2147483599) ∧
      (-2147483599 ≤ (-1 : ℤ) ∧ (-1 : ℤ) ≤ 2147483599) :=
  noOverflow_iff (by decide) (by decide) rfl (by decide) []

end Syscalls
end LinuxProg
