/-
# Octal modes of mychmod

`digit_mode` of `mychmod.c` puts the digits of `argv[1]` into `bit`, in one
loop if there are three of them and else in another one that takes there to be
four: the `i`-th digit is shifted by `(3 - i) * 3`. So one or two digits end up
too far to the left, and a fifth one is shifted by a negative amount
(`bit_eq`). Three and four digits are the modes they write (`main_chmod_iff`).

A string is the list of its bytes without the NUL; a negative shift is `none`.
-/
import Mathlib
import LinuxProg.Paging.Input

namespace LinuxProg
namespace Mychmod

open Paging (isDigit)

/-- `tmp << n` -/
def shiftLeft (tmp n : ℤ) : Option ℤ := if 0 ≤ n then some (tmp * 2 ^ n.toNat) else none

/-- `bit += (argv[1][i] - '0') << ((top-i)*3)` -/
def addDigit (argv1 : List ℕ) (top : ℤ) (bit : ℤ) (i : ℕ) : Option ℤ :=
  let tmp : ℤ := argv1.getD i 0 - 48
  (shiftLeft tmp ((top - i) * 3)).map (bit + ·)

/-- The loops that compute `bit`. -/
def bit (argv1 : List ℕ) : Option ℤ :=
  if argv1.length = 3 then (List.range 3).foldlM (addDigit argv1 2) 0
  else do
    let bit ← shiftLeft (argv1.getD 0 0 - 48) 9
    (List.range' 1 (argv1.length - 1)).foldlM (addDigit argv1 3) bit

/-- What `main` does to `argv[2]`. -/
inductive Act where
  | error
  | english
  | chmod (mode : ℤ)
  deriving DecidableEq

/-- `digit_mode`; `stat` says whether the file is there. -/
def digitMode (stat : Bool) (argv1 : List ℕ) : Option Act :=
  if stat then (bit argv1).map .chmod else some .error

def isAlpha (c : ℕ) : Bool := (65 ≤ c && c ≤ 90) || (97 ≤ c && c ≤ 122)

def main (stat : Bool) (argv1 : List ℕ) : Option Act :=
  if isDigit (argv1.getD 0 0) then digitMode stat argv1
  else if isAlpha (argv1.getD 0 0) then some .english
  else some .error

/-- The mode that octal digits write. -/
def octalValue (argv1 : List ℕ) : ℕ := Nat.ofDigits 8 (argv1.map (· - 48)).reverse

def IsOctal (argv1 : List ℕ) : Prop := ∀ c ∈ argv1, 48 ≤ c ∧ c ≤ 55

instance (argv1 : List ℕ) : Decidable (IsOctal argv1) :=
  inferInstanceAs (Decidable (∀ c ∈ argv1, 48 ≤ c ∧ c ≤ 55))

variable {argv1 : List ℕ}

theorem octalValue_concat (cs : List ℕ) (c : ℕ) :
    octalValue (cs ++ [c]) = octalValue cs * 8 + (c - 48) := by
  unfold octalValue
  rw [List.map_append, List.map_singleton, List.reverse_append, List.reverse_singleton,
    List.singleton_append, Nat.ofDigits_cons]
  ring

theorem shiftLeft_nat (tmp : ℤ) (n : ℕ) : shiftLeft tmp n = some (tmp * 2 ^ n) := by
  rw [shiftLeft, if_pos (Int.natCast_nonneg n), Int.toNat_natCast]

/-- A digit that is not behind the last place. -/
theorem addDigit_of_le {top : ℕ} {i : ℕ} (h : i ≤ top) (bit : ℤ) :
    addDigit argv1 top bit i = some (bit + (argv1.getD i 0 - 48) * 8 ^ (top - i)) := by
  have hshift : ((top : ℤ) - i) * 3 = ((3 * (top - i) : ℕ) : ℤ) := by
    push_cast [h]
    ring
  unfold addDigit
  simp only [hshift, shiftLeft_nat, Option.map_some, pow_mul]
  norm_num

/-- A digit behind it. -/
theorem addDigit_of_lt {top : ℕ} {i : ℕ} (h : top < i) (bit : ℤ) :
    addDigit argv1 top bit i = none := by
  have hneg : ¬ 0 ≤ ((top : ℤ) - i) * 3 := by omega
  rw [addDigit, shiftLeft, if_neg hneg, Option.map_none]

/-- The first `n` digits, none of them behind the last place. -/
theorem addDigits_of_le (h : IsOctal argv1) (top : ℕ) : ∀ n ≤ top + 1, n ≤ argv1.length →
    (List.range n).foldlM (addDigit argv1 top) 0 =
      some ((octalValue (argv1.take n) * 8 ^ (top + 1 - n) : ℕ) : ℤ)
  | 0, _, _ => by simp [octalValue]
  | n + 1, hle, hlt => by
    have hc := h argv1[n] (List.getElem_mem hlt)
    have hpow : 8 ^ (top + 1 - n) = 8 * 8 ^ (top - n) := by
      rw [Nat.succ_sub (by omega), pow_succ']
    rw [List.range_succ, List.foldlM_append, addDigits_of_le h top n (by omega) (by omega)]
    rw [Option.bind_eq_bind, Option.bind_some, List.foldlM_cons, addDigit_of_le (by omega),
      Option.bind_eq_bind, Option.bind_some, List.foldlM_nil, ← List.take_concat_get' _ _ hlt,
      octalValue_concat, hpow, List.getD_eq_getElem _ _ hlt, Nat.add_sub_add_right]
    apply congrArg some
    push_cast [hc.1]
    ring

/-- One digit behind it. -/
theorem addDigits_of_lt (top : ℕ) {n : ℕ} (hlt : top + 1 < n) :
    (List.range n).foldlM (addDigit argv1 top) 0 = none := by
  obtain ⟨m, rfl⟩ := Nat.exists_eq_add_of_lt hlt
  have hfail : (List.range (top + 1 + 1)).foldlM (addDigit argv1 top) 0 = none := by
    rw [List.range_succ, List.foldlM_append]
    simp only [List.foldlM_cons, addDigit_of_lt (Nat.lt_succ_self top)]
    cases (List.range (top + 1)).foldlM (addDigit argv1 top) 0 <;> rfl
  rw [Nat.add_right_comm, Nat.add_comm _ m, Nat.add_comm m, List.range_add, List.foldlM_append,
    hfail]
  rfl

/-- The second loop starts as if it had shifted the first digit. -/
theorem bit_eq_addDigits (h : argv1 ≠ []) : bit argv1 =
    (List.range argv1.length).foldlM (addDigit argv1 (if argv1.length = 3 then 2 else 3)) 0 := by
  obtain ⟨n, hn⟩ := Nat.exists_eq_succ_of_ne_zero (List.length_pos_iff.mpr h).ne'
  unfold bit
  split
  · rename_i h3
    rw [h3]
  · have hfirst : addDigit argv1 3 0 0 = shiftLeft (argv1.getD 0 0 - 48) 9 := by
      unfold addDigit
      simp [shiftLeft]
    rw [hn, List.range_eq_range', List.range'_succ, List.foldlM_cons, hfirst]
    rfl

/-- **What `digit_mode` makes of octal digits.** -/
theorem bit_eq (hne : argv1 ≠ []) (h : IsOctal argv1) : bit argv1 =
    if argv1.length = 3 then some (octalValue argv1 : ℤ)
    else if argv1.length ≤ 4 then some ((octalValue argv1 * 8 ^ (4 - argv1.length) : ℕ) : ℤ)
    else none := by
  have hall := fun top hle => addDigits_of_le h top argv1.length hle le_rfl
  rw [List.take_length] at hall
  rw [bit_eq_addDigits hne]
  split
  · rename_i h3
    have := hall 2 (by omega)
    rw [h3, Nat.sub_self, pow_zero, Nat.mul_one, ← h3] at this
    exact this
  · split
    · exact hall 3 ‹_›
    · exact addDigits_of_lt 3 (by omega)

/-- **The mode is the one that is written exactly for three and four digits**,
and for one or two zeros. -/
theorem main_chmod_iff (hne : argv1 ≠ []) (h : IsOctal argv1) :
    main true argv1 = some (.chmod (octalValue argv1)) ↔
      argv1.length = 3 ∨ argv1.length = 4 ∨ argv1.length ≤ 2 ∧ octalValue argv1 = 0 := by
  have hpos := List.length_pos_iff.mpr hne
  have hdigit : isDigit (argv1.getD 0 0) = true := by
    have := h argv1[0] (List.getElem_mem hpos)
    rw [List.getD_eq_getElem _ _ hpos]
    simp only [isDigit, Bool.and_eq_true, decide_eq_true_eq]
    omega
  rw [main, if_pos hdigit, digitMode, if_pos rfl, bit_eq hne h]
  split
  · rename_i h3
    simp [h3]
  · split
    · rename_i h3 h4
      rw [Option.map_some, Option.some.injEq, Act.chmod.injEq, Nat.cast_inj]
      obtain hlen | hlen | hlen : argv1.length = 4 ∨ argv1.length = 2 ∨ argv1.length = 1 := by
        omega
      all_goals
        rw [hlen]
        omega
    · simp
      omega

/-- `7` becomes the set-uid, set-gid and sticky bits, and the last digit of
`00755` is shifted by `-3`. -/
theorem seven_shifted : main true [55] ≠ some (.chmod (octalValue [55])) ∧
    main true [48, 48, 55, 53, 53] = none := by decide

/-- The mode `755`. -/
theorem main_chmod_iff_755 : main true [55, 53, 53] = some (.chmod (octalValue [55, 53, 53])) ↔
    [55, 53, 53].length = 3 ∨ [55, 53, 53].length = 4 ∨
      [55, 53, 53].length ≤ 2 ∧ octalValue [55, 53, 53] = 0 :=
  main_chmod_iff (by decide) (by decide)

end Mychmod
end LinuxProg
