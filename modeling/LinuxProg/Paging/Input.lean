/-
# The input of the simulators

`main` of `OS과제/과제5` reads the frame count by
`fscanf(fp,"%d\n",..)` and the reference string by
`fgets(page_reference,62,fp)`. The bytes land in a global, so in a buffer of
zeros. `page_reference` is declared `int[31]`, with `char[62]` commented out
beside it; the simulators index it at its element type (`wordAt` for the
first, `byteAt` for the second), `vector_update` always at `char`.

A well-formed input file is a frame count on a line and single-digit pages
separated by single spaces on the next (`inputFile`), whose newline may be
missing. Read as bytes the buffer has the pages at its even places, up to a
zero (`reads_inputFile`).
-/
import Mathlib
import LinuxProg.Lib.Buffers
import LinuxProg.Paging.Simulators

namespace LinuxProg
namespace Paging

open Buffers

/-! ### Streams of bytes -/

def isSpace (b : ℕ) : Bool := b == 32 || (9 ≤ b && b ≤ 13)

def isDigit (b : ℕ) : Bool := 48 ≤ b && b ≤ 57

/-- The value of a string of digits. -/
def decimalValue (ds : List ℕ) : ℕ := ds.foldl (fun a d => a * 10 + (d - 48)) 0

/-- `fscanf(fp,"%d\n",&page_frame)`: what `page_frame` is then (a global, so
`0` if no number is read) and the rest of the stream. -/
def scanFrames (stream : List ℕ) : ℤ × List ℕ :=
  let s := stream.dropWhile isSpace
  let (negative, s) := match s with
    | 45 :: t => (true, t)
    | 43 :: t => (false, t)
    | t => (false, t)
  let ds := s.takeWhile isDigit
  if ds = [] then (0, s)
  else
    let v : ℤ := decimalValue ds
    (if negative then -v else v, (s.drop ds.length).dropWhile isSpace)

/-- `fgets(buf,size,fp)`: the bytes up to a newline, which is kept, but less
than `size`, and a NUL. At the end of the file the buffer is left as it is. -/
def fgets (size : ℕ) (buf stream : List ℕ) : List ℕ :=
  if stream = [] then buf
  else
    let s := stream.take (size - 1)
    readInto buf (s.takeWhile (· != 10) ++ (if 10 ∈ s then [10] else []) ++ [0])

/-- What `main` reads, into a `page_reference` of `size` bytes. -/
def readInput (size : ℕ) (file : List ℕ) : ℤ × List ℕ :=
  let (frames, rest) := scanFrames file
  (frames, fgets 62 (List.replicate size 0) rest)

/-! ### Views of the buffer -/

/-- `page_reference[i]` of a `char` array. -/
def byteAt (buf : List ℕ) (i : ℕ) : Option ℤ :=
  buf[i]?.map fun b : ℕ => Int.bmod (b : ℤ) 256

/-- `page_reference[i]` of an `int` array: four bytes, the lowest first. -/
def wordAt (buf : List ℕ) (i : ℕ) : Option ℤ := do
  let b0 ← buf[4 * i]?
  let b1 ← buf[4 * i + 1]?
  let b2 ← buf[4 * i + 2]?
  let b3 ← buf[4 * i + 3]?
  some (Int.bmod ((b0 + 256 * b1 + 65536 * b2 + 16777216 * b3 : ℕ) : ℤ) 4294967296)

/-! ### Well-formed files -/

/-- The decimal text of a number. -/
def decimal (n : ℕ) : List ℕ :=
  if n = 0 then [48] else (Nat.digits 10 n).reverse.map (48 + ·)

/-- Single-digit pages separated by single spaces, with or without newline. -/
def line (ds : List (Fin 10)) (newline : Bool) : List ℕ :=
  (ds.map fun d => 48 + d.val).intersperse 32 ++ if newline then [10] else []

def inputFile (frames : ℕ) (ds : List (Fin 10)) (newline : Bool) : List ℕ :=
  decimal frames ++ [10] ++ line ds newline

/-- The page numbers of the line. -/
def pagesOf (ds : List (Fin 10)) : List ℤ := ds.map fun d => (d.val : ℤ)

/-- The loops of the simulators find the reference string `σ` through `elem`:
its pages at the even places and a zero after them, inside the array. No page
is the marker of an empty frame or the zero. -/
structure Reads (elem : ℕ → Option ℤ) (σ : List ℤ) : Prop where
  length : σ.length ≤ 31
  marker : ∀ p ∈ σ, p ≠ -1
  nonzero : ∀ p ∈ σ, p + 48 ≠ 0
  page : ∀ t (h : t < σ.length), elem (2 * t) = some (σ[t] + 48)
  stop : σ.length < 31 → elem (2 * σ.length) = some 0
  inside : ∀ t < 31, ∃ x, elem (2 * t) = some x

/-- The page behind the references `a`. -/
theorem Reads.page_at {elem : ℕ → Option ℤ} {a b : List ℤ} {q : ℤ}
    (h : Reads elem (a ++ q :: b)) : elem (2 * a.length) = some (q + 48) := by
  have := h.page a.length (by simp)
  simpa using this

theorem slots_drop {t : ℕ} (h : t < 31) : slots.drop t = 2 * t :: slots.drop (t + 1) := by
  have hlt : t < slots.length := by simpa [slots] using h
  rw [List.drop_eq_getElem_cons hlt]
  simp [slots]

/-- The main loops walk through the reference string. -/
theorem Reads.references {elem : ℕ → Option ℤ} {σ : List ℤ} (h : Reads elem σ) :
    references elem slots = some σ := by
  have hdrop : ∀ n t, t + n = σ.length → Paging.references elem (slots.drop t) = some (σ.drop t) := by
    intro n
    induction n with
    | zero =>
      intro t ht
      obtain rfl : t = σ.length := ht
      rw [List.drop_length]
      rcases Nat.lt_or_ge σ.length 31 with hlt | hge
      · rw [slots_drop hlt, Paging.references, h.stop hlt]
        rfl
      · rw [List.drop_of_length_le (by simpa [slots] using hge)]
        rfl
    | succ n ih =>
      intro t ht
      have hlt : t < σ.length := by omega
      have hp := h.nonzero _ (List.getElem_mem hlt)
      rw [slots_drop (hlt.trans_le h.length), Paging.references, h.page t hlt,
        ih (t + 1) (by omega), List.drop_eq_getElem_cons hlt]
      simp only [Option.bind_eq_bind, Option.bind_some, Option.map_some]
      rw [if_neg hp, Int.add_sub_cancel]
  exact hdrop σ.length 0 (Nat.zero_add _)

/-! ### Reading a well-formed file -/

theorem decimalValue_decimal (n : ℕ) : decimalValue (decimal n) = n := by
  unfold decimal
  split
  · rename_i h
    rw [h]
    rfl
  · rw [decimalValue, List.foldl_map, List.foldl_reverse]
    have := Nat.ofDigits_digits 10 n
    rw [Nat.ofDigits_eq_foldr] at this
    calc _ = List.foldr (fun x y => x + 10 * y) 0 (Nat.digits 10 n) := by
          congr 1
          funext x y
          omega
      _ = n := this

theorem decimal_isDigit (n : ℕ) : ∀ b ∈ decimal n, isDigit b = true := by
  intro b hb
  unfold decimal at hb
  split at hb
  · rw [List.mem_singleton.mp hb]
    rfl
  · obtain ⟨d, hd, rfl⟩ := List.mem_map.mp hb
    have := Nat.digits_lt_base (by omega : 1 < 10) (List.mem_reverse.mp hd)
    simp only [isDigit, Bool.and_eq_true, decide_eq_true_eq]
    omega

theorem decimal_ne_nil (n : ℕ) : decimal n ≠ [] := by
  unfold decimal
  split
  · exact List.cons_ne_nil _ _
  · rename_i h
    simp [Nat.digits_ne_nil_iff_ne_zero.mpr h]

/-- The bytes of the line that `fgets` stores: a newline only if there is one
and room for it. The newline of an empty line is skipped by `fscanf`. -/
def stored (ds : List (Fin 10)) (newline : Bool) : List ℕ :=
  (ds.map fun d => 48 + d.val).intersperse 32 ++
    if newline ∧ ds ≠ [] ∧ ds.length < 31 then [10] else []

theorem length_digits (ds : List (Fin 10)) :
    ((ds.map fun d => 48 + d.val).intersperse 32).length = 2 * ds.length - 1 := by
  rw [List.length_intersperse, List.length_map]

theorem length_stored {ds : List (Fin 10)} (newline : Bool) (h : ds.length ≤ 31) :
    (stored ds newline).length ≤ 61 := by
  rw [stored, List.length_append, length_digits]
  split
  · rw [List.length_singleton]
    omega
  · rw [List.length_nil]
    omega

theorem line_nil (newline : Bool) : (line [] newline).dropWhile isSpace = [] := by
  cases newline <;> rfl

theorem line_cons (d : Fin 10) (ds : List (Fin 10)) (newline : Bool) :
    ∃ t, line (d :: ds) newline = (48 + d.val) :: t := by
  cases ds with
  | nil => exact ⟨_, rfl⟩
  | cons e ds => exact ⟨_, rfl⟩

theorem isSpace_digit (d : Fin 10) : isSpace (48 + d.val) = false := by
  simp only [isSpace, Bool.or_eq_false_iff, beq_eq_false_iff_ne, Bool.and_eq_false_iff,
    decide_eq_false_iff_not]
  omega

theorem scanFrames_inputFile (frames : ℕ) (ds : List (Fin 10)) (newline : Bool) :
    scanFrames (inputFile frames ds newline) = (↑frames, if ds = [] then [] else line ds newline) := by
  obtain ⟨b, bs, hdec⟩ := List.exists_cons_of_ne_nil (decimal_ne_nil frames)
  have hb : isDigit b = true := decimal_isDigit frames b (hdec ▸ List.mem_cons_self)
  simp only [isDigit, Bool.and_eq_true, decide_eq_true_eq] at hb
  have hspace : isSpace b = false := by
    simp only [isSpace, Bool.or_eq_false_iff, beq_eq_false_iff_ne, Bool.and_eq_false_iff,
      decide_eq_false_iff_not]
    omega
  have hfile : inputFile frames ds newline = decimal frames ++ 10 :: line ds newline := by
    rw [inputFile, List.append_assoc, List.singleton_append]
  have hdrop : (inputFile frames ds newline).dropWhile isSpace =
      decimal frames ++ 10 :: line ds newline := by
    rw [hfile, hdec, List.cons_append, List.dropWhile_cons, hspace]
    rfl
  have htake : (decimal frames ++ 10 :: line ds newline).takeWhile isDigit = decimal frames := by
    rw [List.takeWhile_append_of_pos (decimal_isDigit frames), List.takeWhile_cons]
    simp [isDigit]
  have hrest : (10 :: line ds newline).dropWhile isSpace =
      if ds = [] then [] else line ds newline := by
    rw [List.dropWhile_cons, if_pos (by rfl)]
    cases ds with
    | nil => exact line_nil newline
    | cons d ds =>
      obtain ⟨t, ht⟩ := line_cons d ds newline
      rw [ht, List.dropWhile_cons, isSpace_digit, if_neg (by simp), if_neg (List.cons_ne_nil _ _)]
  have hsign : ∀ {β : Type} (x y : List ℕ → β) (z : List ℕ → β),
      (match decimal frames ++ 10 :: line ds newline with
        | 45 :: t => x t
        | 43 :: t => y t
        | t => z t) = z (decimal frames ++ 10 :: line ds newline) := by
    intro β x y z
    rw [hdec]
    split
    · rename_i h
      obtain ⟨rfl, -⟩ := List.cons.inj h
      omega
    · rename_i h
      obtain ⟨rfl, -⟩ := List.cons.inj h
      omega
    · rfl
  unfold scanFrames
  simp only [hdrop]
  rw [hsign]
  simp only [htake, if_neg (decimal_ne_nil frames), decimalValue_decimal, List.drop_left, hrest]
  rfl

/-- The bytes of the line before its newline. -/
theorem digits_or_space : ∀ (ds : List (Fin 10)) (b : ℕ),
    b ∈ (ds.map fun d => 48 + d.val).intersperse 32 → b = 32 ∨ (48 ≤ b ∧ b ≤ 57)
  | [], _, h => absurd h List.not_mem_nil
  | [d], b, h => by
    rw [List.map_singleton, List.intersperse_singleton, List.mem_singleton] at h
    omega
  | d :: e :: ds, b, h => by
    have ih := digits_or_space (e :: ds) b
    rw [List.map_cons] at ih
    rw [List.map_cons, List.map_cons, List.intersperse_cons_cons, List.mem_cons, List.mem_cons] at h
    rcases h with h | h | h
    · omega
    · exact Or.inl h
    · exact ih h

theorem newline_notMem_digits (ds : List (Fin 10)) :
    10 ∉ (ds.map fun d => 48 + d.val).intersperse 32 := by
  intro h
  have := digits_or_space ds 10 h
  omega

/-- Bytes and a NUL at the front of a buffer of zeros. -/
theorem readInto_zeros {size : ℕ} {bytes : List ℕ} (h : bytes.length < size) :
    readInto (List.replicate size 0) (bytes ++ [0]) =
      bytes ++ List.replicate (size - bytes.length) 0 := by
  obtain ⟨k, rfl⟩ : ∃ k, size = bytes.length + 1 + k := ⟨size - (bytes.length + 1), by omega⟩
  rw [readInto, List.length_append, List.length_singleton, List.drop_replicate,
    List.append_assoc, show bytes.length + 1 + k - bytes.length = k + 1 by omega,
    Nat.add_sub_cancel_left, List.replicate_succ, List.singleton_append]

/-- What `fgets` stores of the line. -/
theorem fgets_line {ds : List (Fin 10)} (newline : Bool) {size : ℕ} (hds : ds ≠ [])
    (hlen : ds.length ≤ 31) (hsize : 62 ≤ size) :
    fgets 62 (List.replicate size 0) (line ds newline) =
      stored ds newline ++ List.replicate (size - (stored ds newline).length) 0 := by
  have hdig := length_digits ds
  have hnl := newline_notMem_digits ds
  have hne : line ds newline ≠ [] := by
    obtain ⟨d, ds, rfl⟩ := List.exists_cons_of_ne_nil hds
    obtain ⟨t, ht⟩ := line_cons d ds newline
    rw [ht]
    exact List.cons_ne_nil _ _
  have hall : ∀ b ∈ (ds.map fun d => 48 + d.val).intersperse 32, (b != 10) = true := by
    intro b hb
    rw [bne_iff_ne]
    exact fun h => hnl (h ▸ hb)
  have htext : ((line ds newline).take 61).takeWhile (· != 10) ++
      (if 10 ∈ (line ds newline).take 61 then [10] else []) = stored ds newline := by
    by_cases hc : newline = true ∧ ds.length < 31
    · have htake : (line ds newline).take 61 =
          (ds.map fun d => 48 + d.val).intersperse 32 ++ [10] := by
        rw [line, if_pos hc.1, List.take_of_length_le]
        rw [List.length_append, hdig, List.length_singleton]
        omega
      rw [htake, List.takeWhile_append_of_pos hall, if_pos (by simp), stored,
        if_pos ⟨hc.1, hds, hc.2⟩]
      simp
    · have htake : (line ds newline).take 61 = (ds.map fun d => 48 + d.val).intersperse 32 := by
        rw [line]
        split
        · rename_i hn
          have : ds.length = 31 := by
            have : ¬ ds.length < 31 := fun h => hc ⟨hn, h⟩
            omega
          rw [List.take_append_of_le_length (by omega), List.take_of_length_le (by omega)]
        · rw [List.append_nil, List.take_of_length_le (by omega)]
      rw [htake, if_neg hnl, stored, if_neg fun h => hc ⟨h.1, h.2.2⟩]
      rw [List.takeWhile_eq_self_iff.mpr hall]
  rw [fgets, if_neg hne]
  simp only [Nat.reduceSub, htext]
  rw [readInto_zeros]
  have := length_stored newline hlen
  omega

/-- **Reading a well-formed file**: the frame count, and the bytes of the line
at the front of a buffer of zeros. -/
theorem readInput_inputFile (frames : ℕ) {ds : List (Fin 10)} (newline : Bool) {size : ℕ}
    (hlen : ds.length ≤ 31) (hsize : 62 ≤ size) :
    readInput size (inputFile frames ds newline) = (↑frames,
      stored ds newline ++ List.replicate (size - (stored ds newline).length) 0) := by
  rw [readInput, scanFrames_inputFile]
  by_cases hds : ds = []
  · subst hds
    simp [fgets, stored]
  · simp only [if_neg hds, fgets_line newline hds hlen hsize]

/-- **The bytes are the reference string**: pages at the even places and a
zero after them. -/
theorem reads_inputFile (frames : ℕ) {ds : List (Fin 10)} (newline : Bool)
    (hlen : ds.length ≤ 31) :
    Reads (byteAt (readInput 62 (inputFile frames ds newline)).2) (pagesOf ds) := by
  have hst := length_stored newline hlen
  have hdig := length_digits ds
  rw [readInput_inputFile frames newline hlen le_rfl]
  set buf := stored ds newline ++ List.replicate (62 - (stored ds newline).length) 0 with hbuf
  have hpages : (pagesOf ds).length = ds.length := List.length_map _
  have hnonneg : ∀ p ∈ pagesOf ds, 0 ≤ p := by
    intro p hp
    obtain ⟨d, -, rfl⟩ := List.mem_map.mp hp
    exact Int.natCast_nonneg _
  refine ⟨by omega, fun p hp => ?_, fun p hp => ?_, fun t ht => ?_, fun hlt => ?_, fun t ht => ?_⟩
  · have := hnonneg p hp
    omega
  · have := hnonneg p hp
    omega
  · rw [hpages] at ht
    have hget : buf[2 * t]? = some (48 + ds[t].val) := by
      rw [hbuf, stored, List.append_assoc, List.getElem?_append_left (by omega),
        List.getElem?_intersperse_two_mul, List.getElem?_map, List.getElem?_eq_getElem ht]
      rfl
    have hd := ds[t].isLt
    simp only [byteAt, hget, Option.map_some, pagesOf, List.getElem_map, Option.some.injEq]
    rw [Int.bmod_eq_of_le (by omega) (by omega)]
    push_cast
    omega
  · rw [hpages] at hlt ⊢
    have hle : (stored ds newline).length ≤ 2 * ds.length := by
      rw [stored, List.length_append, hdig]
      split
      · rename_i h
        have := List.length_pos_iff.mpr h.2.1
        rw [List.length_singleton]
        omega
      · rw [List.length_nil]
        omega
    have hget : buf[2 * ds.length]? = some 0 := by
      rw [hbuf, List.getElem?_append_right hle, List.getElem?_replicate, if_pos (by omega)]
    simp [byteAt, hget]
  · have : 2 * t < buf.length := by
      rw [hbuf, List.length_append, List.length_replicate]
      omega
    exact ⟨_, by simp only [byteAt]; rw [List.getElem?_eq_getElem this]; rfl⟩

end Paging
end LinuxProg
