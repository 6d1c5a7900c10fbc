/-
# Decoding of the reference string

`page_reference` is declared `int[31]`; `fgets` fills it with the bytes of the
line, the simulators index it as `int` words and `vector_update` as `char`s.
An element is then four bytes of the line, so the walk of the main loops sees
no single digits (`references_words_iff`), and the first loops of `OPT`, which
run `j` up to `60`, read past the 31 elements on every input
(`initDistances_words`).
-/
import Mathlib
import LinuxProg.Lib.Buffers
import LinuxProg.Paging.Input

namespace LinuxProg
namespace Paging

open Buffers

/-- The memory of `int page_reference[31]` after `main` has read the file. -/
def words (file : List ℕ) : List ℕ := (readInput 124 file).2

/-- The simulators decode the file faithfully: every main loop walks through
the pages of the line, `vector_update` sees at their places what `OPT` sees,
and none of the four reads outside the array. -/
structure Decodes (F : ℕ) (ds : List (Fin 10)) (newline : Bool) : Prop where
  references : references (wordAt (words (inputFile F ds newline))) slots = some (pagesOf ds)
  sameView : ∀ t < ds.length, byteAt (words (inputFile F ds newline)) (2 * t) =
    wordAt (words (inputFile F ds newline)) (2 * t)
  optInside : (opt F (wordAt (words (inputFile F ds newline)))
    (byteAt (words (inputFile F ds newline)))).isSome
  fifoInside : (fifo F (wordAt (words (inputFile F ds newline)))).isSome
  lruInside : (lru F (wordAt (words (inputFile F ds newline)))).isSome
  scrInside : (scr F (wordAt (words (inputFile F ds newline)))).isSome

/-! ### OPT reads outside the array -/

theorem length_words (file : List ℕ) : (words file).length = 124 := by
  have hfgets : ∀ stream, (fgets 62 (List.replicate 124 0) stream).length = 124 := by
    intro stream
    unfold fgets
    split
    · exact List.length_replicate
    · rw [length_readInto, List.length_replicate]
      have h1 : ((stream.take (62 - 1)).takeWhile (· != 10)).length ≤ 61 :=
        (List.takeWhile_prefix _).length_le.trans (List.length_take_le _ _)
      rw [List.length_append, List.length_append, List.length_replicate, List.length_singleton]
      split
      · rw [List.length_singleton]
        omega
      · rw [List.length_nil]
        omega
  exact hfgets _

/-- Element `32` is outside. -/
theorem wordAt_outside {buf : List ℕ} (h : buf.length = 124) : wordAt buf 32 = none := by
  rw [wordAt, List.getElem?_eq_none (by omega)]
  rfl

/-- At `i = 30` the search for the next use starts at `j = 32`. -/
theorem initDistances_words {buf : List ℕ} (h : buf.length = 124) :
    initDistances (wordAt buf) = none := by
  have hdist : distance (wordAt buf) (2 * 15) (slots.drop (15 + 1)) = none := by
    rw [slots_drop (by decide), distance, wordAt_outside h]
    rfl
  rw [Option.eq_none_iff_forall_ne_some]
  intro arr harr
  obtain ⟨v, hv⟩ := foldlM_forall (Q := fun t => ∃ v, distance (wordAt buf) (2 * t)
      (slots.drop (t + 1)) = some v)
    (fun _ _ _ hs => (Option.bind_eq_some_iff.mp hs).imp fun _ hv => hv.1) harr 15
    (List.mem_range.mpr (by decide))
  rw [hdist] at hv
  exact absurd hv (by simp)

theorem opt_words {buf : List ℕ} (h : buf.length = 124) (F : ℕ) (byte : ℕ → Option ℤ) :
    opt F (wordAt buf) byte = none := by
  rw [opt, initDistances_words h]
  rfl

/-! ### What the main loops see -/

theorem words_inputFile (F : ℕ) {ds : List (Fin 10)} (newline : Bool) (hlen : ds.length ≤ 31) :
    words (inputFile F ds newline) =
      stored ds newline ++ List.replicate (124 - (stored ds newline).length) 0 := by
  rw [words, readInput_inputFile F newline hlen (by omega)]

theorem stored_le {ds : List (Fin 10)} {newline : Bool} : ∀ b ∈ stored ds newline, b ≤ 57 := by
  intro b hb
  rw [stored, List.mem_append] at hb
  rcases hb with hb | hb
  · have := digits_or_space ds b hb
    omega
  · split at hb
    · rw [List.mem_singleton] at hb
      omega
    · exact absurd hb List.not_mem_nil

/-- The second byte of a line that goes on is no NUL. -/
theorem stored_second {d : Fin 10} {ds : List (Fin 10)} {newline : Bool}
    (h : ds ≠ [] ∨ newline = true) :
    ∃ b bs, stored (d :: ds) newline = (48 + d.val) :: b :: bs ∧ 10 ≤ b := by
  cases ds with
  | nil =>
    refine ⟨10, [], ?_, le_rfl⟩
    rw [h.resolve_left fun hc => hc rfl]
    rfl
  | cons e ds =>
    exact ⟨32, _, rfl, by decide⟩

/-- An element with two bytes that are not NUL is no single byte. -/
theorem wordAt_zero_ge {x y : ℕ} {rest : List ℕ} (hle : ∀ b ∈ x :: y :: rest, b ≤ 57)
    (hlen : 2 ≤ rest.length) : ∃ v, wordAt (x :: y :: rest) 0 = some v ∧ (x + 256 * y : ℤ) ≤ v := by
  obtain ⟨z, u, rest, rfl⟩ : ∃ z u rest', rest = z :: u :: rest' := by
    match rest, hlen with
    | z :: u :: rest, _ => exact ⟨z, u, rest, rfl⟩
  have hx := hle x (by simp)
  have hy := hle y (by simp)
  have hz := hle z (by simp)
  have hu := hle u (by simp)
  refine ⟨_, rfl, ?_⟩
  rw [Int.bmod_eq_of_le (by omega) (by omega)]
  push_cast
  omega

/-- **The main loops see the digits only of the shortest lines**: an element
has more than one byte of a line that goes on after its first digit. -/
theorem references_words_iff (F : ℕ) {ds : List (Fin 10)} (newline : Bool)
    (hlen : ds.length ≤ 31) :
    references (wordAt (words (inputFile F ds newline))) slots = some (pagesOf ds) ↔
      ds = [] ∨ (ds.length = 1 ∧ newline = false) := by
  rw [words_inputFile F newline hlen]
  constructor
  · intro h
    cases ds with
    | nil => exact Or.inl rfl
    | cons d ds =>
      right
      by_contra hc
      have hgo : ds ≠ [] ∨ newline = true := by
        by_contra hno
        rw [not_or, not_not, Bool.not_eq_true] at hno
        exact hc ⟨by rw [hno.1]; rfl, hno.2⟩
      obtain ⟨b, bs, hst, hb⟩ := stored_second (d := d) hgo
      have hle : ∀ x ∈ (48 + d.val) :: b :: (bs ++ List.replicate
          (124 - (stored (d :: ds) newline).length) 0), x ≤ 57 := by
        intro x hx
        rw [← List.cons_append, ← List.cons_append, ← hst, List.mem_append] at hx
        rcases hx with hx | hx
        · exact stored_le x hx
        · rw [(List.mem_replicate.mp hx).2]
          omega
      have hlen2 := length_stored newline hlen
      obtain ⟨v, hv, hge⟩ := wordAt_zero_ge hle (by
        rw [List.length_append, List.length_replicate]
        omega)
      rw [hst, List.cons_append, List.cons_append, ← List.drop_zero (l := slots),
        slots_drop (by decide), Paging.references, ← hst, hv] at h
      simp only [Option.bind_eq_bind, Option.bind_some] at h
      rw [if_neg (by omega)] at h
      obtain ⟨τ, -, hτ⟩ := Option.map_eq_some_iff.mp h
      have hpage : v - 48 = (d.val : ℤ) := (List.cons.inj hτ).1
      omega
  · rintro (rfl | ⟨hone, rfl⟩)
    · cases newline <;> decide
    · obtain ⟨d, rfl⟩ := List.length_eq_one_iff.mp hone
      revert d
      decide

/-! ### Main results -/

/-- **The declared buffer is not decoded faithfully on any input**: `OPT`
reads outside it. -/
theorem decodes_never (F : ℕ) (ds : List (Fin 10)) (newline : Bool) : ¬ Decodes F ds newline := by
  intro h
  have := h.optInside
  rw [opt_words (length_words _)] at this
  exact absurd this (by simp)

/-- The file `3` / `7 0 1`: the first element is the four bytes `7 0` and the
two spaces after the digits. -/
theorem decodes_fails : ¬ Decodes 3 [7, 0, 1] true := by
  intro h
  have hshort := (references_words_iff 3 true (by decide)).mp h.references
  exact absurd hshort (by decide)

end Paging
end LinuxProg
