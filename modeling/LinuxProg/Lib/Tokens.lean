/-
# Words separated by blanks

`nextToken sp` skips the blanks of a stream and takes the word behind them, as
a formatted read does; at the end of the stream the word is empty. Words put
behind single blanks are read back one by one (`tokens_join`), and a word that
was read has no blank in it (`nextToken_not_blank`), whatever was written.

Key definitions: `nextToken`, `tokens`, `join`.
Key theorems: `nextToken_not_blank`, `nextToken_word`, `tokens_join`.
-/
import Mathlib

namespace LinuxProg
namespace Tokens

variable {α : Type*} (sp : α → Bool)

/-- The next word of the stream, and the stream behind it. -/
def nextToken (stream : List α) : List α × List α :=
  let s := stream.dropWhile sp
  (s.takeWhile (fun b => !sp b), s.dropWhile (fun b => !sp b))

/-- The next `n` words. -/
def tokens : ℕ → List α → List (List α)
  | 0, _ => []
  | n + 1, stream => (nextToken sp stream).1 :: tokens n (nextToken sp stream).2

/-- Words, each behind a blank `c`. -/
def join (c : α) (ws : List (List α)) : List α := ws.flatMap (c :: ·)

/-- No blanks, and not empty. -/
structure IsWord (w : List α) : Prop where
  ne_nil : w ≠ []
  not_blank : ∀ b ∈ w, sp b = false

theorem nextToken_not_blank (stream : List α) : ∀ b ∈ (nextToken sp stream).1, sp b = false := by
  intro b hb
  simpa using List.mem_takeWhile_imp hb

variable {sp}

theorem takeWhile_word {w rest : List α} (h : ∀ b ∈ w, sp b = false)
    (hrest : ∀ b ∈ rest.head?, sp b = true) :
    (w ++ rest).takeWhile (fun b => !sp b) = w ∧ (w ++ rest).dropWhile (fun b => !sp b) = rest := by
  have hw : ∀ b ∈ w, (!sp b) = true := fun b hb => by rw [h b hb, Bool.not_false]
  rw [List.takeWhile_append_of_pos hw, List.dropWhile_append_of_pos hw]
  cases rest with
  | nil => simp
  | cons b rest => simp [hrest b rfl]

/-- A word in front of a blank or the end of the stream is read whole. -/
theorem nextToken_word {w rest : List α} (h : IsWord sp w) (hrest : ∀ b ∈ rest.head?, sp b = true) :
    nextToken sp (w ++ rest) = (w, rest) := by
  have hdrop : (w ++ rest).dropWhile sp = w ++ rest := by
    cases w with
    | nil => exact absurd rfl h.ne_nil
    | cons b w => simp [h.not_blank b (List.mem_cons_self)]
  obtain ⟨htake, hleft⟩ := takeWhile_word h.not_blank hrest
  rw [nextToken, hdrop, htake, hleft]

/-- Blanks in front of it are skipped. -/
theorem nextToken_blank {c : α} (hc : sp c = true) (stream : List α) :
    nextToken sp (c :: stream) = nextToken sp stream := by
  simp [nextToken, hc]

theorem tokens_blank {c : α} (hc : sp c = true) (n : ℕ) (stream : List α) :
    tokens sp n (c :: stream) = tokens sp n stream := by
  cases n with
  | zero => rfl
  | succ n => rw [tokens, tokens, nextToken_blank hc]

/-- At the end of the stream only empty words are read. -/
theorem tokens_end {rest : List α} (hrest : ∀ b ∈ rest, sp b = true) : ∀ n : ℕ,
    tokens sp n rest = List.replicate n []
  | 0 => rfl
  | n + 1 => by
    have hnext : nextToken sp rest = ([], []) := by
      rw [nextToken, List.dropWhile_eq_nil_iff.mpr hrest]
      rfl
    rw [tokens, hnext, @tokens_end [] (by simp) n, List.replicate_succ]

/-- **Words behind blanks are read back**, and then the end of the stream. -/
theorem tokens_join {c : α} (hc : sp c = true) {rest : List α} (hrest : ∀ b ∈ rest, sp b = true) :
    ∀ (n : ℕ) (ws : List (List α)), (∀ w ∈ ws, IsWord sp w) →
      tokens sp n (join c ws ++ rest) = ws.take n ++ List.replicate (n - ws.length) []
  | 0, _, _ => by simp [tokens]
  | n + 1, [], _ => by simpa [join] using tokens_end hrest (n + 1)
  | n + 1, w :: ws, hws => by
    obtain ⟨hw, hws⟩ := List.forall_mem_cons.mp hws
    have hhead : ∀ b ∈ (join c ws ++ rest).head?, sp b = true := by
      intro b hb
      cases ws with
      | nil => exact hrest b (List.mem_of_mem_head? hb)
      | cons w ws =>
        obtain rfl : c = b := by simpa [join] using hb
        exact hc
    have hnext : nextToken sp (join c (w :: ws) ++ rest) = (w, join c ws ++ rest) := by
      rw [join, List.flatMap_cons, List.cons_append, List.cons_append, nextToken_blank hc,
        List.append_assoc]
      exact nextToken_word hw hhead
    rw [tokens, hnext, tokens_join hc hrest n ws hws, List.take_succ_cons, List.length_cons,
      Nat.add_sub_add_right, List.cons_append]

end Tokens
end LinuxProg
