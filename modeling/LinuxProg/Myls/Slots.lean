/-
# Sorting in the buffer of readdir

Plain `myls` keeps in `arr` pointers into the buffer that `readdir` reads the
entries from, and its sort copies the strings from one entry to another. The
buffer is the list of its bytes: the records of the entries one after the
other, a record being 19 bytes, the name with its NUL and up to seven bytes to
the next multiple of 8. A copy that runs over its source, past the end of the
buffer or of `change[1024]` is `none`.

A name longer than the record it is copied into runs over the next record. The
19 bytes in front of a name are not read again, nor are `.` and `..`, so what
counts is the room up to the next name in `arr`. While the names fit their
rooms the sort does what the one on separate strings does (`sortLoop_spec`),
and it copies a name into a room too small for it exactly if some name has to
go there: one of the names read before, moved up to make place, or the name
that is the `k`-th of the first ones (`keepsNames`).
-/
import Mathlib
import LinuxProg.Lib.CStrings
import LinuxProg.Myls.Room

namespace LinuxProg
namespace Myls

open Buffers CStrings Exchange

def nul : Char := Char.ofNat 0

/-- An entry as `getdents64` stores it. -/
structure Record where
  entry : Dirent
  header : List Char
  pad : List Char
  length_header : header.length = 19
  pad_lt : pad.length < 8
  aligned : (header.length + entry.name.length + 1 + pad.length) % 8 = 0
  free : nul ∉ entry.name
  short : entry.name.length < 256

def Record.bytes (r : Record) : List Char := r.header ++ (r.entry.name ++ nul :: r.pad)

/-- The buffer, with what is behind the last record. -/
def buffer (rs : List Record) (rest : List Char) : List Char := rs.flatMap Record.bytes ++ rest

/-- `sprintf(path,"%s/%s",dir,d->d_name)` and `arr[arr_index++] = d->d_name`, the
record being at `s.1`. -/
def readEntry (dir : Str) (s : ℕ × List ℕ) (r : Record) : Option (ℕ × List ℕ) :=
  if pathFits dir r.entry then
    if listed r.entry then
      if s.2.length < 1024 then some (s.1 + r.bytes.length, s.2 ++ [s.1 + 19]) else none
    else some (s.1 + r.bytes.length, s.2)
  else none

def readLoop (dir : Str) (rs : List Record) : Option (ℕ × List ℕ) :=
  rs.foldlM (readEntry dir) (0, [])

/-- `strcpy(p,s)` for a `p` in the buffer; the cells from `stop` on are not to be
written. -/
def strcpy (stop : ℕ) (mem : List Char) (p : ℕ) (s : Str) : Option (List Char) :=
  if p + s.length < stop then some (write mem p (s ++ [nul])) else none

/-- `change` is `arr[i]`, which becomes `arr[j]`, which becomes `change`. -/
def exchangeNames (stop : ℕ → ℕ) (arr : List ℕ) (i j : ℕ) (mem : List Char) :
    Option (List Char) := do
  let p := arr.getD i 0
  let q := arr.getD j 0
  let change ← strcpy1024 (str nul mem p)
  let s := str nul mem q
  -- `strcpy(arr[i],arr[j])` is undefined if the strings overlap
  let mem ← if q + s.length < p ∨ p + s.length < q then strcpy (stop i) mem p s else none
  strcpy (stop j) mem q change

/-- The body of the sort. -/
def sortAt (stop : ℕ → ℕ) (arr : List ℕ) (i : ℕ) (mem : List Char) (j : ℕ) :
    Option (List Char) :=
  if str nul mem (arr.getD i 0) < str nul mem (arr.getD j 0) then exchangeNames stop arr i j mem
  else some mem

def sortInner (stop : ℕ → ℕ) (arr : List ℕ) (mem : List Char) (i : ℕ) : Option (List Char) :=
  (List.range i).foldlM (sortAt stop arr i) mem

def sortLoop (stop : ℕ → ℕ) (arr : List ℕ) (mem : List Char) : Option (List Char) :=
  (List.range arr.length).foldlM (sortInner stop arr) mem

/-- `myls` of a directory: `arr` and the buffer. A copy into entry `k` of `arr`
is to end before `stop k`. -/
def mylsWithin (stop : ℕ → ℕ) (dir : Str) (rs : List Record) (rest : List Char) :
    Option (List ℕ × List Char) := do
  let (_, arr) ← readLoop dir rs
  let mem ← sortLoop stop arr (buffer rs rest)
  some (arr, mem)

/-- All of the buffer can be written. -/
def mylsInBuffer (dir : Str) (rs : List Record) (rest : List Char) :
    Option (List ℕ × List Char) :=
  mylsWithin (fun _ => (buffer rs rest).length) dir rs rest

/-- The names in `arr`, in the order they are read. -/
def names (rs : List Record) : List Str := (rs.filter fun r => listed r.entry).map fun r => r.entry.name

/-- `arr` has the names in order after the sort. -/
def KeepsNames (dir : Str) (rs : List Record) (rest : List Char) : Prop :=
  ∃ arr mem, mylsInBuffer dir rs rest = some (arr, mem) ∧
    (arr.map (str nul mem)).Perm (names rs) ∧ (arr.map (str nul mem)).Pairwise (· ≤ ·)

/-! ### Where the names stand -/

/-- Where they stand, the records starting at `p`. -/
def slots : ℕ → List Record → List ℕ
  | _, [] => []
  | p, r :: rs =>
    if listed r.entry then (p + 19) :: slots (p + r.bytes.length) rs
    else slots (p + r.bytes.length) rs

theorem Record.length_bytes (r : Record) :
    r.bytes.length = 19 + r.entry.name.length + 1 + r.pad.length := by
  rw [bytes, List.length_append, List.length_append, List.length_cons, r.length_header]
  omega

theorem length_records_cons (r : Record) (rs : List Record) :
    ((r :: rs).flatMap Record.bytes).length = r.bytes.length + (rs.flatMap Record.bytes).length := by
  rw [List.flatMap_cons, List.length_append]

theorem mem_slots : ∀ {rs : List Record} {p q : ℕ}, q ∈ slots p rs →
    p + 19 ≤ q ∧ q < p + (rs.flatMap Record.bytes).length
  | r :: rs, p, q, h => by
    have hlen := r.length_bytes
    rw [length_records_cons]
    unfold slots at h
    split at h
    · rcases List.mem_cons.mp h with rfl | h
      · omega
      · have := mem_slots h
        omega
    · have := mem_slots h
      omega

theorem slots_sorted : ∀ (rs : List Record) (p : ℕ), (slots p rs).Pairwise (· < ·)
  | [], _ => List.Pairwise.nil
  | r :: rs, p => by
    have hlen := r.length_bytes
    unfold slots
    split
    · refine List.pairwise_cons.mpr ⟨fun q hq => ?_, slots_sorted rs _⟩
      have := mem_slots hq
      omega
    · exact slots_sorted rs _

/-- The rooms of the names. -/
def rooms (rs : List Record) (rest : List Char) : Rooms where
  slots := slots 0 rs
  stop := (buffer rs rest).length
  sorted := slots_sorted rs 0
  below q hq := by
    have := (mem_slots hq).2
    rw [buffer, List.length_append]
    omega

theorem names_cons (r : Record) (rs : List Record) :
    names (r :: rs) = if listed r.entry then r.entry.name :: names rs else names rs := by
  unfold names
  rw [List.filter_cons]
  split <;> rfl

theorem length_slots : ∀ (rs : List Record) (p : ℕ), (slots p rs).length = (names rs).length
  | [], _ => rfl
  | r :: rs, p => by
    rw [names_cons]
    unfold slots
    split
    · rw [List.length_cons, List.length_cons, length_slots rs]
    · exact length_slots rs _

/-- What is read back before the sort: each name in its place, before the next. -/
theorem names_at : ∀ (rs : List Record) (pre rest : List Char) (k : ℕ) (s : Str),
    (names rs)[k]? = some s →
    let mem := pre ++ (rs.flatMap Record.bytes ++ rest)
    At nul mem ((slots pre.length rs).getD k mem.length) s ∧
      (slots pre.length rs).getD k mem.length + s.length <
        (slots pre.length rs).getD (k + 1) mem.length
  | r :: rs, pre, rest, k, s, h => by
    have hlen := r.length_bytes
    have hmem : pre ++ ((r :: rs).flatMap Record.bytes ++ rest) =
        (pre ++ r.bytes) ++ (rs.flatMap Record.bytes ++ rest) := by
      simp
    have ih := names_at rs (pre ++ r.bytes) rest
    rw [List.length_append] at ih
    rw [names_cons] at h
    intro mem
    unfold slots
    split
    · rename_i hlisted
      rw [if_pos hlisted] at h
      cases k with
      | zero =>
        obtain rfl : r.entry.name = s := by simpa using h
        rw [List.getD_cons_zero, List.getD_cons_succ]
        refine ⟨⟨r.free, r.pad ++ (rs.flatMap Record.bytes ++ rest), ?_⟩, ?_⟩
        · have hsplit : mem = (pre ++ r.header) ++ (r.entry.name ++ nul ::
              (r.pad ++ (rs.flatMap Record.bytes ++ rest))) := by
            simp [mem, Record.bytes]
          rw [hsplit, List.drop_left' (by rw [List.length_append, r.length_header])]
        · cases hs : slots (pre.length + r.bytes.length) rs with
          | nil =>
            have : mem.length = pre.length + r.bytes.length +
                (rs.flatMap Record.bytes ++ rest).length := by
              simp only [mem, hmem, List.length_append]
            rw [List.getD_nil]
            omega
          | cons q qs =>
            have := mem_slots (hs ▸ List.mem_cons_self : q ∈ slots (pre.length + r.bytes.length) rs)
            rw [List.getD_cons_zero]
            omega
      | succ k =>
        rw [List.getElem?_cons_succ] at h
        rw [List.getD_cons_succ, List.getD_cons_succ]
        simpa only [mem, hmem] using ih k s h
    · rename_i hlisted
      rw [if_neg hlisted] at h
      simpa only [mem, hmem] using ih k s h

theorem shows_buffer (rs : List Record) (rest : List Char) :
    Shows nul (rooms rs rest) (buffer rs rest) (names rs) where
  length := rfl
  here k s hs := (names_at rs [] rest k s hs).1
  fits k s hs := (rooms rs rest).lt_room.mpr (names_at rs [] rest k s hs).2

/-! ### One exchange -/

section Exchanges

variable {R : Rooms} {mem : List Char} {a : List Str} (stop : ℕ → ℕ) {i j : ℕ} {x y : Str}

theorem getD_slots {k : ℕ} (hk : k < R.slots.length) : R.slots.getD k 0 = R.slot k := by
  unfold Rooms.slot
  rw [List.getD_eq_getElem _ _ hk, List.getD_eq_getElem _ _ hk]

/-- What the copies do while the strings are in their rooms. -/
theorem exchangeNames_eq (h : Shows nul R mem a) (ha : a.length = R.slots.length) (hji : j < i)
    (hx : a[i]? = some x) (hy : a[j]? = some y) (hshort : x.length < 1024) :
    exchangeNames stop R.slots i j mem = (strcpy (stop i) mem (R.slot i) y).bind fun mem =>
      strcpy (stop j) mem (R.slot j) x := by
  have hi : i < R.slots.length := ha ▸ (List.getElem?_eq_some_iff.mp hx).1
  have hapart : R.slot j + y.length < R.slot i := by
    have := R.lt_room.mp (h.fits j y hy)
    have := R.limit_le_slot hji
    omega
  unfold exchangeNames
  simp only [getD_slots hi, getD_slots (hji.trans hi), h.str_eq hx, h.str_eq hy]
  rw [strcpy1024, if_pos hshort, Option.bind_eq_bind, Option.bind_some, if_pos (Or.inl hapart)]

/-- What the body does. -/
theorem sortAt_eq (h : Shows nul R mem a) (ha : a.length = R.slots.length) (hji : j < i)
    (hx : a[i]? = some x) (hy : a[j]? = some y) :
    sortAt stop R.slots i mem j =
      if x < y then exchangeNames stop R.slots i j mem else some mem := by
  have hi : i < R.slots.length := ha ▸ (List.getElem?_eq_some_iff.mp hx).1
  rw [sortAt, getD_slots hi, getD_slots (hji.trans hi), h.str_eq hx, h.str_eq hy]

/-- A name copied into its room, -/
theorem strcpy_room (h : Shows nul R mem a) {k : ℕ} {s : Str} (hs : nul ∉ s)
    (hroom : s.length < R.room k) (hstop : R.limit k ≤ stop k) :
    ∃ mem', strcpy (stop k) mem (R.slot k) s = some mem' ∧ Shows nul R mem' (a.set k s) := by
  refine ⟨_, if_pos ?_, h.write hs hroom⟩
  have := R.lt_room.mp hroom
  omega

/-- and one copied over it. -/
theorem strcpy_over {k : ℕ} {s : Str} (hroom : ¬ s.length < R.room k) :
    strcpy (R.limit k) mem (R.slot k) s = none := by
  rw [Rooms.lt_room] at hroom
  exact if_neg hroom

/-- **An exchange** of names that fit, or one of names that do not. -/
theorem exchangeNames_spec (h : Shows nul R mem a) (ha : a.length = R.slots.length) (hji : j < i)
    (hx : a[i]? = some x) (hy : a[j]? = some y) (hshort : x.length < 1024) :
    ((y.length < R.room i ∧ x.length < R.room j) → (∀ k, R.limit k ≤ stop k) →
      ∃ mem', exchangeNames stop R.slots i j mem = some mem' ∧ Shows nul R mem' (swap a i j)) ∧
    (¬ (y.length < R.room i ∧ x.length < R.room j) →
      exchangeNames R.limit R.slots i j mem = none) := by
  have hswap : swap a i j = (a.set i y).set j x := by
    unfold swap
    rw [hx, hy]
  have hxfree := (h.here i x hx).free
  have hyfree := (h.here j y hy).free
  constructor
  · rintro ⟨hyi, hxj⟩ hstop
    obtain ⟨m, hm, hshows⟩ := strcpy_room stop h hyfree hyi (hstop i)
    obtain ⟨mem', hmem', hshows'⟩ := strcpy_room stop hshows hxfree hxj (hstop j)
    refine ⟨mem', ?_, hswap ▸ hshows'⟩
    rw [exchangeNames_eq stop h ha hji hx hy hshort, hm, Option.bind_some, hmem']
  · intro hover
    rw [exchangeNames_eq R.limit h ha hji hx hy hshort]
    by_cases hyi : y.length < R.room i
    · obtain ⟨m, hm, -⟩ := strcpy_room R.limit h hyfree hyi le_rfl
      rw [hm, Option.bind_some]
      exact strcpy_over fun hxj => hover ⟨hyi, hxj⟩
    · rw [strcpy_over hyi, Option.bind_none]

end Exchanges

/-! ### The inner loop -/

/-- Carrying `x`, which came from place `i`, through the names from place `p` on
copies each into a room. -/
def Moves (room : ℕ → ℕ) (i : ℕ) : ℕ → Str → List Str → Prop
  | _, _, [] => True
  | p, x, y :: l =>
    if x < y then (y.length < room i ∧ x.length < room p) ∧ Moves room i (p + 1) y l
    else Moves room i (p + 1) x l

/-- The inner loop carries the name at place `i`. -/
theorem sortInner_fold {R : Rooms} (stop : ℕ → ℕ) : ∀ (l pre : List Str) (x : Str)
    (post : List Str) (mem : List Char), Shows nul R mem (pre ++ (l ++ x :: post)) →
    (pre ++ (l ++ x :: post)).length = R.slots.length →
    (∀ s ∈ pre ++ (l ++ x :: post), s.length < 1024) →
    (Moves R.room (pre.length + l.length) pre.length x l → (∀ k, R.limit k ≤ stop k) →
      ∃ mem', (List.range' pre.length l.length).foldlM
          (sortAt stop R.slots (pre.length + l.length)) mem = some mem' ∧
        Shows nul R mem' (pre ++ (carry (· < ·) x l ++ post))) ∧
    (¬ Moves R.room (pre.length + l.length) pre.length x l →
      (List.range' pre.length l.length).foldlM
        (sortAt R.limit R.slots (pre.length + l.length)) mem = none)
  | [], pre, x, post, mem, h, _, _ => ⟨fun _ _ => ⟨mem, rfl, h⟩, fun hm => absurd trivial hm⟩
  | y :: l, pre, x, post, mem, h, hlen, hshort => by
    have hx : (pre ++ (y :: l ++ x :: post))[pre.length + (l.length + 1)]? = some x := by
      rw [List.getElem?_append_right (by omega), Nat.add_sub_cancel_left]
      simp
    have hy : (pre ++ (y :: l ++ x :: post))[pre.length]? = some y := by simp
    have hxs : x.length < 1024 := hshort x (by simp)
    have hnext : ∀ z : Str, (pre ++ [z]).length + l.length = pre.length + (l.length + 1) := by
      intro z
      rw [List.length_append, List.length_singleton]
      omega
    have hsnoc : ∀ z : Str, (pre ++ [z]).length = pre.length + 1 := by simp
    have hji : pre.length < pre.length + (l.length + 1) := by omega
    simp only [List.length_cons, List.range'_succ, List.foldlM_cons]
    unfold Moves carry
    by_cases hxy : x < y
    · have hspec := fun stop => exchangeNames_spec stop h hlen hji hx hy hxs
      have hat : ∀ stop, sortAt stop R.slots (pre.length + (l.length + 1)) mem pre.length =
          exchangeNames stop R.slots (pre.length + (l.length + 1)) pre.length mem := by
        intro stop
        rw [sortAt_eq stop h hlen hji hx hy, if_pos hxy]
      simp only [hat]
      rw [swap_comm, List.cons_append, swap_split] at hspec
      have ih := fun stop mem => sortInner_fold (R := R) stop l (pre ++ [x]) y post mem
      rw [hnext, hsnoc] at ih
      simp only [List.append_assoc, List.singleton_append] at ih
      have hlen' : (pre ++ x :: (l ++ y :: post)).length = R.slots.length := by
        rw [← hlen]
        simp
      have hshort' : ∀ s ∈ pre ++ x :: (l ++ y :: post), s.length < 1024 := by
        intro s hs
        apply hshort s
        simp only [List.mem_append, List.mem_cons, List.cons_append] at hs ⊢
        tauto
      rw [if_pos hxy, if_pos hxy]
      by_cases hfit : y.length < R.room (pre.length + (l.length + 1)) ∧ x.length < R.room pre.length
      · constructor
        · rintro ⟨-, hm⟩ hstop
          obtain ⟨m, hturn, hshows⟩ := (hspec stop).1 hfit hstop
          obtain ⟨mem', hrest, hshows'⟩ := (ih stop m hshows hlen' hshort').1 hm hstop
          exact ⟨mem', by rw [hturn]; exact hrest, hshows'⟩
        · intro hnot
          obtain ⟨m, hturn, hshows⟩ := (hspec R.limit).1 hfit fun _ => le_rfl
          rw [hturn]
          exact (ih stop m hshows hlen' hshort').2 fun hm => hnot ⟨hfit, hm⟩
      · refine ⟨fun hm => absurd hm.1 hfit, fun _ => ?_⟩
        rw [(hspec stop).2 hfit]
        rfl
    · have heq := fun stop => sortAt_eq stop h hlen hji hx hy
      have ih := sortInner_fold (R := R) stop l (pre ++ [y]) x post mem
      rw [hnext, hsnoc] at ih
      simp only [List.append_assoc, List.singleton_append] at ih
      rw [if_neg hxy, if_neg hxy, heq stop, heq R.limit, if_neg hxy, if_neg hxy]
      exact ih h hlen hshort

/-! ### Which names are moved where -/

/-- The strings in order. -/
def inOrder (l : List Str) : List Str := l.insertionSort (· ≤ ·)

/-- What the inner loop does with the name `x`, read after those in `pre`: the
greater ones each pass through its room, and all come to stand in order. -/
def TurnFits (room : ℕ → ℕ) (pre : List Str) (x : Str) : Prop :=
  (∀ y ∈ pre, x < y → y.length < room pre.length) ∧
    ∀ k s, (inOrder (pre ++ [x]))[k]? = some s → s.length < room k

theorem inOrder_sorted (l : List Str) : (inOrder l).Pairwise (· ≤ ·) :=
  List.pairwise_insertionSort (· ≤ ·) l

theorem inOrder_perm (l : List Str) : (inOrder l).Perm l := List.perm_insertionSort (· ≤ ·) l

theorem length_inOrder (l : List Str) : (inOrder l).length = l.length := (inOrder_perm l).length_eq

theorem inOrder_unique {l l' : List Str} (hperm : l'.Perm l) (hsorted : l'.Pairwise (· ≤ ·)) :
    l' = inOrder l :=
  (hperm.trans (inOrder_perm l).symm).eq_of_pairwise (fun _ _ _ _ => le_antisymm) hsorted
    (inOrder_sorted l)

/-- Carrying a name through those in order. -/
theorem carry_inOrder (x : Str) (pre : List Str) :
    carry (· < ·) x (inOrder pre) = inOrder (pre ++ [x]) := by
  apply inOrder_unique
  · calc (carry (· < ·) x (inOrder pre)).Perm (x :: inOrder pre) := carry_perm _ x _
      _ |>.Perm (x :: pre) := (inOrder_perm pre).cons x
      _ |>.Perm (pre ++ [x]) := (List.perm_append_singleton x pre).symm
  · have hsettled : Settled (· < ·) (inOrder pre) := (inOrder_sorted pre).imp not_lt.mpr
    exact (hsettled.carry x).imp not_lt.mp

theorem inOrder_lt {l : List Str} (h : l.Nodup) : (inOrder l).Pairwise (· < ·) :=
  ((inOrder_sorted l).and ((inOrder_perm l).nodup_iff.mpr h)).imp fun h => lt_of_le_of_ne h.1 h.2

/-- The name carried to the end goes into a room where all names that are
greater than the one from there fit. -/
theorem moves_iff {room : ℕ → ℕ} {i : ℕ} : ∀ {l : List Str} {x : Str} {p : ℕ},
    l.Pairwise (· < ·) → (∀ k s, l[k]? = some s → s.length < room (p + k)) →
    (Moves room i p x l ↔ (∀ y ∈ l, x < y → y.length < room i) ∧
      ∀ k s, k < l.length → (carry (· < ·) x l)[k]? = some s → s.length < room (p + k))
  | [], x, p, _, _ => by simp [Moves]
  | y :: l, x, p, hl, hfit => by
    obtain ⟨hy, hl⟩ := List.pairwise_cons.mp hl
    have hfit' : ∀ k s, l[k]? = some s → s.length < room (p + 1 + k) := by
      intro k s hs
      rw [Nat.add_assoc, Nat.add_comm 1 k]
      exact hfit (k + 1) s hs
    have hcells : ∀ (z : Str) (l' : List Str), (∀ k s, k < l.length + 1 → (z :: l')[k]? = some s →
        s.length < room (p + k)) ↔ z.length < room p ∧
          ∀ k s, k < l.length → l'[k]? = some s → s.length < room (p + 1 + k) := by
      intro z l'
      constructor
      · refine fun h => ⟨h 0 z (Nat.succ_pos _) rfl, fun k s hk hs => ?_⟩
        rw [Nat.add_assoc, Nat.add_comm 1 k]
        exact h (k + 1) s (Nat.succ_lt_succ hk) hs
      · rintro ⟨h0, h⟩ k s hk hs
        cases k with
        | zero =>
          obtain rfl : z = s := Option.some.inj hs
          exact h0
        | succ k =>
          rw [Nat.add_comm k 1, ← Nat.add_assoc]
          exact h k s (Nat.lt_of_succ_lt_succ hk) hs
    unfold Moves carry
    rw [List.length_cons]
    by_cases hxy : x < y
    · rw [if_pos hxy, if_pos hxy, moves_iff hl hfit', hcells, List.forall_mem_cons]
      have hall : (∀ z ∈ l, x < z → z.length < room i) ↔ ∀ z ∈ l, y < z → z.length < room i :=
        forall₂_congr fun z hz => by simp [hy z hz, hxy.trans (hy z hz)]
      rw [hall]
      tauto
    · have hyfit : y.length < room p := hfit 0 y rfl
      rw [if_neg hxy, if_neg hxy, moves_iff hl hfit', hcells, List.forall_mem_cons]
      tauto

/-- The last one is where it was or among the greater ones. -/
theorem carry_last {x : Str} : ∀ {l : List Str} {s : Str},
    (carry (· < ·) x l)[l.length]? = some s → s = x ∨ s ∈ l ∧ x < s
  | [], s, h => Or.inl (Option.some.inj h).symm
  | y :: l, s, h => by
    unfold carry at h
    split at h
    · rename_i hxy
      rcases carry_last (x := y) (l := l) h with rfl | ⟨hs, hlt⟩
      · exact Or.inr ⟨List.mem_cons_self, hxy⟩
      · exact Or.inr ⟨List.mem_cons_of_mem y hs, hxy.trans hlt⟩
    · rcases carry_last (x := x) (l := l) h with rfl | ⟨hs, hlt⟩
      · exact Or.inl rfl
      · exact Or.inr ⟨List.mem_cons_of_mem y hs, hlt⟩

theorem moves_iff_turnFits {room : ℕ → ℕ} {pre : List Str} {x : Str} (hnd : pre.Nodup)
    (hx : x.length < room pre.length)
    (hfit : ∀ k s, (inOrder pre)[k]? = some s → s.length < room k) :
    Moves room pre.length 0 x (inOrder pre) ↔ TurnFits room pre x := by
  rw [moves_iff (inOrder_lt hnd) (by simpa using hfit), TurnFits, carry_inOrder, length_inOrder]
  simp only [(inOrder_perm pre).mem_iff, Nat.zero_add]
  refine and_congr_right fun hgreater => ?_
  constructor
  · intro h k s hs
    have hk : k < pre.length + 1 := by
      have := (List.getElem?_eq_some_iff.mp hs).1
      rwa [length_inOrder, List.length_append, List.length_singleton] at this
    rcases Nat.lt_succ_iff_lt_or_eq.mp hk with hlt | rfl
    · exact h k s hlt hs
    · rw [← carry_inOrder, ← length_inOrder pre] at hs
      rcases carry_last hs with rfl | ⟨hmem, hlt⟩
      · exact hx
      · exact hgreater s ((inOrder_perm pre).mem_iff.mp hmem) hlt
  · exact fun h k s _ hs => h k s hs

/-! ### The sort -/

/-- A turn of the outer loop. -/
theorem sortInner_spec {R : Rooms} (stop : ℕ → ℕ) {mem : List Char} {pre post : List Str} {x : Str}
    (h : Shows nul R mem (inOrder pre ++ x :: post)) (hnd : pre.Nodup)
    (hlen : (pre ++ x :: post).length = R.slots.length)
    (hshort : ∀ s ∈ pre ++ x :: post, s.length < 1024) :
    (TurnFits R.room pre x → (∀ k, R.limit k ≤ stop k) →
      ∃ mem', sortInner stop R.slots mem pre.length = some mem' ∧
        Shows nul R mem' (inOrder (pre ++ [x]) ++ post)) ∧
    (¬ TurnFits R.room pre x → sortInner R.limit R.slots mem pre.length = none) := by
  have hperm : (inOrder pre ++ x :: post).Perm (pre ++ x :: post) :=
    (inOrder_perm pre).append_right _
  have hx : x.length < R.room pre.length := by
    apply h.fits
    rw [← length_inOrder pre]
    simp
  have hfit : ∀ k s, (inOrder pre)[k]? = some s → s.length < R.room k := by
    intro k s hs
    apply h.fits k s
    rw [List.getElem?_append_left (List.getElem?_eq_some_iff.mp hs).1]
    exact hs
  have hfold := sortInner_fold stop (inOrder pre) [] x post mem h
    (hperm.length_eq.trans hlen) fun s hs => hshort s (hperm.mem_iff.mp hs)
  rw [List.length_nil, Nat.zero_add, length_inOrder, carry_inOrder,
    moves_iff_turnFits hnd hx hfit, ← List.range_eq_range'] at hfold
  exact hfold

/-- The first `n` turns. -/
theorem sortLoop_fold {R : Rooms} {mem : List Char} {a : List Str}
    (h : Shows nul R mem a) (hnd : a.Nodup) (hlen : a.length = R.slots.length)
    (hshort : ∀ s ∈ a, s.length < 1024) : ∀ n ≤ a.length,
    ((∀ i < n, ∀ x, a[i]? = some x → TurnFits R.room (a.take i) x) →
      ∀ stop, (∀ k, R.limit k ≤ stop k) →
      ∃ mem', (List.range n).foldlM (sortInner stop R.slots) mem = some mem' ∧
        Shows nul R mem' (inOrder (a.take n) ++ a.drop n)) ∧
    (¬ (∀ i < n, ∀ x, a[i]? = some x → TurnFits R.room (a.take i) x) →
      (List.range n).foldlM (sortInner R.limit R.slots) mem = none) := by
  intro n hn
  induction n with
  | zero =>
    exact ⟨fun _ _ _ => ⟨mem, rfl, h⟩, fun hc => absurd (fun i hi => absurd hi i.not_lt_zero) hc⟩
  | succ n ih =>
    have hlt : n < a.length := hn
    have ha : a = a.take n ++ a[n] :: a.drop (n + 1) := by
      rw [← List.drop_eq_getElem_cons hlt, List.take_append_drop]
    have htake : (a.take n).length = n := List.length_take_of_le hlt.le
    have hturn : ∀ stop mem', Shows nul R mem' (inOrder (a.take n) ++ a.drop n) → _ :=
      fun stop mem' hs => sortInner_spec stop (List.drop_eq_getElem_cons hlt ▸ hs)
        (hnd.sublist (List.take_sublist n a)) (ha ▸ hlen) (ha ▸ hshort)
    rw [htake, List.take_concat_get' a n hlt] at hturn
    have hsplit : (∀ i < n + 1, ∀ x, a[i]? = some x → TurnFits R.room (a.take i) x) ↔
        (∀ i < n, ∀ x, a[i]? = some x → TurnFits R.room (a.take i) x) ∧
          TurnFits R.room (a.take n) a[n] := by
      rw [Nat.forall_lt_succ_right]
      refine and_congr_right fun _ => ⟨fun hx => hx _ (List.getElem?_eq_getElem hlt), ?_⟩
      intro hx x hs
      rw [List.getElem?_eq_getElem hlt] at hs
      exact Option.some.inj hs ▸ hx
    obtain ⟨ihfits, ihover⟩ := ih hlt.le
    simp only [hsplit, List.range_succ, List.foldlM_append, List.foldlM_cons, List.foldlM_nil,
      bind_pure]
    constructor
    · rintro ⟨hfirst, hlast⟩ stop hstop
      obtain ⟨m, hm, hs⟩ := ihfits hfirst stop hstop
      obtain ⟨mem', hmem', hs'⟩ := (hturn stop m hs).1 hlast hstop
      exact ⟨mem', by rw [hm]; exact hmem', hs'⟩
    · intro hnot
      by_cases hfirst : ∀ i < n, ∀ x, a[i]? = some x → TurnFits R.room (a.take i) x
      · obtain ⟨m, hm, hs⟩ := ihfits hfirst R.limit fun _ => le_rfl
        rw [hm]
        exact (hturn R.limit m hs).2 fun hlast => hnot ⟨hfirst, hlast⟩
      · rw [ihover hfirst]
        rfl

/-- **The sort in the buffer.** If the names fit where they are moved, it leaves
them in order; if they do not, it copies one into a room too small for it. -/
theorem sortLoop_spec {R : Rooms} {mem : List Char} {a : List Str} (h : Shows nul R mem a)
    (hnd : a.Nodup) (hlen : a.length = R.slots.length) (hshort : ∀ s ∈ a, s.length < 1024) :
    ((∀ i x, a[i]? = some x → TurnFits R.room (a.take i) x) → ∀ stop, (∀ k, R.limit k ≤ stop k) →
      ∃ mem', sortLoop stop R.slots mem = some mem' ∧ R.slots.map (str nul mem') = inOrder a) ∧
    (¬ (∀ i x, a[i]? = some x → TurnFits R.room (a.take i) x) →
      sortLoop R.limit R.slots mem = none) := by
  have hall : (∀ i x, a[i]? = some x → TurnFits R.room (a.take i) x) ↔
      ∀ i < a.length, ∀ x, a[i]? = some x → TurnFits R.room (a.take i) x :=
    ⟨fun h i _ x hx => h i x hx, fun h i x hx => h i (List.getElem?_eq_some_iff.mp hx).1 x hx⟩
  obtain ⟨hfits, hover⟩ := sortLoop_fold h hnd hlen hshort a.length le_rfl
  rw [List.take_length, List.drop_length, List.append_nil] at hfits
  unfold sortLoop
  rw [hall, ← hlen]
  refine ⟨fun hturns stop hstop => ?_, hover⟩
  obtain ⟨mem', hmem', hshows⟩ := hfits hturns stop hstop
  refine ⟨mem', hmem', ?_⟩
  apply List.ext_getElem
  · rw [List.length_map, length_inOrder, hlen]
  · intro k hk hk'
    rw [List.length_map] at hk
    rw [List.getElem_map, ← hshows.str_eq (List.getElem?_eq_getElem hk'), Rooms.slot,
      List.getD_eq_getElem _ _ hk]

/-! ### The directory -/

/-- The paths and entries fit their arrays, and the names where they are moved. -/
structure Fits (dir : Str) (rs : List Record) (rest : List Char) : Prop where
  path : ∀ r ∈ rs, pathFits dir r.entry = true
  count : (names rs).length ≤ 1024
  turn : ∀ i x, (names rs)[i]? = some x → TurnFits (rooms rs rest).room ((names rs).take i) x

/-- No copy of the sort runs over another name in `arr`. -/
def StaysInRooms (dir : Str) (rs : List Record) (rest : List Char) : Prop :=
  ∃ arr mem, mylsWithin (rooms rs rest).limit dir rs rest = some (arr, mem)

/-- `arr` after reading. -/
theorem readLoop_fold (dir : Str) : ∀ (rs : List Record) (p : ℕ) (arr : List ℕ),
    arr.length ≤ 1024 → rs.foldlM (readEntry dir) (p, arr) =
      if (∀ r ∈ rs, pathFits dir r.entry = true) ∧ arr.length + (names rs).length ≤ 1024 then
        some (p + (rs.flatMap Record.bytes).length, arr ++ slots p rs)
      else none
  | [], p, arr, h => by simp [slots, names, h]
  | r :: rs, p, arr, h => by
    rw [List.foldlM_cons, readEntry, names_cons, length_records_cons, ← Nat.add_assoc]
    unfold slots
    simp only [List.forall_mem_cons]
    by_cases hpath : pathFits dir r.entry = true
    · rw [if_pos hpath]
      by_cases hlisted : listed r.entry = true
      · rw [if_pos hlisted, if_pos hlisted, if_pos hlisted]
        by_cases hroom : arr.length < 1024
        · have hlen : (arr ++ [p + 19]).length = arr.length + 1 := by
            rw [List.length_append, List.length_singleton]
          have ih := readLoop_fold dir rs (p + r.bytes.length) (arr ++ [p + 19]) (by omega)
          rw [if_pos hroom, Option.bind_eq_bind, Option.bind_some, ih, hlen, List.length_cons,
            List.append_assoc, List.singleton_append]
          refine if_congr ?_ rfl rfl
          rw [Nat.add_assoc, Nat.add_comm 1]
          simp only [hpath, true_and]
        · rw [if_neg hroom, if_neg]
          · rfl
          · rw [List.length_cons]
            omega
      · rw [if_neg hlisted, if_neg hlisted, if_neg hlisted, Option.bind_eq_bind, Option.bind_some,
          readLoop_fold dir rs _ arr h]
        simp only [hpath, true_and]
    · rw [if_neg hpath, if_neg fun hc => hpath hc.1.1]
      rfl

theorem readLoop_eq (dir : Str) (rs : List Record) (rest : List Char) : readLoop dir rs =
    if (∀ r ∈ rs, pathFits dir r.entry = true) ∧ (names rs).length ≤ 1024 then
      some ((rs.flatMap Record.bytes).length, (rooms rs rest).slots)
    else none := by
  have h := readLoop_fold dir rs 0 [] (Nat.zero_le _)
  rw [List.length_nil, Nat.zero_add, Nat.zero_add, List.nil_append] at h
  exact h

theorem names_short (rs : List Record) : ∀ s ∈ names rs, s.length < 1024 := by
  intro s hs
  obtain ⟨r, -, rfl⟩ := List.mem_map.mp hs
  exact r.short.trans (by omega)

variable {dir : Str} {rs : List Record} {rest : List Char}

/-- Names that fit are sorted in the buffer, -/
theorem Fits.sorted (hnd : (names rs).Nodup) (h : Fits dir rs rest) {stop : ℕ → ℕ}
    (hstop : ∀ k, (rooms rs rest).limit k ≤ stop k) :
    ∃ arr mem, mylsWithin stop dir rs rest = some (arr, mem) ∧
      arr.map (str nul mem) = inOrder (names rs) := by
  obtain ⟨mem, hmem, hstr⟩ := (sortLoop_spec (shows_buffer rs rest) hnd (length_slots rs 0).symm
    (names_short rs)).1 h.turn stop hstop
  refine ⟨_, mem, ?_, hstr⟩
  rw [mylsWithin, readLoop_eq dir rs rest, if_pos ⟨h.path, h.count⟩]
  simp only [Option.bind_eq_bind, Option.bind_some, hmem]

/-- and if the copies stay in the rooms the names fit. -/
theorem StaysInRooms.fits (hnd : (names rs).Nodup) (h : StaysInRooms dir rs rest) :
    Fits dir rs rest := by
  obtain ⟨arr, mem, hrun⟩ := h
  rw [mylsWithin, readLoop_eq dir rs rest] at hrun
  split at hrun
  · rename_i hread
    refine ⟨hread.1, hread.2, by_contra fun hturn => ?_⟩
    have hover := (sortLoop_spec (shows_buffer rs rest) hnd (length_slots rs 0).symm
      (names_short rs)).2 hturn
    simp only [Option.bind_eq_bind, Option.bind_some, hover] at hrun
    cases hrun
  · cases hrun

/-- The sort in the buffer is the one on separate strings. -/
theorem mylsInBuffer_eq_myls (hnd : (names rs).Nodup) (h : Fits dir rs rest) :
    (mylsInBuffer dir rs rest).map (fun s => s.1.map (str nul s.2)) =
      myls dir (rs.map Record.entry) := by
  obtain ⟨arr, mem, hrun, hstr⟩ : ∃ arr mem, mylsInBuffer dir rs rest = some (arr, mem) ∧ _ :=
    h.sorted hnd (rooms rs rest).limit_le_stop
  have hnames : ((rs.map Record.entry).filter listed).map Dirent.name = names rs := by
    rw [List.filter_map, List.map_map]
    rfl
  have hcount : ((rs.map Record.entry).filter listed).length ≤ 1024 := by
    rw [← List.length_map Dirent.name, hnames]
    exact h.count
  have hsort : exchangeSort 0 (names rs) = inOrder (names rs) := by
    obtain ⟨l, heq, hperm, hsorted⟩ := exchangeSort_spec [] (names rs)
    rw [List.length_nil, List.nil_append, List.nil_append] at heq
    rw [heq]
    exact inOrder_unique hperm hsorted
  rw [hrun, Option.map_some, hstr, myls_eq,
    if_pos ⟨List.forall_mem_map.mpr h.path, hcount⟩, hnames, hsort]

/-- **The names are kept if they fit where the sort moves them**, and this is
exactly if no copy runs over another name. -/
theorem keepsNames (hnd : (names rs).Nodup) : (StaysInRooms dir rs rest ↔ Fits dir rs rest) ∧
    (Fits dir rs rest → KeepsNames dir rs rest) := by
  refine ⟨⟨fun h => h.fits hnd, fun h => ?_⟩, fun h => ?_⟩
  · obtain ⟨arr, mem, hrun, -⟩ := h.sorted hnd fun _ => le_rfl
    exact ⟨arr, mem, hrun⟩
  · obtain ⟨arr, mem, hrun, hstr⟩ := h.sorted hnd (rooms rs rest).limit_le_stop
    refine ⟨arr, mem, hrun, ?_, ?_⟩
    · rw [hstr]
      exact inOrder_perm _
    · rw [hstr]
      exact inOrder_sorted _

/-- The record of an entry, all other bytes being 0. -/
def recordOf (d : Dirent) (free : nul ∉ d.name) (short : d.name.length < 256) : Record where
  entry := d
  header := List.replicate 19 nul
  pad := List.replicate ((12 - d.name.length % 8) % 8) nul
  length_header := List.length_replicate
  pad_lt := by
    rw [List.length_replicate]
    omega
  aligned := by
    rw [List.length_replicate, List.length_replicate]
    omega
  free := free
  short := short

/-- The record of a plain file. -/
def plainRecord (name : Str) (free : nul ∉ name) (short : name.length < 256) : Record :=
  recordOf (plainFile name 0) free short

/-- The names `b`, `c` and 24 times `a`. -/
def bca : List Record :=
  [plainRecord ['b'] (by decide) (by decide), plainRecord ['c'] (by decide) (by decide),
    plainRecord (List.replicate 24 'a') (by decide) (by decide)]

/-- The NUL of the long name takes the place of `c`. -/
theorem bca_lost : ¬ KeepsNames ['.'] bca [] := by
  rintro ⟨arr, mem, hrun, hperm, -⟩
  have hlost : (mylsInBuffer ['.'] bca []).map (fun s => s.1.map (str nul s.2)) =
      some [List.replicate 24 'a', [], ['b']] := by decide +kernel
  rw [hrun] at hlost
  rw [show arr.map (str nul mem) = _ from Option.some.inj hlost] at hperm
  exact absurd (hperm.mem_iff.mpr (show ['c'] ∈ names bca by decide)) (by decide)

/-- The names `b` and `a`, which are exchanged. -/
def swapped : List Record :=
  [plainRecord ['b'] (by decide) (by decide), plainRecord ['a'] (by decide) (by decide)]

theorem keepsNames_swapped : (StaysInRooms ['.'] swapped [] ↔ Fits ['.'] swapped []) ∧
    Fits ['.'] swapped [] ∧ KeepsNames ['.'] swapped [] := by
  have hrun : (mylsWithin (rooms swapped []).limit ['.'] swapped []).isSome = true := by
    decide +kernel
  obtain ⟨⟨arr, mem⟩, hsome⟩ := Option.isSome_iff_exists.mp hrun
  have hkeeps : (StaysInRooms ['.'] swapped [] ↔ Fits ['.'] swapped []) ∧
      (Fits ['.'] swapped [] → KeepsNames ['.'] swapped []) := keepsNames (by decide)
  have hfits := hkeeps.1.mp ⟨arr, mem, hsome⟩
  exact ⟨hkeeps.1, hfits, hkeeps.2 hfits⟩

/-- A long name, `a` and `c`: the name moved into the room of `a` runs over `c`
with a `c`. -/
def bac : List Record :=
  [plainRecord ('b' :: List.replicate 23 'x' ++ ['c']) (by decide) (by decide),
    plainRecord ['a'] (by decide) (by decide), plainRecord ['c'] (by decide) (by decide)]

/-- A copy over another name may do no harm. -/
theorem bac_kept : KeepsNames ['.'] bac [] ∧ ¬ StaysInRooms ['.'] bac [] := by
  constructor
  · have hrun : ((mylsInBuffer ['.'] bac []).map fun s => s.1.map (str nul s.2)) =
        some [['a'], 'b' :: List.replicate 23 'x' ++ ['c'], ['c']] := by decide +kernel
    obtain ⟨⟨arr, mem⟩, hsome, hstr⟩ := Option.map_eq_some_iff.mp hrun
    refine ⟨arr, mem, hsome, ?_, ?_⟩
    · rw [show arr.map (str nul mem) = _ from hstr]
      decide
    · rw [show arr.map (str nul mem) = _ from hstr]
      decide
  · rintro ⟨arr, mem, h⟩
    have hnone : mylsWithin (rooms bac []).limit ['.'] bac [] = none := by decide +kernel
    rw [hnone] at h
    cases h

end Myls
end LinuxProg
