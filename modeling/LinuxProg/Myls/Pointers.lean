/-
# The options over readdir's buffer

`arr` holds no names but pointers to `d_name`, in the buffer of the directory
that the first pass has opened. Every `getdents64` of that pass is put at the
front of the buffer, over what an earlier one has left there, and the sorts copy
names from one entry to another. The rows in `arr_l` and the times are stores of
their own, which the sorts exchange in step.

The passes are the ones of `Listing`, with pointers for names. While all the
names listed come from the last `getdents64` and each exchange of a sort is of
names that fit each other's rooms (`passWithin`), they do the same:
`Holds` is kept by a sort (`Holds.sortPass_follows`), by a reading of the
directory (`readdirLoop_follows_false`, `readdirLoop_follows_true`) and so by the
passes. An exchange of names that do not fit copies one over the next name. A
string that has lost its NUL to a later reading is taken to end with the buffer.
-/
import Mathlib
import LinuxProg.Myls.Slots

namespace LinuxProg
namespace Myls

open Buffers CStrings Exchange

/-- A directory as it is read: the entries of one `getdents64` after the other,
those of the last one apart, and what is in the buffer before. -/
structure Stream where
  earlier : List (List Record)
  last : List Record
  before : List Char
  fits : ∀ rs ∈ last :: earlier, (rs.flatMap Record.bytes).length ≤ before.length

/-- `arr_l[i]` and `rewrite_time[i]`. -/
structure Cell where
  line : Str
  time : ℤ

/-- The buffer that `arr` points into, the first `arr_index` cells of the arrays,
and the buffer of `perm`. -/
structure Tables where
  mem : List Char
  arr : List ℕ
  cells : List Cell
  perms : Str

namespace Pointers

/-! ### The passes -/

/-- `sprintf` into `tmp[1024]` and the stores at `arr_index`, the name at `file`. -/
def store (s : Tables) (file : ℕ) (perms : Str) (d : Dirent) (line : Str) : Option Tables :=
  if line.length < 1024 ∧ s.arr.length < 1024 then
    some { s with
      arr := s.arr ++ [file]
      cells := s.cells ++ [⟨line, Int.bmod d.mtime (2 ^ 32)⟩]
      perms }
  else none

def setMinusLOption (s : Tables) (file : ℕ) (d : Dirent) : Option Tables :=
  if listed d then
    let perms := perm s.perms d.mode
    store s file perms d (lLine perms d)
  else some s

/-- The loop that puts the inode before the first row whose name has `file` in it. -/
def labelFirst (mem : List Char) (d : Dirent) : List ℕ → List Cell → Option (List Cell)
  | p :: arr, c :: cells =>
    if strstr (str nul mem p) d.name then
      (strcpy1024 (inoPrefix d ++ c.line)).map fun tmp => { c with line := tmp } :: cells
    else (labelFirst mem d arr cells).map (c :: ·)
  | _, cells => some cells

def setMinusIOption (checkForOption : Bool) (s : Tables) (file : ℕ) (d : Dirent) : Option Tables :=
  if listed d then
    if checkForOption then (labelFirst s.mem d s.arr s.cells).map fun cells => { s with cells }
    else store s file s.perms d (inoPrefix d ++ d.name ++ ['\n'])
  else some s

/-- `set_minus_t_option` and `set_minus_r_option` have the same body. -/
def setName (checkForOption : Bool) (s : Tables) (file : ℕ) (d : Dirent) : Option Tables :=
  if listed d then
    if checkForOption then some s else store s file s.perms d (d.name ++ ['\n'])
  else some s

def setMinusTOption := setName

def setMinusROption := setName

/-- The body of the loop over the directory, the record being at `s.1`. -/
def readRecord (dir : Str) (set : Tables → ℕ → Dirent → Option Tables) (s : ℕ × Tables)
    (r : Record) : Option (ℕ × Tables) :=
  if pathFits dir r.entry then
    (set s.2 (s.1 + 19) r.entry).map fun t => (s.1 + r.bytes.length, t)
  else none

/-- The records of one `getdents64`. A pass that finds the arrays filled reads
them into another buffer than the one that `arr` points into. -/
def readFill (checkForOption : Bool) (dir : Str) (set : Tables → ℕ → Dirent → Option Tables)
    (s : Tables) (rs : List Record) : Option Tables :=
  let s := if checkForOption then s else { s with mem := readInto s.mem (rs.flatMap Record.bytes) }
  (rs.foldlM (readRecord dir set) (0, s)).map Prod.snd

/-- The loop over the directory. -/
def readdirLoop (checkForOption : Bool) (dir : Str) (set : Tables → ℕ → Dirent → Option Tables)
    (st : Stream) (s : Tables) : Option Tables :=
  let s := if checkForOption then s else { s with mem := st.before }
  (st.earlier ++ [st.last]).foldlM (readFill checkForOption dir set) s

/-- What the tests of the sorts read of entry `i`. -/
def row (s : Tables) (i : ℕ) : Row :=
  let c := s.cells.getD i ⟨[], 0⟩
  ⟨str nul s.mem (s.arr.getD i 0), c.line, c.time⟩

/-- The body of a sort: the names are copied, the rows and times exchanged. A
copy into entry `k` of `arr` is to end before `stop k`. -/
def sortStep (stop : ℕ → ℕ) (r : Row → Row → Prop) [DecidableRel r] (i : ℕ) (s : Tables) (j : ℕ) :
    Option Tables :=
  if r (row s i) (row s j) then
    (exchangeNames stop s.arr i j s.mem).map fun mem => { s with mem, cells := swap s.cells i j }
  else some s

def sortPass (stop : ℕ → ℕ) (r : Row → Row → Prop) [DecidableRel r] (s : Tables) : Option Tables :=
  (List.range s.arr.length).foldlM (fun s i => (List.range i).foldlM (sortStep stop r i) s) s

def mylsMinusLOption (stop : ℕ → ℕ) (dir : Str) (st : Stream) (s : Tables) : Option Tables := do
  let s ← readdirLoop false dir setMinusLOption st s
  sortPass stop ByName s

def mylsMinusIOption (stop : ℕ → ℕ) (checkForOption : Bool) (dir : Str) (st : Stream)
    (s : Tables) : Option Tables := do
  let s ← readdirLoop checkForOption dir (setMinusIOption checkForOption) st s
  sortPass stop ByName s

def mylsMinusTOption (stop : ℕ → ℕ) (checkForOption : Bool) (dir : Str) (st : Stream)
    (s : Tables) : Option Tables := do
  let s ← readdirLoop checkForOption dir (setMinusTOption checkForOption) st s
  let s ← sortPass stop ByTime s
  sortPass stop ByNameAtTime s

/-- `for(i=0;i<arr_index/2;i++)` exchange `arr_l[i]` and `arr_l[arr_index - i - 1]`. -/
def reverseLoop (arrL : List Str) : List Str :=
  (List.range (arrL.length / 2)).foldl (fun a i => swap a i (arrL.length - i - 1)) arrL

def mylsMinusROption (checkForOption : Bool) (dir : Str) (st : Stream) (s : Tables) :
    Option Tables := do
  let s ← readdirLoop checkForOption dir (setMinusROption checkForOption) st s
  let arrL := reverseLoop (s.cells.map Cell.line)
  some { s with cells := List.zipWith (fun c l => { c with line := l }) s.cells arrL }

/-- The names of plain `myls`, as they are read. -/
def readNames (dir : Str) (s : List Char × List ℕ) (rs : List Record) :
    Option (List Char × List ℕ) :=
  (rs.foldlM (readEntry dir) (0, s.2)).map fun t => (readInto s.1 (rs.flatMap Record.bytes), t.2)

/-- `myls` of a directory: `arr` and the buffer. -/
def myls (stop : ℕ → ℕ) (dir : Str) (st : Stream) : Option (List ℕ × List Char) := do
  let (mem, arr) ← (st.earlier ++ [st.last]).foldlM (readNames dir) (st.before, [])
  let mem ← sortLoop stop arr mem
  some (arr, mem)

end Pointers

namespace Stream

/-- The entries in the order of `readdir`. -/
def entries (st : Stream) : List Dirent := (st.earlier.flatten ++ st.last).map Record.entry

/-- What stands in the buffer behind the records of the last `getdents64`. -/
def rest (st : Stream) : List Char :=
  (st.earlier.foldl (fun mem rs => readInto mem (rs.flatMap Record.bytes)) st.before).drop
    (st.last.flatMap Record.bytes).length

/-- All of the buffer can be written. -/
def whole (st : Stream) (_ : ℕ) : ℕ := st.before.length

/-- The cells before the next name of the last `getdents64`. -/
def within (st : Stream) : ℕ → ℕ := (rooms st.last st.rest).limit

/-- No name that is listed is overwritten by a later `getdents64`. -/
def NamesLast (st : Stream) : Prop := ∀ rs ∈ st.earlier, names rs = []

/-- The names fit where the sort by name moves them. -/
def TurnsFit (st : Stream) : Prop :=
  ∀ i x, (names st.last)[i]? = some x →
    TurnFits (rooms st.last st.rest).room ((names st.last).take i) x

end Stream

/-! ### Reading -/

/-- The row without its name. -/
def Row.cell (r : Row) : Cell := ⟨r.line, r.time⟩

/-- The row without its line. -/
def Row.bare (r : Row) : Row := { r with line := [] }

/-- The tables of rows whose names are at `arr`. -/
def Listing.tables (t : Listing) (mem : List Char) (arr : List ℕ) : Tables :=
  ⟨mem, arr, t.rows.map Row.cell, t.perms⟩

namespace Pointers

section Reading

variable {dir : Str} {set : Tables → ℕ → Dirent → Option Tables}
  {set' : Listing → Dirent → Option Listing} {np ln : Str → Dirent → Str}
  (hset : ∀ s file d, set s file d =
    if listed d then store s file (np s.perms d) d (ln (np s.perms d) d) else some s)
  (hset' : ∀ s d, set' s d =
    if listed d then Myls.store s (np s.perms d) d (ln (np s.perms d) d) else some s)

theorem readdirLoop_append (ds ds' : List Dirent) (t : Listing) :
    Myls.readdirLoop dir set' (ds ++ ds') t =
      (Myls.readdirLoop dir set' ds t).bind (Myls.readdirLoop dir set' ds') := by
  rw [Myls.readdirLoop, List.foldlM_append]
  rfl

include hset' in
/-- The loop over the entries stores a row of each that is listed. -/
theorem readdirLoop_length : ∀ {ds : List Dirent} {t t' : Listing},
    Myls.readdirLoop dir set' ds t = some t' →
      t'.rows.length = t.rows.length + (ds.filter listed).length
  | [], t, t', h => by
    cases h
    rfl
  | d :: ds, t, t', h => by
    rw [Myls.readdirLoop, List.foldlM_cons] at h
    obtain ⟨t₁, h₁, h₂⟩ := Option.bind_eq_some_iff.mp h
    rw [readdirLoop_length h₂]
    split at h₁
    · rw [hset'] at h₁
      by_cases hd : listed d = true
      · rw [if_pos hd, Myls.store] at h₁
        split at h₁
        · cases h₁
          rw [List.filter_cons_of_pos hd, List.length_append, List.length_singleton,
            List.length_cons]
          omega
        · cases h₁
      · rw [if_neg hd] at h₁
        cases h₁
        rw [List.filter_cons_of_neg hd]
    · cases h₁

theorem length_names (rs : List Record) :
    (names rs).length = ((rs.map Record.entry).filter listed).length := by
  rw [List.filter_map, List.length_map, names, List.length_map]
  rfl

/-- A row stored with a pointer is the row stored with the name. -/
theorem store_tables {t : Listing} {mem : List Char} {arr : List ℕ}
    (hlen : arr.length = t.rows.length) (file : ℕ) (perms : Str) (d : Dirent) (line : Str) :
    store (t.tables mem arr) file perms d line =
      (Myls.store t perms d line).map fun t => t.tables mem (arr ++ [file]) := by
  have hroom : (line.length < 1024 ∧ (t.tables mem arr).arr.length < 1024) ↔
      line.length < 1024 ∧ t.rows.length < 1024 := by
    rw [← hlen]
    rfl
  unfold store Myls.store
  rw [if_congr hroom rfl rfl]
  split
  · simp [Listing.tables, Row.cell]
  · rfl

include hset hset' in
/-- One record. -/
theorem readRecord_tables {t : Listing} {mem : List Char} {arr : List ℕ}
    (hlen : arr.length = t.rows.length) (p : ℕ) (r : Record) :
    readRecord dir set (p, t.tables mem arr) r =
      (Myls.readdirLoop dir set' [r.entry] t).map fun t =>
        (p + r.bytes.length, t.tables mem (arr ++ slots p [r])) := by
  have hloop : Myls.readdirLoop dir set' [r.entry] t =
      if pathFits dir r.entry then set' t r.entry else none := by
    rw [Myls.readdirLoop, List.foldlM_cons]
    exact bind_pure _
  rw [readRecord, hloop, hset, hset']
  unfold slots slots
  split
  · split
    · rw [store_tables hlen, Option.map_map]
      rfl
    · rw [List.append_nil]
      rfl
  · rfl

theorem slots_cons (p : ℕ) (r : Record) (rs : List Record) :
    slots p (r :: rs) = slots p [r] ++ slots (p + r.bytes.length) rs := by
  have hone : ∀ l, (if listed r.entry then (p + 19) :: l else l) = slots p [r] ++ l := by
    intro l
    rw [slots, slots]
    split <;> rfl
  rw [slots]
  exact hone _

include hset hset' in
/-- The records of one `getdents64`: the rows are those of the entries, and `arr`
gets the places of their names. -/
theorem readRecords_eq (dir : Str) : ∀ (rs : List Record) (p : ℕ) (mem : List Char) (arr : List ℕ)
    (t : Listing), arr.length = t.rows.length →
    rs.foldlM (readRecord dir set) (p, t.tables mem arr) =
      (Myls.readdirLoop dir set' (rs.map Record.entry) t).map fun t =>
        (p + (rs.flatMap Record.bytes).length, t.tables mem (arr ++ slots p rs))
  | [], p, mem, arr, t, _ => by
    rw [slots, List.append_nil]
    rfl
  | r :: rs, p, mem, arr, t, hlen => by
    have hsplit : Myls.readdirLoop dir set' (r.entry :: rs.map Record.entry) t = _ :=
      readdirLoop_append [r.entry] (rs.map Record.entry) t
    rw [List.foldlM_cons, readRecord_tables hset hset' hlen, List.map_cons, hsplit,
      length_records_cons, ← Nat.add_assoc, slots_cons p r rs, ← List.append_assoc]
    cases ht : Myls.readdirLoop dir set' [r.entry] t with
    | none => rfl
    | some t₁ =>
      have hlen₁ : (arr ++ slots p [r]).length = t₁.rows.length := by
        rw [readdirLoop_length hset' ht, List.length_append, length_slots, hlen, length_names]
        rfl
      exact readRecords_eq dir rs _ mem _ t₁ hlen₁

include hset hset' in
/-- One `getdents64` after the other. -/
theorem readFills_eq (dir : Str) : ∀ (fills : List (List Record)) (mem : List Char) (arr : List ℕ)
    (t : Listing), arr.length = t.rows.length →
    fills.foldlM (readFill false dir set) (t.tables mem arr) =
      (Myls.readdirLoop dir set' (fills.flatten.map Record.entry) t).map fun t =>
        t.tables (fills.foldl (fun mem rs => readInto mem (rs.flatMap Record.bytes)) mem)
          (arr ++ fills.flatMap (slots 0))
  | [], mem, arr, t, _ => by
    rw [List.flatMap_nil, List.append_nil]
    rfl
  | rs :: fills, mem, arr, t, hlen => by
    have hread := readRecords_eq hset hset' dir rs 0
      (readInto mem (rs.flatMap Record.bytes)) arr t hlen
    have hfill : readFill false dir set (t.tables mem arr) rs =
        (Myls.readdirLoop dir set' (rs.map Record.entry) t).map fun t =>
          t.tables (readInto mem (rs.flatMap Record.bytes)) (arr ++ slots 0 rs) := by
      unfold readFill
      refine (congrArg (Option.map Prod.snd) hread).trans ?_
      rw [Option.map_map]
      rfl
    rw [List.foldlM_cons, hfill, List.flatten_cons, List.map_append, readdirLoop_append,
      List.foldl_cons, List.flatMap_cons, ← List.append_assoc]
    cases ht : Myls.readdirLoop dir set' (rs.map Record.entry) t with
    | none => rfl
    | some t₁ =>
      have hlen₁ : (arr ++ slots 0 rs).length = t₁.rows.length := by
        rw [readdirLoop_length hset' ht, List.length_append, length_slots, hlen, length_names]
      exact readFills_eq dir fills _ _ t₁ hlen₁

include hset hset' in
/-- **A pass that fills the arrays**: the rows are those of the entries. -/
theorem readdirLoop_eq (st : Stream) {s : Tables} (harr : s.arr = []) (hcells : s.cells = []) :
    readdirLoop false dir set st s =
      (Myls.readdirLoop dir set' st.entries ⟨[], s.perms⟩).map fun t =>
        t.tables (buffer st.last st.rest) (st.earlier.flatMap (slots 0) ++ slots 0 st.last) := by
  have hs : { s with mem := st.before } = (⟨[], s.perms⟩ : Listing).tables st.before [] := by
    rw [harr, hcells]
    rfl
  have hread := readFills_eq hset hset' dir (st.earlier ++ [st.last]) st.before [] _
    (show [].length = (⟨[], s.perms⟩ : Listing).rows.length from rfl)
  rw [List.foldl_append, List.flatMap_append, List.flatten_append] at hread
  unfold readdirLoop
  simp only [Bool.false_eq_true, if_false]
  rw [hs, hread]
  simp [buffer, Stream.rest, readInto, Stream.entries]

include hset hset' in
/-- A pass that has read the directory has stored its rows. -/
theorem rows_of_readdirLoop {st : Stream} {s s' : Tables} (harr : s.arr = []) (hcells : s.cells = [])
    (h : readdirLoop false dir set st s = some s') :
    ∃ t, Myls.readdirLoop dir set' st.entries ⟨[], s.perms⟩ = some t := by
  rw [readdirLoop_eq hset hset' st harr hcells] at h
  obtain ⟨t, ht, -⟩ := Option.map_eq_some_iff.mp h
  exact ⟨t, ht⟩

end Reading

/-! ### Rows whose names are in their rooms -/

/-- The tables hold the rows, the names at the places of `R`. -/
structure Holds (R : Rooms) (s : Tables) (t : Listing) : Prop where
  arr : s.arr = R.slots
  shows : Shows nul R s.mem (t.rows.map Row.name)
  length : t.rows.length = R.slots.length
  short : ∀ r ∈ t.rows, r.name.length < 1024
  cells : s.cells = t.rows.map Row.cell
  perms : s.perms = t.perms

/-- The name of a row fits a room. -/
def FitsIn (R : Rooms) (k : ℕ) (r : Row) : Prop := r.name.length < R.room k

instance (R : Rooms) (k : ℕ) : DecidablePred (FitsIn R k) := fun r =>
  inferInstanceAs (Decidable (r.name.length < R.room k))

/-- A sort that copies no name into a room too small for it. -/
def sortWithin (R : Rooms) (r : Row → Row → Prop) [DecidableRel r] (t : Listing) : Option Listing :=
  (passWithin r (FitsIn R) t.rows).map fun rows => { t with rows }

namespace Holds

variable {R : Rooms} {s : Tables} {t : Listing}

/-- What the tests read. -/
theorem row_eq (h : Holds R s t) {k : ℕ} {x : Row} (hx : t.rows[k]? = some x) : row s k = x := by
  have hk : k < R.slots.length := h.length ▸ (List.getElem?_eq_some_iff.mp hx).1
  have hname : (t.rows.map Row.name)[k]? = some x.name := by rw [List.getElem?_map, hx]; rfl
  have hcell : s.cells.getD k ⟨[], 0⟩ = x.cell := by
    rw [h.cells, List.getD_eq_getElem?_getD, List.getElem?_map, hx]
    rfl
  unfold row
  rw [h.arr, getD_slots hk, h.shows.str_eq hname, hcell]
  rfl

/-- **A turn of a sort** makes the exchange if the names fit each other's rooms,
and else copies one into a room too small for it. -/
theorem sortStep_follows {stop : ℕ → ℕ} (hstop : ∀ k, R.limit k ≤ stop k) (r : Row → Row → Prop)
    [DecidableRel r] {i j : ℕ} (hi : i < R.slots.length) (hji : j < i) (h : Holds R s t) :
    Follows (fun s rows => Holds R s { t with rows }) (stop = R.limit) (sortStep stop r i s j)
      (passWithinAt r (FitsIn R) i t.rows j) := by
  have hi : i < t.rows.length := h.length ▸ hi
  have hj : j < t.rows.length := hji.trans hi
  have hx := List.getElem?_eq_getElem hi
  have hy := List.getElem?_eq_getElem hj
  have hlen : (t.rows.map Row.name).length = R.slots.length := by rw [List.length_map, h.length]
  have hspec := fun stop => exchangeNames_spec stop h.shows hlen hji
    (by rw [List.getElem?_map, hx]; rfl) (by rw [List.getElem?_map, hy]; rfl)
    (h.short _ (List.getElem_mem _))
  unfold passWithinAt sortStep
  simp only [hx, hy, h.row_eq hx, h.row_eq hy, h.arr]
  by_cases hr : r t.rows[i] t.rows[j]
  · rw [if_pos hr, if_pos hr]
    by_cases hfit : FitsIn R i t.rows[j] ∧ FitsIn R j t.rows[i]
    · obtain ⟨mem, hmem, hshows⟩ := (hspec stop).1 hfit hstop
      rw [if_pos hfit, hmem]
      refine Follows.of_some ⟨rfl, ?_, ?_, ?_, ?_, h.perms⟩
      · rw [map_swap]
        exact hshows
      · rw [length_swap, h.length]
      · exact fun q hq => h.short q (mem_of_mem_swap hq)
      · rw [map_swap, ← h.cells]
    · rw [if_neg hfit]
      refine ⟨fun _ ht => (Option.some_ne_none _ ht.symm).elim, fun hexact _ => ?_⟩
      rw [hexact, (hspec R.limit).2 hfit]
      rfl
  · rw [if_neg hr, if_neg hr]
    exact Follows.of_some h

/-- **A sort** makes its exchanges in the rooms, as far as the names fit. -/
theorem sortPass_follows {stop : ℕ → ℕ} (hstop : ∀ k, R.limit k ≤ stop k) (r : Row → Row → Prop)
    [DecidableRel r] (h : Holds R s t) :
    Follows (Holds R) (stop = R.limit) (sortPass stop r s) (sortWithin R r t) := by
  have hloop : Follows (fun s rows => Holds R s { t with rows }) (stop = R.limit)
      (sortPass stop r s) (passWithin r (FitsIn R) t.rows) := by
    unfold passWithin sortPass
    rw [h.arr, ← h.length]
    refine Follows.foldlM (fun i hi s rows hs => ?_) h
    refine Follows.foldlM (fun j hj s rows hs => ?_) hs
    exact hs.sortStep_follows hstop r (h.length ▸ List.mem_range.mp hi) (List.mem_range.mp hj)
  have hmap : Follows (Holds R) (stop = R.limit) ((sortPass stop r s).map id)
      (sortWithin R r t) := hloop.map fun _ _ hs => hs
  rwa [Option.map_id] at hmap

/-- The names the pointers show. -/
theorem names (h : Holds R s t) : s.arr.map (str nul s.mem) = t.rows.map Row.name := by
  apply List.ext_getElem
  · rw [List.length_map, List.length_map, h.arr, h.length]
  · intro k hk hk'
    have hslot : k < R.slots.length := by rwa [List.length_map, h.arr] at hk
    rw [List.getElem_map, ← h.shows.str_eq (List.getElem?_eq_getElem hk'), Rooms.slot,
      List.getD_eq_getElem _ _ hslot]
    simp only [h.arr]

/-- The rows. -/
theorem rows (h : Holds R s t) : (List.range s.arr.length).map (row s) = t.rows := by
  apply List.ext_getElem
  · rw [List.length_map, List.length_range, h.arr, h.length]
  · intro k hk hk'
    rw [List.getElem_map, List.getElem_range]
    exact h.row_eq (List.getElem?_eq_getElem hk')

end Holds

/-! ### The names of the last reading -/

theorem slots_of_names {rs : List Record} (h : names rs = []) (p : ℕ) : slots p rs = [] := by
  rw [← List.length_eq_zero_iff, length_slots, h]
  rfl

theorem holds_tables {rs : List Record} (rest : List Char) {t : Listing}
    (h : t.rows.map Row.name = names rs) :
    Holds (rooms rs rest) (t.tables (buffer rs rest) (slots 0 rs)) t where
  arr := rfl
  shows := h ▸ shows_buffer rs rest
  length := by
    rw [← List.length_map Row.name, h]
    exact (length_slots rs 0).symm
  short r hr := names_short rs r.name (h ▸ List.mem_map_of_mem hr)
  cells := rfl
  perms := rfl

/-- The sort by name does in the buffer what the one of plain `myls` does. -/
theorem sortPass_mem (stop : ℕ → ℕ) (s : Tables) :
    (sortPass stop ByName s).map Tables.mem = sortLoop stop s.arr s.mem := by
  have hloop : Follows (fun t mem => t.arr = s.arr ∧ t.mem = mem) True (sortPass stop ByName s)
      (sortLoop stop s.arr s.mem) := by
    refine Follows.foldlM (fun i _ t mem ht => ?_) ⟨rfl, rfl⟩
    refine Follows.foldlM (fun j _ t mem ht => ?_) ht
    obtain ⟨harr, rfl⟩ := ht
    have htest : ByName (row t i) (row t j) ↔
        str nul t.mem (s.arr.getD i 0) < str nul t.mem (s.arr.getD j 0) := by
      rw [← harr]
      rfl
    unfold sortStep sortAt
    rw [if_congr htest rfl rfl, harr]
    split
    · cases exchangeNames stop s.arr i j t.mem with
      | none => exact Follows.of_none
      | some mem => exact Follows.of_some ⟨rfl, rfl⟩
    · exact Follows.of_some ⟨harr, rfl⟩
  exact (hloop.mono fun _ _ h => h.2).map_eq

theorem sortWithin_some {R : Rooms} {r : Row → Row → Prop} [DecidableRel r] {t t' : Listing}
    (h : sortWithin R r t = some t') : { t with rows := pass r 0 t.rows } = t' := by
  obtain ⟨rows, hrows, rfl⟩ := Option.map_eq_some_iff.mp h
  rw [← passWithin_eq hrows]

/-- The sort by name stays in the rooms exactly if the names fit where it moves them. -/
theorem sortWithin_byName_iff {rs : List Record} (rest : List Char) {t : Listing}
    (h : t.rows.map Row.name = names rs) (hnd : (names rs).Nodup) :
    (∃ t', sortWithin (rooms rs rest) ByName t = some t') ↔
      ∀ i x, (names rs)[i]? = some x → TurnFits (rooms rs rest).room ((names rs).take i) x := by
  have hsort := (holds_tables rest h).sortPass_follows (fun _ => le_rfl) ByName
  have hmem := sortPass_mem (rooms rs rest).limit (t.tables (buffer rs rest) (slots 0 rs))
  obtain ⟨hfits, hover⟩ := sortLoop_spec (shows_buffer rs rest) hnd (length_slots rs 0).symm
    (names_short rs)
  constructor
  · rintro ⟨t', ht'⟩
    obtain ⟨s', hs', -⟩ := hsort.some t' ht'
    by_contra hturn
    rw [hs'] at hmem
    exact Option.some_ne_none _ (hmem.trans (hover hturn))
  · intro hturn
    cases hw : sortWithin (rooms rs rest) ByName t with
    | some t' => exact ⟨t', rfl⟩
    | none =>
      obtain ⟨mem, hrun, -⟩ := hfits hturn (rooms rs rest).limit fun _ => le_rfl
      rw [hsort.none rfl hw] at hmem
      exact absurd (hrun.symm.trans hmem.symm) (Option.some_ne_none _)

/-- Before a pass: the arrays are filled, or empty. -/
def Before (R : Rooms) (checkForOption : Bool) (s : Tables) (t : Listing) : Prop :=
  match checkForOption with
  | true => Holds R s t
  | false => s.arr = [] ∧ s.cells = [] ∧ t = ⟨[], s.perms⟩

end Pointers

namespace Stream

variable {st : Stream}

theorem NamesLast.slots (h : st.NamesLast) : st.earlier.flatMap (slots 0) = [] :=
  List.flatMap_eq_nil_iff.mpr fun rs hrs => Pointers.slots_of_names (h rs hrs) 0

theorem NamesLast.names (h : st.NamesLast) :
    (st.entries.filter listed).map Dirent.name = names st.last := by
  have hflat : ∀ l : List (List Record), (∀ rs ∈ l, Myls.names rs = []) →
      ((l.flatten.map Record.entry).filter listed) = [] := by
    intro l hl
    rw [List.filter_eq_nil_iff, List.forall_mem_map]
    intro r hr hlisted
    obtain ⟨rs, hrs, hr⟩ := List.mem_flatten.mp hr
    have hmem : r.entry.name ∈ Myls.names rs :=
      List.mem_map_of_mem (List.mem_filter.mpr ⟨hr, hlisted⟩)
    rw [hl rs hrs] at hmem
    exact absurd hmem List.not_mem_nil
  rw [entries, List.map_append, List.filter_append, hflat st.earlier h, List.nil_append,
    List.filter_map, List.map_map]
  rfl

/-- The buffer keeps its length. -/
theorem length_buffer (st : Stream) : (buffer st.last st.rest).length = st.before.length := by
  have hfold : ∀ (l : List (List Record)) (mem : List Char),
      (∀ rs ∈ l, (rs.flatMap Record.bytes).length ≤ mem.length) →
      (l.foldl (fun mem rs => readInto mem (rs.flatMap Record.bytes)) mem).length = mem.length := by
    intro l
    induction l with
    | nil => exact fun _ _ => rfl
    | cons rs l ih =>
      intro mem hl
      obtain ⟨hrs, hl⟩ := List.forall_mem_cons.mp hl
      have hlen := length_readInto hrs
      rw [List.foldl_cons, ih _ fun rs' hrs' => hlen.symm ▸ hl rs' hrs', hlen]
  obtain ⟨hlast, hearlier⟩ := List.forall_mem_cons.mp st.fits
  have hlen := hfold st.earlier st.before hearlier
  rw [rest, buffer, List.length_append, List.length_drop, hlen]
  omega

theorem limit_le_whole (st : Stream) (k : ℕ) : st.within k ≤ st.whole k := by
  rw [whole, ← st.length_buffer]
  exact (rooms st.last st.rest).limit_le_stop k

end Stream

namespace Pointers

/-! ### Reading, followed -/

section Following

variable {dir : Str} {set : Tables → ℕ → Dirent → Option Tables}
  {set' : Listing → Dirent → Option Listing} {st : Stream}

/-- A pass that fills the arrays. -/
theorem readdirLoop_follows_false (np ln : Str → Dirent → Str)
    (hset : ∀ s file d, set s file d =
      if listed d then store s file (np s.perms d) d (ln (np s.perms d) d) else some s)
    (hset' : ∀ s d, set' s d =
      if listed d then Myls.store s (np s.perms d) d (ln (np s.perms d) d) else some s)
    (hlast : st.NamesLast) {s : Tables} {t : Listing} {exact : Prop}
    (h : Before (rooms st.last st.rest) false s t) :
    Follows (Holds (rooms st.last st.rest)) exact (readdirLoop false dir set st s)
      (Myls.readdirLoop dir set' st.entries t) := by
  obtain ⟨harr, hcells, rfl⟩ := h
  rw [readdirLoop_eq hset hset' st harr hcells, hlast.slots, List.nil_append]
  cases ht : Myls.readdirLoop dir set' st.entries ⟨[], s.perms⟩ with
  | none => exact Follows.of_none
  | some t =>
    obtain ⟨-, rfl⟩ := (readdirLoop_some hset').mp ht
    exact Follows.of_some (holds_tables st.rest ((built_names np ln _ _).trans hlast.names))

/-- A pass that finds them filled. -/
theorem readdirLoop_true {change : Tables → Dirent → Option Tables}
    (hset : ∀ s file d, set s file d = change s d) (s : Tables) :
    readdirLoop true dir set st s =
      st.entries.foldlM (fun s d => if pathFits dir d then change s d else none) s := by
  have hfill : readFill true dir set = fun s rs =>
      rs.foldlM (fun s r => if pathFits dir r.entry then change s r.entry else none) s := by
    funext s rs
    refine Follows.map_eq (Follows.foldlM (fun r _ p t hp => ?_) rfl)
    subst hp
    unfold readRecord
    split
    · rw [hset]
      cases change p.2 r.entry with
      | none => exact Follows.of_none
      | some _ => exact Follows.of_some rfl
    · exact Follows.of_none
  unfold readdirLoop Stream.entries
  rw [if_pos rfl, hfill, List.foldlM_map, ← foldlM_flatten, List.flatten_append]
  simp

theorem readdirLoop_follows_true {R : Rooms} {exact : Prop}
    (change : Tables → Dirent → Option Tables) (hset : ∀ s file d, set s file d = change s d)
    (hchange : ∀ s t d, Holds R s t → Follows (Holds R) exact (change s d) (set' t d))
    {s : Tables} {t : Listing} (h : Holds R s t) :
    Follows (Holds R) exact (readdirLoop true dir set st s)
      (Myls.readdirLoop dir set' st.entries t) := by
  rw [readdirLoop_true hset]
  refine Follows.foldlM (fun d _ s t hs => ?_) h
  split
  · exact hchange s t d hs
  · exact Follows.of_none

end Following

/-! ### The passes, followed -/

theorem labelFirst_cells {mem : List Char} (d : Dirent) : ∀ {arr : List ℕ} {rows : List Row},
    arr.map (str nul mem) = rows.map Row.name →
    labelFirst mem d arr (rows.map Row.cell) =
      (Myls.labelFirst d rows).map (List.map Row.cell)
  | [], [], _ => rfl
  | p :: arr, r :: rows, h => by
    obtain ⟨hp, harr⟩ := List.cons_eq_cons.mp h
    have ih := labelFirst_cells d harr
    rw [List.map_cons]
    unfold labelFirst Myls.labelFirst
    rw [hp, ih]
    split
    · unfold strcpy1024
      show (if (inoPrefix d ++ r.line).length < 1024 then some _ else none).map _ = _
      split <;> rfl
    · rw [Option.map_map, Option.map_map]
      rfl

/-- Only lines change. -/
theorem labelFirst_bare {d : Dirent} : ∀ {rows rows' : List Row},
    Myls.labelFirst d rows = some rows' → rows'.map Row.bare = rows.map Row.bare
  | [], rows', h => by
    cases h
    rfl
  | r :: rows, rows', h => by
    unfold Myls.labelFirst at h
    split at h
    · obtain ⟨line, -, rfl⟩ := Option.map_eq_some_iff.mp h
      rfl
    · obtain ⟨rows₁, h₁, rfl⟩ := Option.map_eq_some_iff.mp h
      rw [List.map_cons, List.map_cons, labelFirst_bare h₁]

theorem names_of_bare {rows rows' : List Row} (h : rows'.map Row.bare = rows.map Row.bare) :
    rows'.map Row.name = rows.map Row.name := by
  have hnames := congrArg (List.map Row.name) h
  rwa [List.map_map, List.map_map] at hnames

section Passes

variable {R : Rooms} {stop : ℕ → ℕ} (hstop : ∀ k, R.limit k ≤ stop k) {dir : Str} {st : Stream}
  {s : Tables} {t : Listing}

theorem setMinusIOption_any (s : Tables) (file : ℕ) (d : Dirent) :
    setMinusIOption true s file d = setMinusIOption true s 0 d := by
  unfold setMinusIOption
  simp only [if_true]

theorem setMinusIOption_false (s : Tables) (file : ℕ) (d : Dirent) :
    setMinusIOption false s file d = if listed d then
      store s file (keepPerms s.perms d) d (inoPrefix d ++ d.name ++ ['\n']) else some s := by
  unfold setMinusIOption keepPerms
  simp only [Bool.false_eq_true, if_false]

theorem setName_false (s : Tables) (file : ℕ) (d : Dirent) :
    setName false s file d = if listed d then
      store s file (keepPerms s.perms d) d (d.name ++ ['\n']) else some s := by
  unfold setName keepPerms
  simp only [Bool.false_eq_true, if_false]

/-- An inode put before a row. -/
theorem setMinusIOption_follows {exact : Prop} (s : Tables) (t : Listing) (d : Dirent)
    (h : Holds R s t) :
    Follows (Holds R) exact (setMinusIOption true s 0 d) (Myls.setMinusIOption true t d) := by
  unfold setMinusIOption Myls.setMinusIOption
  simp only [if_true]
  split
  · rw [h.cells, labelFirst_cells d h.names]
    cases hlabel : Myls.labelFirst d t.rows with
    | none => exact Follows.of_none
    | some rows =>
      have hnames := names_of_bare (labelFirst_bare hlabel)
      refine Follows.of_some ⟨h.arr, hnames ▸ h.shows, ?_, fun r hr => ?_, rfl, h.perms⟩
      · rw [← List.length_map Row.name, hnames, List.length_map, h.length]
      · obtain ⟨q, hq, hname⟩ := List.mem_map.mp (hnames ▸ List.mem_map_of_mem hr)
        exact hname ▸ h.short q hq
  · exact Follows.of_some h

/-- The passes, their sorts copying no name into a room too small for it. -/
def mylsMinusLWithin (R : Rooms) (dir : Str) (readdir : List Dirent) (s : Listing) :
    Option Listing :=
  (Myls.readdirLoop dir Myls.setMinusLOption readdir s).bind (sortWithin R ByName)

def mylsMinusIWithin (R : Rooms) (checkForOption : Bool) (dir : Str) (readdir : List Dirent)
    (s : Listing) : Option Listing :=
  (Myls.readdirLoop dir (Myls.setMinusIOption checkForOption) readdir s).bind (sortWithin R ByName)

def mylsMinusTWithin (R : Rooms) (checkForOption : Bool) (dir : Str) (readdir : List Dirent)
    (s : Listing) : Option Listing :=
  (Myls.readdirLoop dir (Myls.setMinusTOption checkForOption) readdir s).bind fun s =>
    (sortWithin R ByTime s).bind (sortWithin R ByNameAtTime)

include hstop in
theorem mylsMinusIOption_follows_true (h : Holds R s t) :
    Follows (Holds R) (stop = R.limit) (mylsMinusIOption stop true dir st s)
      (mylsMinusIWithin R true dir st.entries t) :=
  (readdirLoop_follows_true (fun s d => setMinusIOption true s 0 d) setMinusIOption_any
    setMinusIOption_follows h).bind fun _ _ hs => hs.sortPass_follows hstop ByName

include hstop in
theorem sortTimes_follows (h : Holds R s t) :
    Follows (Holds R) (stop = R.limit) ((sortPass stop ByTime s).bind (sortPass stop ByNameAtTime))
      ((sortWithin R ByTime t).bind (sortWithin R ByNameAtTime)) :=
  (h.sortPass_follows hstop ByTime).bind fun _ _ hs => hs.sortPass_follows hstop ByNameAtTime

/-- A name that is stored already. -/
theorem setName_follows {exact : Prop} (s : Tables) (t : Listing) (d : Dirent) (h : Holds R s t) :
    Follows (Holds R) exact (setName true s 0 d) (Myls.setName true t d) := by
  unfold setName Myls.setName
  split
  · exact Follows.of_some h
  · exact Follows.of_some h

theorem setName_any (s : Tables) (file : ℕ) (d : Dirent) :
    setName true s file d = setName true s 0 d := by
  unfold setName
  simp only [if_true]

include hstop in
theorem mylsMinusTOption_follows_true (h : Holds R s t) :
    Follows (Holds R) (stop = R.limit) (mylsMinusTOption stop true dir st s)
      (mylsMinusTWithin R true dir st.entries t) :=
  (readdirLoop_follows_true _ setName_any setName_follows h).bind fun _ _ hs =>
    sortTimes_follows hstop hs

end Passes

section Filling

variable {stop : ℕ → ℕ} {dir : Str} {st : Stream} (hstop : ∀ k, st.within k ≤ stop k)
  (hlast : st.NamesLast) {s : Tables} {t : Listing}

include hstop hlast

/-- **The pass for `-l`.** -/
theorem mylsMinusLOption_follows (h : Before (rooms st.last st.rest) false s t) :
    Follows (Holds (rooms st.last st.rest)) (stop = st.within) (mylsMinusLOption stop dir st s)
      (mylsMinusLWithin (rooms st.last st.rest) dir st.entries t) :=
  (readdirLoop_follows_false permOf lLine (fun _ _ _ => rfl) setMinusLOption_eq hlast h).bind
    fun _ _ hs => hs.sortPass_follows hstop ByName

/-- **The pass for `-i`.** -/
theorem mylsMinusIOption_follows {check : Bool} (h : Before (rooms st.last st.rest) check s t) :
    Follows (Holds (rooms st.last st.rest)) (stop = st.within)
      (mylsMinusIOption stop check dir st s)
      (mylsMinusIWithin (rooms st.last st.rest) check dir st.entries t) := by
  cases check with
  | true => exact mylsMinusIOption_follows_true hstop h
  | false =>
    exact (readdirLoop_follows_false keepPerms (fun _ d => inoPrefix d ++ d.name ++ ['\n'])
      setMinusIOption_false Myls.setMinusIOption_eq hlast h).bind
      fun _ _ hs => hs.sortPass_follows hstop ByName

/-- **The pass for `-t`.** -/
theorem mylsMinusTOption_follows {check : Bool} (h : Before (rooms st.last st.rest) check s t) :
    Follows (Holds (rooms st.last st.rest)) (stop = st.within)
      (mylsMinusTOption stop check dir st s)
      (mylsMinusTWithin (rooms st.last st.rest) check dir st.entries t) := by
  cases check with
  | true => exact mylsMinusTOption_follows_true hstop h
  | false =>
    exact (readdirLoop_follows_false keepPerms (fun _ d => d.name ++ ['\n']) setName_false
      Myls.setName_eq hlast h).bind fun _ _ hs => sortTimes_follows hstop hs

end Filling

/-! ### What fits -/

section Within

variable {dir : Str} {st : Stream} {set' : Listing → Dirent → Option Listing}
  {np ln : Str → Dirent → Str}

/-- A pass that fills the arrays and sorts by name. -/
theorem readSort_some
    (hset' : ∀ s d, set' s d =
      if listed d then Myls.store s (np s.perms d) d (ln (np s.perms d) d) else some s)
    (hlast : st.NamesLast) (hnd : ((st.entries.filter listed).map Dirent.name).Nodup)
    {perms : Str} {t : Listing} :
    (Myls.readdirLoop dir set' st.entries ⟨[], perms⟩).bind
        (sortWithin (rooms st.last st.rest) ByName) = some t ↔
      st.TurnsFit ∧ (Myls.readdirLoop dir set' st.entries ⟨[], perms⟩).map
        (fun s => { s with rows := pass ByName 0 s.rows }) = some t := by
  cases hread : Myls.readdirLoop dir set' st.entries ⟨[], perms⟩ with
  | none => simp
  | some s =>
    have hnames : s.rows.map Row.name = names st.last := by
      obtain ⟨-, rfl⟩ := (readdirLoop_some hset').mp hread
      exact (built_names np ln _ _).trans hlast.names
    have hsort := sortWithin_byName_iff st.rest hnames (hlast.names ▸ hnd)
    rw [Option.bind_some, Option.map_some]
    constructor
    · exact fun h => ⟨hsort.mp ⟨t, h⟩, congrArg some (sortWithin_some h)⟩
    · rintro ⟨hfit, ht⟩
      obtain ⟨t', ht'⟩ := hsort.mpr hfit
      rw [ht', ← ht, sortWithin_some ht']

/-- `-i` changes lines only. -/
theorem readdirLoop_bare {readdir : List Dirent} {t t' : Listing}
    (h : Myls.readdirLoop dir (Myls.setMinusIOption true) readdir t = some t') :
    t'.rows.map Row.bare = t.rows.map Row.bare := by
  refine foldlM_keeps (P := fun s : Listing => s.rows.map Row.bare = t.rows.map Row.bare)
    (fun s d s' hs hs' => ?_) rfl h
  split at hs'
  · unfold Myls.setMinusIOption at hs'
    split at hs'
    · obtain ⟨rows, hrows, rfl⟩ := Option.map_eq_some_iff.mp hs'
      exact (labelFirst_bare hrows).trans hs
    · cases hs'
      exact hs
  · cases hs'

/-- The sort of `-i` makes no exchange in rows that are sorted. -/
theorem mylsMinusIWithin_true (R : Rooms) {readdir : List Dirent} {t : Listing}
    (hs : t.rows.Pairwise fun r r' => r.name ≤ r'.name) (hnd : (t.rows.map Row.name).Nodup) :
    mylsMinusIWithin R true dir readdir t = Myls.mylsMinusIOption true dir readdir t := by
  unfold mylsMinusIWithin Myls.mylsMinusIOption
  cases hread : Myls.readdirLoop dir (Myls.setMinusIOption true) readdir t with
  | none => rfl
  | some t' =>
    have hnames := names_of_bare (readdirLoop_bare hread)
    have hs' : t'.rows.Pairwise fun r r' => r.name ≤ r'.name :=
      List.pairwise_map.mp (hnames ▸ List.pairwise_map.mpr hs)
    have hsettled : Settled ByName t'.rows := hs'.imp not_lt.mpr
    rw [Option.bind_some, Option.map_some, sortWithin, passWithin_of_settled hsettled,
      Option.map_some, pass_byName_of_sorted hs' (hnames ▸ hnd)]

end Within

end Pointers

end Myls
end LinuxProg
