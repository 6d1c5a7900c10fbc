/-
# The rows of a long listing

`perm` of `myls.c` writes the letters of a mode into a static buffer that it
never clears, so the mode string of a row has the letters of every mode before
it (`perms_eq`): the strings are right exactly as long as each mode has the
permission bits of the one before (`perms_shown_iff`).

The passes of `myls` fill three arrays in step, the names `arr`, the rows
`arr_l` and the times `rewrite_time`; here they are one list of `Row`s, each
name a string of its own. (In the program `arr` points into the buffer of
`readdir`: see `Pointers`, whose passes do what these do as long as the buffer
allows it.) A store past the 1024 cells or past the end of a 1024-byte buffer is
`none`.
-/
import Mathlib
import LinuxProg.Lib.Buffers
import LinuxProg.Lib.Exchange
import LinuxProg.Myls.Args

namespace LinuxProg
namespace Myls

open Buffers Exchange

/-- A `mode_t`. -/
abbrev Mode := BitVec 32

def sIrusr : Mode := 0o400
def sIwusr : Mode := 0o200
def sIxusr : Mode := 0o100

/-- The body of the loop of `perm`. -/
def permAt (mode : Mode) (perms : Str) (i : ℕ) : Str :=
  let perms := if mode &&& (sIrusr >>> (i * 3)) ≠ 0 then perms.set (i * 3) 'r' else perms
  let perms := if mode &&& (sIwusr >>> (i * 3)) ≠ 0 then perms.set (i * 3 + 1) 'w' else perms
  if mode &&& (sIxusr >>> (i * 3)) ≠ 0 then perms.set (i * 3 + 2) 'x' else perms

/-- `perm(mode)`: the static buffer after the call, which is what it returns. -/
def perm (perms : Str) (mode : Mode) : Str := (List.range 3).foldl (permAt mode) perms

/-- `static char perms[10]` when the program starts. -/
def perms₀ : Str := "---------".toList

/-- What a sequence of calls returns, the buffer holding `perms` before. -/
def permCalls : Str → List Mode → List Str
  | _, [] => []
  | perms, mode :: modes => perm perms mode :: permCalls (perm perms mode) modes

/-! ### Mode strings -/

/-- Whether the permission bit shown at position `k` is set. -/
def bit (mode : Mode) (k : ℕ) : Bool := mode.getLsbD (8 - k)

/-- `r`, `w`, `x` where the bit is set and `-` elsewhere. -/
def shown (mode : Mode) : Str :=
  (List.range 9).map fun k => if bit mode k then "rwx".toList.getD (k % 3) '-' else '-'

theorem and_twoPow_ne_zero (m : Mode) {n : ℕ} (h : n < 32) :
    m &&& BitVec.twoPow 32 n ≠ 0 ↔ m.getLsbD n = true := by
  have hne : BitVec.twoPow 32 n ≠ 0#32 := by
    intro h0
    have := congrArg (fun x => x.getLsbD n) h0
    simp [h] at this
  rw [BitVec.and_twoPow]
  cases m.getLsbD n <;> simp [hne]

/-- The three tests of the loop read the bits of the positions they write. -/
theorem permAt_bits (m : Mode) {i : ℕ} (h : i < 3) :
    (m &&& (sIrusr >>> (i * 3)) ≠ 0 ↔ bit m (i * 3) = true) ∧
      (m &&& (sIwusr >>> (i * 3)) ≠ 0 ↔ bit m (i * 3 + 1) = true) ∧
      (m &&& (sIxusr >>> (i * 3)) ≠ 0 ↔ bit m (i * 3 + 2) = true) := by
  have hbit : ∀ k, bit m k = true ↔ m &&& BitVec.twoPow 32 (8 - k) ≠ 0 := fun k =>
    (and_twoPow_ne_zero m (by omega)).symm
  rw [hbit, hbit, hbit]
  interval_cases i <;> exact ⟨Iff.rfl, Iff.rfl, Iff.rfl⟩

/-- A turn of the loop writes letters into three positions and clears none. -/
theorem permAt_eq (m : Mode) {i : ℕ} (h : i < 3) {pre : Str} (hpre : pre.length = i * 3)
    (a b c : Char) (post : Str) :
    permAt m (pre ++ a :: b :: c :: post) i =
      pre ++ (if bit m (i * 3) then 'r' else a) :: (if bit m (i * 3 + 1) then 'w' else b) ::
        (if bit m (i * 3 + 2) then 'x' else c) :: post := by
  have hset : ∀ (l : Str) (j : ℕ) (x : Char), (pre ++ l).set (i * 3 + j) x = pre ++ l.set j x := by
    intro l j x
    rw [List.set_append_right _ _ (by omega), hpre, Nat.add_sub_cancel_left]
  have hset₀ : ∀ (l : Str) (x : Char), (pre ++ l).set (i * 3) x = pre ++ l.set 0 x :=
    fun l x => hset l 0 x
  obtain ⟨hr, hw, hx⟩ := permAt_bits m h
  unfold permAt
  simp only [hr, hw, hx]
  cases bit m (i * 3) <;> cases bit m (i * 3 + 1) <;> cases bit m (i * 3 + 2) <;>
    simp [hset, hset₀]

theorem shown_eq (m : Mode) : shown m =
    [if bit m 0 then 'r' else '-', if bit m 1 then 'w' else '-', if bit m 2 then 'x' else '-',
      if bit m 3 then 'r' else '-', if bit m 4 then 'w' else '-', if bit m 5 then 'x' else '-',
      if bit m 6 then 'r' else '-', if bit m 7 then 'w' else '-', if bit m 8 then 'x' else '-'] :=
  rfl

theorem shown_length (m : Mode) : (shown m).length = 9 := rfl

theorem bit_or (m m' : Mode) (k : ℕ) : bit (m ||| m') k = (bit m k || bit m' k) :=
  BitVec.getLsbD_or

/-- The letter a call leaves at a position. -/
theorem letter_or (p q : Bool) (x : Char) :
    (if q then x else if p then x else '-') = if p || q then x else '-' := by
  cases p <;> cases q <;> rfl

/-- **A call adds the letters of its mode** to those in the buffer. -/
theorem perm_shown (b m : Mode) : perm (shown b) m = shown (b ||| m) := by
  have h0 := @permAt_eq m 0 (by omega) [] rfl
  have h1 := fun x y z => @permAt_eq m 1 (by omega) [x, y, z] rfl
  have h2 := fun x y z x' y' z' => @permAt_eq m 2 (by omega) [x, y, z, x', y', z'] rfl
  simp only [List.nil_append, List.cons_append, Nat.zero_mul, Nat.one_mul, Nat.reduceMul,
    Nat.reduceAdd, Nat.zero_add] at h0 h1 h2
  rw [perm, show List.range 3 = [0, 1, 2] from rfl, List.foldl_cons, List.foldl_cons,
    List.foldl_cons, List.foldl_nil, shown_eq b, h0, h1, h2, shown_eq (b ||| m)]
  simp only [letter_or, bit_or]

theorem perms₀_eq : perms₀ = shown 0 := by decide

/-- The string of call `j` has the letters of all modes up to it. -/
theorem perms_eq : ∀ (ms : List Mode) (b : Mode) (j : ℕ), j < ms.length →
    (permCalls (shown b) ms)[j]? = some (shown ((ms.take (j + 1)).foldl (· ||| ·) b))
  | m :: ms, b, 0, _ => by simp [permCalls, perm_shown]
  | m :: ms, b, j + 1, h => by
    rw [permCalls, perm_shown, List.getElem?_cons_succ, perms_eq ms _ j (by simpa using h)]
    rfl

/-- Every permission bit of `m` is set in `m'`. -/
def PermLe (m m' : Mode) : Prop := ∀ k < 9, bit m k = true → bit m' k = true

theorem letter_ne {k : ℕ} (h : k < 9) : "rwx".toList.getD (k % 3) '-' ≠ '-' := by
  interval_cases k <;> decide

theorem letter_inj {x : Char} (hx : x ≠ '-') {p q : Bool}
    (h : (if p then x else '-') = if q then x else '-') : p = q := by
  cases p <;> cases q
  · rfl
  · exact absurd h.symm hx
  · exact absurd h hx
  · rfl

/-- A mode string tells the permission bits. -/
theorem shown_inj {m m' : Mode} (h : shown m = shown m') {k : ℕ} (hk : k < 9) :
    bit m k = bit m' k := by
  have := congrArg (·[k]?) h
  simp only [shown, List.getElem?_map, List.getElem?_range hk, Option.map_some,
    Option.some.injEq] at this
  exact letter_inj (letter_ne hk) this

theorem shown_or_iff (b m : Mode) : shown (b ||| m) = shown m ↔ PermLe b m := by
  constructor
  · intro h k hk hb
    rw [← shown_inj h hk, bit_or, hb, Bool.true_or]
  · intro h
    refine List.map_congr_left fun k hk => ?_
    have hor : bit (b ||| m) k = bit m k := by
      rw [bit_or]
      cases hb : bit b k with
      | false => rfl
      | true => rw [h k (List.mem_range.mp hk) hb, Bool.true_or]
    rw [hor]

theorem permCalls_shown_iff : ∀ (ms : List Mode) (b : Mode),
    permCalls (shown b) ms = ms.map shown ↔ (b :: ms).IsChain PermLe
  | [], b => by simp [permCalls]
  | m :: ms, b => by
    rw [permCalls, List.map_cons, List.cons.injEq, perm_shown, shown_or_iff,
      List.isChain_cons_cons]
    refine and_congr_right fun hb => ?_
    rw [(shown_or_iff b m).mpr hb]
    exact permCalls_shown_iff ms m

/-- **The mode strings are right exactly when each mode has the permission bits
of the one before it.** -/
theorem perms_shown_iff (ms : List Mode) :
    permCalls perms₀ ms = ms.map shown ↔ ms.IsChain PermLe := by
  rw [perms₀_eq, permCalls_shown_iff]
  cases ms with
  | nil => simp
  | cons m ms =>
    rw [List.isChain_cons_cons, and_iff_right_iff_imp]
    intro _ k _ h
    simp [bit] at h

/-- The row after one with all permissions shows them too. -/
theorem perms_not_shown : permCalls perms₀ [0o777, 0] ≠ [0o777, 0].map shown := by decide

/-! ### The passes -/

def sIfmt : Mode := 0o170000

/-- `type(mode)`, which returns nothing for other file types. -/
def type (mode : Mode) : Option Char :=
  if mode &&& sIfmt = 0o100000 then some '-'
  else if mode &&& sIfmt = 0o040000 then some 'd'
  else if mode &&& sIfmt = 0o020000 then some 'c'
  else if mode &&& sIfmt = 0o060000 then some 'b'
  else if mode &&& sIfmt = 0o120000 then some 'l'
  else if mode &&& sIfmt = 0o010000 then some 'p'
  else if mode &&& sIfmt = 0o140000 then some 's'
  else none

/-- What `readdir` and `lstat` say about an entry, with the names of its user
and group, and `ctime(&st_mtime)`. It is of one of the file types. -/
structure Dirent where
  name : Str
  ino : ℤ
  mode : Mode
  nlink : ℤ
  user : Str
  group : Str
  size : ℤ
  mtime : ℤ
  ctime : Str
  typed : (type mode).isSome

/-- `arr[i]`, `arr_l[i]` and `rewrite_time[i]`. -/
structure Row where
  name : Str
  line : Str
  time : ℤ
  deriving DecidableEq

/-- The first `arr_index` cells of the arrays, and the buffer of `perm`. -/
structure Listing where
  rows : List Row
  perms : Str

/-- `"%*ld"` -/
def ld (width : ℕ) (n : ℤ) : Str :=
  List.replicate (width - (toString n).toList.length) ' ' ++ (toString n).toList

/-- `"%c%s %3ld %s %s %9ld %.12s %s\n"` -/
def lLine (perms : Str) (d : Dirent) : Str :=
  (type d.mode).get d.typed :: perms ++ ' ' :: ld 3 d.nlink ++ ' ' :: d.user ++ ' ' :: d.group ++
    ' ' :: ld 9 d.size ++ ' ' :: (d.ctime.drop 4).take 12 ++ ' ' :: d.name ++ ['\n']

/-- `"%7ld "` -/
def inoPrefix (d : Dirent) : Str := ld 7 d.ino ++ [' ']

/-- `strcmp(file,".") && strcmp(file,"..")` -/
def listed (d : Dirent) : Bool := d.name != ['.'] && d.name != ['.', '.']

/-- `sprintf` into `tmp[1024]` and the stores at `arr_index`. -/
def store (s : Listing) (perms : Str) (d : Dirent) (line : Str) : Option Listing :=
  if line.length < 1024 ∧ s.rows.length < 1024 then
    some ⟨s.rows ++ [⟨d.name, line, Int.bmod d.mtime (2 ^ 32)⟩], perms⟩
  else none

def setMinusLOption (s : Listing) (d : Dirent) : Option Listing :=
  if listed d then
    let perms := perm s.perms d.mode
    store s perms d (lLine perms d)
  else some s

/-- The loop that puts the inode before the first row whose name has `file` in it. -/
def labelFirst (d : Dirent) : List Row → Option (List Row)
  | [] => some []
  | r :: rows =>
    if strstr r.name d.name then
      (strcpy1024 (inoPrefix d ++ r.line)).map fun tmp => { r with line := tmp } :: rows
    else (labelFirst d rows).map (r :: ·)

def setMinusIOption (checkForOption : Bool) (s : Listing) (d : Dirent) : Option Listing :=
  if listed d then
    if checkForOption then (labelFirst d s.rows).map fun rows => { s with rows }
    else store s s.perms d (inoPrefix d ++ d.name ++ ['\n'])
  else some s

/-- The body of `set_minus_t_option`. -/
def setName (checkForOption : Bool) (s : Listing) (d : Dirent) : Option Listing :=
  if listed d then
    if checkForOption then some s else store s s.perms d (d.name ++ ['\n'])
  else some s

def setMinusTOption := setName

/-- `sprintf(path,"%s/%s",dir,d->d_name)` fits `path[1024]`. -/
def pathFits (dir : Str) (d : Dirent) : Bool := (dir ++ '/' :: d.name).length < 1024

/-- The loop over the directory. -/
def readdirLoop (dir : Str) (set : Listing → Dirent → Option Listing) (readdir : List Dirent)
    (s : Listing) : Option Listing :=
  readdir.foldlM (fun s d => if pathFits dir d then set s d else none) s

/-- `strcmp(arr[i],arr[j]) < 0` -/
def ByName (r r' : Row) : Prop := r.name < r'.name

/-- `rewrite_time[i] > rewrite_time[j]` -/
def ByTime (r r' : Row) : Prop := r'.time < r.time

/-- Of equal times, by name. -/
def ByNameAtTime (r r' : Row) : Prop := r.time = r'.time ∧ r.name < r'.name

instance : DecidableRel ByName := fun r r' => inferInstanceAs (Decidable (r.name < r'.name))

instance : DecidableRel ByTime := fun r r' => inferInstanceAs (Decidable (r'.time < r.time))

instance : DecidableRel ByNameAtTime := fun r r' =>
  inferInstanceAs (Decidable (r.time = r'.time ∧ r.name < r'.name))

def mylsMinusLOption (dir : Str) (readdir : List Dirent) (s : Listing) : Option Listing :=
  (readdirLoop dir setMinusLOption readdir s).map fun s =>
    { s with rows := pass ByName 0 s.rows }

def mylsMinusIOption (checkForOption : Bool) (dir : Str) (readdir : List Dirent) (s : Listing) :
    Option Listing :=
  (readdirLoop dir (setMinusIOption checkForOption) readdir s).map fun s =>
    { s with rows := pass ByName 0 s.rows }

def mylsMinusTOption (checkForOption : Bool) (dir : Str) (readdir : List Dirent) (s : Listing) :
    Option Listing :=
  (readdirLoop dir (setMinusTOption checkForOption) readdir s).map fun s =>
    { s with rows := pass ByNameAtTime 0 (pass ByTime 0 s.rows) }

/-! ### Filling the arrays -/

/-- The rows of entries in the order they are read: `np` is what happens to the
buffer of `perm`, `ln` the line. -/
def built (np ln : Str → Dirent → Str) : Str → List Dirent → List Row
  | _, [] => []
  | perms, d :: ds =>
    ⟨d.name, ln (np perms d) d, Int.bmod d.mtime (2 ^ 32)⟩ :: built np ln (np perms d) ds

theorem built_names (np ln : Str → Dirent → Str) : ∀ (ds : List Dirent) (perms : Str),
    (built np ln perms ds).map Row.name = ds.map Dirent.name
  | [], _ => rfl
  | d :: ds, perms => by rw [built, List.map_cons, List.map_cons, built_names np ln ds]

/-- The loop over the entries is one over those that are listed. -/
theorem foldlM_listed {β : Type*} {dir : Str} {set f : β → Dirent → Option β}
    (hset : ∀ s d, set s d = if listed d then f s d else some s) (readdir : List Dirent) (s : β) :
    readdir.foldlM (fun s d => if pathFits dir d then set s d else none) s =
      if ∀ d ∈ readdir, pathFits dir d = true then (readdir.filter listed).foldlM f s else none := by
  have hset' : set = fun s d => if listed d then f s d else pure s := by
    funext s d
    exact hset s d
  rw [foldlM_guard, hset', List.foldlM_filter]

/-- A row is stored for each entry, if there is room. -/
theorem storeLoop_eq (np ln : Str → Dirent → Str) : ∀ (ds : List Dirent) (s : Listing),
    s.rows.length ≤ 1024 →
    ds.foldlM (fun s d => store s (np s.perms d) d (ln (np s.perms d) d)) s =
      if s.rows.length + ds.length ≤ 1024 ∧
          ∀ r ∈ built np ln s.perms ds, r.line.length < 1024 then
        some ⟨s.rows ++ built np ln s.perms ds, ds.foldl np s.perms⟩
      else none
  | [], s, h => by simp [built, h]
  | d :: ds, s, h => by
    simp only [List.foldlM_cons, store, built, List.forall_mem_cons, List.length_cons,
      List.foldl_cons]
    by_cases hst : (ln (np s.perms d) d).length < 1024 ∧ s.rows.length < 1024
    · have ih := storeLoop_eq np ln ds
        ⟨s.rows ++ [⟨d.name, ln (np s.perms d) d, Int.bmod d.mtime (2 ^ 32)⟩], np s.perms d⟩
        (by simp; omega)
      simp only [store] at ih
      rw [if_pos hst, Option.bind_eq_bind, Option.bind_some, ih]
      simp only [List.length_append, List.length_singleton, List.append_assoc,
        List.singleton_append]
      refine if_congr ?_ rfl rfl
      constructor
      · rintro ⟨h1, h2⟩
        exact ⟨by omega, hst.1, h2⟩
      · rintro ⟨h1, -, h2⟩
        exact ⟨by omega, h2⟩
    · rw [if_neg hst, if_neg]
      · rfl
      · rintro ⟨h1, h2, -⟩
        exact hst ⟨h2, by omega⟩

/-- A loop whose body stores a row of each entry that is listed. -/
theorem readdirLoop_some {dir : Str} {set : Listing → Dirent → Option Listing}
    {np ln : Str → Dirent → Str}
    (hset : ∀ s d, set s d = if listed d then store s (np s.perms d) d (ln (np s.perms d) d)
      else some s) {readdir : List Dirent} {perms : Str} {s : Listing} :
    readdirLoop dir set readdir ⟨[], perms⟩ = some s ↔
      ((∀ d ∈ readdir, pathFits dir d = true) ∧ (readdir.filter listed).length ≤ 1024 ∧
        ∀ r ∈ built np ln perms (readdir.filter listed), r.line.length < 1024) ∧
      ⟨built np ln perms (readdir.filter listed), (readdir.filter listed).foldl np perms⟩ = s := by
  rw [readdirLoop, foldlM_listed hset, storeLoop_eq np ln _ _ (Nat.zero_le _)]
  simp only [List.length_nil, Nat.zero_add, List.nil_append, Option.ite_none_right_eq_some,
    Option.some.injEq, and_assoc]

/-! ### Sorting by name -/

instance : IsStrictOrder Row ByName where
  irrefl r := lt_irrefl r.name
  trans _ _ _ h h' := lt_trans h h'

/-- The pass by name sorts the names. -/
theorem pass_byName_sorted (rows : List Row) :
    (pass ByName 0 rows).Pairwise fun r r' => r.name ≤ r'.name :=
  (pass_settled ByName rows).imp fun h => not_lt.mp h

/-- Sorted rows with different names stay as they are. -/
theorem pass_byName_of_sorted {rows : List Row} (h : rows.Pairwise fun r r' => r.name ≤ r'.name)
    (hnames : (rows.map Row.name).Nodup) : pass ByName 0 rows = rows :=
  (sorted_unique (pass_perm ByName rows).symm h (pass_byName_sorted rows) fun _ hr _ hr' =>
    List.inj_on_of_nodup_map hnames hr hr').symm

/-! ### The long listing -/

/-- The mode string of an entry. -/
def permOf (perms : Str) (d : Dirent) : Str := perm perms d.mode

theorem setMinusLOption_eq (s : Listing) (d : Dirent) : setMinusLOption s d =
    if listed d then store s (permOf s.perms d) d (lLine (permOf s.perms d) d) else some s := rfl

/-- The rows of the long listing in the order the entries are read, the buffer
of `perm` holding the letters of `b` before. -/
def lBuilt (b : Mode) (ds : List Dirent) : List Row := built permOf lLine (shown b) ds

theorem lBuilt_cons (b : Mode) (d : Dirent) (ds : List Dirent) : lBuilt b (d :: ds) =
    ⟨d.name, lLine (shown (b ||| d.mode)) d, Int.bmod d.mtime (2 ^ 32)⟩ ::
      lBuilt (b ||| d.mode) ds := by
  rw [lBuilt, built, permOf, perm_shown]
  rfl

/-- Every row is the line of an entry, with some mode string. -/
theorem lBuilt_line : ∀ (ds : List Dirent) (b : Mode), ∀ r ∈ lBuilt b ds,
    ∃ d ∈ ds, r.name = d.name ∧ ∃ m, r.line = lLine (shown m) d
  | [], _, _, hr => absurd hr List.not_mem_nil
  | d :: ds, b, r, hr => by
    rw [lBuilt_cons] at hr
    rcases List.mem_cons.mp hr with rfl | hr
    · exact ⟨d, List.mem_cons_self, rfl, _, rfl⟩
    · obtain ⟨d', hd', h⟩ := lBuilt_line ds _ r hr
      exact ⟨d', List.mem_cons_of_mem d hd', h⟩

theorem length_lLine (m : Mode) (d : Dirent) :
    (lLine (shown m) d).length = (lLine perms₀ d).length := by
  simp [lLine, shown_length, perms₀_eq]

theorem lBuilt_length_iff : ∀ (ds : List Dirent) (b : Mode),
    (∀ r ∈ lBuilt b ds, r.line.length < 1024) ↔ ∀ d ∈ ds, (lLine perms₀ d).length < 1024
  | [], _ => by simp [lBuilt, built]
  | d :: ds, b => by
    rw [lBuilt_cons, List.forall_mem_cons, List.forall_mem_cons, lBuilt_length_iff ds, length_lLine]

/-- The paths, the entries and the lines of a long listing fit their arrays. -/
structure LFits (dir : Str) (readdir : List Dirent) : Prop where
  path : ∀ d ∈ readdir, pathFits dir d = true
  count : (readdir.filter listed).length ≤ 1024
  line : ∀ d ∈ readdir.filter listed, (lLine perms₀ d).length < 1024

/-- **The pass for `-l`** from empty arrays. -/
theorem mylsMinusLOption_some {dir : Str} {readdir : List Dirent} {b : Mode} {s : Listing} :
    mylsMinusLOption dir readdir ⟨[], shown b⟩ = some s ↔ LFits dir readdir ∧
      s = ⟨pass ByName 0 (lBuilt b (readdir.filter listed)),
        (readdir.filter listed).foldl permOf (shown b)⟩ := by
  have hfits : ((∀ d ∈ readdir, pathFits dir d = true) ∧
      (readdir.filter listed).length ≤ 1024 ∧
      ∀ r ∈ lBuilt b (readdir.filter listed), r.line.length < 1024) ↔ LFits dir readdir := by
    rw [lBuilt_length_iff]
    exact ⟨fun ⟨h1, h2, h3⟩ => ⟨h1, h2, h3⟩, fun ⟨h1, h2, h3⟩ => ⟨h1, h2, h3⟩⟩
  rw [mylsMinusLOption, Option.map_eq_some_iff]
  simp only [readdirLoop_some setMinusLOption_eq]
  constructor
  · rintro ⟨t, ⟨h, rfl⟩, rfl⟩
    exact ⟨hfits.mp h, rfl⟩
  · rintro ⟨h, rfl⟩
    exact ⟨_, ⟨hfits.mpr h, rfl⟩, rfl⟩

/-- The rows of a long listing of the entries, sorted by name. -/
structure Long (es : List Dirent) (rows : List Row) : Prop where
  names : (rows.map Row.name).Perm (es.map Dirent.name)
  sorted : rows.Pairwise fun r r' => r.name ≤ r'.name
  line : ∀ r ∈ rows, ∀ d ∈ es, r.name = d.name → ∃ m, r.line = lLine (shown m) d

/-- The pass leaves such rows. -/
theorem long_pass {b : Mode} {es : List Dirent} (hnd : (es.map Dirent.name).Nodup) :
    Long es (pass ByName 0 (lBuilt b es)) where
  names := by
    have := (pass_perm ByName (lBuilt b es)).map Row.name
    rwa [lBuilt, built_names] at this
  sorted := pass_byName_sorted (lBuilt b es)
  line r hr d hd hname := by
    obtain ⟨d', hd', hname', m, hline⟩ :=
      lBuilt_line es b r ((pass_perm ByName (lBuilt b es)).mem_iff.mp hr)
    have : d' = d := List.inj_on_of_nodup_map hnd hd' hd (hname'.symm.trans hname)
    exact ⟨m, this ▸ hline⟩

namespace Long

variable {es : List Dirent} {rows : List Row}

theorem row (h : Long es rows) {d : Dirent} (hd : d ∈ es) : ∃ r ∈ rows, r.name = d.name :=
  List.mem_map.mp (h.names.mem_iff.mpr (List.mem_map_of_mem hd))

theorem entry (h : Long es rows) {r : Row} (hr : r ∈ rows) : ∃ d ∈ es, d.name = r.name :=
  List.mem_map.mp (h.names.mem_iff.mp (List.mem_map_of_mem hr))

theorem length (h : Long es rows) {d : Dirent} (hd : d ∈ es) {r : Row} (hr : r ∈ rows)
    (hname : r.name = d.name) : r.line.length = (lLine perms₀ d).length := by
  obtain ⟨m, hm⟩ := h.line r hr d hd hname
  rw [hm, length_lLine]

theorem length_lt (h : Long es rows) (hes : ∀ d ∈ es, (lLine perms₀ d).length < 1024) :
    ∀ r ∈ rows, r.line.length < 1024 := by
  intro r hr
  obtain ⟨d, hd, hname⟩ := h.entry hr
  rw [h.length hd hr hname.symm]
  exact hes d hd

end Long

end Myls
end LinuxProg
