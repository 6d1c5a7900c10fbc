/-
# The options, and what the passes need

`main` of `myls.c` looks for the letters of the options in `argv[1]` (`flagsOf`)
and makes the passes for `-l`, `-i` and `-t` that are given one after the other.
On names that are strings of their own the passes for `-l` and `-i` succeed
exactly if the paths, the entries and the rows fit their arrays
(`fillLong_isSome`); a row of `-l` may get the inodes of several entries before
it, those whose names it is the first to contain.

Plain `myls` only stores the names, and sorts them (`myls_eq`).
-/
import Mathlib
import LinuxProg.Myls.Inode

namespace LinuxProg
namespace Myls

open Exchange

/-- Which options are given. -/
structure Flags where
  l : Bool
  i : Bool
  t : Bool
  r : Bool
deriving DecidableEq

/-- `strstr(argv[1],"l") && argv[1][0] == '-'` and so on. -/
def flagsOf (argv1 : Str) : Flags :=
  let minus := fun c => strstr argv1 [c] && argv1.head? == some '-'
  ⟨minus 'l', minus 'i', minus 't', minus 'r'⟩

/-- A pass that is made if its option is given. -/
def onOption {σ : Type*} (given : Bool) (pass : σ → Option σ) (s : σ) : Option σ :=
  if given then pass s else some s

/-- The options as letters of `argv[1]`. -/
def Flags.argv1 (f : Flags) : Str :=
  '-' :: ((if f.l then ['l'] else []) ++ (if f.i then ['i'] else []) ++
    (if f.t then ['t'] else []) ++ if f.r then ['r'] else [])

/-- `arr[arr_index++] = d->d_name` for the entries that are listed. -/
def storeName (arr : List Str) (d : Dirent) : Option (List Str) :=
  if listed d then if arr.length < 1024 then some (arr ++ [d.name]) else none else some arr

/-- `myls` of a directory on names that are strings of their own. -/
def myls (dir : Str) (readdir : List Dirent) : Option (List Str) :=
  (readdir.foldlM (fun arr d => if pathFits dir d then storeName arr d else none) []).map
    (exchangeSort 0)

/-- `main` finds in `argv[1]` the options it was written for. -/
theorem flagsOf_argv1 (f : Flags) : flagsOf f.argv1 = f := by
  obtain ⟨l, i, t, r⟩ := f
  cases l <;> cases i <;> cases t <;> cases r <;> decide

/-! ### Room -/

/-- `e` is the first by name of the entries whose names contain that of `d`. -/
def FirstWith (es : List Dirent) (d e : Dirent) : Prop :=
  d.name <:+: e.name ∧ ∀ e' ∈ es, d.name <:+: e'.name → e.name ≤ e'.name

instance (es : List Dirent) (d e : Dirent) : Decidable (FirstWith es d e) :=
  inferInstanceAs (Decidable (_ ∧ _))

/-- The paths, entries and rows of a listing fit their arrays: a row of `-l`
with the inodes put before it, a row of `-i`. -/
structure Room (f : Flags) (dir : Str) (readdir : List Dirent) : Prop where
  path : ∀ d ∈ readdir, pathFits dir d = true
  count : (readdir.filter listed).length ≤ 1024
  long : f.l = true → ∀ d ∈ readdir.filter listed, (lLine perms₀ d).length < 1024
  both : f.l = true → f.i = true → ∀ e ∈ readdir.filter listed,
    (((readdir.filter listed).filter fun d => FirstWith (readdir.filter listed) d e).map
      fun d => (inoPrefix d).length).sum + (lLine perms₀ e).length < 1024
  ino : f.l = false → f.i = true → ∀ d ∈ readdir.filter listed,
    (inoPrefix d ++ d.name ++ ['\n']).length < 1024

/-! ### Passes that fill the arrays -/

/-- A pass that finds the arrays filled only forms the paths. -/
theorem foldlM_skip {β : Type*} {dir : Str} {set : β → Dirent → Option β}
    (hset : ∀ s d, set s d = some s) (readdir : List Dirent) (s : β) :
    readdir.foldlM (fun s d => if pathFits dir d then set s d else none) s =
      if ∀ d ∈ readdir, pathFits dir d = true then some s else none := by
  have hskip : ∀ ds : List Dirent, ds.foldlM set s = some s := by
    intro ds
    induction ds with
    | nil => rfl
    | cons d ds ih =>
      rw [List.foldlM_cons, hset]
      exact ih
  rw [Buffers.foldlM_guard, hskip]

theorem setName_skip (dir : Str) (readdir : List Dirent) (s : Listing) :
    readdirLoop dir (setName true) readdir s =
      if ∀ d ∈ readdir, pathFits dir d = true then some s else none := by
  refine foldlM_skip (fun s d => ?_) readdir s
  unfold setName
  split <;> rfl

/-- A pass that leaves the buffer of `perm` alone. -/
def keepPerms (perms : Str) (_ : Dirent) : Str := perms

theorem built_keepPerms (ln : Dirent → Str) (perms : Str) : ∀ ds : List Dirent,
    built keepPerms (fun _ d => ln d) perms ds =
      ds.map fun d => ⟨d.name, ln d, Int.bmod d.mtime (2 ^ 32)⟩
  | [] => rfl
  | d :: ds => by
    have ih := built_keepPerms ln perms ds
    rw [built, List.map_cons]
    exact congrArg _ ih

theorem setMinusIOption_eq (s : Listing) (d : Dirent) : setMinusIOption false s d =
    if listed d then store s (keepPerms s.perms d) d (inoPrefix d ++ d.name ++ ['\n'])
      else some s := rfl

theorem setName_eq (s : Listing) (d : Dirent) : setName false s d =
    if listed d then store s (keepPerms s.perms d) d (d.name ++ ['\n']) else some s := rfl

theorem name_fits {dir : Str} {d : Dirent} (h : pathFits dir d = true) :
    (d.name ++ ['\n']).length < 1024 := by
  have hlt : (dir ++ '/' :: d.name).length < 1024 := of_decide_eq_true h
  rw [List.length_append, List.length_cons] at hlt
  rw [List.length_append, List.length_singleton]
  omega

/-- `-i` alone. -/
theorem mylsMinusIOption_isSome {dir : Str} {readdir : List Dirent} {perms : Str} :
    (∃ s, mylsMinusIOption false dir readdir ⟨[], perms⟩ = some s) ↔
      (∀ d ∈ readdir, pathFits dir d = true) ∧ (readdir.filter listed).length ≤ 1024 ∧
      ∀ d ∈ readdir.filter listed, (inoPrefix d ++ d.name ++ ['\n']).length < 1024 := by
  have hloop := fun s => @readdirLoop_some dir (setMinusIOption false) keepPerms
    (fun _ d => inoPrefix d ++ d.name ++ ['\n']) setMinusIOption_eq readdir perms s
  simp only [built_keepPerms fun d => inoPrefix d ++ d.name ++ ['\n'], List.forall_mem_map] at hloop
  simp only [mylsMinusIOption, Option.map_eq_some_iff, hloop]
  constructor
  · rintro ⟨s, t, ⟨h, -⟩, -⟩
    exact h
  · exact fun h => ⟨_, _, ⟨h, rfl⟩, rfl⟩

/-- The rows of `-t` or `-r` alone, in the order of `readdir`. -/
theorem setName_some {dir : Str} {readdir : List Dirent} {perms : Str} {s : Listing} :
    readdirLoop dir (setName false) readdir ⟨[], perms⟩ = some s ↔
      ((∀ d ∈ readdir, pathFits dir d = true) ∧ (readdir.filter listed).length ≤ 1024) ∧
      ⟨(readdir.filter listed).map fun d =>
        ⟨d.name, d.name ++ ['\n'], Int.bmod d.mtime (2 ^ 32)⟩,
        (readdir.filter listed).foldl keepPerms perms⟩ = s := by
  have hloop := @readdirLoop_some dir (setName false) keepPerms (fun _ d => d.name ++ ['\n'])
    setName_eq readdir perms s
  simp only [built_keepPerms fun d => d.name ++ ['\n'], List.forall_mem_map] at hloop
  rw [hloop]
  refine and_congr_left fun _ => ⟨fun h => ⟨h.1, h.2.1⟩, fun h => ⟨h.1, h.2, fun d hd => ?_⟩⟩
  exact name_fits (h.1 d (List.mem_filter.mp hd).1)

/-! ### `-l` and `-i` together -/

theorem length_labels (names : List Str) (n : Str) : ∀ ds : List Dirent,
    (labels names ds n).length =
      ((ds.filter fun d => hit names d = some n).map fun d => (inoPrefix d).length).sum
  | [] => rfl
  | d :: ds => by
    rw [labels, List.length_append, length_labels names n ds]
    by_cases h : hit names d = some n
    · rw [if_pos h, List.filter_cons_of_pos (by simpa using h), List.map_cons, List.sum_cons]
      omega
    · rw [if_neg h, List.filter_cons_of_neg (by simpa using h), List.length_nil, Nat.add_zero]

/-- The row an inode is put before is that of the first entry with the name in it. -/
theorem hit_iff_firstWith {rows : List Row} {es : List Dirent} (hl : Long es rows) {d e : Dirent}
    (he : e ∈ es) : hit (rows.map Row.name) d = some e.name ↔ FirstWith es d e := by
  rw [hit_iff (List.pairwise_map.mpr hl.sorted), FirstWith]
  simp only [hl.names.mem_iff, List.forall_mem_map, List.mem_map_of_mem he, true_and]

/-- `-i` after `-l`. -/
theorem mylsMinusIOption_long {dir : Str} {readdir : List Dirent} {rows : List Row} {perms : Str}
    (hnd : ((readdir.filter listed).map Dirent.name).Nodup) (hl : Long (readdir.filter listed) rows)
    (hpath : ∀ d ∈ readdir, pathFits dir d = true)
    (hlt : ∀ d ∈ readdir.filter listed, (lLine perms₀ d).length < 1024) :
    (∃ s, mylsMinusIOption true dir readdir ⟨rows, perms⟩ = some s) ↔
      ∀ e ∈ readdir.filter listed,
        (((readdir.filter listed).filter fun d => FirstWith (readdir.filter listed) d e).map
          fun d => (inoPrefix d).length).sum + (lLine perms₀ e).length < 1024 := by
  have hrows := hl.names.nodup_iff.mpr hnd
  have hpass := fun s => @mylsMinusIOption_some dir readdir ⟨rows, perms⟩ s hrows hl.sorted
    (hl.length_lt hlt)
  have hlen : ∀ e ∈ readdir.filter listed, ∀ r ∈ rows, r.name = e.name →
      (labels (rows.map Row.name) (readdir.filter listed) r.name ++ r.line).length =
        (((readdir.filter listed).filter fun d => FirstWith (readdir.filter listed) d e).map
          fun d => (inoPrefix d).length).sum + (lLine perms₀ e).length := by
    intro e he r hr hname
    rw [List.length_append, length_labels, hl.length he hr hname, hname]
    simp only [hit_iff_firstWith hl he]
  simp only [hpass]
  constructor
  · rintro ⟨s, ⟨-, hroom⟩, -⟩ e he
    obtain ⟨r, hr, hname⟩ := hl.row he
    rw [← hlen e he r hr hname]
    exact hroom r hr
  · intro h
    refine ⟨_, ⟨hpath, fun r hr => ?_⟩, rfl⟩
    obtain ⟨e, he, hname⟩ := hl.entry hr
    rw [hlen e he r hr hname.symm]
    exact h e he

/-- `-l` and `-i`, at least one of them. -/
theorem fillLong_isSome {f : Flags} {b : Mode} {dir : Str} {readdir : List Dirent}
    (hnd : ((readdir.filter listed).map Dirent.name).Nodup) (hli : f.l = true ∨ f.i = true) :
    (∃ s, (onOption f.l (mylsMinusLOption dir readdir) ⟨[], shown b⟩).bind
      (onOption f.i (mylsMinusIOption f.l dir readdir)) = some s) ↔
    Room f dir readdir := by
  unfold onOption
  cases hl : f.l with
  | true =>
    have hlong := long_pass (b := b) hnd
    simp only [if_true, Option.bind_eq_some_iff, mylsMinusLOption_some]
    generalize pass ByName 0 (lBuilt b (readdir.filter listed)) = rows at hlong
    cases hi : f.i with
    | true =>
      constructor
      · rintro ⟨s, _, ⟨hfits, rfl⟩, hs⟩
        have hboth := (mylsMinusIOption_long hnd hlong hfits.path hfits.line).mp ⟨s, hs⟩
        exact ⟨hfits.path, hfits.count, fun _ => hfits.line, fun _ _ => hboth, by simp [hl]⟩
      · intro h
        obtain ⟨s, hs⟩ := (mylsMinusIOption_long hnd hlong h.path (h.long hl)).mpr (h.both hl hi)
        exact ⟨s, _, ⟨⟨h.path, h.count, h.long hl⟩, rfl⟩, hs⟩
    | false =>
      constructor
      · rintro ⟨s, _, ⟨hfits, -⟩, -⟩
        exact ⟨hfits.path, hfits.count, fun _ => hfits.line, by simp [hi], by simp [hl]⟩
      · exact fun h => ⟨_, _, ⟨⟨h.path, h.count, h.long hl⟩, rfl⟩, rfl⟩
  | false =>
    have hi : f.i = true := by simpa [hl] using hli
    simp only [hi, if_true, Bool.false_eq_true, if_false, Option.bind_some,
      mylsMinusIOption_isSome]
    constructor
    · rintro ⟨h1, h2, h3⟩
      exact ⟨h1, h2, by simp [hl], by simp [hl], fun _ _ => h3⟩
    · exact fun h => ⟨h.path, h.count, h.ino hl hi⟩

/-! ### No option -/

/-- The names are stored, if there is room. -/
theorem nameLoop_eq : ∀ (ds : List Dirent) (arr : List Str), arr.length ≤ 1024 →
    ds.foldlM (fun arr d => if arr.length < 1024 then some (arr ++ [d.name]) else none) arr =
      if arr.length + ds.length ≤ 1024 then some (arr ++ ds.map Dirent.name) else none
  | [], arr, h => by simp [h]
  | d :: ds, arr, h => by
    rw [List.foldlM_cons, List.length_cons, List.map_cons]
    by_cases hlt : arr.length < 1024
    · rw [if_pos hlt, Option.bind_eq_bind, Option.bind_some, nameLoop_eq ds _ (by simp; omega),
        List.append_assoc, List.singleton_append, List.length_append, List.length_singleton,
        Nat.add_right_comm, ← Nat.add_assoc]
    · rw [if_neg hlt, if_neg (by omega)]
      rfl

theorem myls_eq (dir : Str) (readdir : List Dirent) : myls dir readdir =
    if (∀ d ∈ readdir, pathFits dir d = true) ∧ (readdir.filter listed).length ≤ 1024 then
      some (exchangeSort 0 ((readdir.filter listed).map Dirent.name))
    else none := by
  have hset : ∀ arr d, storeName arr d =
      if listed d then if arr.length < 1024 then some (arr ++ [d.name]) else none else some arr :=
    fun _ _ => rfl
  rw [myls, foldlM_listed hset, nameLoop_eq _ [] (Nat.zero_le _), List.length_nil, Nat.zero_add,
    List.nil_append, ← ite_and]
  split <;> rfl

end Myls
end LinuxProg
