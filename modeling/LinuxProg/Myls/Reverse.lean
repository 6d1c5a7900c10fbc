/-
# The reversed listing

The turn of `main` of `myls.c` for one directory: the passes for the options of
`argv[1]` one after the other, each told by `check_for_option` whether another
one has filled the arrays. The pass for `-r` only reverses the lines, which are
copies, in the order the passes before it left; after none it fills the arrays
itself, in the order of `readdir`. Plain `myls` sorts the names in the buffer
and prints what its pointers show at the end.

So with some of `-l`, `-i`, `-t` the listing with `-r` is the reverse of the one
without wherever that one is printed, and with none of them, the names being
kept, only if the directory is read in the order of the names (`reverses_iff`).
The names are kept if they all come from the last `getdents64` and fit where
the sorts move them (`CopiesFit`).
-/
import Mathlib
import LinuxProg.Myls.Labels

namespace LinuxProg
namespace Myls

open Buffers CStrings Exchange

/-- An entry as the sorts by time see it. -/
def Dirent.stamp (d : Dirent) : Row := ⟨d.name, [], Int.bmod d.mtime (2 ^ 32)⟩

/-- The entries in the order in which `-t` finds them. -/
def Flags.stamps (f : Flags) (es : List Dirent) : List Row :=
  if f.l || f.i then pass ByName 0 (es.map Dirent.stamp) else es.map Dirent.stamp

namespace Pointers

/-- The passes for `-l`, `-i` and `-t`, as `main` calls them. -/
def fill (stop : ℕ → ℕ) (f : Flags) (dir : Str) (st : Stream) (s : Tables) : Option Tables := do
  let s ← onOption f.l (mylsMinusLOption stop dir st) s
  let s ← onOption f.i (mylsMinusIOption stop f.l dir st) s
  onOption f.t (mylsMinusTOption stop (f.l || f.i) dir st) s

/-- All the passes. -/
def passes (f : Flags) (dir : Str) (st : Stream) (s : Tables) : Option Tables := do
  let s ← fill st.whole f dir st s
  onOption f.r (mylsMinusROption (f.l || f.i || f.t) dir st) s

/-- The lines printed for a directory with options. -/
def listing (f : Flags) (dir : Str) (st : Stream) (perms : Str) : Option (List Str) :=
  (passes f dir st (empty perms)).map fun s => s.cells.map Cell.line

/-- The loop of `main` with options, for one directory. -/
def mainListing (argv1 dir : Str) (st : Stream) (perms : Str) : Option (List Str) :=
  listing (flagsOf argv1) dir st perms

/-- The lines printed for a directory without options. -/
def plain (dir : Str) (st : Stream) : Option (List Str) :=
  (myls st.whole dir st).map fun s => s.1.map fun p => str nul s.2 p ++ ['\n']

/-- The listing with `-r` is the reverse of the one without, both being
printed; `perm` has written the letters of `b` before. -/
def Reverses (f : Flags) (b : Mode) (dir : Str) (st : Stream) : Prop :=
  ∃ out, (if f.l || f.i || f.t then mainListing { f with r := false }.argv1 dir st (shown b)
      else plain dir st) = some out ∧
    mainListing { f with r := true }.argv1 dir st (shown b) = some out.reverse

/-- The passes without `-r` keep the names in the buffer, each copy in its room. -/
def Kept (f : Flags) (b : Mode) (dir : Str) (st : Stream) : Prop :=
  st.NamesLast ∧
    if f.l || f.i || f.t then ∃ s, fill st.within f dir st (empty (shown b)) = some s
    else ∃ s, myls st.within dir st = some s

/-- Both sorts of `-t`. -/
def sortTimesWithin (R : Rooms) (rows : List Row) : Option (List Row) :=
  (passWithin ByTime (FitsIn R) rows).bind (passWithin ByNameAtTime (FitsIn R))

/-- The names come from the last `getdents64` and fit where they are moved: by
the sort by name, which all make but `-t` alone, and by the sorts of `-t`. -/
structure CopiesFit (f : Flags) (st : Stream) : Prop where
  last : st.NamesLast
  name : (f.l || f.i || !f.t) = true → st.TurnsFit
  time : f.t = true →
    ∃ rows, sortTimesWithin (rooms st.last st.rest) (f.stamps (st.entries.filter listed)) =
      some rows

theorem mainListing_argv1 (f : Flags) : mainListing f.argv1 = listing f := by
  funext dir st perms
  rw [mainListing, flagsOf_argv1]

/-! ### The pass for `-r` -/

theorem map_line_zipWith : ∀ {cells : List Cell} {arrL : List Str}, cells.length = arrL.length →
    (List.zipWith (fun c l => { c with line := l }) cells arrL).map Cell.line = arrL
  | [], [], _ => rfl
  | _ :: cells, l :: arrL, h => by
    rw [List.zipWith_cons_cons, List.map_cons, @map_line_zipWith cells arrL (by simpa using h)]

/-- The loop at the end of the pass reverses the lines. -/
theorem map_line_mylsMinusROption (check : Bool) (dir : Str) (st : Stream) (s : Tables) :
    (mylsMinusROption check dir st s).map (fun s => s.cells.map Cell.line) =
      (readdirLoop check dir (setMinusROption check) st s).map fun s =>
        (s.cells.map Cell.line).reverse := by
  have hloop : ∀ arrL : List Str, reverseLoop arrL = arrL.reverse := foldl_swap_eq_reverse
  unfold mylsMinusROption
  cases readdirLoop check dir (setMinusROption check) st s with
  | none => rfl
  | some s =>
    rw [Option.bind_eq_bind, Option.bind_some, Option.map_some, Option.map_some, map_line_zipWith,
      hloop]
    rw [hloop, List.length_reverse, List.length_map]

/-- After other passes it only forms the paths. -/
theorem readdirLoop_setName_true (dir : Str) (st : Stream) (s : Tables) :
    readdirLoop true dir (setName true) st s =
      if ∀ d ∈ st.entries, pathFits dir d = true then some s else none := by
  rw [readdirLoop_true setName_any]
  refine foldlM_skip (fun s d => ?_) st.entries s
  unfold setName
  split <;> rfl

/-- A pass that has read the directory has formed the paths. -/
theorem paths_of_readdirLoop {check : Bool} {dir : Str}
    {set : Tables → ℕ → Dirent → Option Tables} {st : Stream} {s s' : Tables}
    (h : readdirLoop check dir set st s = some s') : ∀ d ∈ st.entries, pathFits dir d = true := by
  have hfill : ∀ s rs s', readFill check dir set s rs = some s' →
      ∀ r ∈ rs, pathFits dir r.entry = true := by
    intro s rs s' hs
    obtain ⟨t, ht, -⟩ := Option.map_eq_some_iff.mp hs
    refine foldlM_forall (fun p r p' hp => ?_) ht
    unfold readRecord at hp
    split at hp
    · assumption
    · cases hp
  have hall := foldlM_forall hfill h
  intro d hd
  obtain ⟨r, hr, rfl⟩ := List.mem_map.mp hd
  rcases List.mem_append.mp hr with hr | hr
  · obtain ⟨rs, hrs, hr⟩ := List.mem_flatten.mp hr
    exact hall rs (List.mem_append_left _ hrs) r hr
  · exact hall st.last (List.mem_append_right _ (List.mem_singleton_self _)) r hr

theorem paths_of_fill {stop : ℕ → ℕ} {f : Flags} {dir : Str} {st : Stream} {s s' : Tables}
    (hf : (f.l || f.i || f.t) = true) (h : fill stop f dir st s = some s') :
    ∀ d ∈ st.entries, pathFits dir d = true := by
  obtain ⟨s₁, h₁, h⟩ := Option.bind_eq_some_iff.mp h
  obtain ⟨s₂, h₂, h₃⟩ := Option.bind_eq_some_iff.mp h
  unfold onOption at h₁ h₂ h₃
  cases hl : f.l with
  | true =>
    rw [if_pos hl] at h₁
    obtain ⟨_, hread, -⟩ := Option.bind_eq_some_iff.mp h₁
    exact paths_of_readdirLoop hread
  | false =>
    cases hi : f.i with
    | true =>
      rw [if_pos hi] at h₂
      obtain ⟨_, hread, -⟩ := Option.bind_eq_some_iff.mp h₂
      exact paths_of_readdirLoop hread
    | false =>
      have ht : f.t = true := by simpa [hl, hi] using hf
      rw [if_pos ht] at h₃
      obtain ⟨_, hread, -⟩ := Option.bind_eq_some_iff.mp h₃
      exact paths_of_readdirLoop hread

/-- **With an option** the lines are reversed wherever they are printed. -/
theorem reverses_some_iff {f : Flags} {b : Mode} {dir : Str} {st : Stream}
    (hf : (f.l || f.i || f.t) = true) :
    Reverses f b dir st ↔ ∃ s, fill st.whole f dir st (empty (shown b)) = some s := by
  have hfill : ∀ r, fill st.whole { f with r } dir st (empty (shown b)) =
      fill st.whole f dir st (empty (shown b)) := fun _ => rfl
  rw [Reverses, if_pos hf]
  simp only [mainListing_argv1, listing, passes, hfill, hf]
  constructor
  · rintro ⟨out, hout, -⟩
    obtain ⟨t, ht, -⟩ := Option.map_eq_some_iff.mp hout
    obtain ⟨s, hs, -⟩ := Option.bind_eq_some_iff.mp ht
    exact ⟨s, hs⟩
  · rintro ⟨s, hs⟩
    have hread := readdirLoop_setName_true dir st s
    rw [if_pos (paths_of_fill hf hs)] at hread
    have hrev := map_line_mylsMinusROption true dir st s
    rw [setMinusROption, hread, Option.map_some] at hrev
    refine ⟨s.cells.map Cell.line, ?_, ?_⟩
    · rw [hs]
      rfl
    · rw [hs]
      exact hrev

/-! ### No other option -/

/-- `arr` and the buffer after the directory is read. -/
theorem readNames_eq (dir : Str) : ∀ (fills : List (List Record)) (mem : List Char) (arr : List ℕ),
    arr.length ≤ 1024 → fills.foldlM (readNames dir) (mem, arr) =
      if (∀ r ∈ fills.flatten, pathFits dir r.entry = true) ∧
          arr.length + (names fills.flatten).length ≤ 1024 then
        some (fills.foldl (fun mem rs => readInto mem (rs.flatMap Record.bytes)) mem,
          arr ++ fills.flatMap (slots 0))
      else none
  | [], mem, arr, h => by simp [names, h]
  | rs :: fills, mem, arr, h => by
    have hnames : (names (rs ++ fills.flatten)).length =
        (names rs).length + (names fills.flatten).length := by
      unfold names
      rw [List.filter_append, List.map_append, List.length_append]
    have hall : ((∀ r ∈ (rs :: fills).flatten, pathFits dir r.entry = true) ∧
          arr.length + (names (rs :: fills).flatten).length ≤ 1024) ↔
        ((∀ r ∈ rs, pathFits dir r.entry = true) ∧
          ∀ r ∈ fills.flatten, pathFits dir r.entry = true) ∧
          arr.length + ((names rs).length + (names fills.flatten).length) ≤ 1024 := by
      rw [List.flatten_cons, hnames, List.forall_mem_append]
    rw [List.foldlM_cons, if_congr hall rfl rfl, List.foldl_cons, List.flatMap_cons]
    unfold readNames
    rw [readLoop_fold dir rs 0 arr h]
    by_cases hread : (∀ r ∈ rs, pathFits dir r.entry = true) ∧ arr.length + (names rs).length ≤ 1024
    · have hlen : (arr ++ slots 0 rs).length = arr.length + (names rs).length := by
        rw [List.length_append, length_slots]
      have ih := readNames_eq dir fills (readInto mem (rs.flatMap Record.bytes)) (arr ++ slots 0 rs)
        (hlen ▸ hread.2)
      unfold readNames at ih
      rw [if_pos hread, Option.map_some, Option.bind_eq_bind, Option.bind_some, ih, hlen,
        List.append_assoc, Nat.add_assoc]
      refine if_congr ?_ rfl rfl
      rw [and_iff_right hread.1]
    · rw [if_neg hread, if_neg]
      · rfl
      · rintro ⟨⟨hpath, -⟩, hcount⟩
        exact hread ⟨hpath, by omega⟩

section Plain

variable {dir : Str} {st : Stream} (hlast : st.NamesLast)
include hlast

theorem myls_eq (stop : ℕ → ℕ) : myls stop dir st =
    if (∀ d ∈ st.entries, pathFits dir d = true) ∧ (st.entries.filter listed).length ≤ 1024 then
      (sortLoop stop (rooms st.last st.rest).slots (buffer st.last st.rest)).map fun mem =>
        ((rooms st.last st.rest).slots, mem)
    else none := by
  have hread := readNames_eq dir (st.earlier ++ [st.last]) st.before [] (Nat.zero_le _)
  have hcount : (names (st.earlier ++ [st.last]).flatten).length =
      (st.entries.filter listed).length := by
    rw [length_names, List.flatten_append, List.flatten_singleton]
    rfl
  have hroom : ((∀ r ∈ (st.earlier ++ [st.last]).flatten, pathFits dir r.entry = true) ∧
        ([] : List ℕ).length + (names (st.earlier ++ [st.last]).flatten).length ≤ 1024) ↔
      (∀ d ∈ st.entries, pathFits dir d = true) ∧ (st.entries.filter listed).length ≤ 1024 := by
    rw [hcount, Stream.entries, List.forall_mem_map, List.flatten_append, List.flatten_singleton,
      List.length_nil, Nat.zero_add]
  rw [if_congr hroom rfl rfl, List.nil_append, List.foldl_append, List.flatMap_append, hlast.slots,
    List.nil_append] at hread
  unfold myls
  rw [hread]
  split
  · rw [Option.bind_eq_bind, Option.bind_some, Option.map_eq_bind]
    simp [buffer, Stream.rest, readInto, rooms]
  · rfl

variable (hnd : ((st.entries.filter listed).map Dirent.name).Nodup)
include hnd

/-- Plain `myls` keeps the copies in their rooms if the names fit. -/
theorem myls_within_iff : (∃ s, myls st.within dir st = some s) ↔
    st.TurnsFit ∧ (∀ d ∈ st.entries, pathFits dir d = true) ∧
      (st.entries.filter listed).length ≤ 1024 := by
  obtain ⟨hfits, hover⟩ := sortLoop_spec (shows_buffer st.last st.rest) (hlast.names ▸ hnd)
    (length_slots st.last 0).symm (names_short st.last)
  rw [myls_eq hlast]
  constructor
  · rintro ⟨s, hs⟩
    split at hs
    · rename_i hread
      obtain ⟨mem, hmem, -⟩ := Option.map_eq_some_iff.mp hs
      refine ⟨by_contra fun hturn => ?_, hread⟩
      exact Option.some_ne_none _ (hmem.symm.trans (hover hturn))
    · cases hs
  · rintro ⟨hturn, hread⟩
    obtain ⟨mem, hmem, -⟩ := hfits hturn st.within fun _ => le_rfl
    exact ⟨_, by rw [if_pos hread, hmem]; rfl⟩

/-- The names are printed in order then. -/
theorem plain_some (hturn : st.TurnsFit) {out : List Str} : plain dir st = some out ↔
    ((∀ d ∈ st.entries, pathFits dir d = true) ∧ (st.entries.filter listed).length ≤ 1024) ∧
      (inOrder ((st.entries.filter listed).map Dirent.name)).map (· ++ ['\n']) = out := by
  obtain ⟨mem, hmem, hstr⟩ := (sortLoop_spec (shows_buffer st.last st.rest) (hlast.names ▸ hnd)
    (length_slots st.last 0).symm (names_short st.last)).1 hturn st.whole st.limit_le_whole
  have hlines : ((rooms st.last st.rest).slots.map fun p => str nul mem p ++ ['\n']) =
      (inOrder ((st.entries.filter listed).map Dirent.name)).map (· ++ ['\n']) := by
    rw [hlast.names, ← hstr, List.map_map]
    rfl
  rw [plain, myls_eq hlast, hmem, Option.map_some, Option.map_eq_some_iff]
  simp only [Option.ite_none_right_eq_some, Option.some.injEq]
  constructor
  · rintro ⟨_, ⟨h, rfl⟩, rfl⟩
    exact ⟨h, hlines.symm⟩
  · rintro ⟨h, rfl⟩
    exact ⟨_, ⟨h, rfl⟩, hlines⟩

end Plain

theorem map_line_tables (t : Listing) (mem : List Char) (arr : List ℕ) :
    (t.tables mem arr).cells.map Cell.line = t.rows.map Row.line :=
  List.map_map

/-- With `-r` alone the names are read, and reversed. -/
theorem listing_r_some {f : Flags} {dir : Str} {st : Stream} {perms : Str} {out : List Str}
    (hf : ¬ (f.l || f.i || f.t) = true) :
    listing { f with r := true } dir st perms = some out ↔
      ((∀ d ∈ st.entries, pathFits dir d = true) ∧ (st.entries.filter listed).length ≤ 1024) ∧
      (((st.entries.filter listed).map Dirent.name).map (· ++ ['\n'])).reverse = out := by
  obtain ⟨⟨hl, hi⟩, ht⟩ : (f.l = false ∧ f.i = false) ∧ f.t = false := by simpa using hf
  have hread := @readdirLoop_eq dir (setName false) _ keepPerms (fun _ d => d.name ++ ['\n'])
    setName_false Myls.setName_eq st (empty perms) rfl rfl
  have hpass : listing { f with r := true } dir st perms =
      (mylsMinusROption false dir st (empty perms)).map fun s => s.cells.map Cell.line := by
    simp [listing, passes, fill, onOption, hl, hi, ht]
  rw [hpass, map_line_mylsMinusROption, setMinusROption, hread, Option.map_map]
  simp only [Option.map_eq_some_iff, setName_some, Function.comp_apply, map_line_tables]
  have hlines : ((st.entries.filter listed).map fun d =>
      (⟨d.name, d.name ++ ['\n'], Int.bmod d.mtime (2 ^ 32)⟩ : Row)).map Row.line =
      ((st.entries.filter listed).map Dirent.name).map (· ++ ['\n']) := by
    rw [List.map_map, List.map_map]
    rfl
  constructor
  · rintro ⟨_, ⟨h, rfl⟩, rfl⟩
    exact ⟨h, (congrArg List.reverse hlines).symm⟩
  · rintro ⟨h, rfl⟩
    exact ⟨_, ⟨h, rfl⟩, congrArg List.reverse hlines⟩

/-- Names read in order stay where they are, -/
theorem turnsFit_of_sorted {st : Stream} (h : (names st.last).Pairwise (· ≤ ·)) : st.TurnsFit := by
  intro i x hx
  have hshows := shows_buffer st.last st.rest
  have hi := (List.getElem?_eq_some_iff.mp hx).1
  have hpre : (names st.last).take i ++ [x] = (names st.last).take (i + 1) := by
    obtain ⟨_, rfl⟩ := List.getElem?_eq_some_iff.mp hx
    exact List.take_concat_get' _ i hi
  have hsorted : ((names st.last).take i ++ [x]).Pairwise (· ≤ ·) :=
    hpre ▸ h.sublist (List.take_sublist _ _)
  constructor
  · intro y hy hlt
    exact absurd ((List.pairwise_append.mp hsorted).2.2 y hy x (List.mem_singleton_self x))
      (not_le.mpr hlt)
  · intro k s hs
    rw [← inOrder_unique (List.Perm.refl _) hsorted, hpre, List.getElem?_take] at hs
    split at hs
    · exact hshows.fits k s hs
    · cases hs

/-- so without `-t` there is nothing to fit. -/
theorem copiesFit_of_sorted {f : Flags} {st : Stream} (ht : f.t = false) (hlast : st.NamesLast)
    (h : ((st.entries.filter listed).map Dirent.name).Pairwise (· ≤ ·)) : CopiesFit f st where
  last := hlast
  name _ := turnsFit_of_sorted (hlast.names ▸ h)
  time hft := absurd hft (by simp [ht])

/-- **Without another option** the listing with `-r` is the reverse of the plain
one if the names are read in order. -/
theorem reverses_none_iff {f : Flags} {b : Mode} {dir : Str} {st : Stream}
    (hf : ¬ (f.l || f.i || f.t) = true) (hlast : st.NamesLast) (hturn : st.TurnsFit)
    (hnd : ((st.entries.filter listed).map Dirent.name).Nodup) :
    Reverses f b dir st ↔
      ((∀ d ∈ st.entries, pathFits dir d = true) ∧ (st.entries.filter listed).length ≤ 1024) ∧
      ((st.entries.filter listed).map Dirent.name).Pairwise (· ≤ ·) := by
  have hinj : Function.Injective fun name : Str => name ++ ['\n'] := fun _ _ h =>
    List.append_cancel_right h
  rw [Reverses, if_neg hf]
  simp only [mainListing_argv1, listing_r_some hf, plain_some hlast hnd hturn]
  constructor
  · rintro ⟨_, ⟨h, rfl⟩, -, hrev⟩
    have heq := hinj.list_map (List.reverse_injective hrev)
    exact ⟨h, heq ▸ inOrder_sorted _⟩
  · rintro ⟨h, hsorted⟩
    refine ⟨_, ⟨h, rfl⟩, h, ?_⟩
    rw [← inOrder_unique (List.Perm.refl _) hsorted]

/-! ### The passes without `-r`, in the rooms -/

/-- The passes on separate strings, no sort copying a name into a room too small
for it. -/
def fillWithin (R : Rooms) (f : Flags) (dir : Str) (readdir : List Dirent) (s : Listing) :
    Option Listing := do
  let s ← onOption f.l (mylsMinusLWithin R dir readdir) s
  let s ← onOption f.i (mylsMinusIWithin R f.l dir readdir) s
  onOption f.t (mylsMinusTWithin R (f.l || f.i) dir readdir) s

theorem onOption_follows {R : Rooms} {exact : Prop} {given check : Bool}
    {pass : Tables → Option Tables} {pass' : Listing → Option Listing}
    (hpass : ∀ s t, Before R check s t → Follows (Holds R) exact (pass s) (pass' t))
    {s : Tables} {t : Listing} (h : Before R check s t) :
    Follows (Before R (check || given)) exact (onOption given pass s) (onOption given pass' t) := by
  cases given with
  | false =>
    rw [Bool.or_false]
    exact Follows.of_some h
  | true =>
    rw [Bool.or_true]
    exact hpass s t h

/-- **All passes but `-r`** do in the buffer what they do on separate strings. -/
theorem fill_follows {stop : ℕ → ℕ} {f : Flags} {dir : Str} {st : Stream}
    (hstop : ∀ k, st.within k ≤ stop k) (hlast : st.NamesLast) (perms : Str) :
    Follows (Before (rooms st.last st.rest) (f.l || f.i || f.t)) (stop = st.within)
      (fill stop f dir st (empty perms))
      (fillWithin (rooms st.last st.rest) f dir st.entries ⟨[], perms⟩) :=
  (onOption_follows (fun _ _ h => mylsMinusLOption_follows hstop hlast h)
    (before_empty _ perms)).bind fun _ _ h =>
  (onOption_follows (fun _ _ h => mylsMinusIOption_follows hstop hlast h) h).bind fun _ _ h =>
  onOption_follows (fun _ _ h => mylsMinusTOption_follows hstop hlast h) h

/-! ### What the sorts of `-t` see -/

theorem sortTimesWithin_bare (R : Rooms) (t : Listing) :
    ((sortWithin R ByTime t).bind (sortWithin R ByNameAtTime)).map (fun t => t.rows.map Row.bare) =
      sortTimesWithin R (t.rows.map Row.bare) := by
  have htime : (passWithin ByTime (FitsIn R) t.rows).map (List.map Row.bare) =
      passWithin ByTime (FitsIn R) (t.rows.map Row.bare) := by
    refine passWithin_map ?_ ?_ t.rows
    · exact fun _ _ => Iff.rfl
    · exact fun _ _ => Iff.rfl
  have hname : ∀ rows : List Row,
      (passWithin ByNameAtTime (FitsIn R) rows).map (List.map Row.bare) =
        passWithin ByNameAtTime (FitsIn R) (rows.map Row.bare) := by
    refine passWithin_map ?_ ?_
    · exact fun _ _ => Iff.rfl
    · exact fun _ _ => Iff.rfl
  unfold sortTimesWithin sortWithin
  rw [← htime]
  cases passWithin ByTime (FitsIn R) t.rows with
  | none => rfl
  | some rows =>
    simp only [Option.map_some, Option.bind_some, ← hname, Option.map_map]
    rfl

theorem sortTimes_iff {R : Rooms} {t : Listing} :
    (∃ t', (sortWithin R ByTime t).bind (sortWithin R ByNameAtTime) = some t') ↔
      ∃ rows, sortTimesWithin R (t.rows.map Row.bare) = some rows := by
  rw [← sortTimesWithin_bare]
  constructor
  · rintro ⟨t', ht'⟩
    exact ⟨_, congrArg _ ht'⟩
  · rintro ⟨rows, hrows⟩
    obtain ⟨t', ht', -⟩ := Option.map_eq_some_iff.mp hrows
    exact ⟨t', ht'⟩

theorem built_bare (np ln : Str → Dirent → Str) : ∀ (ds : List Dirent) (perms : Str),
    (built np ln perms ds).map Row.bare = ds.map Dirent.stamp
  | [], _ => rfl
  | d :: ds, perms => by
    rw [built, List.map_cons, List.map_cons, built_bare np ln ds]
    rfl

/-- Different names are sorted in one way. -/
theorem pass_byName_bare {rows : List Row} (hnd : (rows.map Row.name).Nodup) :
    (pass ByName 0 rows).map Row.bare = pass ByName 0 (rows.map Row.bare) := by
  have hnames : (rows.map Row.bare).map Row.name = rows.map Row.name := by
    rw [List.map_map]
    rfl
  have hperm : ((pass ByName 0 rows).map Row.bare).Perm (rows.map Row.bare) :=
    (pass_perm ByName rows).map Row.bare
  refine sorted_unique (hperm.trans (pass_perm ByName _).symm)
    (List.pairwise_map.mpr (pass_byName_sorted rows)) (pass_byName_sorted _) fun x hx y hy => ?_
  exact List.inj_on_of_nodup_map (hnames ▸ hnd) (hperm.mem_iff.mp hx) (hperm.mem_iff.mp hy)

/-- `-t` after another option. -/
theorem mylsMinusTWithin_true {R : Rooms} {dir : Str} {readdir : List Dirent} {t : Listing} :
    (∃ t', mylsMinusTWithin R true dir readdir t = some t') ↔
      (∀ d ∈ readdir, pathFits dir d = true) ∧
        ∃ rows, sortTimesWithin R (t.rows.map Row.bare) = some rows := by
  unfold mylsMinusTWithin Myls.setMinusTOption
  rw [setName_skip, ← sortTimes_iff]
  split
  · rename_i hpath
    rw [Option.bind_some, and_iff_right hpath]
  · rename_i hpath
    constructor
    · rintro ⟨_, h⟩
      cases h
    · exact fun h => absurd h.1 hpath

/-- `-t` alone. -/
theorem mylsMinusTWithin_false {R : Rooms} {dir : Str} {readdir : List Dirent} {perms : Str} :
    (∃ t', mylsMinusTWithin R false dir readdir ⟨[], perms⟩ = some t') ↔
      ((∀ d ∈ readdir, pathFits dir d = true) ∧ (readdir.filter listed).length ≤ 1024) ∧
        ∃ rows, sortTimesWithin R ((readdir.filter listed).map Dirent.stamp) = some rows := by
  have hbare : ∀ t, Myls.readdirLoop dir (Myls.setName false) readdir ⟨[], perms⟩ = some t →
      t.rows.map Row.bare = (readdir.filter listed).map Dirent.stamp := by
    intro t ht
    obtain ⟨-, rfl⟩ := setName_some.mp ht
    rw [List.map_map]
    rfl
  have hread : (∃ t, Myls.readdirLoop dir (Myls.setName false) readdir ⟨[], perms⟩ = some t) ↔
      (∀ d ∈ readdir, pathFits dir d = true) ∧ (readdir.filter listed).length ≤ 1024 := by
    constructor
    · rintro ⟨t, ht⟩
      exact (setName_some.mp ht).1
    · exact fun h => ⟨_, setName_some.mpr ⟨h, rfl⟩⟩
  unfold mylsMinusTWithin Myls.setMinusTOption
  rw [← hread]
  constructor
  · rintro ⟨t', h⟩
    obtain ⟨t, ht, hsort⟩ := Option.bind_eq_some_iff.mp h
    exact ⟨⟨t, ht⟩, hbare t ht ▸ sortTimes_iff.mp ⟨t', hsort⟩⟩
  · rintro ⟨⟨t, ht⟩, hsort⟩
    obtain ⟨t', h⟩ := sortTimes_iff.mpr (hbare t ht ▸ hsort)
    exact ⟨t', by rw [ht]; exact h⟩

/-! ### What fits -/

section Fitting

variable {f : Flags} {b : Mode} {dir : Str} {st : Stream} (hlast : st.NamesLast)
  (hnd : ((st.entries.filter listed).map Dirent.name).Nodup)

include hlast hnd in
/-- `-l` and `-i`, at least one of them: the names are to fit where the one sort
that exchanges any moves them. -/
theorem fillLong_within (hli : f.l = true ∨ f.i = true) {t : Listing} :
    (onOption f.l (mylsMinusLWithin (rooms st.last st.rest) dir st.entries) ⟨[], shown b⟩).bind
        (onOption f.i (mylsMinusIWithin (rooms st.last st.rest) f.l dir st.entries)) = some t ↔
      st.TurnsFit ∧ (onOption f.l (Myls.mylsMinusLOption dir st.entries) ⟨[], shown b⟩).bind
        (onOption f.i (Myls.mylsMinusIOption f.l dir st.entries)) = some t := by
  unfold onOption
  cases hl : f.l with
  | true =>
    have hlong := long_pass (b := b) hnd
    simp only [if_true, Option.bind_eq_some_iff, mylsMinusLWithin_some hnd hlast,
      mylsMinusLOption_some]
    cases f.i with
    | true =>
      have hi := @mylsMinusIWithin_true dir (rooms st.last st.rest) st.entries
        ⟨pass ByName 0 (lBuilt b (st.entries.filter listed)),
          (st.entries.filter listed).foldl permOf (shown b)⟩ hlong.sorted
        (hlong.names.nodup_iff.mpr hnd)
      simp only [if_true]
      constructor
      · rintro ⟨_, ⟨hturn, hfits, rfl⟩, h⟩
        exact ⟨hturn, _, ⟨hfits, rfl⟩, hi.symm.trans h⟩
      · rintro ⟨hturn, _, ⟨hfits, rfl⟩, h⟩
        exact ⟨_, ⟨hturn, hfits, rfl⟩, hi.trans h⟩
    | false =>
      constructor
      · rintro ⟨t, ⟨hturn, h⟩, ht⟩
        exact ⟨hturn, t, h, ht⟩
      · rintro ⟨hturn, t, h, ht⟩
        exact ⟨t, ⟨hturn, h⟩, ht⟩
  | false =>
    have hi : f.i = true := by simpa [hl] using hli
    simp only [hi, if_true, Bool.false_eq_true, if_false, Option.bind_some]
    exact @readSort_some dir st (Myls.setMinusIOption false) keepPerms
      (fun _ d => inoPrefix d ++ d.name ++ ['\n']) Myls.setMinusIOption_eq hlast hnd (shown b) t

include hnd in
/-- The sorts of `-t` find the entries in the order of the names then. -/
theorem fillLong_bare (hli : f.l = true ∨ f.i = true) {t : Listing}
    (h : (onOption f.l (Myls.mylsMinusLOption dir st.entries) ⟨[], shown b⟩).bind
      (onOption f.i (Myls.mylsMinusIOption f.l dir st.entries)) = some t) :
    t.rows.map Row.bare = f.stamps (st.entries.filter listed) := by
  have hsorted : ∀ (np ln : Str → Dirent → Str) (perms : Str),
      (pass ByName 0 (built np ln perms (st.entries.filter listed))).map Row.bare =
        pass ByName 0 ((st.entries.filter listed).map Dirent.stamp) := by
    intro np ln perms
    rw [pass_byName_bare (by rwa [built_names]), built_bare]
  have hli' : (f.l || f.i) = true := by simpa using hli
  rw [Flags.stamps, if_pos hli']
  unfold onOption at h
  cases hl : f.l with
  | true =>
    have hlong := long_pass (b := b) hnd
    rw [hl] at h
    simp only [if_true, Option.bind_eq_some_iff, mylsMinusLOption_some] at h
    obtain ⟨_, ⟨hfits, rfl⟩, h⟩ := h
    rw [← hsorted permOf lLine (shown b)]
    split at h
    · obtain ⟨-, rfl⟩ := (mylsMinusIOption_some (hlong.names.nodup_iff.mpr hnd) hlong.sorted
        (hlong.length_lt hfits.line)).mp h
      rw [List.map_map]
      rfl
    · cases h
      rfl
  | false =>
    have hi : f.i = true := by simpa [hl] using hli
    rw [hl, hi] at h
    simp only [if_true, Bool.false_eq_true, if_false, Option.bind_some, Myls.mylsMinusIOption,
      Option.map_eq_some_iff] at h
    obtain ⟨s, hread, rfl⟩ := h
    obtain ⟨-, rfl⟩ := (@readdirLoop_some dir (Myls.setMinusIOption false) keepPerms
      (fun _ d => inoPrefix d ++ d.name ++ ['\n']) Myls.setMinusIOption_eq st.entries (shown b)
      s).mp hread
    exact hsorted _ _ _

include hlast hnd in
/-- **With an option** the copies stay in their rooms and the arrays exactly if
there is room in both. -/
theorem fillWithin_iff (hf : (f.l || f.i || f.t) = true) :
    (∃ t, fillWithin (rooms st.last st.rest) f dir st.entries ⟨[], shown b⟩ = some t) ↔
      CopiesFit f st ∧ Room f dir st.entries := by
  by_cases hli : f.l = true ∨ f.i = true
  · have hli' : (f.l || f.i) = true := by simpa using hli
    have hwithin := fun t => @fillLong_within f b dir st hlast hnd hli t
    have hfill : fillWithin (rooms st.last st.rest) f dir st.entries ⟨[], shown b⟩ =
        ((onOption f.l (mylsMinusLWithin (rooms st.last st.rest) dir st.entries)
          ⟨[], shown b⟩).bind
          (onOption f.i (mylsMinusIWithin (rooms st.last st.rest) f.l dir st.entries))).bind
          (onOption f.t (mylsMinusTWithin (rooms st.last st.rest) (f.l || f.i) dir st.entries)) :=
      (Option.bind_assoc _ _ _).symm
    rw [hfill, hli', ← fillLong_isSome (b := b) hnd hli]
    constructor
    · rintro ⟨t', h⟩
      obtain ⟨t, hlong, htime⟩ := Option.bind_eq_some_iff.mp h
      obtain ⟨hturn, hsep⟩ := (hwithin t).mp hlong
      refine ⟨⟨hlast, fun _ => hturn, fun hft => ?_⟩, t, hsep⟩
      rw [onOption, if_pos hft] at htime
      rw [← fillLong_bare hnd hli hsep]
      exact (mylsMinusTWithin_true.mp ⟨t', htime⟩).2
    · rintro ⟨hc, t, hsep⟩
      have hlong := (hwithin t).mpr ⟨hc.name (by rw [hli', Bool.true_or]), hsep⟩
      have hroom := (fillLong_isSome hnd hli).mp ⟨t, hsep⟩
      rw [hlong, Option.bind_some, onOption]
      split
      · rename_i hft
        refine mylsMinusTWithin_true.mpr ⟨hroom.path, ?_⟩
        rw [fillLong_bare hnd hli hsep]
        exact hc.time hft
      · exact ⟨t, rfl⟩
  · obtain ⟨hl, hi⟩ := not_or.mp hli
    have ht : f.t = true := by simpa [hl, hi] using hf
    have hstamps : f.stamps (st.entries.filter listed) =
        (st.entries.filter listed).map Dirent.stamp := by
      simp [Flags.stamps, hl, hi]
    unfold fillWithin onOption
    simp only [hl, hi, ht, if_true, if_false, Bool.false_eq_true, Option.bind_eq_bind,
      Option.bind_some, Bool.or_self, mylsMinusTWithin_false]
    constructor
    · rintro ⟨⟨hpath, hcount⟩, hsort⟩
      exact ⟨⟨hlast, by simp [hl, hi, ht], fun _ => hstamps ▸ hsort⟩,
        hpath, hcount, by simp [hl], by simp [hl], by simp [hi]⟩
    · rintro ⟨hc, hroom⟩
      exact ⟨⟨hroom.path, hroom.count⟩, hstamps ▸ hc.time ht⟩

include hnd in
theorem kept_iff : Kept f b dir st ↔ CopiesFit f st ∧ Room f dir st.entries := by
  unfold Kept
  by_cases hf : (f.l || f.i || f.t) = true
  · have hfollows : st.NamesLast → Follows _ (st.within = st.within)
        (fill st.within f dir st (empty (shown b)))
        (fillWithin (rooms st.last st.rest) f dir st.entries ⟨[], shown b⟩) :=
      fun hlast => fill_follows (fun _ => le_rfl) hlast (shown b)
    rw [if_pos hf]
    constructor
    · rintro ⟨hlast, s, hs⟩
      obtain ⟨t, ht, -⟩ := (hfollows hlast).of_result rfl hs
      exact (fillWithin_iff hlast hnd hf).mp ⟨t, ht⟩
    · rintro ⟨hc, hroom⟩
      obtain ⟨t, ht⟩ := (fillWithin_iff (b := b) hc.last hnd hf).mpr ⟨hc, hroom⟩
      obtain ⟨s, hs, -⟩ := (hfollows hc.last).some t ht
      exact ⟨hc.last, s, hs⟩
  · obtain ⟨⟨hl, hi⟩, ht⟩ : (f.l = false ∧ f.i = false) ∧ f.t = false := by simpa using hf
    rw [if_neg hf]
    constructor
    · rintro ⟨hlast, h⟩
      obtain ⟨hturn, hpath, hcount⟩ := (myls_within_iff hlast hnd).mp h
      exact ⟨⟨hlast, fun _ => hturn, by simp [ht]⟩,
        hpath, hcount, by simp [hl], by simp [hl], by simp [hi]⟩
    · rintro ⟨hc, hroom⟩
      exact ⟨hc.last, (myls_within_iff hc.last hnd).mpr
        ⟨hc.name (by simp [ht]), hroom.path, hroom.count⟩⟩

include hnd in
/-- Passes that run through had room in the arrays. -/
theorem room_of_fill (hf : (f.l || f.i || f.t) = true) (hc : CopiesFit f st) {s : Tables}
    (h : fill st.whole f dir st (empty (shown b)) = some s) : Room f dir st.entries := by
  obtain ⟨s₁, h₁, h⟩ := Option.bind_eq_some_iff.mp h
  obtain ⟨s₂, h₂, h₃⟩ := Option.bind_eq_some_iff.mp h
  unfold onOption at h₁ h₂ h₃
  cases hl : f.l with
  | true =>
    rw [if_pos hl] at h₁
    have hlong := long_pass (b := b) hnd
    have hfits := fits_of_mylsMinusLOption h₁
    refine ⟨hfits.path, hfits.count, fun _ => hfits.line, fun _ hi => ?_, by simp [hl]⟩
    have hwithin := (@mylsMinusLWithin_some b dir st hnd hc.last _).mpr
      ⟨hc.name (by simp [hl]), hfits, rfl⟩
    obtain ⟨s, hs, hholds⟩ := (mylsMinusLOption_follows st.limit_le_whole hc.last
      (before_empty (rooms st.last st.rest) (shown b))).some _ hwithin
    cases hs.symm.trans h₁
    rw [if_pos hi, hl] at h₂
    obtain ⟨t, ht, -⟩ := (mylsMinusIOption_follows_sorted st.limit_le_whole hholds hlong.sorted
      (hlong.names.nodup_iff.mpr hnd)).of_result trivial h₂
    exact (mylsMinusIOption_long hnd hlong hfits.path hfits.line).mp ⟨t, ht⟩
  | false =>
    rw [hl, if_neg Bool.false_ne_true] at h₁
    cases h₁
    cases hi : f.i with
    | true =>
      rw [if_pos hi, hl] at h₂
      obtain ⟨_, hread, -⟩ := Option.bind_eq_some_iff.mp h₂
      obtain ⟨t, ht⟩ := @rows_of_readdirLoop dir (setMinusIOption false) _ keepPerms
        (fun _ d => inoPrefix d ++ d.name ++ ['\n']) setMinusIOption_false
        Myls.setMinusIOption_eq st _ _ rfl rfl hread
      have hpass : Myls.mylsMinusIOption false dir st.entries ⟨[], shown b⟩ = some _ :=
        congrArg (Option.map _) ht
      obtain ⟨hpath, hcount, hino⟩ := mylsMinusIOption_isSome.mp ⟨_, hpass⟩
      exact ⟨hpath, hcount, by simp [hl], by simp [hl], fun _ _ => hino⟩
    | false =>
      have ht : f.t = true := by simpa [hl, hi] using hf
      rw [hi, if_neg Bool.false_ne_true] at h₂
      cases h₂
      rw [if_pos ht, hl, hi] at h₃
      obtain ⟨_, hread, -⟩ := Option.bind_eq_some_iff.mp h₃
      obtain ⟨t, ht⟩ := @rows_of_readdirLoop dir (setName false) _ keepPerms
        (fun _ d => d.name ++ ['\n']) setName_false Myls.setName_eq st _ _ rfl rfl hread
      obtain ⟨⟨hpath, hcount⟩, -⟩ := setName_some.mp ht
      exact ⟨hpath, hcount, by simp [hl], by simp [hl], by simp [hi]⟩

end Fitting

end Pointers

/-- The names `b` and `a`, read in this order. -/
def ba : Stream := oneReading
  [recordOf (plainFile ['b'] 21) (by decide) (by decide),
    recordOf (plainFile ['a'] 22) (by decide) (by decide)]

end Myls
end LinuxProg
