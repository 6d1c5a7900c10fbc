/-
# The inodes of a long listing

After `-l`, the pass for `-i` reads the directory once more and puts the inode
of each entry before the first row whose name has the entry's name in it, the
rows being sorted by name. That is the entry's own row exactly if no other name
that contains its name sorts before it; and unless it is so for all entries
some row is left without its own number, since each number goes to a name at
least as long (`map_eq_self`). So on names that are strings of their own the
rows are labelled right exactly if that holds, and the arrays and buffers do not
overflow (`labels_long_iff`).
-/
import Mathlib
import LinuxProg.Myls.Listing

namespace LinuxProg
namespace Myls

open Exchange

/-- The name of the row the inode of an entry is put before. -/
def hit (names : List Str) (d : Dirent) : Option Str := names.find? fun n => strstr n d.name

/-- What a reading of the entries puts before the row of a name. -/
def labels (names : List Str) : List Dirent → Str → Str
  | [], _ => []
  | d :: ds, n => labels names ds n ++ if hit names d = some n then inoPrefix d else []

/-- A row after one entry. -/
def Row.after (names : List Str) (d : Dirent) (r : Row) : Row :=
  if hit names d = some r.name then { r with line := inoPrefix d ++ r.line } else r

/-! ### The second reading -/

theorem Row.after_name (names : List Str) (d : Dirent) (r : Row) :
    (r.after names d).name = r.name := by
  unfold Row.after
  split <;> rfl

theorem Row.after_time (names : List Str) (d : Dirent) (r : Row) :
    (r.after names d).time = r.time := by
  unfold Row.after
  split <;> rfl

theorem Row.after_line (names : List Str) (d : Dirent) (ds : List Dirent) (r : Row) :
    labels names ds r.name ++ (r.after names d).line = labels names (d :: ds) r.name ++ r.line := by
  rw [labels]
  unfold Row.after
  split <;> simp

theorem hit_mem {names : List Str} {d : Dirent} {n : Str} (h : hit names d = some n) : n ∈ names :=
  List.mem_of_find?_eq_some h

theorem hit_cons (n : Str) (names : List Str) (d : Dirent) :
    hit (n :: names) d = if strstr n d.name then some n else hit names d := by
  unfold hit
  rw [List.find?_cons]
  cases strstr n d.name <;> rfl

theorem contained_of_hit {names : List Str} {d : Dirent} {n : Str} (h : hit names d = some n) :
    d.name <:+: n := by
  have := List.find?_some h
  exact of_decide_eq_true this

/-- One inode is put before one row. -/
theorem labelFirst_eq (d : Dirent) : ∀ (rows : List Row), (rows.map Row.name).Nodup →
    labelFirst d rows =
      if ∀ r ∈ rows, hit (rows.map Row.name) d = some r.name →
          (inoPrefix d ++ r.line).length < 1024 then
        some (rows.map (Row.after (rows.map Row.name) d))
      else none
  | [], _ => by simp [labelFirst]
  | r :: rows, hnd => by
    rw [List.map_cons, List.nodup_cons] at hnd
    obtain ⟨hr, hrows⟩ := hnd
    unfold labelFirst
    rw [List.map_cons, hit_cons]
    by_cases hs : strstr r.name d.name = true
    · have hother : ∀ r' ∈ rows, some r.name ≠ some r'.name := by
        intro r' hr' heq
        exact hr (Option.some.inj heq ▸ List.mem_map_of_mem hr')
      have hall : (∀ r' ∈ r :: rows, some r.name = some r'.name →
          (inoPrefix d ++ r'.line).length < 1024) ↔ (inoPrefix d ++ r.line).length < 1024 := by
        rw [List.forall_mem_cons]
        exact ⟨fun h => h.1 rfl, fun h => ⟨fun _ => h, fun r' hr' he => absurd he (hother r' hr')⟩⟩
      have hmap : (rows.map fun r' => if some r.name = some r'.name then
          { r' with line := inoPrefix d ++ r'.line } else r') = rows :=
        (List.map_congr_left fun r' hr' => if_neg (hother r' hr')).trans (List.map_id _)
      rw [if_pos hs, if_pos hs, strcpy1024]
      unfold Row.after
      rw [List.map_cons, hit_cons, if_pos hs]
      simp only [hall, if_true, hmap]
      split <;> rfl
    · have hno : hit (rows.map Row.name) d ≠ some r.name := fun h => hr (hit_mem h)
      rw [if_neg hs, if_neg hs, labelFirst_eq d rows hrows]
      unfold Row.after
      rw [List.map_cons, hit_cons, if_neg hs]
      simp only [List.forall_mem_cons, hno, false_imp_iff, true_and, if_false]
      split <;> rfl

/-- The labels are put before the rows, if there is room. -/
theorem labelLoop_eq : ∀ (ds : List Dirent) (s : Listing),
    (s.rows.map Row.name).Nodup → (∀ r ∈ s.rows, r.line.length < 1024) →
    ds.foldlM (fun s d => (labelFirst d s.rows).map fun rows => { s with rows }) s =
      if ∀ r ∈ s.rows, (labels (s.rows.map Row.name) ds r.name ++ r.line).length < 1024 then
        some { s with rows := s.rows.map fun r => { r with
          line := labels (s.rows.map Row.name) ds r.name ++ r.line } }
      else none
  | [], s, _, hlt => by simpa [labels] using hlt
  | d :: ds, s, hnd, hlt => by
    have hnames : (s.rows.map (Row.after (s.rows.map Row.name) d)).map Row.name =
        s.rows.map Row.name := by
      rw [List.map_map]
      exact List.map_congr_left fun r _ => r.after_name _ d
    rw [List.foldlM_cons, labelFirst_eq d s.rows hnd]
    by_cases hfits : ∀ r ∈ s.rows, hit (s.rows.map Row.name) d = some r.name →
        (inoPrefix d ++ r.line).length < 1024
    · have hlt' : ∀ r ∈ s.rows.map (Row.after (s.rows.map Row.name) d), r.line.length < 1024 := by
        rw [List.forall_mem_map]
        intro r hr
        unfold Row.after
        split
        · exact hfits r hr ‹_›
        · exact hlt r hr
      have hnd' : ((s.rows.map (Row.after (s.rows.map Row.name) d)).map Row.name).Nodup := by
        rw [hnames]
        exact hnd
      rw [if_pos hfits, Option.map_some, Option.bind_eq_bind, Option.bind_some,
        labelLoop_eq ds { s with rows := s.rows.map (Row.after (s.rows.map Row.name) d) } hnd' hlt']
      simp only [hnames, List.forall_mem_map, Row.after_name, Row.after_line, Row.after_time,
        List.map_map, Function.comp_def]
    · rw [if_neg hfits, if_neg]
      · rfl
      · intro h
        refine hfits fun r hr he => ?_
        have := h r hr
        rw [labels, if_pos he, List.append_assoc, List.length_append] at this
        omega

/-- The row with its label. -/
def Row.labelled (names : List Str) (ds : List Dirent) (r : Row) : Row :=
  { r with line := labels names ds r.name ++ r.line }

/-- **The pass for `-i`** over sorted rows. -/
theorem mylsMinusIOption_some {dir : Str} {readdir : List Dirent} {s s' : Listing}
    (hnd : (s.rows.map Row.name).Nodup) (hs : s.rows.Pairwise fun r r' => r.name ≤ r'.name)
    (hlt : ∀ r ∈ s.rows, r.line.length < 1024) :
    mylsMinusIOption true dir readdir s = some s' ↔
      ((∀ d ∈ readdir, pathFits dir d = true) ∧ ∀ r ∈ s.rows,
        (labels (s.rows.map Row.name) (readdir.filter listed) r.name ++ r.line).length < 1024) ∧
      { s with rows := s.rows.map (Row.labelled (s.rows.map Row.name) (readdir.filter listed)) } =
        s' := by
  have hnames : (s.rows.map (Row.labelled (s.rows.map Row.name) (readdir.filter listed))).map
      Row.name = s.rows.map Row.name := by
    rw [List.map_map]
    rfl
  have hpass := @pass_byName_of_sorted
    (s.rows.map (Row.labelled (s.rows.map Row.name) (readdir.filter listed)))
    (List.pairwise_map.mpr hs) (by rwa [hnames])
  have hset : ∀ s d, setMinusIOption true s d =
      if listed d then (labelFirst d s.rows).map fun rows => { s with rows } else some s :=
    fun _ _ => rfl
  rw [mylsMinusIOption, readdirLoop, foldlM_listed hset, labelLoop_eq _ s hnd hlt,
    Option.map_eq_some_iff]
  simp only [Option.ite_none_right_eq_some, Option.some.injEq, ← and_assoc]
  constructor
  · rintro ⟨t, ⟨h, rfl⟩, rfl⟩
    exact ⟨h, congrArg (fun rows => { s with rows }) hpass.symm⟩
  · rintro ⟨h, rfl⟩
    exact ⟨_, ⟨h, rfl⟩, congrArg (fun rows => { s with rows }) hpass⟩

/-! ### Which row is hit -/

/-- In sorted names the first one that contains the entry's name is the least. -/
theorem hit_iff {names : List Str} (h : names.Pairwise (· ≤ ·)) {d : Dirent} {n : Str} :
    hit names d = some n ↔ n ∈ names ∧ d.name <:+: n ∧ ∀ n' ∈ names, d.name <:+: n' → n ≤ n' := by
  have hleast : ∀ {n}, hit names d = some n → ∀ n' ∈ names, d.name <:+: n' → n ≤ n' := by
    intro n hhit n' hn' hin
    obtain ⟨-, pre, post, rfl, hpre⟩ := List.find?_eq_some_iff_append.mp hhit
    rcases List.mem_append.mp hn' with hn' | hn'
    · have := hpre n' hn'
      simp [strstr, hin] at this
    · rcases List.mem_cons.mp hn' with rfl | hn'
      · exact le_rfl
      · exact (List.pairwise_cons.mp (List.pairwise_append.mp h).2.1).1 n' hn'
  constructor
  · exact fun hhit => ⟨hit_mem hhit, contained_of_hit hhit, hleast hhit⟩
  · rintro ⟨hn, hin, hmin⟩
    cases hhit : hit names d with
    | none =>
      have := List.find?_eq_none.mp hhit n hn
      simp [strstr, hin] at this
    | some n' =>
      rw [le_antisymm (hleast hhit n hn hin) (hmin n' (hit_mem hhit) (contained_of_hit hhit))]

theorem eq_of_sum_eq {α : Type*} {f g : α → ℕ} : ∀ {l : List α}, (∀ x ∈ l, f x ≤ g x) →
    (l.map f).sum = (l.map g).sum → ∀ x ∈ l, f x = g x
  | [], _, _, _, hx => absurd hx List.not_mem_nil
  | y :: l, hle, hsum, x, hx => by
    obtain ⟨hy, hl⟩ := List.forall_mem_cons.mp hle
    have hrest := List.sum_le_sum hl
    rw [List.map_cons, List.map_cons, List.sum_cons, List.sum_cons] at hsum
    rcases List.mem_cons.mp hx with rfl | hx
    · omega
    · exact eq_of_sum_eq hl (by omega) x hx

/-- A map of strings that reaches all of them and never to a string that does
not contain the one it comes from changes none: the lengths do not allow it. -/
theorem map_eq_self {l : List Str} {f : Str → Str} (hnd : l.Nodup) (hin : ∀ x ∈ l, x <:+: f x)
    (hsurj : ∀ y ∈ l, ∃ x ∈ l, f x = y) : ∀ x ∈ l, f x = x := by
  have hsub : l ⊆ l.map f := by
    intro y hy
    obtain ⟨x, hx, rfl⟩ := hsurj y hy
    exact List.mem_map_of_mem hx
  have hperm : l.Perm (l.map f) :=
    (hnd.subperm hsub).perm_of_length_le (by rw [List.length_map])
  have hsum : (l.map List.length).sum = (l.map fun x => (f x).length).sum := by
    have := (hperm.map List.length).sum_eq
    rwa [List.map_map] at this
  intro x hx
  have hlen := eq_of_sum_eq (fun x hx => (hin x hx).length_le) hsum x hx
  exact ((hin x hx).eq_of_length hlen).symm

/-! ### Which labels a row gets -/

theorem inoPrefix_ne_nil (d : Dirent) : inoPrefix d ≠ [] := by simp [inoPrefix]

theorem labels_of_not_hit {names : List Str} {n : Str} : ∀ {ds : List Dirent},
    (∀ d ∈ ds, hit names d ≠ some n) → labels names ds n = []
  | [], _ => rfl
  | d :: ds, h => by
    obtain ⟨hd, hds⟩ := List.forall_mem_cons.mp h
    rw [labels, if_neg hd, labels_of_not_hit hds, List.append_nil]

/-- If every entry hits its own row, every row gets its own label. -/
theorem labels_self {names : List Str} : ∀ {ds : List Dirent}, (ds.map Dirent.name).Nodup →
    (∀ d ∈ ds, hit names d = some d.name) → ∀ d ∈ ds, labels names ds d.name = inoPrefix d
  | [], _, _, _, hd => absurd hd List.not_mem_nil
  | e :: ds, hnd, hhit, d, hd => by
    obtain ⟨he, hds⟩ := List.forall_mem_cons.mp hhit
    rw [List.map_cons, List.nodup_cons] at hnd
    rw [labels, he]
    rcases List.mem_cons.mp hd with rfl | hd
    · have hno : ∀ d' ∈ ds, hit names d' ≠ some d.name := by
        intro d' hd' h
        rw [hds d' hd'] at h
        exact hnd.1 (Option.some.inj h ▸ List.mem_map_of_mem hd')
      rw [labels_of_not_hit hno, if_pos rfl, List.nil_append]
    · have hne : some e.name ≠ some d.name := fun h =>
        hnd.1 (Option.some.inj h ▸ List.mem_map_of_mem hd)
      rw [if_neg hne, List.append_nil, labels_self hnd.2 hds d hd]

/-- If every row gets its own label, every entry hits its own row. -/
theorem hit_self_of_labels {names : List Str} {ds : List Dirent}
    (hnd : (ds.map Dirent.name).Nodup) (hnames : names.Perm (ds.map Dirent.name))
    (h : ∀ d ∈ ds, labels names ds d.name = inoPrefix d) : ∀ d ∈ ds, hit names d = some d.name := by
  have hsome : ∀ d ∈ ds, ∃ n, hit names d = some n := by
    intro d hd
    refine Option.isSome_iff_exists.mp (List.find?_isSome.mpr ⟨d.name, ?_, strstr_self d.name⟩)
    exact hnames.mem_iff.mpr (List.mem_map_of_mem hd)
  -- the row that is hit, of names
  let f : Str → Str := fun x => (names.find? fun n => strstr n x).getD x
  have hf : ∀ d n, hit names d = some n → f d.name = n := fun d n hn => by
    have : (names.find? fun n => strstr n d.name) = some n := hn
    simp only [f, this, Option.getD_some]
  have hself : ∀ x ∈ ds.map Dirent.name, f x = x := by
    refine map_eq_self hnd ?_ ?_
    · rw [List.forall_mem_map]
      intro d hd
      obtain ⟨n, hn⟩ := hsome d hd
      rw [hf d n hn]
      exact contained_of_hit hn
    · rw [List.forall_mem_map]
      intro d hd
      by_contra hno
      have hnil : labels names ds d.name = [] := by
        refine labels_of_not_hit fun e he hhit => hno ?_
        exact ⟨e.name, List.mem_map_of_mem he, hf e d.name hhit⟩
      exact inoPrefix_ne_nil d ((h d hd).symm.trans hnil)
  intro d hd
  obtain ⟨n, hn⟩ := hsome d hd
  rw [hn, ← hf d n hn, hself d.name (List.mem_map_of_mem hd)]

/-! ### Both passes -/

/-- After the passes there is a row for each entry, and it is the entry's line
of the first pass with the entry's own inode before it. -/
structure Labelled (es : List Dirent) (s s' : Listing) : Prop where
  names : (s.rows.map Row.name).Perm (es.map Dirent.name)
  same : s'.rows.map Row.name = s.rows.map Row.name
  line : ∀ d ∈ es, ∀ r ∈ s.rows, r.name = d.name → ∃ perms, r.line = lLine perms d
  label : ∀ d ∈ es, ∀ r ∈ s.rows, ∀ r' ∈ s'.rows, r.name = d.name → r'.name = d.name →
    r'.line = inoPrefix d ++ r.line

/-- Rows with labels before them, by name. -/
theorem labelled_iff {rows : List Row} {es ds : List Dirent} {names : List Str}
    (hnd : (es.map Dirent.name).Nodup) (hl : Long es rows) :
    (∀ d ∈ es, ∀ r ∈ rows, ∀ r' ∈ rows.map (Row.labelled names ds), r.name = d.name →
      r'.name = d.name → r'.line = inoPrefix d ++ r.line) ↔
    ∀ d ∈ es, labels names ds d.name = inoPrefix d := by
  constructor
  · intro h d hd
    obtain ⟨r, hr, hname⟩ := hl.row hd
    have := h d hd r hr _ (List.mem_map_of_mem hr) hname hname
    rw [← hname]
    exact List.append_cancel_right this
  · intro h d hd r hr r' hr' hname hname'
    obtain ⟨q, hq, rfl⟩ := List.mem_map.mp hr'
    have : q = r := List.inj_on_of_nodup_map (hl.names.nodup_iff.mpr hnd) hq hr
      (hname'.trans hname.symm)
    subst this
    rw [← h d hd, ← hname]
    rfl

/-- Every entry hits its own row exactly if no name it is contained in sorts
before it. -/
theorem hit_self_all_iff {rows : List Row} {es : List Dirent} (hl : Long es rows) :
    (∀ d ∈ es, hit (rows.map Row.name) d = some d.name) ↔
      ∀ d ∈ es, ∀ e ∈ es, d.name <:+: e.name → d.name ≤ e.name := by
  refine forall_congr' fun d => forall_congr' fun hd => ?_
  rw [hit_iff (List.pairwise_map.mpr hl.sorted)]
  simp only [hl.names.mem_iff, List.forall_mem_map, List.mem_map_of_mem hd, List.infix_rfl, true_and]

/-- The pass for `-i` over the rows of the pass for `-l`. -/
theorem labels_long_iff {dir : Str} {es : List Dirent} {rows : List Row} {perms : Str}
    {readdir' : List Dirent} (hnd : (es.map Dirent.name).Nodup) (hl : Long es rows)
    (hds : (readdir'.filter listed).Perm es)
    (hlt : ∀ d ∈ es, (lLine perms₀ d).length < 1024) :
    (∃ s', mylsMinusIOption true dir readdir' ⟨rows, perms⟩ = some s' ∧
      Labelled es ⟨rows, perms⟩ s') ↔
    (∀ d ∈ readdir', pathFits dir d = true) ∧
      (∀ d ∈ es, (inoPrefix d ++ lLine perms₀ d).length < 1024) ∧
      ∀ d ∈ es, ∀ e ∈ es, d.name <:+: e.name → d.name ≤ e.name := by
  have hnd' : ((readdir'.filter listed).map Dirent.name).Nodup :=
    (hds.map Dirent.name).nodup_iff.mpr hnd
  have hpass := fun s' => @mylsMinusIOption_some dir readdir' ⟨rows, perms⟩ s'
    (hl.names.nodup_iff.mpr hnd) hl.sorted (hl.length_lt hlt)
  simp only [hpass]
  constructor
  · rintro ⟨s', ⟨⟨hpath, hroom⟩, rfl⟩, hlab⟩
    have hlabel := (labelled_iff hnd hl).mp hlab.label
    have hhit := hit_self_of_labels hnd' (hl.names.trans (hds.map Dirent.name).symm)
      fun d hd => hlabel d (hds.mem_iff.mp hd)
    refine ⟨hpath, fun d hd => ?_, (hit_self_all_iff hl).mp fun d hd => hhit d (hds.mem_iff.mpr hd)⟩
    obtain ⟨r, hr, hname⟩ := hl.row hd
    have := hroom r hr
    rw [hname, hlabel d hd, List.length_append, hl.length hd hr hname] at this
    rwa [List.length_append]
  · rintro ⟨hpath, hroom, hmin⟩
    have hhit : ∀ d ∈ readdir'.filter listed, hit (rows.map Row.name) d = some d.name :=
      fun d hd => (hit_self_all_iff hl).mpr hmin d (hds.mem_iff.mp hd)
    have hlabel : ∀ d ∈ es,
        labels (rows.map Row.name) (readdir'.filter listed) d.name = inoPrefix d :=
      fun d hd => labels_self hnd' hhit d (hds.mem_iff.mpr hd)
    refine ⟨_, ⟨⟨hpath, fun r hr => ?_⟩, rfl⟩, hl.names, ?_, fun d hd r hr hname => ?_,
      (labelled_iff hnd hl).mpr hlabel⟩
    · obtain ⟨d, hd, hname⟩ := hl.entry hr
      have := hroom d hd
      rw [← hname, hlabel d hd, List.length_append, hl.length hd hr hname.symm]
      rwa [List.length_append] at this
    · rw [List.map_map]
      rfl
    · obtain ⟨m, hm⟩ := hl.line r hr d hd hname
      exact ⟨shown m, hm⟩

/-- A plain file. -/
def plainFile (name : Str) (ino : ℤ) : Dirent where
  name := name
  ino := ino
  mode := 0o100644
  nlink := 1
  user := "root".toList
  group := "root".toList
  size := 0
  mtime := 0
  ctime := "Thu Jan  1 00:00:00 1970\n".toList
  typed := by decide

end Myls
end LinuxProg
