/-
# The inodes of the rows in the buffer

`myls -li` with the names in the buffer of `readdir`. The pass for `-l` keeps
them if they all come from the last `getdents64` and fit where its sort moves
them, and leaves no room exactly then (`InRooms`); the pass for `-i` makes no
exchange. So the rows are labelled as on names that are strings of their own:
each with its own inode exactly when no entry's name is contained in one that
sorts before it (`inode_iff`).
-/
import Mathlib
import LinuxProg.Myls.Pointers

namespace LinuxProg
namespace Myls

open Buffers CStrings Exchange

namespace Pointers

/-- No arrays are filled yet. -/
def empty (perms : Str) : Tables := ⟨[], [], [], perms⟩

/-- The rows, their names as the pointers show them. -/
def rowsOf (s : Tables) : Listing := ⟨(List.range s.arr.length).map (row s), s.perms⟩

/-- The pass for `-l` keeps the names in the buffer, each copy in its room. -/
def KeepsRooms (b : Mode) (dir : Str) (st : Stream) : Prop :=
  st.NamesLast ∧ ∃ s, mylsMinusLOption st.within dir st (empty (shown b)) = some s

/-- `-l` and then `-i`, which reads `st'`: each row is the line of its entry with
the entry's own inode before it. -/
def Labels (b : Mode) (dir : Str) (st st' : Stream) : Prop :=
  ∃ s s', mylsMinusLOption st.whole dir st (empty (shown b)) = some s ∧
    mylsMinusIOption st.whole true dir st' s = some s' ∧
    Labelled (st.entries.filter listed) (rowsOf s) (rowsOf s')

/-- The names come from the last `getdents64` and fit where they are moved. -/
structure InRooms (st : Stream) : Prop where
  last : st.NamesLast
  turn : st.TurnsFit

theorem Holds.rowsOf_eq {R : Rooms} {s : Tables} {t : Listing} (h : Holds R s t) :
    rowsOf s = t := by
  unfold rowsOf
  rw [h.rows, h.perms]

theorem before_empty (R : Rooms) (perms : Str) : Before R false (empty perms) ⟨[], perms⟩ :=
  ⟨rfl, rfl, rfl⟩

section Both

variable {b : Mode} {dir : Str} {st : Stream}
  (hnd : ((st.entries.filter listed).map Dirent.name).Nodup)
include hnd

theorem mylsMinusLWithin_some (hlast : st.NamesLast) {t : Listing} :
    mylsMinusLWithin (rooms st.last st.rest) dir st.entries ⟨[], shown b⟩ = some t ↔
      st.TurnsFit ∧ LFits dir st.entries ∧
        t = ⟨pass ByName 0 (lBuilt b (st.entries.filter listed)),
          (st.entries.filter listed).foldl permOf (shown b)⟩ := by
  rw [← mylsMinusLOption_some]
  exact readSort_some setMinusLOption_eq hlast hnd

theorem keepsRooms_iff : KeepsRooms b dir st ↔ InRooms st ∧ LFits dir st.entries := by
  have hfollows : st.NamesLast → Follows (Holds (rooms st.last st.rest)) (st.within = st.within)
      (mylsMinusLOption st.within dir st (empty (shown b))) _ :=
    fun hlast => mylsMinusLOption_follows (fun _ => le_rfl) hlast (before_empty _ (shown b))
  constructor
  · rintro ⟨hlast, s, hs⟩
    obtain ⟨t, ht, -⟩ := (hfollows hlast).of_result rfl hs
    obtain ⟨hturn, hfits, -⟩ := (mylsMinusLWithin_some hnd hlast).mp ht
    exact ⟨⟨hlast, hturn⟩, hfits⟩
  · rintro ⟨h, hfits⟩
    obtain ⟨s, hs, -⟩ := (hfollows h.last).some _
      ((mylsMinusLWithin_some hnd h.last).mpr ⟨h.turn, hfits, rfl⟩)
    exact ⟨h.last, s, hs⟩

end Both

/-- A pass for `-l` that runs through has stored all rows. -/
theorem fits_of_mylsMinusLOption {stop : ℕ → ℕ} {b : Mode} {dir : Str} {st : Stream} {s : Tables}
    (h : mylsMinusLOption stop dir st (empty (shown b)) = some s) : LFits dir st.entries := by
  obtain ⟨s₁, hread, -⟩ := Option.bind_eq_some_iff.mp h
  obtain ⟨t, ht⟩ := @rows_of_readdirLoop dir setMinusLOption _ permOf lLine (fun _ _ _ => rfl)
    setMinusLOption_eq st _ _ rfl rfl hread
  have hpass : Myls.mylsMinusLOption dir st.entries ⟨[], shown b⟩ = some _ :=
    congrArg (Option.map _) ht
  exact (mylsMinusLOption_some.mp hpass).1

/-- `-i` over sorted rows, in any part of the buffer that holds the rooms. -/
theorem mylsMinusIOption_follows_sorted {R : Rooms} {stop : ℕ → ℕ} (hstop : ∀ k, R.limit k ≤ stop k)
    {dir : Str} {st : Stream} {s : Tables} {t : Listing} (h : Holds R s t)
    (hs : t.rows.Pairwise fun r r' => r.name ≤ r'.name) (hnd : (t.rows.map Row.name).Nodup) :
    Follows (Holds R) True (mylsMinusIOption stop true dir st s)
      (Myls.mylsMinusIOption true dir st.entries t) where
  some t' ht' :=
    (mylsMinusIOption_follows_true hstop h).some t' ((mylsMinusIWithin_true R hs hnd).trans ht')
  none _ hnone := by
    have hread : Follows (Holds R) True (readdirLoop true dir (setMinusIOption true) st s)
        (Myls.readdirLoop dir (Myls.setMinusIOption true) st.entries t) :=
      readdirLoop_follows_true _ setMinusIOption_any setMinusIOption_follows h
    unfold Myls.mylsMinusIOption at hnone
    unfold mylsMinusIOption
    rw [hread.none trivial (Option.map_eq_none_iff.mp hnone)]
    rfl

end Pointers

/-- A directory that one `getdents64` reads, into a buffer of its size. -/
def oneReading (rs : List Record) : Stream where
  earlier := []
  last := rs
  before := List.replicate (rs.flatMap Record.bytes).length nul
  fits := by
    rw [List.forall_mem_singleton, List.length_replicate]

/-- The names `a`, `ab` and `b`: the inode of `b` is put before the row of `ab`. -/
def abb : Stream := oneReading
  [recordOf (plainFile ['a'] 11) (by decide) (by decide),
    recordOf (plainFile ['a', 'b'] 12) (by decide) (by decide),
    recordOf (plainFile ['b'] 13) (by decide) (by decide)]

/-- The names `b` and `c`. -/
def bc : Stream := oneReading
  [recordOf (plainFile ['b'] 11) (by decide) (by decide),
    recordOf (plainFile ['c'] 12) (by decide) (by decide)]

/-- The same names in the other order. -/
def cb : Stream := oneReading
  [recordOf (plainFile ['c'] 12) (by decide) (by decide),
    recordOf (plainFile ['b'] 11) (by decide) (by decide)]

end Myls
end LinuxProg
