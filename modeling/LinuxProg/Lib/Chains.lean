/-
# Singly linked chains with a tail value

The nodes of a list are linked by one pointer each; the last one holds a value
that points to no node, and a node that is in no list holds null. `Chain next x l`
says that the pointers from `x` on run through the nodes of `l` to the tail
value. A head keeps its first pointer and the place of its last one, so that a
node is added by one write to that place (`Head.store`) and one to the head.

Key theorems: `chain_append`, `Chain.congr`, `Holds.store`.
-/
import Mathlib

namespace LinuxProg
namespace Chains

/-- A pointer to a node, or one of the two values that point to none. -/
inductive Ptr (T : Type*) where
  | null
  | tail
  | node (t : T)
  deriving DecidableEq

/-- A place that keeps a pointer: in the head or in a node. -/
inductive Slot (T : Type*) where
  | first
  | next (t : T)
  deriving DecidableEq

/-- The head of a list: its first pointer and the place of its last one. -/
structure Head (T : Type*) where
  first : Ptr T
  lastp : Slot T

variable {T : Type*} {next next' : T → Ptr T} {x y : Ptr T} {l l' : List T} {p : T}

/-- The pointers run from `x` through the nodes of the list to `y`. -/
def Segment (next : T → Ptr T) : Ptr T → List T → Ptr T → Prop
  | x, [], y => x = y
  | x, t :: l, y => x = .node t ∧ Segment next (next t) l y

/-- The pointers run from `x` through the nodes of the list to the tail value. -/
def Chain (next : T → Ptr T) (x : Ptr T) (l : List T) : Prop := Segment next x l .tail

theorem segment_append : ∀ {x : Ptr T} {l : List T},
    Segment next x (l ++ l') y ↔ ∃ z, Segment next x l z ∧ Segment next z l' y
  | x, [] => by
    constructor
    · intro h
      exact ⟨x, rfl, h⟩
    · rintro ⟨z, hz, h⟩
      exact (show x = z from hz) ▸ h
  | x, t :: l => by
    simp only [List.cons_append, Segment, segment_append]
    constructor
    · rintro ⟨hx, z, hz, h⟩
      exact ⟨z, ⟨hx, hz⟩, h⟩
    · rintro ⟨z, ⟨hx, hz⟩, h⟩
      exact ⟨hx, z, hz, h⟩

theorem segment_snoc : Segment next x (l ++ [p]) y ↔ Segment next x l (.node p) ∧ next p = y := by
  rw [segment_append]
  constructor
  · rintro ⟨z, hz, hp, hy⟩
    exact ⟨hp ▸ hz, hy⟩
  · rintro ⟨hl, hy⟩
    exact ⟨_, hl, rfl, hy⟩

/-- A segment is not changed by writes to nodes outside. -/
theorem Segment.congr : ∀ {x : Ptr T} {l : List T}, Segment next x l y →
    (∀ t ∈ l, next' t = next t) → Segment next' x l y
  | _, [], h, _ => h
  | _, t :: l, h, heq => by
    refine ⟨h.1, ?_⟩
    rw [heq t List.mem_cons_self]
    exact h.2.congr fun u hu => heq u (List.mem_cons_of_mem t hu)

theorem Segment.update [DecidableEq T] {z : Ptr T} (h : Segment next x l y) (hp : p ∉ l) :
    Segment (Function.update next p z) x l y := by
  apply h.congr
  intro t ht
  have htp : t ≠ p := fun htp => hp (htp ▸ ht)
  exact Function.update_of_ne htp z next

theorem Chain.congr (h : Chain next x l) (heq : ∀ t ∈ l, next' t = next t) : Chain next' x l :=
  Segment.congr h heq

theorem Chain.nil_iff : Chain next .tail l ↔ l = [] := by
  cases l with
  | nil => exact ⟨fun _ => rfl, fun _ => rfl⟩
  | cons t l =>
    constructor
    · intro h
      exact absurd h.1 (by simp)
    · intro h
      cases h

theorem Chain.not_null : ¬ Chain next .null l := by
  cases l with
  | nil =>
    intro h
    cases (show Ptr.null = Ptr.tail from h)
  | cons t l =>
    intro h
    cases h.1

theorem Chain.node (h : Chain next (.node p) l) : ∃ l', l = p :: l' ∧ Chain next (next p) l' := by
  cases l with
  | nil => cases (show Ptr.node p = Ptr.tail from h)
  | cons t l =>
    have hpt : p = t := Ptr.node.inj h.1
    exact ⟨l, by rw [hpt], hpt ▸ h.2⟩

/-- A node of a chain does not hold null. -/
theorem Chain.ne_null : ∀ {x : Ptr T} {l : List T}, Chain next x l → ∀ t ∈ l, next t ≠ .null
  | _, t :: l, h, u, hu => by
    rcases List.mem_cons.mp hu with rfl | hu
    · intro hnull
      exact Chain.not_null (hnull ▸ h.2 : Chain next .null l)
    · exact Chain.ne_null (l := l) h.2 u hu

/-! ### Adding a node -/

/-- The place of the last pointer of a list. -/
def endSlot (l : List T) : Slot T := l.getLast?.elim .first .next

theorem endSlot_nil : endSlot ([] : List T) = .first := rfl

theorem endSlot_snoc (l : List T) (p : T) : endSlot (l ++ [p]) = .next p := by
  simp [endSlot]

/-- The head holds the list. -/
structure Holds (next : T → Ptr T) (h : Head T) (l : List T) : Prop where
  chain : Chain next h.first l
  last : h.lastp = endSlot l

theorem holds_nil (next : T → Ptr T) : Holds next ⟨.tail, .first⟩ [] := ⟨rfl, rfl⟩

theorem Holds.congr {h : Head T} (hl : Holds next h l) (heq : ∀ t ∈ l, next' t = next t) :
    Holds next' h l :=
  ⟨hl.chain.congr heq, hl.last⟩

variable [DecidableEq T]

/-- The write of a pointer to the place that the head keeps. -/
def Head.store (h : Head T) (next : T → Ptr T) (x : Ptr T) : Head T × (T → Ptr T) :=
  match h.lastp with
  | .first => ({ h with first := x }, next)
  | .next q => (h, Function.update next q x)

/-- Only the last node of the list is written. -/
theorem Holds.store_of_notMem {h : Head T} {t : T} (hl : Holds next h l) (ht : t ∉ l)
    (x : Ptr T) : (h.store next x).2 t = next t := by
  unfold Head.store
  rcases List.eq_nil_or_concat' l with rfl | ⟨l', q, rfl⟩
  · rw [hl.last, endSlot_nil]
  · rw [hl.last, endSlot_snoc]
    have htq : t ≠ q := fun htq => ht (htq ▸ List.mem_append_right l' List.mem_cons_self)
    exact Function.update_of_ne htq x next

/-- A node that holds the tail value is added by the write. -/
theorem Holds.store {h : Head T} (hl : Holds next h l) (hnodup : l.Nodup) (hp : p ∉ l)
    (htail : next p = .tail) : Chain (h.store next (.node p)).2 (h.store next (.node p)).1.first
      (l ++ [p]) := by
  unfold Head.store
  rcases List.eq_nil_or_concat' l with rfl | ⟨l', q, rfl⟩
  · rw [hl.last, endSlot_nil]
    exact ⟨rfl, htail⟩
  · rw [hl.last, endSlot_snoc]
    have hq : q ∉ l' := fun hq => (List.nodup_append.mp hnodup).2.2 q hq q List.mem_cons_self rfl
    have hpq : p ≠ q := fun h => hp (h ▸ List.mem_append_right l' List.mem_cons_self)
    have hseg : Segment next h.first l' (.node q) := (segment_snoc.mp hl.chain).1
    apply segment_snoc.mpr
    refine ⟨segment_snoc.mpr ⟨hseg.update hq, ?_⟩, ?_⟩
    · exact Function.update_self q _ next
    · exact (Function.update_of_ne hpq _ next).trans htail

omit [DecidableEq T] in
/-- With the head moved on, it holds the longer list. -/
theorem Chain.holds_snoc {h : Head T} (hl : Chain next h.first (l ++ [p])) :
    Holds next { h with lastp := .next p } (l ++ [p]) :=
  ⟨hl, (endSlot_snoc l p).symm⟩

end Chains
end LinuxProg
