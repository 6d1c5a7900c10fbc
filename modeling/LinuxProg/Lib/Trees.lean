/-
# Trees linked by parents and lists of children

A forest is a list of trees: each node has the forest of its children and the
forest of the siblings after it. In memory a node has a pointer to its parent
and the list of its children (`Links`); `Shape` says that below a root they are
the nodes of a forest. A node is added at the head of its parent's list, and
one without children is taken off (`Shape.insert`, `Shape.remove`).

Key definitions: `Forest.preorder`, `Forest.Above`, `Forest.visit`, `Links.Shape`.
-/
import Mathlib

namespace LinuxProg
namespace Trees

/-- A list of trees. -/
inductive Forest (α : Type*) where
  | nil
  | node (a : α) (kids rest : Forest α)
  deriving DecidableEq

namespace Forest

variable {α : Type*} {f : Forest α} {a b x p : α}

def roots : Forest α → List α
  | nil => []
  | node a _ rest => a :: rest.roots

/-- The nodes, each before those below it. -/
def preorder : Forest α → List α
  | nil => []
  | node a kids rest => a :: (kids.preorder ++ rest.preorder)

/-- The first node is an ancestor of the second. -/
def Above : Forest α → α → α → Prop
  | nil, _, _ => False
  | node x kids rest, a, b => a = x ∧ b ∈ kids.preorder ∨ kids.Above a b ∨ rest.Above a b

theorem roots_sublist : ∀ f : Forest α, f.roots.Sublist f.preorder
  | nil => List.nil_sublist []
  | node a _ rest => ((roots_sublist rest).trans (List.sublist_append_right _ _)).cons_cons a

theorem eq_nil_of_roots : ∀ {f : Forest α}, f.roots = [] → f = nil
  | nil, _ => rfl

theorem mem_preorder_node {kids rest : Forest α} :
    b ∈ (node a kids rest).preorder ↔ b = a ∨ b ∈ kids.preorder ∨ b ∈ rest.preorder := by
  rw [preorder, List.mem_cons, List.mem_append]

theorem nodup_preorder_node {kids rest : Forest α} (h : (node a kids rest).preorder.Nodup) :
    a ∉ kids.preorder ∧ a ∉ rest.preorder ∧ kids.preorder.Nodup ∧ rest.preorder.Nodup ∧
      ∀ b ∈ kids.preorder, b ∉ rest.preorder := by
  rw [preorder] at h
  obtain ⟨ha, h⟩ := List.nodup_cons.mp h
  obtain ⟨hkids, hrest, hdisj⟩ := List.nodup_append.mp h
  exact ⟨fun h => ha (List.mem_append_left _ h), fun h => ha (List.mem_append_right _ h), hkids,
    hrest, fun b hb hb' => hdisj b hb b hb' rfl⟩

theorem Above.mem : ∀ {f : Forest α}, f.Above a b → a ∈ f.preorder ∧ b ∈ f.preorder
  | node x kids rest, h => by
    rw [mem_preorder_node, mem_preorder_node]
    rcases h with ⟨rfl, hb⟩ | h | h
    · exact ⟨.inl rfl, .inr (.inl hb)⟩
    · exact ⟨.inr (.inl h.mem.1), .inr (.inl h.mem.2)⟩
    · exact ⟨.inr (.inr h.mem.1), .inr (.inr h.mem.2)⟩

theorem Above.trans : ∀ {f : Forest α}, f.preorder.Nodup → f.Above a b → f.Above b x → f.Above a x
  | node c kids rest, hnodup, hab, hbx => by
    obtain ⟨hck, hcr, hkids, hrest, hdisj⟩ := nodup_preorder_node hnodup
    rcases hab with ⟨rfl, hb⟩ | hab | hab
    · rcases hbx with ⟨rfl, -⟩ | hbx | hbx
      · exact absurd hb hck
      · exact .inl ⟨rfl, hbx.mem.2⟩
      · exact absurd hbx.mem.1 (hdisj b hb)
    · rcases hbx with ⟨rfl, -⟩ | hbx | hbx
      · exact absurd hab.mem.2 hck
      · exact .inr (.inl (hab.trans hkids hbx))
      · exact absurd hbx.mem.1 (hdisj b hab.mem.2)
    · rcases hbx with ⟨rfl, -⟩ | hbx | hbx
      · exact absurd hab.mem.2 hcr
      · exact absurd hab.mem.2 (hdisj b hbx.mem.1)
      · exact .inr (.inr (hab.trans hrest hbx))

theorem above_irrefl : ∀ {f : Forest α}, f.preorder.Nodup → ¬ f.Above a a
  | node c kids rest, hnodup, h => by
    obtain ⟨hck, -, hkids, hrest, -⟩ := nodup_preorder_node hnodup
    rcases h with ⟨rfl, ha⟩ | h | h
    · exact hck ha
    · exact above_irrefl hkids h
    · exact above_irrefl hrest h

/-! ### Bounds that are passed down -/

section

variable {β : Type*} [SemilatticeInf β] [OrderTop β]

/-- Each node has the value `⊤`, or one that is at most the bound passed down to
it, and passes the smaller of the two on. -/
def Nested (r : α → β) : β → Forest α → Prop
  | _, nil => True
  | c, node a kids rest =>
    (r a = ⊤ ∨ r a ≤ c) ∧ kids.Nested r (r a ⊓ c) ∧ rest.Nested r c

/-- The values are nested if each is at most the bound and at most those above it. -/
theorem nested_iff {r : α → β} : ∀ {c : β} {f : Forest α}, f.Nested r c ↔
    (∀ b ∈ f.preorder, r b = ⊤ ∨ r b ≤ c) ∧ ∀ a b, f.Above a b → r b = ⊤ ∨ r b ≤ r a
  | c, nil => by simp [Nested, preorder, Above]
  | c, node x kids rest => by
    unfold Nested
    rw [nested_iff (f := kids), nested_iff (f := rest)]
    constructor
    · rintro ⟨hx, ⟨hkids, hka⟩, hrest, hra⟩
      refine ⟨fun b hb => ?_, fun a b hab => ?_⟩
      · rcases mem_preorder_node.mp hb with rfl | hb | hb
        · exact hx
        · exact (hkids b hb).imp_right fun h => h.trans inf_le_right
        · exact hrest b hb
      · rcases hab with ⟨rfl, hb⟩ | hab | hab
        · exact (hkids b hb).imp_right fun h => h.trans inf_le_left
        · exact hka a b hab
        · exact hra a b hab
    · rintro ⟨hmem, habove⟩
      refine ⟨hmem x List.mem_cons_self, ⟨fun b hb => ?_, fun a b hab => ?_⟩, fun b hb => ?_,
        fun a b hab => ?_⟩
      · rcases habove x b (.inl ⟨rfl, hb⟩) with h | h
        · exact .inl h
        · exact (hmem b (mem_preorder_node.mpr (.inr (.inl hb)))).imp_right fun h' => le_inf h h'
      · exact habove a b (.inr (.inl hab))
      · exact hmem b (mem_preorder_node.mpr (.inr (.inr hb)))
      · exact habove a b (.inr (.inr hab))

end

/-! ### Visits -/

section

variable {σ : Type*}

/-- Go on with the state unless the result is an error. -/
def andThen (r : ℤ × σ) (k : σ → ℤ × σ) : ℤ × σ := if r.1 = 0 then k r.2 else r

/-- Visit each node before and after those below it, up to the first error. -/
def visit (down up : α → σ → ℤ × σ) : Forest α → σ → ℤ × σ
  | nil, s => (0, s)
  | node a kids rest, s =>
    andThen (down a s) fun s => andThen (kids.visit down up s) fun s =>
      andThen (up a s) fun s => rest.visit down up s

theorem andThen_zero {r : ℤ × σ} (h : r.1 = 0) (k : σ → ℤ × σ) : andThen r k = k r.2 := if_pos h

theorem andThen_error {r : ℤ × σ} (h : r.1 ≠ 0) (k : σ → ℤ × σ) : andThen r k = r := if_neg h

theorem andThen_nop (r : ℤ × σ) : andThen r (fun s => (0, s)) = r := by
  by_cases h : r.1 = 0
  · rw [andThen_zero h, ← h]
  · exact andThen_error h _

/-- Visit each node before those below it, and leave out those below a node
whose visit returns false. -/
def refresh (visit : α → σ → Bool × σ) : Forest α → σ → σ
  | nil, s => s
  | node a kids rest, s =>
    rest.refresh visit (if (visit a s).1 then kids.refresh visit (visit a s).2 else (visit a s).2)

end

/-! ### Adding and removing a node -/

variable [DecidableEq α]

/-- Add a node as the first child of `p`. -/
def insert (p x : α) : Forest α → Forest α
  | nil => nil
  | node a kids rest =>
    if a = p then node a (node x nil kids) rest else node a (kids.insert p x) (rest.insert p x)

/-- Take off a node without children. -/
def remove (x : α) : Forest α → Forest α
  | nil => nil
  | node a kids rest => if a = x then rest else node a (kids.remove x) (rest.remove x)

theorem insert_of_notMem : ∀ {f : Forest α}, p ∉ f.preorder → f.insert p x = f
  | nil, _ => rfl
  | node a kids rest, h => by
    rw [mem_preorder_node, not_or, not_or] at h
    unfold insert
    rw [if_neg (Ne.symm h.1), insert_of_notMem h.2.1, insert_of_notMem h.2.2]

theorem roots_insert : ∀ f : Forest α, (f.insert p x).roots = f.roots
  | nil => rfl
  | node a kids rest => by
    unfold insert
    split
    · rfl
    · simp only [roots, roots_insert rest]

theorem preorder_insert : ∀ {f : Forest α}, f.preorder.Nodup → p ∈ f.preorder →
    (f.insert p x).preorder.Perm (x :: f.preorder)
  | node a kids rest, hnodup, hp => by
    obtain ⟨hak, har, hkids, hrest, hdisj⟩ := nodup_preorder_node hnodup
    unfold insert
    split
    · exact List.Perm.swap x a _
    · rename_i hap
      rcases mem_preorder_node.mp hp with rfl | hp | hp
      · exact absurd rfl hap
      · rw [insert_of_notMem (hdisj p hp)]
        have h := (preorder_insert hkids hp).append_right rest.preorder
        exact (h.cons a).trans (List.Perm.swap x a _)
      · rw [insert_of_notMem fun h => hdisj p h hp]
        have h := (preorder_insert hrest hp).append_left kids.preorder
        have h' := (h.trans List.perm_middle).cons a
        exact h'.trans (List.Perm.swap x a _)

theorem mem_insert (hnodup : f.preorder.Nodup) (hp : p ∈ f.preorder) :
    b ∈ (f.insert p x).preorder ↔ b = x ∨ b ∈ f.preorder := by
  rw [(preorder_insert hnodup hp).mem_iff, List.mem_cons]

/-- A new node is below others and above none. -/
theorem above_insert : ∀ {f : Forest α}, f.preorder.Nodup → (f.insert p x).Above a b →
    f.Above a b ∨ b = x
  | node c kids rest, hnodup, h => by
    obtain ⟨hak, har, hkids, hrest, hdisj⟩ := nodup_preorder_node hnodup
    unfold insert at h
    split at h
    · rcases h with ⟨rfl, hb⟩ | h | h
      · rcases mem_preorder_node.mp hb with rfl | hb | hb
        · exact .inr rfl
        · cases hb
        · exact .inl (.inl ⟨rfl, hb⟩)
      · rcases h with ⟨rfl, hb⟩ | h | h
        · cases hb
        · cases h
        · exact .inl (.inr (.inl h))
      · exact .inl (.inr (.inr h))
    · rcases h with ⟨rfl, hb⟩ | h | h
      · by_cases hp : p ∈ kids.preorder
        · rcases (mem_insert hkids hp).mp hb with rfl | hb
          · exact .inr rfl
          · exact .inl (.inl ⟨rfl, hb⟩)
        · rw [insert_of_notMem hp] at hb
          exact .inl (.inl ⟨rfl, hb⟩)
      · rcases above_insert hkids h with h | h
        · exact .inl (.inr (.inl h))
        · exact .inr h
      · rcases above_insert hrest h with h | h
        · exact .inl (.inr (.inr h))
        · exact .inr h

theorem roots_remove : ∀ f : Forest α, (f.remove x).roots = f.roots.erase x
  | nil => rfl
  | node a kids rest => by
    unfold remove
    split
    · rename_i hax
      simp only [roots, hax, List.erase_cons_head]
    · rename_i hax
      rw [roots, roots_remove rest, roots, List.erase_cons_tail (by simpa using hax)]

theorem preorder_remove : ∀ f : Forest α, (f.remove x).preorder.Sublist f.preorder
  | nil => List.Sublist.refl _
  | node a kids rest => by
    unfold remove
    split
    · exact (List.sublist_append_right _ _).cons a
    · exact ((preorder_remove kids).append (preorder_remove rest)).cons_cons a

theorem above_remove : ∀ {f : Forest α}, (f.remove x).Above a b → f.Above a b
  | node c kids rest, h => by
    unfold remove at h
    split at h
    · exact .inr (.inr h)
    · rcases h with ⟨rfl, hb⟩ | h | h
      · exact .inl ⟨rfl, (preorder_remove kids).subset hb⟩
      · exact .inr (.inl (above_remove h))
      · exact .inr (.inr (above_remove h))

theorem remove_of_notMem : ∀ {f : Forest α}, x ∉ f.preorder → f.remove x = f
  | nil, _ => rfl
  | node a kids rest, h => by
    rw [mem_preorder_node, not_or, not_or] at h
    unfold remove
    rw [if_neg (Ne.symm h.1), remove_of_notMem h.2.1, remove_of_notMem h.2.2]

end Forest

/-! ### Links -/

/-- What the nodes keep: a pointer to the parent and the list of the children. -/
structure Links (α : Type*) where
  parent : α → Option α
  children : α → List α

namespace Links

variable {α : Type*} {L L' : Links α} {f kids rest : Forest α} {root a p q x : α}

/-- The forest is linked below the node. -/
def Linked (L : Links α) : α → Forest α → Prop
  | _, .nil => True
  | p, .node a kids rest =>
    L.parent a = some p ∧ L.children a = kids.roots ∧ L.Linked a kids ∧ L.Linked p rest

theorem Linked.congr : ∀ {p : α} {f : Forest α}, L.Linked p f →
    (∀ a ∈ f.preorder, L'.parent a = L.parent a) →
    (∀ a ∈ f.preorder, L'.children a = L.children a) → L'.Linked p f
  | _, .nil, _, _, _ => trivial
  | p, .node a kids rest, h, hparent, hchildren => by
    obtain ⟨hp, hc, hkids, hrest⟩ := h
    have ha : a ∈ (Forest.node a kids rest).preorder := List.mem_cons_self
    have hk : ∀ b ∈ kids.preorder, b ∈ (Forest.node a kids rest).preorder :=
      fun b hb => Forest.mem_preorder_node.mpr (.inr (.inl hb))
    have hr : ∀ b ∈ rest.preorder, b ∈ (Forest.node a kids rest).preorder :=
      fun b hb => Forest.mem_preorder_node.mpr (.inr (.inr hb))
    refine ⟨(hparent a ha).trans hp, (hchildren a ha).trans hc, ?_, ?_⟩
    · exact hkids.congr (fun b hb => hparent b (hk b hb)) fun b hb => hchildren b (hk b hb)
    · exact hrest.congr (fun b hb => hparent b (hr b hb)) fun b hb => hchildren b (hr b hb)

theorem Linked.parent_root : ∀ {f : Forest α}, L.Linked p f → ∀ a ∈ f.roots, L.parent a = some p
  | .node b _ rest, h, a, ha => by
    rcases List.mem_cons.mp ha with rfl | ha
    · exact h.1
    · exact Linked.parent_root (f := rest) h.2.2.2 a ha

/-- Each node below has its parent among the nodes, or has the node itself. -/
theorem Linked.exists_parent : ∀ {p : α} {f : Forest α}, L.Linked p f → ∀ a ∈ f.preorder,
    ∃ b, L.parent a = some b ∧ (b = p ∧ a ∈ f.roots ∨ b ∈ f.preorder ∧ a ∈ L.children b)
  | p, .node c kids rest, ⟨hp, hc, hkids, hrest⟩, a, ha => by
    rcases Forest.mem_preorder_node.mp ha with rfl | ha | ha
    · exact ⟨p, hp, .inl ⟨rfl, List.mem_cons_self⟩⟩
    · obtain ⟨b, hb, hcase⟩ := Linked.exists_parent (f := kids) hkids a ha
      refine ⟨b, hb, .inr ?_⟩
      rcases hcase with ⟨rfl, hroot⟩ | ⟨hmem, hchild⟩
      · exact ⟨List.mem_cons_self, hc ▸ hroot⟩
      · exact ⟨Forest.mem_preorder_node.mpr (.inr (.inl hmem)), hchild⟩
    · obtain ⟨b, hb, hcase⟩ := Linked.exists_parent (f := rest) hrest a ha
      refine ⟨b, hb, ?_⟩
      rcases hcase with ⟨rfl, hroot⟩ | ⟨hmem, hchild⟩
      · exact .inl ⟨rfl, List.mem_cons_of_mem c hroot⟩
      · exact .inr ⟨Forest.mem_preorder_node.mpr (.inr (.inr hmem)), hchild⟩

theorem Linked.children_subset : ∀ {p : α} {f : Forest α}, L.Linked p f → ∀ a ∈ f.preorder,
    ∀ b ∈ L.children a, b ∈ f.preorder
  | p, .node c kids rest, ⟨hp, hc, hkids, hrest⟩, a, ha, b, hb => by
    apply Forest.mem_preorder_node.mpr
    rcases Forest.mem_preorder_node.mp ha with rfl | ha | ha
    · exact .inr (.inl (kids.roots_sublist.subset (hc ▸ hb)))
    · exact .inr (.inl (Linked.children_subset (f := kids) hkids a ha b hb))
    · exact .inr (.inr (Linked.children_subset (f := rest) hrest a ha b hb))

/-- The nodes linked below the root are those of the forest. -/
structure Shape (L : Links α) (root : α) (f : Forest α) : Prop where
  nodup : (root :: f.preorder).Nodup
  top : L.parent root = none
  kids : L.children root = f.roots
  linked : L.Linked root f
  outside : ∀ a, a ∉ root :: f.preorder → L.children a = []

/-- The node is in some list of children. -/
def Listed (L : Links α) (a : α) : Prop := ∃ p, a ∈ L.children p

theorem Shape.listed_iff (h : L.Shape root f) : L.Listed a ↔ a ∈ f.preorder := by
  constructor
  · rintro ⟨p, hp⟩
    by_cases hmem : p ∈ root :: f.preorder
    · rcases List.mem_cons.mp hmem with rfl | hmem
      · rw [h.kids] at hp
        exact f.roots_sublist.subset hp
      · exact h.linked.children_subset p hmem a hp
    · rw [h.outside p hmem] at hp
      cases hp
  · intro ha
    obtain ⟨b, -, ⟨rfl, hroot⟩ | ⟨-, hchild⟩⟩ := h.linked.exists_parent a ha
    · exact ⟨b, h.kids ▸ hroot⟩
    · exact ⟨b, hchild⟩

/-- A child is below its parent. -/
theorem Linked.above_child : ∀ {p : α} {f : Forest α}, L.Linked p f → ∀ a ∈ f.preorder,
    ∀ b ∈ L.children a, f.Above a b
  | p, .node c kids rest, ⟨hp, hc, hkids, hrest⟩, a, ha, b, hb => by
    rcases Forest.mem_preorder_node.mp ha with rfl | ha | ha
    · exact .inl ⟨rfl, kids.roots_sublist.subset (hc ▸ hb)⟩
    · exact .inr (.inl (Linked.above_child (f := kids) hkids a ha b hb))
    · exact .inr (.inr (Linked.above_child (f := rest) hrest a ha b hb))

/-- The first node is reached from the second by pointers to parents. -/
def Ancestor (L : Links α) (a b : α) : Prop :=
  Relation.TransGen (fun x p => L.parent x = some p) b a

/-- Ancestors are the root and the nodes above. -/
theorem Shape.above_of_ancestor (h : L.Shape root f) {a b : α} (hb : b ∈ f.preorder)
    (hab : L.Ancestor a b) : a = root ∨ f.Above a b := by
  have hdirect : ∀ x ∈ f.preorder, ∀ p, L.parent x = some p → p = root ∨ f.Above p x := by
    intro x hx p hp
    obtain ⟨q, hq, ⟨rfl, -⟩ | ⟨hmem, hchild⟩⟩ := h.linked.exists_parent x hx
    · exact .inl (Option.some.inj (hp.symm.trans hq))
    · cases hp.symm.trans hq
      exact .inr (h.linked.above_child _ hmem x hchild)
  induction hab with
  | single hp => exact hdirect b hb _ hp
  | tail _ hp ih =>
    rcases ih with rfl | habove
    · rw [h.top] at hp
      cases hp
    · rcases hdirect _ habove.mem.1 _ hp with rfl | hup
      · exact .inl rfl
      · exact .inr (hup.trans (List.nodup_cons.mp h.nodup).2 habove)

theorem Linked.ancestor_of_mem : ∀ {p : α} {f : Forest α}, L.Linked p f → ∀ b ∈ f.preorder,
    L.Ancestor p b
  | p, .node c kids rest, ⟨hp, hc, hkids, hrest⟩, b, hb => by
    rcases Forest.mem_preorder_node.mp hb with rfl | hb | hb
    · exact .single hp
    · exact (Linked.ancestor_of_mem (f := kids) hkids b hb).tail hp
    · exact Linked.ancestor_of_mem (f := rest) hrest b hb

theorem Linked.ancestor_of_above : ∀ {p : α} {f : Forest α}, L.Linked p f → ∀ {a b : α},
    f.Above a b → L.Ancestor a b
  | p, .node c kids rest, ⟨hp, hc, hkids, hrest⟩, a, b, hab => by
    rcases hab with ⟨rfl, hb⟩ | hab | hab
    · exact hkids.ancestor_of_mem b hb
    · exact hkids.ancestor_of_above hab
    · exact hrest.ancestor_of_above hab

theorem shape_nil (root : α) : Shape ⟨fun _ => none, fun _ => []⟩ root .nil where
  nodup := List.nodup_singleton root
  top := rfl
  kids := rfl
  linked := trivial
  outside _ _ := rfl

variable [DecidableEq α]

/-- Add a node without children at the head of the list of `p`. -/
def insert (L : Links α) (p x : α) : Links α where
  parent := Function.update L.parent x (some p)
  children := Function.update (Function.update L.children x []) p (x :: L.children p)

/-- Take a node off the list of its parent. -/
def remove (L : Links α) (x : α) : Links α :=
  match L.parent x with
  | some p => { L with children := Function.update L.children p ((L.children p).erase x) }
  | none => L

theorem insert_parent_of_ne (hax : a ≠ x) : (L.insert p x).parent a = L.parent a := by
  simp [insert, hax]

theorem insert_parent_self (L : Links α) (p x : α) : (L.insert p x).parent x = some p := by
  simp [insert]

theorem insert_children_of_ne (hap : a ≠ p) (hax : a ≠ x) :
    (L.insert p x).children a = L.children a := by
  simp [insert, hap, hax]

theorem insert_children_self (L : Links α) (p x : α) :
    (L.insert p x).children p = x :: L.children p := by
  simp [insert]

theorem insert_children_new (hxp : x ≠ p) : (L.insert p x).children x = [] := by
  simp [insert, hxp]

theorem Linked.insert_outside (h : L.Linked q f) (hp : p ∉ f.preorder) (hx : x ∉ f.preorder) :
    (L.insert p x).Linked q f :=
  h.congr (fun _ ha => insert_parent_of_ne fun hax => hx (hax ▸ ha)) fun _ ha =>
    insert_children_of_ne (fun hap => hp (hap ▸ ha)) fun hax => hx (hax ▸ ha)

theorem Linked.insert : ∀ {q : α} {f : Forest α}, L.Linked q f → f.preorder.Nodup →
    x ∉ f.preorder → x ≠ p → (L.insert p x).Linked q (f.insert p x)
  | _, .nil, _, _, _, _ => trivial
  | q, .node a kids rest, ⟨hparent, hchildren, hkids, hrest⟩, hnodup, hx, hxp => by
    obtain ⟨hak, har, hnk, hnr, hdisj⟩ := Forest.nodup_preorder_node hnodup
    rw [Forest.mem_preorder_node, not_or, not_or] at hx
    obtain ⟨hxa, hxk, hxr⟩ := hx
    have hparent' : (L.insert p x).parent a = some q :=
      (insert_parent_of_ne (Ne.symm hxa)).trans hparent
    unfold Forest.insert
    split
    · rename_i hap
      subst hap
      refine ⟨hparent', ?_, ⟨?_, insert_children_new hxp, trivial, ?_⟩, ?_⟩
      · rw [insert_children_self, hchildren]
        rfl
      · exact insert_parent_self L a x
      · exact hkids.insert_outside hak hxk
      · exact hrest.insert_outside har hxr
    · rename_i hap
      refine ⟨hparent', ?_, Linked.insert hkids hnk hxk hxp, Linked.insert hrest hnr hxr hxp⟩
      rw [insert_children_of_ne hap (Ne.symm hxa), hchildren, Forest.roots_insert]

/-- A node that is in no list is added below the root or a node. -/
theorem Shape.insert (h : L.Shape root f) (hp : p = root ∨ p ∈ f.preorder)
    (hx : x ∉ root :: f.preorder) : ∃ f', (L.insert p x).Shape root f' ∧
      (p = root ∧ f' = .node x .nil f ∨ p ∈ f.preorder ∧ f' = f.insert p x) ∧
      (∀ b, b ∈ f'.preorder ↔ b = x ∨ b ∈ f.preorder) ∧
      ∀ a b, f'.Above a b → f.Above a b ∨ b = x := by
  obtain ⟨hroot, hnodup⟩ := List.nodup_cons.mp h.nodup
  rw [List.mem_cons, not_or] at hx
  obtain ⟨hxroot, hxf⟩ := hx
  have htop : (L.insert p x).parent root = none :=
    (insert_parent_of_ne (Ne.symm hxroot)).trans h.top
  -- the other nodes keep their lists
  have hout : ∀ f' : Forest α, (∀ b, b ∈ f'.preorder ↔ b = x ∨ b ∈ f.preorder) →
      ∀ a, a ∉ root :: f'.preorder → (L.insert p x).children a = [] := by
    intro f' hmem a ha
    rw [List.mem_cons, hmem, not_or, not_or] at ha
    obtain ⟨har, hax, haf⟩ := ha
    have hap : a ≠ p := by
      rintro rfl
      exact hp.elim har haf
    rw [insert_children_of_ne hap hax]
    exact h.outside a fun hmem => (List.mem_cons.mp hmem).elim har haf
  rcases hp with rfl | hp
  · have hmem : ∀ b, b ∈ (Forest.node x .nil f).preorder ↔ b = x ∨ b ∈ f.preorder :=
      fun b => List.mem_cons
    refine ⟨.node x .nil f, ⟨?_, htop, ?_, ⟨?_, ?_, trivial, ?_⟩, hout _ hmem⟩, .inl ⟨rfl, rfl⟩,
      hmem, fun a b hab => ?_⟩
    · refine List.nodup_cons.mpr ⟨?_, List.nodup_cons.mpr ⟨hxf, hnodup⟩⟩
      rw [hmem]
      exact not_or.mpr ⟨Ne.symm hxroot, hroot⟩
    · rw [insert_children_self, h.kids]
      rfl
    · exact insert_parent_self L p x
    · exact insert_children_new hxroot
    · exact h.linked.insert_outside hroot hxf
    · rcases hab with ⟨rfl, hb⟩ | h | h
      · cases hb
      · cases h
      · exact .inl h
  · have hmem : ∀ b, b ∈ (f.insert p x).preorder ↔ b = x ∨ b ∈ f.preorder :=
      fun b => Forest.mem_insert hnodup hp
    have hxp : x ≠ p := fun hxp => hxf (hxp ▸ hp)
    have hrp : root ≠ p := fun hrp => hroot (hrp ▸ hp)
    refine ⟨f.insert p x, ⟨?_, htop, ?_, ?_, hout _ hmem⟩, .inr ⟨hp, rfl⟩, hmem,
      fun a b hab => ?_⟩
    · refine List.nodup_cons.mpr ⟨?_, ?_⟩
      · rw [hmem]
        exact not_or.mpr ⟨Ne.symm hxroot, hroot⟩
      · rw [(Forest.preorder_insert hnodup hp).nodup_iff]
        exact List.nodup_cons.mpr ⟨hxf, hnodup⟩
    · rw [insert_children_of_ne hrp (Ne.symm hxroot), Forest.roots_insert]
      exact h.kids
    · exact h.linked.insert hnodup hxf hxp
    · exact Forest.above_insert hnodup hab

theorem Linked.remove : ∀ {q : α} {f : Forest α}, L.Linked q f → f.preorder.Nodup →
    L.parent x = some p → (L.remove x).Linked q (f.remove x)
  | _, .nil, _, _, _ => trivial
  | q, .node a kids rest, ⟨hparent, hchildren, hkids, hrest⟩, hnodup, hxp => by
    obtain ⟨hak, har, hnk, hnr, hdisj⟩ := Forest.nodup_preorder_node hnodup
    unfold Forest.remove
    split
    · rename_i hax
      have hx : x ∉ rest.preorder := hax ▸ har
      have h := Linked.remove hrest hnr hxp
      rwa [Forest.remove_of_notMem hx] at h
    · refine ⟨?_, ?_, Linked.remove hkids hnk hxp, Linked.remove hrest hnr hxp⟩
      · unfold Links.remove
        rw [hxp]
        exact hparent
      · unfold Links.remove
        rw [hxp, Forest.roots_remove, ← hchildren]
        by_cases hap : a = p
        · rw [hap]
          exact Function.update_self p _ L.children
        · -- a node in the list has its parent there
          have hx : x ∉ L.children a := by
            intro hx
            have hxa := hkids.parent_root x (hchildren ▸ hx)
            exact hap (Option.some.inj (hxa.symm.trans hxp))
          rw [List.erase_of_not_mem hx]
          exact Function.update_of_ne hap _ L.children

/-- With a node without children no other node is taken off. -/
theorem Linked.mem_remove (hleaf : L.children x = []) : ∀ {q : α} {f : Forest α}, L.Linked q f →
    f.preorder.Nodup → ∀ b, b ∈ (f.remove x).preorder ↔ b ≠ x ∧ b ∈ f.preorder
  | _, .nil, _, _, b => by simp [Forest.remove, Forest.preorder]
  | q, .node a kids rest, ⟨_, hchildren, hkids, hrest⟩, hnodup, b => by
    obtain ⟨hak, har, hnk, hnr, hdisj⟩ := Forest.nodup_preorder_node hnodup
    unfold Forest.remove
    split
    · rename_i hax
      have hk : kids = .nil := Forest.eq_nil_of_roots (by rw [← hchildren, hax, hleaf])
      rw [Forest.mem_preorder_node, hk]
      constructor
      · intro hb
        exact ⟨fun hbx => har (hax ▸ hbx ▸ hb), .inr (.inr hb)⟩
      · rintro ⟨hbx, rfl | hb | hb⟩
        · exact absurd hax hbx
        · cases hb
        · exact hb
    · rename_i hax
      rw [Forest.mem_preorder_node, Forest.mem_preorder_node, hkids.mem_remove hleaf hnk b,
        hrest.mem_remove hleaf hnr b]
      constructor
      · rintro (rfl | ⟨hbx, hb⟩ | ⟨hbx, hb⟩)
        · exact ⟨hax, .inl rfl⟩
        · exact ⟨hbx, .inr (.inl hb)⟩
        · exact ⟨hbx, .inr (.inr hb)⟩
      · rintro ⟨hbx, rfl | hb | hb⟩
        · exact .inl rfl
        · exact .inr (.inl ⟨hbx, hb⟩)
        · exact .inr (.inr ⟨hbx, hb⟩)

/-- A node without children is taken off. -/
theorem Shape.remove (h : L.Shape root f) (hx : x ∈ f.preorder) (hleaf : L.children x = []) :
    (L.remove x).Shape root (f.remove x) ∧
      ∀ b, b ∈ (f.remove x).preorder ↔ b ≠ x ∧ b ∈ f.preorder := by
  obtain ⟨hroot, hnodup⟩ := List.nodup_cons.mp h.nodup
  obtain ⟨p, hxp, hp⟩ := h.linked.exists_parent x hx
  have hmem := h.linked.mem_remove hleaf hnodup
  have hremove : L.remove x =
      { L with children := Function.update L.children p ((L.children p).erase x) } := by
    unfold Links.remove
    rw [hxp]
  have hsub := Forest.preorder_remove (x := x) f
  refine ⟨⟨?_, ?_, ?_, h.linked.remove hnodup hxp, fun a ha => ?_⟩, hmem⟩
  · exact List.nodup_cons.mpr ⟨fun hmem => hroot (hsub.subset hmem), hnodup.sublist hsub⟩
  · rw [hremove]
    exact h.top
  · rw [hremove, Forest.roots_remove, ← h.kids]
    rcases hp with ⟨rfl, -⟩ | ⟨hp, -⟩
    · exact Function.update_self p _ L.children
    · have hrp : root ≠ p := fun hrp => hroot (hrp ▸ hp)
      have hx' : x ∉ L.children root := by
        intro hx'
        have hxr := h.linked.parent_root x (h.kids ▸ hx')
        exact hrp (Option.some.inj (hxr.symm.trans hxp))
      rw [List.erase_of_not_mem hx']
      exact Function.update_of_ne hrp _ L.children
  · rw [List.mem_cons, hmem, not_or, not_and_or, not_not] at ha
    have hnil : L.children a = [] := by
      rcases ha.2 with rfl | haf
      · exact hleaf
      · exact h.outside a fun hmem => (List.mem_cons.mp hmem).elim ha.1 haf
    rw [hremove]
    by_cases hap : a = p
    · subst hap
      show Function.update L.children a ((L.children a).erase x) a = []
      rw [Function.update_self, hnil]
      rfl
    · exact (Function.update_of_ne hap _ L.children).trans hnil

end Links

end Trees
end LinuxProg
