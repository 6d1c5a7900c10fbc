/-
# Values handed down a tree

Each node of a tree has a value that a rule gives from the value of its parent
(`Settled`). When the rule changes at one node, the values below it are brought
up to date on the way down, and what is below a node whose value does not change
is left out (`settle`). All values are right afterwards (`settled_settle`,
`settled_subtree`).
-/
import Mathlib
import LinuxProg.Lib.Trees

namespace LinuxProg
namespace Trees
namespace Forest

variable {α β : Type*} {rule rule' : α → β → β} {v v' : α → β} {f kids rest : Forest α} {a p top : α}

/-- Each node has the value that the rule gives from the value above it. -/
def Settled (rule : α → β → β) (v : α → β) : α → Forest α → Prop
  | _, nil => True
  | p, node a kids rest => v a = rule a (v p) ∧ kids.Settled rule v a ∧ rest.Settled rule v p

/-- As `Settled`, whatever the values of the roots are. -/
def Inner (rule : α → β → β) (v : α → β) : Forest α → Prop
  | nil => True
  | node a kids rest => kids.Settled rule v a ∧ rest.Inner rule v

theorem Settled.inner : ∀ {f : Forest α}, f.Settled rule v p → f.Inner rule v
  | nil, _ => trivial
  | node _ _ rest, h => ⟨h.2.1, Settled.inner (f := rest) h.2.2⟩

theorem Settled.congr : ∀ {p : α} {f : Forest α}, f.Settled rule v p → v' p = v p →
    (∀ a ∈ f.preorder, v' a = v a) → (∀ a ∈ f.preorder, rule' a = rule a) → f.Settled rule' v' p
  | _, nil, _, _, _, _ => trivial
  | p, node a kids rest, ⟨ha, hkids, hrest⟩, hp, heq, hrule => by
    have hmem : a ∈ (node a kids rest).preorder := List.mem_cons_self
    have hk : ∀ b ∈ kids.preorder, b ∈ (node a kids rest).preorder :=
      fun b hb => mem_preorder_node.mpr (.inr (.inl hb))
    have hr : ∀ b ∈ rest.preorder, b ∈ (node a kids rest).preorder :=
      fun b hb => mem_preorder_node.mpr (.inr (.inr hb))
    refine ⟨?_, ?_, ?_⟩
    · rw [heq a hmem, hp, hrule a hmem]
      exact ha
    · exact hkids.congr (heq a hmem) (fun b hb => heq b (hk b hb)) fun b hb => hrule b (hk b hb)
    · exact hrest.congr hp (fun b hb => heq b (hr b hb)) fun b hb => hrule b (hr b hb)

theorem Inner.congr : ∀ {f : Forest α}, f.Inner rule v → (∀ a ∈ f.preorder, v' a = v a) →
    (∀ a ∈ f.preorder, rule' a = rule a) → f.Inner rule' v'
  | nil, _, _, _ => trivial
  | node a kids rest, ⟨hkids, hrest⟩, heq, hrule => by
    have hk : ∀ b ∈ kids.preorder, b ∈ (node a kids rest).preorder :=
      fun b hb => mem_preorder_node.mpr (.inr (.inl hb))
    have hr : ∀ b ∈ rest.preorder, b ∈ (node a kids rest).preorder :=
      fun b hb => mem_preorder_node.mpr (.inr (.inr hb))
    refine ⟨?_, ?_⟩
    · exact hkids.congr (heq a List.mem_cons_self) (fun b hb => heq b (hk b hb))
        fun b hb => hrule b (hk b hb)
    · exact hrest.congr (fun b hb => heq b (hr b hb)) fun b hb => hrule b (hr b hb)

/-- What is settled at a node of a linked forest. -/
theorem Settled.exists_parent {L : Links α} : ∀ {p : α} {f : Forest α}, L.Linked p f →
    f.Settled rule v p → ∀ a ∈ f.preorder, ∃ q, L.parent a = some q ∧ v a = rule a (v q)
  | p, node b kids rest, ⟨hparent, _, hkids, hrest⟩, ⟨hb, hk, hr⟩, a, ha => by
    rcases mem_preorder_node.mp ha with rfl | ha | ha
    · exact ⟨p, hparent, hb⟩
    · exact Settled.exists_parent (f := kids) hkids hk a ha
    · exact Settled.exists_parent (f := rest) hrest hr a ha

variable [DecidableEq α]

/-- A node that is added may have any value, by a rule for it alone. -/
theorem Settled.insert {x : α} : ∀ {q : α} {f : Forest α}, f.Settled rule v q →
    f.preorder.Nodup → x ∉ f.preorder → q ≠ x → (∀ a, a ≠ x → v' a = v a) →
    (∀ a, a ≠ x → rule' a = rule a) → (∀ c, rule' x c = v' x) → (f.insert p x).Settled rule' v' q
  | _, nil, _, _, _, _, _, _, _ => trivial
  | q, node a kids rest, h, hnodup, hx, hqx, hv, hrule, hnew => by
    obtain ⟨ha, hkids, hrest⟩ := h
    obtain ⟨-, -, hnk, hnr, -⟩ := nodup_preorder_node hnodup
    rw [mem_preorder_node, not_or, not_or] at hx
    obtain ⟨hxa, hxk, hxr⟩ := hx
    have hax : a ≠ x := Ne.symm hxa
    have ha' : v' a = rule' a (v' q) := by
      rw [hv a hax, hrule a hax, hv q hqx]
      exact ha
    unfold Forest.insert
    split
    · refine ⟨ha', ⟨(hnew _).symm, trivial, ?_⟩, ?_⟩
      · exact hkids.congr (hv a hax) (fun b hb => hv b fun h => hxk (h ▸ hb))
          fun b hb => hrule b fun h => hxk (h ▸ hb)
      · exact hrest.congr (hv q hqx) (fun b hb => hv b fun h => hxr (h ▸ hb))
          fun b hb => hrule b fun h => hxr (h ▸ hb)
    · exact ⟨ha', Settled.insert hkids hnk hxk hax hv hrule hnew,
        Settled.insert hrest hnr hxr hqx hv hrule hnew⟩

theorem Settled.remove {x : α} : ∀ {q : α} {f : Forest α}, f.Settled rule v q →
    (f.remove x).Settled rule v q
  | _, nil, _ => trivial
  | q, node a kids rest, ⟨ha, hkids, hrest⟩ => by
    unfold Forest.remove
    split
    · exact hrest
    · exact ⟨ha, Settled.remove hkids, Settled.remove hrest⟩

variable [DecidableEq β]

/-- Bring the values up to date on the way down, and leave out what is below a
node whose value does not change. -/
def settle (rule : α → β → β) : α → Forest α → (α → β) → α → β
  | _, nil, v => v
  | p, node a kids rest, v =>
    rest.settle rule p (if rule a (v p) ≠ v a then
      kids.settle rule a (Function.update v a (rule a (v p))) else v)

theorem settle_of_notMem : ∀ {p : α} {f : Forest α} (v : α → β), a ∉ f.preorder →
    f.settle rule p v a = v a
  | _, nil, _, _ => rfl
  | p, node b kids rest, v, ha => by
    rw [mem_preorder_node, not_or, not_or] at ha
    obtain ⟨hab, hkids, hrest⟩ := ha
    unfold settle
    rw [settle_of_notMem _ hrest]
    split
    · rw [settle_of_notMem _ hkids]
      exact Function.update_of_ne hab _ v
    · rfl

/-- If only the values of the roots may be wrong, all are right afterwards. -/
theorem settled_settle : ∀ {p : α} {f : Forest α} {v : α → β}, f.preorder.Nodup → p ∉ f.preorder →
    f.Inner rule v → f.Settled rule (f.settle rule p v) p
  | _, nil, _, _, _, _ => trivial
  | p, node a kids rest, v, hnodup, hp, ⟨hkids, hrest⟩ => by
    obtain ⟨hak, har, hnk, hnr, hdisj⟩ := nodup_preorder_node hnodup
    rw [mem_preorder_node, not_or, not_or] at hp
    obtain ⟨hpa, hpk, hpr⟩ := hp
    -- the values after the node and those below it
    have hmid : ∃ w, w = (if rule a (v p) ≠ v a then
          kids.settle rule a (Function.update v a (rule a (v p))) else v) ∧
        w a = rule a (v p) ∧ w p = v p ∧ kids.Settled rule w a ∧
        ∀ b ∈ rest.preorder, w b = v b := by
      refine ⟨_, rfl, ?_⟩
      split
      · have hother : ∀ b, b ≠ a → Function.update v a (rule a (v p)) b = v b :=
          fun b hb => Function.update_of_ne hb _ v
        refine ⟨?_, ?_, ?_, fun b hb => ?_⟩
        · rw [settle_of_notMem _ hak, Function.update_self]
        · rw [settle_of_notMem _ hpk, hother p hpa]
        · apply settled_settle hnk hak
          exact hkids.inner.congr (fun b hb => hother b fun h => hak (h ▸ hb)) fun _ _ => rfl
        · rw [settle_of_notMem _ fun h => hdisj b h hb]
          exact hother b fun h => har (h ▸ hb)
      · rename_i heq
        exact ⟨(not_not.mp heq).symm, rfl, hkids, fun _ _ => rfl⟩
    obtain ⟨w, hw, hwa, hwp, hwk, hwr⟩ := hmid
    unfold settle
    rw [← hw]
    refine ⟨?_, ?_, ?_⟩
    · rw [settle_of_notMem _ har, settle_of_notMem _ hpr, hwa, hwp]
    · refine hwk.congr (settle_of_notMem _ har) (fun b hb => ?_) fun _ _ => rfl
      exact settle_of_notMem _ (hdisj b hb)
    · exact settled_settle hnr hpr (hrest.congr hwr fun _ _ => rfl)

/-- Settling a tree inside a forest changes nothing outside the forest. -/
theorem settle_node_of_notMem {f kids : Forest α} {q b : α} (rule : α → β → β) (v : α → β)
    (htop : top ∈ f.preorder) (hsub : ∀ a ∈ kids.preorder, a ∈ f.preorder) (hb : b ∉ f.preorder) :
    (node top kids nil).settle rule q v b = v b := by
  apply settle_of_notMem
  rw [mem_preorder_node, not_or, not_or]
  exact ⟨fun h => hb (h ▸ htop), fun h => hb (hsub b h), List.not_mem_nil⟩

variable (β) in
/-- A node of a linked forest with what is below it: if the rule changes there
only, all values of the forest are right after those below are settled. -/
theorem settled_subtree {L : Links α} : ∀ {p : α} {f : Forest α}, L.Linked p f →
    f.preorder.Nodup → p ∉ f.preorder → top ∈ f.preorder → ∃ q kids, L.parent top = some q ∧
      L.children top = kids.roots ∧ L.Linked top kids ∧ (top :: kids.preorder).Nodup ∧
      q ∉ top :: kids.preorder ∧ (∀ a ∈ kids.preorder, a ∈ f.preorder) ∧
      ∀ (rule rule' : α → β → β) (v : α → β), (∀ a, a ≠ top → rule' a = rule a) →
        f.Settled rule v p → f.Settled rule' ((node top kids nil).settle rule' q v) p
  | p, node a kids rest, ⟨hparent, hchildren, hkids, hrest⟩, hnodup, hp, htop => by
    obtain ⟨hak, har, hnk, hnr, hdisj⟩ := nodup_preorder_node hnodup
    rw [mem_preorder_node, not_or, not_or] at hp
    obtain ⟨hpa, hpk, hpr⟩ := hp
    rcases mem_preorder_node.mp htop with rfl | htop | htop
    · refine ⟨p, kids, hparent, hchildren, hkids, List.nodup_cons.mpr ⟨hak, hnk⟩, ?_, ?_, ?_⟩
      · rw [List.mem_cons, not_or]
        exact ⟨hpa, hpk⟩
      · intro b hb
        exact mem_preorder_node.mpr (.inr (.inl hb))
      · rintro rule rule' v hrule ⟨-, hk, hr⟩
        have hpre : (node top kids nil).preorder = top :: kids.preorder := by
          rw [preorder, preorder, List.append_nil]
        have hnodup' : (node top kids nil).preorder.Nodup :=
          hpre ▸ List.nodup_cons.mpr ⟨hak, hnk⟩
        have hp' : p ∉ (node top kids nil).preorder := by
          rw [hpre, List.mem_cons, not_or]
          exact ⟨hpa, hpk⟩
        have hinner : (node top kids nil).Inner rule' v :=
          ⟨hk.congr rfl (fun _ _ => rfl) fun b hb => hrule b fun h => hak (h ▸ hb), trivial⟩
        obtain ⟨h1, h2, -⟩ := settled_settle hnodup' hp' hinner
        refine ⟨h1, h2, hr.congr (settle_of_notMem _ hp') (fun b hb => ?_) fun b hb => ?_⟩
        · apply settle_of_notMem
          rw [hpre, List.mem_cons, not_or]
          exact ⟨fun h => har (h ▸ hb), fun h => hdisj b h hb⟩
        · exact hrule b fun h => har (h ▸ hb)
    · obtain ⟨q, kids', hq, hc, hl, hn, hqn, hsub, hsettle⟩ :=
        settled_subtree (f := kids) hkids hnk hak htop
      refine ⟨q, kids', hq, hc, hl, hn, hqn, fun b hb => ?_, ?_⟩
      · exact mem_preorder_node.mpr (.inr (.inl (hsub b hb)))
      · rintro rule rule' v hrule ⟨ha, hk, hr⟩
        have hout : ∀ b, b ∉ kids.preorder →
            (node top kids' nil).settle rule' q v b = v b :=
          fun b hb => settle_node_of_notMem rule' v htop hsub hb
        refine ⟨?_, hsettle rule rule' v hrule hk, hr.congr (hout p hpk) (fun b hb => ?_) ?_⟩
        · rw [hout a hak, hout p hpk, hrule a fun h => hak (h ▸ htop)]
          exact ha
        · exact hout b fun h => hdisj b h hb
        · exact fun b hb => hrule b fun h => hdisj b (h ▸ htop) hb
    · obtain ⟨q, kids', hq, hc, hl, hn, hqn, hsub, hsettle⟩ :=
        settled_subtree (f := rest) hrest hnr hpr htop
      refine ⟨q, kids', hq, hc, hl, hn, hqn, fun b hb => ?_, ?_⟩
      · exact mem_preorder_node.mpr (.inr (.inr (hsub b hb)))
      · rintro rule rule' v hrule ⟨ha, hk, hr⟩
        have hout : ∀ b, b ∉ rest.preorder →
            (node top kids' nil).settle rule' q v b = v b :=
          fun b hb => settle_node_of_notMem rule' v htop hsub hb
        refine ⟨?_, hk.congr (hout a har) (fun b hb => ?_) fun b hb => ?_,
          hsettle rule rule' v hrule hr⟩
        · rw [hout a har, hout p hpr, hrule a fun h => har (h ▸ htop)]
          exact ha
        · exact hout b (hdisj b hb)
        · exact hrule b fun h => hdisj b hb (h ▸ htop)

end Forest
end Trees
end LinuxProg
