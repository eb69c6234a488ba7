import ActiveMarkup.Proofs.Document.Links
set_option autoImplicit false

/-!
Documents that are trees. The two stored forms of a link agree, no child stands twice, and every
chain of parents ends; the walks up and down, which are given a bounded number of steps, are then
complete.
-/

namespace ActiveMarkup

def NodeKind.isLeaf : NodeKind → Bool
  | text _ | comment _ => true
  | document | element _ => false

namespace Document

/-- A node is another one or stands above it. -/
inductive Above (d : Document) (a : NodeId) : NodeId → Prop where
  | self : Above d a a
  | step {id p : NodeId} : d.parent? id = some p → Above d a p → Above d a id

inductive Grounded (d : Document) : NodeId → Prop where
  | top {id : NodeId} : d.parent? id = none → Grounded d id
  | step {id p : NodeId} : d.parent? id = some p → Grounded d p → Grounded d id

/-- The links of a document make it a forest whose first tree is that of the root. -/
structure IsTree (d : Document) : Prop where
  root_kind : ∀ id, d.kind? id = some .document ↔ id = .root
  root_top : d.parent? .root = none
  mem_children : ∀ p c, c ∈ d.children p ↔ d.parent? c = some p
  once : ∀ p, (d.children p).Nodup
  leaf : ∀ p kind, d.kind? p = some kind → kind.isLeaf = true → d.children p = []
  grounded : ∀ id, d.Grounded id

variable {d d' : Document} {a b c p x : NodeId}

namespace Above

theorem trans (hab : d.Above a b) (hbc : d.Above b c) : d.Above a c := by
  induction hbc with
  | self => exact hab
  | step hp _ ih => exact .step hp ih

theorem of_parent (h : d.parent? x = some p) : d.Above p x :=
  .step h .self

theorem total (ha : d.Above a x) (hb : d.Above b x) : d.Above a b ∨ d.Above b a := by
  induction ha with
  | self => exact .inr hb
  | step hp ha ih =>
    cases hb with
    | self => exact .inl (.step hp ha)
    | step hp' hb =>
      rw [hp] at hp'
      cases hp'
      exact ih hb

theorem parent_of_ne (h : d.Above a x) (hne : a ≠ x) :
    ∃ p, d.parent? x = some p ∧ d.Above a p := by
  cases h with
  | self => exact (hne rfl).elim
  | step hp ha => exact ⟨_, hp, ha⟩

theorem child_of_ne (h : d.Above a x) (hne : a ≠ x) :
    ∃ c, d.parent? c = some a ∧ d.Above c x := by
  induction h with
  | self => exact (hne rfl).elim
  | @step id p hp _ ih =>
    by_cases hap : a = p
    · exact ⟨id, hap ▸ hp, .self⟩
    · obtain ⟨c, hc, hcp⟩ := ih hap
      exact ⟨c, hc, .step hp hcp⟩

theorem known (h : d.Above a x) (ha : d.Known a) : d.Known x := by
  cases h with
  | self => exact ha
  | step hp _ => exact known_of_parent? hp

theorem eq_of_top (h : d.Above a x) (hx : d.parent? x = none) : a = x := by
  cases h with
  | self => rfl
  | step hp _ => simp [hx] at hp

/-- A change of one parent link is not seen from a node that does not stand under it. -/
theorem transfer (h : d.Above a x) (hpar : ∀ y, y ≠ c → d'.parent? y = d.parent? y)
    (hc : ¬ d.Above c x) : d'.Above a x := by
  induction h with
  | self => exact .self
  | @step id p hp _ ih =>
    have hne : id ≠ c := by
      rintro rfl
      exact hc .self
    exact .step ((hpar id hne).trans hp) (ih fun hcp => hc (.step hp hcp))

theorem of_transfer (h : d'.Above a x) (hpar : ∀ y, y ≠ c → d'.parent? y = d.parent? y)
    (hc : ¬ d.Above c x) : d.Above a x := by
  induction h with
  | self => exact .self
  | @step id p hp _ ih =>
    have hne : id ≠ c := by
      rintro rfl
      exact hc .self
    have hp' : d.parent? id = some p := (hpar id hne).symm.trans hp
    exact .step hp' (ih fun hcp => hc (.step hp' hcp))

end Above

theorem above_congr (hpar : ∀ y, d'.parent? y = d.parent? y) : d'.Above a x ↔ d.Above a x := by
  constructor <;> intro h
  · induction h with
    | self => exact .self
    | step hp _ ih => exact .step ((hpar _).symm.trans hp) ih
  · induction h with
    | self => exact .self
    | step hp _ ih => exact .step ((hpar _).trans hp) ih

theorem Grounded.transfer (h : d.Grounded x) (hpar : ∀ y, y ≠ c → d'.parent? y = d.parent? y)
    (hc : ¬ d.Above c x) : d'.Grounded x := by
  induction h with
  | @top id hp =>
    have hne : id ≠ c := by
      rintro rfl
      exact hc .self
    exact .top ((hpar id hne).trans hp)
  | @step id p hp _ ih =>
    have hne : id ≠ c := by
      rintro rfl
      exact hc .self
    exact .step ((hpar id hne).trans hp) (ih fun hcp => hc (.step hp hcp))

theorem Grounded.not_above_parent (h : d.Grounded x) (hp : d.parent? x = some p) :
    ¬ d.Above x p := by
  induction h generalizing p with
  | top hx => simp [hx] at hp
  | @step id q hq _ ih =>
    rw [hq] at hp
    cases hp
    intro hab
    cases hab with
    | self => exact ih hq .self
    | step hr hab => exact ih hr ((Above.of_parent hq).trans hab)

theorem mem_ancestorsWithin {steps : Nat} (h : a ∈ d.ancestorsWithin steps x) : d.Above a x := by
  induction steps generalizing x with
  | zero => simp [ancestorsWithin] at h
  | succ steps ih =>
    simp only [ancestorsWithin, List.mem_cons] at h
    rcases h with rfl | h
    · exact .self
    · cases hp : d.parent? x with
      | none => simp [hp] at h
      | some p => exact .step hp (ih (by simpa [hp] using h))

theorem ancestorsWithin_congr (hpar : ∀ y, d'.parent? y = d.parent? y) (steps : Nat)
    (x : NodeId) : d'.ancestorsWithin steps x = d.ancestorsWithin steps x := by
  induction steps generalizing x with
  | zero => rfl
  | succ steps ih =>
    simp only [ancestorsWithin, hpar]
    cases d.parent? x with
    | none => rfl
    | some p => simp only [ih]

theorem isConnected_of_nodes (hn : d'.nodes = d.nodes) (x : NodeId) :
    d'.isConnected x = d.isConnected x := by
  obtain ⟨nodes, journal⟩ := d
  obtain ⟨_, journal'⟩ := d'
  cases hn
  have hpar : ∀ y, parent? ⟨nodes, journal'⟩ y = parent? ⟨nodes, journal⟩ y := fun _ => rfl
  have hw := ancestorsWithin_congr hpar (nodes.size + 1) x
  exact congrArg (·.contains NodeId.root) hw

theorem ancestorsWithin_add {steps : Nat} (h : (d.ancestorsWithin steps x).length < steps)
    (more : Nat) : d.ancestorsWithin (steps + more) x = d.ancestorsWithin steps x := by
  induction steps generalizing x with
  | zero => simp at h
  | succ steps ih =>
    rw [Nat.succ_add]
    cases hp : d.parent? x with
    | none => simp [ancestorsWithin, hp]
    | some p =>
      have hlt : (d.ancestorsWithin steps p).length < steps := by
        simpa [ancestorsWithin, hp] using h
      simp [ancestorsWithin, hp, ih hlt]

theorem ancestorsWithin_nodup (hg : ∀ id, d.Grounded id) (steps : Nat) (x : NodeId) :
    (d.ancestorsWithin steps x).Nodup := by
  induction steps generalizing x with
  | zero => simp [ancestorsWithin]
  | succ steps ih =>
    cases hp : d.parent? x with
    | none => simp [ancestorsWithin, hp]
    | some p =>
      simp only [ancestorsWithin, hp, List.nodup_cons]
      exact ⟨fun hm => (hg x).not_above_parent hp (mem_ancestorsWithin hm), ih p⟩

theorem length_le_of_known {l : List NodeId} (hn : l.Nodup) (hk : ∀ id ∈ l, d.Known id) :
    l.length ≤ d.nodes.size := by
  have hsub : l ⊆ (List.range d.nodes.size).map NodeId.mk := by
    intro id hid
    exact List.mem_map.mpr ⟨id.index, List.mem_range.mpr (hk id hid), rfl⟩
  simpa using hn.length_le_of_subset hsub

namespace IsTree

theorem known_parent (h : d.IsTree) (hp : d.parent? x = some p) : d.Known p :=
  known_of_mem_children ((h.mem_children p x).mpr hp)

theorem known_child (h : d.IsTree) (hc : c ∈ d.children p) : d.Known c :=
  known_of_parent? ((h.mem_children p c).mp hc)

theorem known_root (h : d.IsTree) : d.Known .root :=
  known_of_kind? ((h.root_kind .root).mpr rfl)

theorem holdsRawText_root (h : d.IsTree) : d.holdsRawText .root = false := by
  rw [holdsRawText, tag?, element?_eq, (h.root_kind .root).mpr rfl]
  rfl

theorem known_above (h : d.IsTree) (ha : d.Above a x) (hx : d.Known x) : d.Known a := by
  induction ha with
  | self => exact hx
  | step hp _ ih => exact ih (h.known_parent hp)

theorem above_antisymm (h : d.IsTree) (hab : d.Above a b) (hba : d.Above b a) : a = b := by
  refine Decidable.byContradiction fun hne => ?_
  obtain ⟨p, hp, hap⟩ := hab.parent_of_ne hne
  exact (h.grounded b).not_above_parent hp (hba.trans hap)

theorem above_root (h : d.IsTree) (ha : d.Above a .root) : a = .root :=
  ha.eq_of_top h.root_top

theorem ancestors_length_lt (h : d.IsTree) (x : NodeId) :
    (d.ancestors x).length < d.nodes.size + 1 := by
  by_cases hx : d.Known x
  · have hk : ∀ a ∈ d.ancestors x, d.Known a := fun a ha =>
      h.known_above (mem_ancestorsWithin ha) hx
    have hle := length_le_of_known (ancestorsWithin_nodup h.grounded _ x) hk
    exact Nat.lt_succ_of_le hle
  · have hroot : 0 < d.nodes.size := h.known_root
    simp only [ancestors, ancestorsWithin, parent?_fresh hx, List.length_cons, List.length_nil]
    omega

theorem ancestorsWithin_eq (h : d.IsTree) (more : Nat) (x : NodeId) :
    d.ancestorsWithin (d.nodes.size + 1 + more) x = d.ancestors x :=
  ancestorsWithin_add (h.ancestors_length_lt x) more

theorem ancestors_eq (h : d.IsTree) (x : NodeId) :
    d.ancestors x = x :: (d.parent? x).elim [] d.ancestors := by
  rw [← h.ancestorsWithin_eq 1 x, ancestorsWithin]
  cases d.parent? x <;> rfl

theorem ancestors_length (h : d.IsTree) (hp : d.parent? c = some p) :
    (d.ancestors c).length = (d.ancestors p).length + 1 := by
  rw [h.ancestors_eq c, hp]
  rfl

theorem mem_ancestors (h : d.IsTree) : a ∈ d.ancestors x ↔ d.Above a x := by
  refine ⟨mem_ancestorsWithin, fun ha => ?_⟩
  induction ha with
  | self =>
    rw [h.ancestors_eq]
    exact List.mem_cons_self
  | step hp _ ih =>
    rw [h.ancestors_eq, hp]
    exact List.mem_cons_of_mem _ ih

theorem mem_tail_ancestors (h : d.IsTree) :
    a ∈ (d.ancestors x).tail ↔ d.Above a x ∧ a ≠ x := by
  rw [h.ancestors_eq, List.tail_cons]
  constructor
  · intro ha
    cases hp : d.parent? x with
    | none => simp [hp] at ha
    | some p =>
      rw [hp] at ha
      have hap : d.Above a p := h.mem_ancestors.mp ha
      refine ⟨.step hp hap, ?_⟩
      rintro rfl
      exact (h.grounded a).not_above_parent hp hap
  · rintro ⟨ha, hne⟩
    obtain ⟨p, hp, hap⟩ := ha.parent_of_ne hne
    rw [hp]
    exact h.mem_ancestors.mpr hap

theorem isAncestor_iff (h : d.IsTree) : d.isAncestor a x = true ↔ d.Above a x := by
  rw [isAncestor, List.contains_iff_mem, h.mem_ancestors]

theorem isConnected_iff (h : d.IsTree) : d.isConnected x = true ↔ d.Above .root x :=
  h.isAncestor_iff

theorem above_of_mem_subtreeWithin (h : d.IsTree) {depth : Nat}
    (hm : x ∈ d.subtreeWithin depth a) : d.Above a x := by
  induction depth generalizing a with
  | zero => simp [subtreeWithin] at hm
  | succ depth ih =>
    simp only [subtreeWithin, List.mem_cons, List.mem_flatMap] at hm
    rcases hm with rfl | ⟨c, hc, hm⟩
    · exact .self
    · exact (Above.of_parent ((h.mem_children a c).mp hc)).trans (ih hm)

theorem mem_subtreeWithin_succ {depth : Nat} (hp : p ∈ d.subtreeWithin depth a)
    (hx : x ∈ d.children p) : x ∈ d.subtreeWithin (depth + 1) a := by
  induction depth generalizing a with
  | zero => simp [subtreeWithin] at hp
  | succ depth ih =>
    simp only [subtreeWithin, List.mem_cons, List.mem_flatMap] at hp
    rw [subtreeWithin, List.mem_cons, List.mem_flatMap]
    rcases hp with rfl | ⟨c, hc, hp⟩
    · exact .inr ⟨x, hx, by simp [subtreeWithin]⟩
    · exact .inr ⟨c, hc, ih (by simpa [subtreeWithin] using hp)⟩

/-- A walk down in levels that is settled by its walks from the children: one level more gives
nothing more once the levels and the nodes above make up the arena. -/
theorem walk_succ (h : d.IsTree) {α : Type} {f : Nat → NodeId → α}
    (hf : ∀ depth x, (∀ c ∈ d.children x, f (depth + 1) c = f depth c) →
      f (depth + 2) x = f (depth + 1) x)
    {depth : Nat} (hx : d.Known x) (hd : d.nodes.size < depth + (d.ancestors x).length) :
    f (depth + 1) x = f depth x := by
  induction depth generalizing x with
  | zero =>
    have hlt := h.ancestors_length_lt x
    omega
  | succ depth ih =>
    refine hf depth x fun c hc => ih (h.known_child hc) ?_
    rw [h.ancestors_length ((h.mem_children x c).mp hc)]
    omega

theorem subtreeWithin_succ (h : d.IsTree) {depth : Nat} (hx : d.Known x)
    (hd : d.nodes.size < depth + (d.ancestors x).length) :
    d.subtreeWithin (depth + 1) x = d.subtreeWithin depth x := by
  refine h.walk_succ (f := d.subtreeWithin) (fun depth x hstep => ?_) hx hd
  rw [subtreeWithin, subtreeWithin]
  rw [List.flatMap_def, List.flatMap_def, List.map_congr_left hstep]

theorem subtreeWithin_eq (h : d.IsTree) (more : Nat) (x : NodeId) :
    d.subtreeWithin (d.nodes.size + 1 + more) x = d.subtree x := by
  by_cases hx : d.Known x
  · induction more with
    | zero => rfl
    | succ more ih =>
      rw [← ih, ← Nat.add_assoc]
      exact h.subtreeWithin_succ hx (by omega)
  · rw [subtree, Nat.add_right_comm]
    simp only [subtreeWithin, children_fresh hx, List.flatMap_nil]

theorem subtree_eq (h : d.IsTree) (x : NodeId) :
    d.subtree x = x :: (d.children x).flatMap d.subtree := by
  rw [← h.subtreeWithin_eq 1 x]
  rfl

theorem mem_subtree (h : d.IsTree) : x ∈ d.subtree a ↔ d.Above a x := by
  refine ⟨h.above_of_mem_subtreeWithin, fun hab => ?_⟩
  induction hab with
  | self =>
    rw [h.subtree_eq]
    exact List.mem_cons_self
  | step hp _ ih =>
    rw [← h.subtreeWithin_eq 1]
    exact mem_subtreeWithin_succ ih ((h.mem_children _ _).mpr hp)

end IsTree

end Document

end ActiveMarkup
