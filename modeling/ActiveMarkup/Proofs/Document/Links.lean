import ActiveMarkup.Document.Markup
set_option autoImplicit false

namespace ActiveMarkup.Document

def kind? (d : Document) (id : NodeId) : Option NodeKind :=
  (d.node? id).map Node.kind

/-- A handle that is in the arena. -/
def Known (d : Document) (id : NodeId) : Prop :=
  id.index < d.nodes.size

theorem index_eq_iff (a b : NodeId) : a.index = b.index ↔ a = b := by
  cases a
  cases b
  simp

theorem known_iff_node? (d : Document) (id : NodeId) : d.Known id ↔ (d.node? id).isSome := by
  simp [Known, node?]

theorem known_iff_kind? (d : Document) (id : NodeId) : d.Known id ↔ (d.kind? id).isSome := by
  simp [known_iff_node?, kind?]

theorem known_of_kind? {d : Document} {id : NodeId} {kind : NodeKind}
    (h : d.kind? id = some kind) : d.Known id := by
  rw [known_iff_kind?, h]
  rfl

theorem known_of_parent? {d : Document} {id p : NodeId} (h : d.parent? id = some p) :
    d.Known id := by
  rw [known_iff_node?]
  cases hn : d.node? id with
  | none => simp [parent?, hn] at h
  | some n => rfl

theorem known_of_mem_children {d : Document} {p c : NodeId} (h : c ∈ d.children p) :
    d.Known p := by
  rw [known_iff_node?]
  cases hn : d.node? p with
  | none => simp [children, hn] at h
  | some n => rfl

theorem node?_modify (d : Document) (id x : NodeId) (f : Node → Node) :
    (d.modify id f).node? x = if x = id then (d.node? x).map f else d.node? x := by
  simp only [node?, modify, Array.getElem?_modify, index_eq_iff, eq_comm]

theorem known_modify (d : Document) (id x : NodeId) (f : Node → Node) :
    (d.modify id f).Known x ↔ d.Known x := by
  simp [Known, modify]

theorem node?_push (d : Document) (kind : NodeKind) (x : NodeId) :
    (d.push kind).2.node? x =
      if x = (d.push kind).1 then some ⟨none, [], kind⟩ else d.node? x := by
  simp only [node?, push, Array.getElem?_push, ← index_eq_iff]

theorem push_fresh (d : Document) (kind : NodeKind) : ¬ d.Known (d.push kind).1 := by
  simp [Known, push]

theorem ne_push {d : Document} {x : NodeId} (kind : NodeKind) (hx : d.Known x) :
    x ≠ (d.push kind).1 :=
  fun he => d.push_fresh kind (he ▸ hx)

theorem node?_fresh {d : Document} {id : NodeId} (h : ¬ d.Known id) : d.node? id = none := by
  rw [known_iff_node?] at h
  simpa using h

theorem parent?_fresh {d : Document} {id : NodeId} (h : ¬ d.Known id) : d.parent? id = none := by
  simp [parent?, node?_fresh h]

theorem children_fresh {d : Document} {id : NodeId} (h : ¬ d.Known id) : d.children id = [] := by
  simp [children, node?_fresh h]

@[simp] theorem parent?_push (d : Document) (kind : NodeKind) (x : NodeId) :
    (d.push kind).2.parent? x = d.parent? x := by
  by_cases h : x = (d.push kind).1
  · have hx : ¬ d.Known x := h ▸ d.push_fresh kind
    rw [parent?_fresh hx, parent?, node?_push, if_pos h]
    rfl
  · rw [parent?, node?_push, if_neg h]
    rfl

theorem parent?_push_self (d : Document) (kind : NodeKind) :
    (d.push kind).2.parent? (d.push kind).1 = none :=
  (d.parent?_push kind _).trans (parent?_fresh (d.push_fresh kind))

@[simp] theorem children_push (d : Document) (kind : NodeKind) (x : NodeId) :
    (d.push kind).2.children x = d.children x := by
  by_cases h : x = (d.push kind).1
  · have hx : ¬ d.Known x := h ▸ d.push_fresh kind
    rw [children_fresh hx, children, node?_push, if_pos h]
    rfl
  · rw [children, node?_push, if_neg h]
    rfl

theorem kind?_push (d : Document) (kind : NodeKind) (x : NodeId) :
    (d.push kind).2.kind? x = if x = (d.push kind).1 then some kind else d.kind? x := by
  by_cases h : x = (d.push kind).1 <;> simp [kind?, node?_push, h]

theorem known_push (d : Document) (kind : NodeKind) (x : NodeId) :
    (d.push kind).2.Known x ↔ x = (d.push kind).1 ∨ d.Known x := by
  simp only [Known, push, Array.size_push, ← index_eq_iff]
  omega

theorem node?_detach (d : Document) (id x : NodeId) :
    (d.detach id).node? x = (d.node? x).map fun n =>
      { parent := if x = id then none else n.parent
        children := if d.parent? id = some x then n.children.filter (· ≠ id) else n.children
        kind := n.kind } := by
  unfold detach
  split
  next h =>
    cases hn : d.node? x with
    | none => rfl
    | some n =>
      by_cases hx : x = id
      · subst hx
        obtain ⟨parent, children, kind⟩ := n
        have hp : parent = none := by simpa [parent?, hn] using h
        simp [h, hp]
      · simp [h, hx]
  next p h =>
    simp only [node?_modify, h, Option.some.injEq, eq_comm (a := p)]
    cases hn : d.node? x <;> by_cases hx : x = id <;> by_cases hp : x = p <;> simp [hx, hp]
    all_goals simp_all

theorem parent?_detach (d : Document) (id x : NodeId) :
    (d.detach id).parent? x = if x = id then none else d.parent? x := by
  rw [parent?, node?_detach]
  cases hn : d.node? x <;> simp [parent?, hn]

theorem children_detach (d : Document) (id x : NodeId) :
    (d.detach id).children x =
      if d.parent? id = some x then (d.children x).filter (· ≠ id) else d.children x := by
  rw [children, node?_detach, children]
  cases hn : d.node? x <;> simp

theorem kind?_detach (d : Document) (id x : NodeId) : (d.detach id).kind? x = d.kind? x := by
  rw [kind?, node?_detach, kind?]
  cases hn : d.node? x <;> rfl

theorem node?_link (d : Document) (p c x : NodeId) :
    (d.link p c).node? x = (d.node? x).map fun n =>
      { parent := if x = c then some p else n.parent
        children := if x = p then n.children ++ [c] else n.children
        kind := n.kind } := by
  simp only [link, node?_modify]
  cases hn : d.node? x <;> by_cases hx : x = c <;> by_cases hp : x = p <;> simp [hx, hp]
  all_goals simp_all

theorem parent?_link {d : Document} {c : NodeId} (p : NodeId) (hc : d.Known c) (x : NodeId) :
    (d.link p c).parent? x = if x = c then some p else d.parent? x := by
  rw [parent?, node?_link, parent?]
  cases hn : d.node? x with
  | some n => rfl
  | none =>
    have hx : x ≠ c := by
      rintro rfl
      simp [known_iff_node?, hn] at hc
    simp [hx]

theorem children_link {d : Document} {p : NodeId} (hp : d.Known p) (c x : NodeId) :
    (d.link p c).children x = if x = p then d.children p ++ [c] else d.children x := by
  by_cases hx : x = p
  · subst hx
    rw [known_iff_node?, Option.isSome_iff_exists] at hp
    obtain ⟨n, hn⟩ := hp
    simp [children, node?_link, hn]
  · cases hn : d.node? x <;> simp [children, node?_link, hn, hx]

theorem kind?_link (d : Document) (p c x : NodeId) : (d.link p c).kind? x = d.kind? x := by
  rw [kind?, node?_link, kind?]
  cases hn : d.node? x <;> rfl

theorem parent?_modify {d : Document} {id : NodeId} {f : Node → Node}
    (hf : ∀ n, (f n).parent = n.parent) (x : NodeId) :
    (d.modify id f).parent? x = d.parent? x := by
  simp only [parent?, node?_modify]
  cases hn : d.node? x <;> by_cases hx : x = id <;> simp [hx, hf]

theorem children_modify {d : Document} {id : NodeId} {f : Node → Node}
    (hf : ∀ n, (f n).children = n.children) (x : NodeId) :
    (d.modify id f).children x = d.children x := by
  simp only [children, node?_modify]
  cases hn : d.node? x <;> by_cases hx : x = id <;> simp [hx, hf]

theorem same_of_node? {d d' : Document} {x : NodeId} (h : d'.node? x = d.node? x) :
    d'.kind? x = d.kind? x ∧ d'.children x = d.children x :=
  ⟨by rw [kind?, h, kind?], by rw [children, h, children]⟩

theorem element?_eq (d : Document) (id : NodeId) :
    d.element? id =
      match d.kind? id with
      | some (.element e) => some e
      | _ => none := by
  unfold element? kind?
  cases hn : d.node? id with
  | none => rfl
  | some n =>
    obtain ⟨p, cs, kind⟩ := n
    cases kind <;> rfl

theorem holdsRawText_of_kind? {d d' : Document} {x : NodeId} (h : d'.kind? x = d.kind? x) :
    d'.holdsRawText x = d.holdsRawText x := by
  rw [holdsRawText, holdsRawText, tag?, tag?, element?_eq, element?_eq, h]

end ActiveMarkup.Document
