import ActiveMarkup.Proofs.Document.Operations
import Mathlib
set_option autoImplicit false

/-!
Documents with a history: whatever is done to an empty or a parsed document, with handles that
exist or not and whether it is refused or not, the document stays a tree. The walks up and down
the tree, which are given as many steps as there are nodes and one more, are therefore complete.
-/

namespace ActiveMarkup.Document

inductive Operation where
  | createElement (tag : String)
  | createText (s : String)
  | createComment (s : String)
  | appendChild (parent child : NodeId)
  | appendMarkup (parent : NodeId) (src : String)
  | setInnerMarkup (id : NodeId) (src : String)
  | setTextContent (id : NodeId) (s : String)
  | setProperty (id : NodeId) (name : String) (value : Value)
  | setAttribute (id : NodeId) (name value : String)
  | setStyle (id : NodeId) (property value : String)
  | setHidden (id : NodeId) (hidden : Bool)
  | detach (id : NodeId)
  | clearChildren (id : NodeId)
  | takeInserted

def Operation.after (d : Document) : Operation → Document
  | createElement tag => (d.outcome ((d.createElement tag).map Prod.snd)).2
  | createText s => (d.createText s).2
  | createComment s => (d.createComment s).2
  | appendChild parent child => (d.outcome (d.appendChild parent child)).2
  | appendMarkup parent src => (d.appendMarkup parent src).2
  | setInnerMarkup id src => (d.setInnerMarkup id src).2
  | setTextContent id s => (d.outcome (d.setTextContent id s)).2
  | setProperty id name value => (d.setProperty id name value).2
  | setAttribute id name value => (d.outcome (d.setAttribute id name value)).2
  | setStyle id property value => (d.outcome (d.setStyle id property value)).2
  | setHidden id hidden => (d.outcome (d.setHidden id hidden)).2
  | detach id => d.detach id
  | clearChildren id => d.clearChildren id
  | takeInserted => d.takeInserted.2

/-- A document that was empty or parsed once and has undergone operations since. -/
inductive Reachable : Document → Prop where
  | empty : Reachable empty
  | parse {src : String} {d : Document} : Document.parse src = .ok d → Reachable d
  | after {d : Document} (op : Operation) : Reachable d → Reachable (op.after d)

variable {d : Document}

theorem Reachable.operations (h : d.Reachable) (ops : List Operation) :
    (ops.foldl Operation.after d).Reachable := by
  induction ops generalizing d with
  | nil => exact h
  | cons op ops ih => exact ih (h.after op)

theorem parse_of_toOption {src : String} (h : (parse src).toOption = some d) :
    parse src = .ok d := by
  cases hp : parse src with
  | error e =>
    rw [hp] at h
    cases h
  | ok d' =>
    rw [hp] at h
    cases h
    rfl

theorem Operation.edited_after (op : Operation) (d : Document) :
    Edited d (op.after d) ∨ op.after d = d.takeInserted.2 := by
  cases op with
  | takeInserted => exact .inr rfl
  | createElement tag =>
    refine .inl (edited_outcome fun d' h => ?_)
    unfold Document.createElement at h
    split at h
    · cases h
      exact .single (.extend (extends_push d (by simp)))
    · cases h
  | createText s => exact .inl (.single (.extend (extends_push d (by simp))))
  | createComment s => exact .inl (.single (.extend (extends_push d (by simp))))
  | appendChild parent child => exact .inl (edited_outcome fun _ h => .single (.append h))
  | appendMarkup parent src => exact .inl (edited_appendMarkup d parent src)
  | setInnerMarkup id src => exact .inl (edited_setInnerMarkup d id src)
  | setTextContent id s => exact .inl (edited_outcome fun _ => edited_setTextContent)
  | setProperty id name value => exact .inl (edited_setProperty d id name value)
  | setAttribute id name value => exact .inl (edited_outcome fun _ => edited_setAttribute)
  | setStyle id property value => exact .inl (edited_outcome fun _ => edited_setStyle)
  | setHidden id hidden => exact .inl (edited_outcome fun _ => edited_setHidden)
  | detach id => exact .inl (.single (.detach id))
  | clearChildren id => exact .inl (edited_clearChildren d id)

theorem Operation.isTree_after (op : Operation) (h : d.IsTree) : (op.after d).IsTree := by
  rcases op.edited_after d with he | he
  · exact he.isTree h
  · rw [he]
    exact h.of_nodes rfl

theorem Reachable.isTree (h : d.Reachable) : d.IsTree := by
  induction h with
  | empty => exact isTree_empty
  | parse hp => exact parse_isTree hp
  | after op _ ih => exact op.isTree_after ih

/-- The links of every document with a history: handles are good, the two forms of a link agree,
no child stands twice, the root is on top, texts and comments have no children, every chain of
parents ends, and the walks up and down are complete, so that more steps give nothing more. -/
theorem reachable_links (h : d.Reachable) :
    (∀ p c, c ∈ d.children p ∨ d.parent? c = some p → d.Known p ∧ d.Known c) ∧
    (∀ p c, c ∈ d.children p ↔ d.parent? c = some p) ∧
    (∀ p, (d.children p).Nodup) ∧
    d.parent? .root = none ∧
    (∀ p kind, d.kind? p = some kind → kind.isLeaf = true → d.children p = []) ∧
    (∀ id, d.Grounded id) ∧
    (∀ id more, d.ancestorsWithin (d.nodes.size + 1 + more) id = d.ancestors id) ∧
    (∀ id more, (d.subtreeWithin (d.nodes.size + 1 + more) id).tail.filter d.isElement =
      d.descendants id) := by
  have ht := h.isTree
  refine ⟨?_, ht.mem_children, ht.once, ht.root_top, ht.leaf, ht.grounded,
    fun id more => ht.ancestorsWithin_eq more id, fun id more => ?_⟩
  · intro p c hpc
    have hp : d.parent? c = some p := hpc.elim (ht.mem_children p c).mp id
    exact ⟨ht.known_parent hp, known_of_parent? hp⟩
  · rw [ht.subtreeWithin_eq, descendants]

/-- A fragment is put under a parsed element, the element is refused a place under its own child,
and an unknown handle is taken out. -/
theorem reachable_links_refused_move :
    let moves : List Operation :=
      [.appendMarkup ⟨1⟩ "<b>", .appendChild ⟨4⟩ ⟨1⟩, .detach ⟨9⟩]
    ∃ d, (parse "<p>a</p>").map (moves.foldl Operation.after) = .ok d ∧
      d.children ⟨1⟩ = [⟨2⟩, ⟨4⟩] ∧ d.parent? ⟨4⟩ = some ⟨1⟩ ∧ (d.children ⟨1⟩).Nodup := by
  intro moves
  have hp : parse "<p>a</p>" = .ok ⟨#[⟨none, [⟨1⟩], .document⟩,
      ⟨some ⟨0⟩, [⟨2⟩], .element ⟨"p", [], [], []⟩⟩, ⟨some ⟨1⟩, [], .text "a"⟩], #[]⟩ := by cbv
  have hr := Reachable.operations (.parse hp) moves
  exact ⟨_, by rw [hp]; rfl, by cbv, by cbv, (reachable_links hr).2.2.1 _⟩

end ActiveMarkup.Document
