import ActiveMarkup.Proofs.Document.Handles
set_option autoImplicit false

namespace ActiveMarkup.Document

variable {d d' d'' : Document} {c p x : NodeId}

theorem IsTree.refusal?_eq_none_iff (h : d.IsTree) :
    d.refusal? p c = none ↔ d.Open p ∧ d.Known c ∧ c ≠ .root ∧ ¬ d.Above c p := by
  refine ⟨refusal?_eq_none h, ?_⟩
  rintro ⟨hopen, hknown, hroot, hcycle⟩
  rw [known_iff_node?, Option.isSome_iff_ne_none] at hknown
  rw [refusal?_open hopen, if_neg (by simp [hknown, hroot]), if_neg (by rwa [h.isAncestor_iff])]

theorem not_open_iff :
    ¬ d.Open p ↔ ¬ d.Known p ∨ ∃ kind, d.kind? p = some kind ∧ kind.isLeaf = true := by
  rw [known_iff_kind?, Open]
  cases d.kind? p with
  | none => simp
  | some kind => simp

theorem IsTree.appendChild_error_iff (h : d.IsTree) (p c : NodeId) :
    (∃ e, d.appendChild p c = .error e) ↔
      ¬ d.Known p ∨ (∃ kind, d.kind? p = some kind ∧ kind.isLeaf = true) ∨ ¬ d.Known c ∨
        c = .root ∨ d.Above c p := by
  have hrefused : (∃ e, d.appendChild p c = .error e) ↔ d.refusal? p c ≠ none := by
    rw [Document.appendChild]
    cases d.refusal? p c with
    | none => simp
    | some e => simp
  rw [hrefused, Ne, h.refusal?_eq_none_iff, ← or_assoc, ← not_open_iff]
  tauto

/-- A document in which a node was moved under another, and nothing else was done. -/
structure Moved (d : Document) (p c : NodeId) (d' : Document) : Prop where
  size : d'.nodes.size = d.nodes.size
  kind : ∀ x, d'.kind? x = d.kind? x
  parent : ∀ x, d'.parent? x = if x = c then some p else d.parent? x
  last : d'.children p = (d.children p).filter (· ≠ c) ++ [c]
  left : ∀ q, q ≠ p → d.parent? c = some q → d'.children q = (d.children q).filter (· ≠ c)
  rest : ∀ x, x ≠ p → d.parent? c ≠ some x → d'.children x = d.children x
  below : d'.subtree c = d.subtree c
  journal : d'.inserted = if d.isConnected p then d.inserted.push c else d.inserted

theorem IsTree.subtreeWithin_congr (h : d.IsTree) {depth : Nat}
    (hsame : ∀ z, d.Above x z → d'.children z = d.children z) :
    d'.subtreeWithin depth x = d.subtreeWithin depth x := by
  induction depth generalizing x with
  | zero => rfl
  | succ depth ih =>
    have hstep : ∀ y ∈ d.children x, d'.subtreeWithin depth y = d.subtreeWithin depth y := by
      intro y hy
      have hp := (h.mem_children x y).mp hy
      exact ih fun z hz => hsame z ((Above.of_parent hp).trans hz)
    rw [subtreeWithin, subtreeWithin, hsame x .self, List.flatMap_def, List.flatMap_def,
      List.map_congr_left hstep]

theorem size_modify (d : Document) (id : NodeId) (f : Node → Node) :
    (d.modify id f).nodes.size = d.nodes.size :=
  Array.size_modify

theorem size_detach (d : Document) (id : NodeId) : (d.detach id).nodes.size = d.nodes.size := by
  unfold detach
  split
  · rfl
  · rw [size_modify, size_modify]

theorem children_appendChild (ha : d.appendChild p c = .ok d') (hp : d.Known p) (x : NodeId) :
    d'.children x =
      if x = p then (d.detach c).children p ++ [c] else (d.detach c).children x := by
  obtain ⟨-, hnodes, -⟩ := appendChild_ok ha
  have hlinked : d'.children x = ((d.detach c).link p c).children x := by
    simp only [children, node?, hnodes]
  have hknown : (d.detach c).Known p := by rwa [known_iff_kind?, kind?_detach, ← known_iff_kind?]
  rw [hlinked, children_link hknown]

theorem IsTree.filter_children (h : d.IsTree) (hx : d.parent? c ≠ some x) :
    (d.children x).filter (· ≠ c) = d.children x := by
  refine List.filter_eq_self.mpr fun y hy => ?_
  have hne : y ≠ c := by
    rintro rfl
    exact hx ((h.mem_children x y).mp hy)
  exact decide_eq_true hne

theorem IsTree.children_detach_filter (h : d.IsTree) (x : NodeId) :
    (d.detach c).children x = (d.children x).filter (· ≠ c) := by
  rw [children_detach]
  split
  · rfl
  next hx => rw [h.filter_children hx]

/-- The parent stands under the root after the insertion as it did before. -/
theorem IsTree.isConnected_appendChild (h : d.IsTree) (ha : d.appendChild p c = .ok d') :
    d'.isConnected p = d.isConnected p := by
  obtain ⟨hr, -, -⟩ := appendChild_ok ha
  obtain ⟨-, -, -, hcycle⟩ := refusal?_eq_none h hr
  have hsame : ∀ y, y ≠ c → d'.parent? y = d.parent? y := fun y hy => by
    rw [h.parent?_appendChild ha, if_neg hy]
  rw [Bool.eq_iff_iff, (h.appendChild ha).isConnected_iff, h.isConnected_iff]
  exact ⟨fun hab => hab.of_transfer hsame hcycle, fun hab => hab.transfer hsame hcycle⟩

theorem IsTree.moved (h : d.IsTree) (ha : d.appendChild p c = .ok d') : Moved d p c d' := by
  obtain ⟨hr, hnodes, hjournal⟩ := appendChild_ok ha
  obtain ⟨hopen, -, -, hcycle⟩ := refusal?_eq_none h hr
  have hchildren : ∀ x, d'.children x =
      if x = p then (d.children p).filter (· ≠ c) ++ [c] else (d.children x).filter (· ≠ c) := by
    intro x
    rw [children_appendChild ha hopen.known, h.children_detach_filter, h.children_detach_filter]
  have hrest : ∀ x, x ≠ p → d.parent? c ≠ some x → d'.children x = d.children x := by
    intro x hxp hx
    rw [hchildren, if_neg hxp, h.filter_children hx]
  have hsize : d'.nodes.size = d.nodes.size := by
    rw [hnodes, Document.link, size_modify, size_modify, size_detach]
  exact {
    size := hsize
    kind := kind?_appendChild ha
    parent := h.parent?_appendChild ha
    last := by rw [hchildren, if_pos rfl]
    left := fun q hq _ => by rw [hchildren, if_neg hq]
    rest := hrest
    below := by
      -- neither of the two lists that change is that of a node from the child down
      rw [subtree, hsize]
      refine h.subtreeWithin_congr fun z hz => hrest z ?_ fun hparent => ?_
      · rintro rfl
        exact hcycle hz
      · exact (h.grounded c).not_above_parent hparent hz
    journal := by rw [hjournal, h.isConnected_appendChild ha] }

structure Insertion where
  before : Document
  parent : NodeId
  child : NodeId

def Insertion.enters (i : Insertion) : Bool :=
  (i.before.appendChild i.parent i.child).isOk && i.before.isConnected i.parent

def entered (insertions : List Insertion) : List NodeId :=
  (insertions.filter Insertion.enters).map Insertion.child

def insertionsAll (parent : NodeId) : List NodeId → Document → List Insertion
  | [], _ => []
  | child :: rest, d =>
    ⟨d, parent, child⟩ ::
      match d.appendChild parent child with
      | .ok d => insertionsAll parent rest d
      | .error _ => []

def insertionsMarkup (d : Document) (parent : NodeId) (src : String) : List Insertion :=
  let (holder, d) := d.push (.element (.ofTag holderTag))
  match d.readInto holder src with
  | (some _, _) => []
  | (none, d) => insertionsAll parent (d.children holder) d

def insertionsInner (d : Document) (id : NodeId) (src : String) : List Insertion :=
  if d.isElement id then insertionsMarkup (d.clearChildren id) id src else []

def insertionsText (d : Document) (id : NodeId) (s : String) : List Insertion :=
  if d.isElement id && s ≠ "" then
    let (child, d) := (d.clearChildren id).createText s
    [⟨d, id, child⟩]
  else []

def insertionsProperty (d : Document) (id : NodeId) (name : String) (value : Value) :
    List Insertion :=
  match name.toLower with
  | "innertext" | "textcontent" => d.insertionsText id value.toText
  | "innerhtml" => d.insertionsInner id value.toText
  | _ => []

def Operation.insertions (d : Document) : Operation → List Insertion
  | appendChild parent child => [⟨d, parent, child⟩]
  | appendMarkup parent src => d.insertionsMarkup parent src
  | setInnerMarkup id src => d.insertionsInner id src
  | setTextContent id s => d.insertionsText id s
  | setProperty id name value => d.insertionsProperty id name value
  | _ => []

def insertionsOf : List Operation → Document → List Insertion
  | [], _ => []
  | op :: rest, d => op.insertions d ++ insertionsOf rest (op.after d)

/-- The journal grew by what insertions enter in it. -/
def Journals (d : Document) (insertions : List Insertion) (d' : Document) : Prop :=
  d'.inserted.toList = d.inserted.toList ++ entered insertions

theorem entered_append (l l' : List Insertion) : entered (l ++ l') = entered l ++ entered l' := by
  simp [entered]

namespace Journals

variable {l l' : List Insertion}

theorem same (h : d'.inserted = d.inserted) : Journals d [] d' := by
  simp [Journals, entered, h]

theorem trans (h : Journals d l d') (h' : Journals d' l' d'') : Journals d (l ++ l') d'' := by
  rw [Journals, h', h, entered_append, List.append_assoc]

theorem after (h : d'.inserted = d.inserted) (h' : Journals d' l d'') : Journals d l d'' :=
  (same h).trans h'

end Journals

theorem inserted_detach (d : Document) (id : NodeId) : (d.detach id).inserted = d.inserted := by
  unfold detach
  split <;> rfl

theorem inserted_clearChildren (d : Document) (id : NodeId) :
    (d.clearChildren id).inserted = d.inserted := by
  have hfold : ∀ (l : List NodeId) (d : Document),
      (l.foldl Document.detach d).inserted = d.inserted := by
    intro l
    induction l with
    | nil => exact fun _ => rfl
    | cons c l ih => exact fun d => (ih (d.detach c)).trans (inserted_detach d c)
  exact hfold _ d

theorem kind?_clearChildren (d : Document) (id x : NodeId) :
    (d.clearChildren id).kind? x = d.kind? x :=
  kind?_foldl_detach _ d x

theorem inserted_modifyElement {id : NodeId} {f : Element → Element}
    (h : d.modifyElement id f = .ok d') : d'.inserted = d.inserted := by
  obtain ⟨e, -, rfl⟩ := modifyElement_ok h
  rfl

theorem modifyElement_not_isElement {id : NodeId} {f : Element → Element}
    (h : d.isElement id = false) : ∃ e, d.modifyElement id f = .error e := by
  cases hm : d.modifyElement id f with
  | error e => exact ⟨e, rfl⟩
  | ok d' =>
    obtain ⟨e, hk, -⟩ := modifyElement_ok hm
    rw [isElement_iff.mpr ⟨e, hk⟩] at h
    cases h

theorem inserted_outcome {result : Except DocumentError Document}
    (h : ∀ d', result = .ok d' → d'.inserted = d.inserted) :
    (d.outcome result).2.inserted = d.inserted := by
  cases result with
  | ok d' => exact h d' rfl
  | error e => rfl

theorem IsTree.journals_appendChild (h : d.IsTree) (p c : NodeId) :
    Journals d [⟨d, p, c⟩] (d.outcome (d.appendChild p c)).2 := by
  cases ha : d.appendChild p c with
  | error e => simp [Journals, entered, Insertion.enters, ha, outcome, Except.isOk, Except.toBool]
  | ok d' =>
    have hjournal := (h.moved ha).journal
    cases hp : d.isConnected p with
    | false =>
      rw [hp] at hjournal
      simp [Journals, entered, Insertion.enters, ha, hp, outcome, hjournal]
    | true =>
      rw [hp] at hjournal
      simp [Journals, entered, Insertion.enters, ha, hp, outcome, hjournal, Except.isOk,
        Except.toBool]

theorem IsTree.journals_appendAll (h : d.IsTree) (p : NodeId) (nodes : List NodeId) :
    Journals d (insertionsAll p nodes d) (appendAll p nodes d).2 := by
  induction nodes generalizing d with
  | nil => exact .same rfl
  | cons c rest ih =>
    have hfirst := h.journals_appendChild p c
    rw [insertionsAll, appendAll]
    cases ha : d.appendChild p c with
    | error e =>
      rw [ha] at hfirst
      exact hfirst
    | ok d₁ =>
      rw [ha] at hfirst
      exact hfirst.trans (ih (h.appendChild ha))

theorem insertionsMarkup_eq (d : Document) (p : NodeId) (src : String) :
    d.insertionsMarkup p src =
      match (Markup.pieces src).2 with
      | some _ => []
      | none => insertionsAll p (d.fragment src) (d.withFragment src) := by
  unfold insertionsMarkup readInto fragment withFragment holder
  generalize Markup.pieces src = read
  obtain ⟨pieces, _ | fault⟩ := read <;> rfl

theorem IsTree.journals_appendMarkup (h : d.IsTree) (p : NodeId) (src : String) :
    Journals d (d.insertionsMarkup p src) (d.appendMarkup p src).2 := by
  have he := extends_withFragment d src
  rw [appendMarkup_eq, insertionsMarkup_eq]
  cases (Markup.pieces src).2 with
  | some fault => exact .same he.journal
  | none => exact ((he.tree h).journals_appendAll p _).after he.journal

theorem IsTree.journals_setInnerMarkup (h : d.IsTree) (id : NodeId) (src : String) :
    Journals d (d.insertionsInner id src) (d.setInnerMarkup id src).2 := by
  unfold setInnerMarkup insertionsInner
  cases he : d.isElement id with
  | false =>
    obtain ⟨e, hm⟩ := modifyElement_not_isElement he
    rw [hm]
    exact .same rfl
  | true =>
    obtain ⟨e, hk⟩ := isElement_iff.mp he
    have ha := ((edited_clearChildren d id).isTree h).journals_appendMarkup id src
    rw [modifyElement_self hk, if_pos rfl]
    simp only
    generalize (d.clearChildren id).appendMarkup id src = appended at ha ⊢
    obtain ⟨_ | nodes, d₂⟩ := appended
    · exact ha.after (inserted_clearChildren d id)
    · exact ha.after (inserted_clearChildren d id)

theorem IsTree.journals_setTextContent (h : d.IsTree) (id : NodeId) (s : String) :
    Journals d (d.insertionsText id s) (d.outcome (d.setTextContent id s)).2 := by
  unfold Document.setTextContent insertionsText
  cases he : d.isElement id with
  | false =>
    obtain ⟨e, hm⟩ := modifyElement_not_isElement he
    rw [hm]
    exact .same rfl
  | true =>
    obtain ⟨e, hk⟩ := isElement_iff.mp he
    have hcleared := (edited_clearChildren d id).isTree h
    have hjournal := inserted_clearChildren d id
    have htext : NodeKind.text s ≠ .document := by simp
    simp only [modifyElement_self hk, bind, Except.bind]
    by_cases hs : s = ""
    · rw [if_pos hs, if_neg (by simp [hs])]
      exact .same hjournal
    · -- a new text is never refused, so the document is the one after its insertion
      have hopen : (d.clearChildren id).Open id :=
        ⟨.element e, by rw [kind?_clearChildren, hk], rfl⟩
      obtain ⟨d', hd', -⟩ := hcleared.appendChild_push hopen htext
      have hlast := (hcleared.push htext).journals_appendChild id
        ((d.clearChildren id).push (.text s)).1
      rw [if_neg hs, if_pos (by simp [hs])]
      simp only [createText]
      rw [hd'] at hlast ⊢
      exact hlast.after hjournal

theorem IsTree.journals_setProperty (h : d.IsTree) (id : NodeId) (name : String) (v : Value) :
    Journals d (d.insertionsProperty id name v) (d.setProperty id name v).2 := by
  have hdata : ∀ f, Journals d [] (d.outcome (d.modifyElement id f)).2 := fun f =>
    .same (inserted_outcome fun _ => inserted_modifyElement)
  unfold setProperty insertionsProperty
  generalize name.toLower = name
  split
  · exact h.journals_setTextContent id _
  · exact h.journals_setTextContent id _
  · exact h.journals_setInnerMarkup id _
  next hinner hcontent hmarkup =>
    split
    · exact (hinner rfl).elim
    · exact (hcontent rfl).elim
    · exact (hmarkup rfl).elim
    · exact hdata _
    · exact hdata _
    · split
      · exact hdata _
      · exact hdata _

theorem Operation.journals_after (op : Operation) (h : d.IsTree) (hop : op ≠ .takeInserted) :
    Journals d (op.insertions d) (op.after d) := by
  cases op with
  | createElement tag =>
    refine .same (inserted_outcome fun d' hd => ?_)
    unfold Document.createElement at hd
    split at hd
    · cases hd
      rfl
    · cases hd
  | createText | createComment => exact .same rfl
  | appendChild parent child => exact h.journals_appendChild parent child
  | appendMarkup parent src => exact h.journals_appendMarkup parent src
  | setInnerMarkup id src => exact h.journals_setInnerMarkup id src
  | setTextContent id s => exact h.journals_setTextContent id s
  | setProperty id name v => exact h.journals_setProperty id name v
  | setAttribute | setStyle | setHidden =>
    exact .same (inserted_outcome fun _ => inserted_modifyElement)
  | detach id => exact .same (inserted_detach d id)
  | clearChildren id => exact .same (inserted_clearChildren d id)
  | takeInserted => exact (hop rfl).elim

theorem journals_operations {ops : List Operation} (h : d.IsTree)
    (hops : ∀ op ∈ ops, op ≠ .takeInserted) :
    Journals d (insertionsOf ops d) (ops.foldl Operation.after d) := by
  induction ops generalizing d with
  | nil => exact .same rfl
  | cons op rest ih =>
    obtain ⟨hop, hrest⟩ := List.forall_mem_cons.mp hops
    exact (op.journals_after h hop).trans (ih (op.isTree_after h) hrest)

/-- Insertion, exactly: when it is refused, that it then leaves the document as it is, and what it
does otherwise. So the journal has the nodes whose insertion was made under a connected node since
it was taken, in order. -/
theorem reachable_appendChild (h : d.Reachable) (p c : NodeId) :
    ((∃ e, d.appendChild p c = .error e) ↔
      ¬ d.Known p ∨ (∃ kind, d.kind? p = some kind ∧ kind.isLeaf = true) ∨ ¬ d.Known c ∨
        c = .root ∨ d.Above c p) ∧
    (∀ e, d.appendChild p c = .error e → (Operation.appendChild p c).after d = d) ∧
    (∀ d', d.appendChild p c = .ok d' → Moved d p c d') ∧
    ∀ ops : List Operation, (∀ op ∈ ops, op ≠ .takeInserted) →
      (ops.foldl Operation.after d).inserted.toList =
        d.inserted.toList ++ entered (insertionsOf ops d) ∧
      (ops.foldl Operation.after d.takeInserted.2).inserted.toList =
        entered (insertionsOf ops d.takeInserted.2) := by
  have ht := h.isTree
  refine ⟨ht.appendChild_error_iff p c, fun e he => ?_, fun d' => ht.moved, fun ops hops => ?_⟩
  · rw [Operation.after, he]
    rfl
  · exact ⟨journals_operations ht hops, journals_operations (ht.of_nodes rfl) hops⟩

/-- A paragraph is moved under a later element, which is refused a place inside of it and then taken
out; what is put into it there is not entered, and a fragment and a text under the root are. -/
theorem reachable_appendChild_moves :
    let ops : List Operation := [.appendChild ⟨3⟩ ⟨1⟩, .appendChild ⟨2⟩ ⟨3⟩, .detach ⟨3⟩,
      .createText "x", .appendChild ⟨2⟩ ⟨4⟩, .appendMarkup .root "<u>", .setTextContent ⟨6⟩ "t"]
    ∃ d, parse "<p><b></b></p><i></i>" = .ok d ∧
      (∃ e, d.appendChild ⟨2⟩ ⟨1⟩ = .error e) ∧
      (ops.foldl Operation.after d).inserted.toList = [⟨1⟩, ⟨6⟩, ⟨7⟩] ∧
      (ops.foldl Operation.after d).inserted.toList =
        d.inserted.toList ++ entered (insertionsOf ops d) := by
  intro ops
  have heval : (parse "<p><b></b></p><i></i>").toOption.map (fun d =>
      (d.parent? ⟨2⟩, (ops.foldl Operation.after d).inserted.toList)) =
      some (some ⟨1⟩, [⟨1⟩, ⟨6⟩, ⟨7⟩]) := by decide +kernel
  obtain ⟨d, hd, heval⟩ := Option.map_eq_some_iff.mp heval
  obtain ⟨hparent, hjournal⟩ := Prod.mk.inj heval
  have hparse := parse_of_toOption hd
  have hexact := reachable_appendChild (.parse hparse) ⟨2⟩ ⟨1⟩
  have hops : ∀ op ∈ ops, op ≠ .takeInserted := by simp [ops]
  exact ⟨d, hparse, hexact.1.mpr (.inr (.inr (.inr (.inr (.of_parent hparent))))), hjournal,
    (hexact.2.2.2 ops hops).1⟩

end ActiveMarkup.Document
