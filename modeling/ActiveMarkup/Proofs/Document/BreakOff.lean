import ActiveMarkup.Proofs.Document.Journal
import ActiveMarkup.Session.Action
set_option autoImplicit false

namespace ActiveMarkup

namespace Document

variable {d d' : Document} {id p x : NodeId} {src : String} {e : DocumentError}

theorem appendMarkup_breakOff (h : parse src = .error e) (d : Document) (p : NodeId) :
    (d.appendMarkup p src).1 = .error e ∧ Extends d (d.appendMarkup p src).2 := by
  obtain ⟨fault, offset, hpieces, rfl⟩ := parse_eq_error_iff.mp h
  rw [appendMarkup_eq, hpieces]
  exact ⟨rfl, extends_withFragment d src⟩

theorem parse_error_isMarkup (h : parse src = .error e) :
    ∃ fault offset, e = .markup fault offset := by
  obtain ⟨fault, offset, -, he⟩ := parse_eq_error_iff.mp h
  exact ⟨fault, offset, he⟩

theorem setInnerMarkup_extends (h : parse src = .error e) (hid : d.isElement id = true) :
    (d.setInnerMarkup id src).1 = some e ∧
      Extends (d.clearChildren id) (d.setInnerMarkup id src).2 := by
  obtain ⟨element, hk⟩ := isElement_iff.mp hid
  obtain ⟨herror, hextends⟩ := appendMarkup_breakOff h (d.clearChildren id) id
  rw [setInnerMarkup, modifyElement_self hk]
  simp only
  generalize (d.clearChildren id).appendMarkup id src = appended at herror hextends ⊢
  obtain ⟨_ | nodes, d₁⟩ := appended
  · cases herror
    exact ⟨rfl, hextends⟩
  · cases herror

theorem parent?_foldl_detach (l : List NodeId) (d : Document) (x : NodeId) :
    (l.foldl Document.detach d).parent? x = if x ∈ l then none else d.parent? x := by
  induction l generalizing d with
  | nil => simp
  | cons c l ih =>
    rw [List.foldl_cons, ih, parent?_detach]
    by_cases hx : x ∈ l <;> by_cases hc : x = c <;> simp [hx, hc]

theorem node?_eq {o : Option Node} (hkind : d.kind? x = o.map Node.kind)
    (hparent : d.parent? x = o.bind Node.parent)
    (hchildren : d.children x = (o.map Node.children).getD []) : d.node? x = o := by
  unfold kind? at hkind
  unfold parent? at hparent
  unfold children at hchildren
  generalize d.node? x = found at hkind hparent hchildren ⊢
  cases o with
  | none => exact Option.map_eq_none_iff.mp hkind
  | some n =>
    obtain ⟨n', rfl, hkind⟩ := Option.map_eq_some_iff.mp hkind
    cases n
    cases n'
    cases hkind
    cases hparent
    cases hchildren
    rfl

theorem IsTree.node?_clearChildren (h : d.IsTree) (id x : NodeId) :
    (d.clearChildren id).node? x = (d.node? x).map fun n =>
      { parent := if n.parent = some id then none else n.parent
        children := if x = id then [] else n.children
        kind := n.kind } := by
  have hparent : (d.clearChildren id).parent? x =
      if x ∈ d.children id then none else d.parent? x := parent?_foldl_detach _ d x
  refine node?_eq ?_ ?_ ?_
  · rw [kind?_clearChildren, kind?, Option.map_map]
    rfl
  · rw [hparent]
    simp only [h.mem_children, parent?]
    cases d.node? x <;> simp
  · rw [h.children_clearChildren, children]
    cases d.node? x <;> simp

theorem IsTree.toMarkup_congr (h : d.IsTree) (hsame : ∀ x, d.Known x → d'.node? x = d.node? x) :
    d'.toMarkup = d.toMarkup := by
  have hroot := hsame .root h.known_root
  have hchildren : d'.children .root = d.children .root := by rw [children, hroot, children]
  have hraw : d'.holdsRawText .root = d.holdsRawText .root :=
    holdsRawText_of_kind? (same_of_node? hroot).1
  have hsize : d.nodes.size ≤ d'.nodes.size := size_le_of_known fun x hx => by
    rw [known_iff_node?, hsame x hx, ← known_iff_node?]
    exact hx
  have htrees : ∀ c ∈ d.children .root, d'.trees c = d.trees c := fun c hc =>
    h.trees_congr hsize fun z hz => (same_of_node? (hsame z (hz.known (h.known_child hc)))).imp_left
      (congrArg (Option.map NodeKind.trees))
  rw [toMarkup, toMarkup, innerMarkup, innerMarkup, hchildren, hraw, List.flatMap_def,
    List.flatMap_def, List.map_congr_left htrees]

theorem IsTree.kept_clearChildren_iff (h : d.IsTree) (id : NodeId) :
    (∀ x, d.Known x → (d.clearChildren id).node? x = d.node? x) ↔ d.children id = [] := by
  constructor
  · intro hkept
    by_cases hid : d.Known id
    · have hcleared := h.children_clearChildren id id
      rwa [if_pos rfl, children, hkept id hid, ← children] at hcleared
    · exact children_fresh hid
  · intro hnone x _
    rw [clearChildren, hnone]
    rfl

theorem setProperty_innerMarkup {name : String} (hname : name.toLower = "innerhtml") (v : Value) :
    d.setProperty id name v = d.setInnerMarkup id v.toText := by
  rw [setProperty, hname]
  rfl

end Document

theorem Session.write_innerMarkup {σ : Type} (s : Session σ) {target : NodeId} {raw : String}
    {e : DocumentError}
    (h : (s.document.setInnerMarkup target (s.value raw).1.toText).1 = some e) :
    s.write target "innerhtml" raw = .failed (.document e) { (s.value raw).2 with
      document := (s.document.setInnerMarkup target (s.value raw).1.toText).2 } := by
  have hlower : "innerhtml".toLower = "innerhtml" := by decide +kernel
  have hdocument : (s.value raw).2.document = s.document := rfl
  rw [write, if_neg (by decide), if_neg (by decide), if_neg (by decide)]
  simp only
  rw [hdocument, Document.setProperty_innerMarkup hlower]
  generalize s.document.setInnerMarkup target (s.value raw).1.toText = result at h ⊢
  obtain ⟨error, d⟩ := result
  cases h
  rfl

namespace Document

variable {d : Document} {id : NodeId} {src : String} {e : DocumentError}

/-- If the markup for the content of an element cannot be read, whoever writes it gets the error of
reading it, and the journal stays. The element is left without its children and they without their
parent, and all else that there was is kept; so everything is kept if and only if the element had no
children. -/
theorem setInnerMarkup_breakOff (h : d.Reachable) (hid : d.isElement id = true)
    (hsrc : parse src = .error e) :
    let d' := (d.setInnerMarkup id src).2
    (d.setInnerMarkup id src).1 = some e ∧ (∃ fault offset, e = .markup fault offset) ∧
    d'.inserted = d.inserted ∧
    (∀ x, d.Known x → d'.node? x = (d.node? x).map fun n =>
      { parent := if n.parent = some id then none else n.parent
        children := if x = id then [] else n.children
        kind := n.kind }) ∧
    ((∀ x, d.Known x → d'.node? x = d.node? x) ↔ d.children id = []) ∧
    (d.children id = [] → d'.toMarkup = d.toMarkup) ∧
    (∀ (name : String) (v : Value), name.toLower = "innerhtml" → v.toText = src →
      d.setProperty id name v = (some e, d')) ∧
    ∀ {σ : Type} (s : Session σ) (raw : String), s.document = d → (s.value raw).1.toText = src →
      s.write id "innerhtml" raw =
        .failed (.document e) { (s.value raw).2 with document := d' } := by
  intro d'
  have ht := h.isTree
  obtain ⟨herror, hextends⟩ := setInnerMarkup_extends hsrc hid
  -- what the broken read left behind is all new, so the old nodes only saw `clearChildren`
  have hcleared : ∀ x, d.Known x → d'.node? x = (d.clearChildren id).node? x := fun x hx =>
    hextends.old x ((edited_clearChildren d id).known hx)
  have hkept : (∀ x, d.Known x → d'.node? x = d.node? x) ↔ d.children id = [] := by
    rw [← ht.kept_clearChildren_iff id]
    exact forall₂_congr fun x hx => by rw [hcleared x hx]
  refine ⟨herror, parse_error_isMarkup hsrc,
    hextends.journal.trans (inserted_clearChildren d id), fun x hx => ?_, hkept,
    fun hnone => ht.toMarkup_congr (hkept.mpr hnone), fun name v hname hv => ?_,
    fun s raw hs hraw => ?_⟩
  · rw [hcleared x hx, ht.node?_clearChildren]
  · rw [setProperty_innerMarkup hname, hv]
    exact Prod.ext herror rfl
  · subst hs
    subst hraw
    exact s.write_innerMarkup herror

/-- An empty element is left as it was. -/
theorem setInnerMarkup_breakOff_empty :
    ∃ d e, parse "<div></div>" = .ok d ∧ parse "<b>x</b><!--" = .error e ∧
      (d.setInnerMarkup ⟨1⟩ "<b>x</b><!--").1 = some e ∧
      (d.setInnerMarkup ⟨1⟩ "<b>x</b><!--").2.nodes.size = 5 ∧
      (d.setInnerMarkup ⟨1⟩ "<b>x</b><!--").2.toMarkup = d.toMarkup := by
  have heval : (parse "<div></div>").toOption.map (fun d =>
      (d.isElement ⟨1⟩, d.children ⟨1⟩, (d.setInnerMarkup ⟨1⟩ "<b>x</b><!--").2.nodes.size)) =
      some (true, [], 5) := by decide +kernel
  obtain ⟨d, hd, heval⟩ := Option.map_eq_some_iff.mp heval
  simp only [Prod.mk.injEq] at heval
  obtain ⟨helement, hchildren, hsize⟩ := heval
  have hparse := parse_of_toOption hd
  obtain ⟨e, he⟩ : ∃ e, parse "<b>x</b><!--" = .error e := ⟨_, by cbv⟩
  obtain ⟨herror, -, -, -, -, hmarkup, -⟩ := setInnerMarkup_breakOff (.parse hparse) helement he
  exact ⟨d, e, hparse, he, herror, hsize, hmarkup hchildren⟩

/-- The content of an element is gone after markup that breaks off, though the writer is told of an
error. -/
theorem setInnerMarkup_breakOff_lost :
    ∃ d e, parse "<div id=d>old</div>" = .ok d ∧ parse "<!--" = .error e ∧
      (d.setInnerMarkup ⟨1⟩ "<!--").1 = some e ∧
      d.toMarkup = "<div id=\"d\">old</div>" ∧
      (d.setInnerMarkup ⟨1⟩ "<!--").2.toMarkup = "<div id=\"d\"></div>" := by
  have heval : (parse "<div id=d>old</div>").toOption.map (fun d =>
      ((d.setInnerMarkup ⟨1⟩ "<!--").1, d.toMarkup, (d.setInnerMarkup ⟨1⟩ "<!--").2.toMarkup)) =
      some (some (.markup .openComment 0), "<div id=\"d\">old</div>", "<div id=\"d\"></div>") := by
    decide +kernel
  obtain ⟨d, hd, heval⟩ := Option.map_eq_some_iff.mp heval
  simp only [Prod.mk.injEq] at heval
  obtain ⟨herror, hbefore, hafter⟩ := heval
  exact ⟨d, _, parse_of_toOption hd, by cbv, herror, hbefore, hafter⟩

end Document

end ActiveMarkup
