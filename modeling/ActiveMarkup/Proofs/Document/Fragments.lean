import ActiveMarkup.Proofs.Document.BreakOff
import ActiveMarkup.Proofs.Document.RoundTrip
set_option autoImplicit false

/-!
A fragment is read as a document is. The holder takes the place of the root: the same pieces are
put under it, so it comes to hold the same trees, and it is never closed, since a closing tag closes
only what a piece has opened. Its children are then moved one after another, and neither the move
nor the place they are moved to changes what stands below them.
-/

namespace ActiveMarkup.Document

variable {d d' d'' : Document} {c id p q x : NodeId} {src : String} {nodes : List NodeId}

structure Transferred (d : Document) (q p : NodeId) (nodes : List NodeId) (d' : Document) :
    Prop where
  tree : d'.IsTree
  size : d'.nodes.size = d.nodes.size
  kind : ∀ x, d'.kind? x = d.kind? x
  parent : ∀ x, d'.parent? x = if x ∈ nodes then some p else d.parent? x
  last : d'.children p = d.children p ++ nodes
  rest : ∀ x, x ≠ p → x ≠ q → d'.children x = d.children x
  journal : d'.inserted.toList = d.inserted.toList ++ if d.isConnected p then nodes else []

theorem Transferred.refl (h : d.IsTree) (q p : NodeId) : Transferred d q p [] d where
  tree := h
  size := rfl
  kind _ := rfl
  parent x := by simp
  last := (List.append_nil _).symm
  rest _ _ _ := rfl
  journal := by simp

theorem Open.of_kind? (h : d.Open p) (hkind : d'.kind? p = d.kind? p) : d'.Open p := by
  obtain ⟨kind, hk, hleaf⟩ := h
  exact ⟨kind, hkind.trans hk, hleaf⟩

theorem IsTree.appendChild_child (h : d.IsTree) (hp : d.Open p) (hqp : ¬ d.Above q p)
    (hc : d.parent? c = some q) : ∃ d', d.appendChild p c = .ok d' := by
  have hroot : c ≠ .root := by
    rintro rfl
    rw [h.root_top] at hc
    cases hc
  have hcycle : ¬ d.Above c p := fun hab => hqp ((Above.of_parent hc).trans hab)
  have hrefusal := h.refusal?_eq_none_iff.mpr ⟨hp, known_of_parent? hc, hroot, hcycle⟩
  rw [Document.appendChild, hrefusal]
  exact ⟨_, rfl⟩

theorem Moved.transferred (h : d.IsTree) (hm : Moved d p c d') (hqp : q ≠ p)
    (hc : d.parent? c = some q) (hconnected : d'.isConnected p = d.isConnected p)
    (ht : Transferred d' q p nodes d'') : Transferred d q p (c :: nodes) d'' where
  tree := ht.tree
  size := ht.size.trans hm.size
  kind x := (ht.kind x).trans (hm.kind x)
  parent x := by
    rw [ht.parent, hm.parent]
    by_cases hx : x = c <;> by_cases hn : x ∈ nodes <;> simp [hx, hn]
  last := by
    have hpc : d.parent? c ≠ some p := by simpa [hc] using hqp
    rw [ht.last, hm.last, h.filter_children hpc, List.append_assoc, List.singleton_append]
  rest x hxp hxq := by
    have hcx : d.parent? c ≠ some x := by simpa [hc] using hxq.symm
    rw [ht.rest x hxp hxq, hm.rest x hxp hcx]
  journal := by
    rw [ht.journal, hm.journal, hconnected]
    split <;> simp

theorem IsTree.appendAll_children (h : d.IsTree) (hp : d.Open p) (hqp : ¬ d.Above q p)
    (hq : d.children q = nodes) :
    ∃ d', appendAll p nodes d = (none, d') ∧ Transferred d q p nodes d' := by
  induction nodes generalizing d with
  | nil => exact ⟨d, rfl, .refl h q p⟩
  | cons c rest ih =>
    have hc : d.parent? c = some q := by
      rw [← h.mem_children, hq]
      exact List.mem_cons_self
    have hne : q ≠ p := by
      rintro rfl
      exact hqp .self
    obtain ⟨d₁, ha⟩ := h.appendChild_child hp hqp hc
    have hm := h.moved ha
    have hleft : d₁.children q = rest := by
      have honce := h.once q
      rw [hq, List.nodup_cons] at honce
      rw [hm.left q hne hc, hq, List.filter_cons_of_neg (by simp)]
      exact List.filter_eq_self.mpr fun y hy => decide_eq_true fun he => honce.1 (he ▸ hy)
    have hqp₁ : ¬ d₁.Above q p := by
      obtain ⟨-, -, -, hcycle⟩ := refusal?_eq_none h (appendChild_ok ha).1
      exact fun hab => hqp (hab.of_transfer (fun y hy => by rw [hm.parent, if_neg hy]) hcycle)
    obtain ⟨d₂, hd₂, ht⟩ := ih (h.appendChild ha) (hp.of_kind? (hm.kind p)) hqp₁ hleft
    refine ⟨d₂, ?_, hm.transferred h hne hc (h.isConnected_appendChild ha) ht⟩
    rw [appendAll, ha]
    exact hd₂

theorem Transferred.trees_eq (ht : Transferred d q p nodes d') (h : d.IsTree)
    (hqp : ¬ d.Above q p) (hc : d.parent? c = some q) : d'.trees c = d.trees c := by
  refine h.trees_congr (Nat.le_of_eq ht.size.symm) fun z hz =>
    ⟨congrArg (Option.map NodeKind.trees) (ht.kind z), ht.rest z ?_ ?_⟩
  · rintro rfl
    exact hqp ((Above.of_parent hc).trans hz)
  · rintro rfl
    exact (h.grounded c).not_above_parent hc hz

theorem IsTree.not_above_holder (h : d.IsTree) (src : String) (hp : d.Known p) :
    ¬ (d.withFragment src).Above d.holder p := by
  rw [(extends_withFragment d src).above_iff h hp]
  exact fun hab => d.not_known_holder (h.known_above hab hp)

theorem IsTree.fragment_fresh (h : d.IsTree) (hc : c ∈ d.fragment src) : ¬ d.Known c := by
  intro hknown
  have hextends := extends_withFragment d src
  have hparent := ((hextends.tree h).mem_children d.holder c).mp hc
  rw [parent?, hextends.old c hknown, ← parent?] at hparent
  exact d.not_known_holder (h.known_parent hparent)

/-- Under its holder a fragment has the trees that the document read from the same markup has. -/
theorem IsTree.forest_holder (h : d.IsTree) {parsed : Document} (hsrc : parse src = .ok parsed) :
    (d.withFragment src).forest d.holder = parsed.trees .root := by
  have hbuilding : Building (d.push (.element (.ofTag holderTag))).2 d.holder [] :=
    ⟨h.push (by simp), d.open_holder, trivial⟩
  have hempty : (d.push (.element (.ofTag holderTag))).2.forest d.holder = [] := by
    rw [forest, children_push, children_fresh d.not_known_holder]
    rfl
  rw [withFragment, (forest_build (Markup.pieces src).1 hbuilding).2, hempty, (parse_trees hsrc).1]
  rfl

theorem appendMarkup_of_parse {parsed : Document} (hsrc : parse src = .ok parsed) (p : NodeId) :
    d.appendMarkup p src =
      ((appendAll p (d.fragment src) (d.withFragment src)).1.elim (.ok (d.fragment src)) .error,
        (appendAll p (d.fragment src) (d.withFragment src)).2) := by
  rw [appendMarkup_eq, (parse_eq_ok_iff.mp hsrc).1]

/-- A document in which new nodes were put behind the children of a node. -/
structure Appended (d : Document) (p : NodeId) (nodes : List NodeId) (d' : Document) : Prop where
  tree : d'.IsTree
  last : d'.children p = d.children p ++ nodes
  fresh : ∀ c ∈ nodes, ¬ d.Known c
  once : nodes.Nodup
  kept : ∀ x, d.Known x → d'.node? x = (d.node? x).map fun n =>
    { n with children := if x = p then n.children ++ nodes else n.children }
  journal : d'.inserted.toList = d.inserted.toList ++ if d.isConnected p then nodes else []

theorem Extends.isConnected (h : Extends d d') (ht : d.IsTree) (hp : d.Known p) :
    d'.isConnected p = d.isConnected p := by
  rw [Bool.eq_iff_iff, (h.tree ht).isConnected_iff, ht.isConnected_iff, h.above_iff ht hp]

theorem Transferred.kept (h : d.IsTree)
    (ht : Transferred (d.withFragment src) d.holder p (d.fragment src) d') (hx : d.Known x) :
    d'.node? x = (d.node? x).map fun n =>
      { n with children := if x = p then n.children ++ d.fragment src else n.children } := by
  have hold := (extends_withFragment d src).old x hx
  have hholder : x ≠ d.holder := by
    rintro rfl
    exact d.not_known_holder hx
  refine node?_eq ?_ ?_ ?_
  · rw [ht.kind, (same_of_node? hold).1, kind?, Option.map_map]
    rfl
  · rw [ht.parent, if_neg fun hm => h.fragment_fresh hm hx, parent?, hold]
    cases d.node? x <;> rfl
  · have hchildren : d'.children x =
        if x = p then d.children x ++ d.fragment src else d.children x := by
      split
      next hxp =>
        subst hxp
        rw [ht.last, (same_of_node? hold).2]
      next hxp => rw [ht.rest x hxp hholder, (same_of_node? hold).2]
    rw [known_iff_node?, Option.isSome_iff_exists] at hx
    obtain ⟨n, hn⟩ := hx
    rw [hchildren, Document.children, hn]
    rfl

theorem Transferred.appended (h : d.IsTree) (hp : d.Known p)
    (ht : Transferred (d.withFragment src) d.holder p (d.fragment src) d') :
    Appended d p (d.fragment src) d' where
  tree := ht.tree
  last := by rw [ht.last, (same_of_node? ((extends_withFragment d src).old p hp)).2]
  fresh _ := h.fragment_fresh
  once := ((extends_withFragment d src).tree h).once d.holder
  kept _ := ht.kept h
  journal := by
    rw [ht.journal, (extends_withFragment d src).journal,
      (extends_withFragment d src).isConnected h hp]

theorem IsTree.appendMarkup_ok (h : d.IsTree) (hp : d.Open p) {parsed : Document}
    (hsrc : parse src = .ok parsed) :
    ∃ nodes d', d.appendMarkup p src = (.ok nodes, d') ∧ Appended d p nodes d' ∧
      nodes.flatMap d'.trees = parsed.trees .root := by
  have hextends := extends_withFragment d src
  have h₁ := hextends.tree h
  have hapart := h.not_above_holder src hp.known
  obtain ⟨d₂, hd₂, ht⟩ := h₁.appendAll_children
    (hp.of_kind? (same_of_node? (hextends.old p hp.known)).1) hapart rfl
  refine ⟨d.fragment src, d₂, ?_, ht.appended h hp.known, ?_⟩
  · rw [appendMarkup_of_parse hsrc, fragment, hd₂]
    rfl
  · have htrees : ∀ c ∈ d.fragment src, d₂.trees c = (d.withFragment src).trees c := fun c hc =>
      ht.trees_eq h₁ hapart ((h₁.mem_children d.holder c).mp hc)
    rw [← h.forest_holder hsrc, forest, List.flatMap_def, List.map_congr_left htrees,
      ← List.flatMap_def]
    rfl

/-- A new node may be put anywhere but under an old node that takes children, and an old node that
takes none refuses it. -/
theorem Extends.appendChild (h : Extends d d') (ht : d.IsTree) (hp : ¬ d.Open p)
    (hc : ¬ d.Known c) (ha : d'.appendChild p c = .ok d'') : Extends d d'' := by
  have ht' := h.tree ht
  obtain ⟨hrefusal, hnodes, hjournal⟩ := appendChild_ok ha
  have hopen := (refusal?_eq_none ht' hrefusal).1
  -- an old node that takes children would have been open before
  have hnew : ¬ d.Known p := fun hknown =>
    hp (hopen.of_kind? (same_of_node? (h.old p hknown)).1.symm)
  have hm := ht'.moved ha
  refine ⟨fun x hx => ?_, fun x q hx hq => ?_, ?_, fun _ => ht'.appendChild ha⟩
  · have hxp : x ≠ p := fun he => hnew (he ▸ hx)
    have hxc : x ≠ c := fun he => hc (he ▸ hx)
    have hleft : d'.parent? c ≠ some x := fun hparent => h.new c x hc hparent hx
    have hnode : d''.node? x = ((d'.detach c).link p c).node? x := by rw [node?, hnodes, ← node?]
    rw [hnode, node?_link, node?_detach, ← h.old x hx]
    cases d'.node? x <;> simp [hxp, hxc, hleft]
  · rw [hm.parent] at hq
    split at hq
    · cases hq
      exact hnew
    · exact h.new x q hx hq
  · have hapart : d'.isConnected p = false := by
      rw [Bool.eq_false_iff, Ne, ht'.isConnected_iff]
      exact fun hab => hnew (h.known_of_connected ht hab)
    rw [hm.journal, hapart]
    exact h.journal

theorem Extends.appendAll (h : Extends d d') (ht : d.IsTree) (hp : ¬ d.Open p)
    (hnodes : ∀ c ∈ nodes, ¬ d.Known c) : Extends d (appendAll p nodes d').2 := by
  induction nodes generalizing d' with
  | nil => exact h
  | cons c rest ih =>
    obtain ⟨hc, hrest⟩ := List.forall_mem_cons.mp hnodes
    unfold Document.appendAll
    split
    next ha => exact ih (h.appendChild ht hp hc ha) hrest
    next => exact h

theorem IsTree.appendMarkup_refused (h : d.IsTree) {e : DocumentError}
    (he : (d.appendMarkup p src).1 = .error e) : Extends d (d.appendMarkup p src).2 := by
  cases hsrc : parse src with
  | error e' => exact (appendMarkup_breakOff hsrc d p).2
  | ok parsed =>
    by_cases hp : d.Open p
    · obtain ⟨nodes, d', hd', -⟩ := h.appendMarkup_ok hp hsrc
      rw [hd'] at he
      cases he
    · rw [appendMarkup_of_parse hsrc]
      exact (extends_withFragment d src).appendAll h hp fun _ => h.fragment_fresh

theorem isElement_of_tag? {tag : String} (h : d.tag? x = some tag) : d.isElement x = true := by
  obtain ⟨e, he, -⟩ := Option.map_eq_some_iff.mp h
  rw [isElement, he]
  rfl

theorem IsTree.setInnerMarkup_ok (h : d.IsTree) {tag : String} (hid : d.tag? id = some tag)
    (hraw : isRawTextTag tag = false) {parsed : Document} (hsrc : parse src = .ok parsed) :
    (d.setInnerMarkup id src).1 = none ∧
      (d.setInnerMarkup id src).2.innerMarkup id = parsed.toMarkup := by
  have helement := isElement_of_tag? hid
  obtain ⟨e, hk⟩ := isElement_iff.mp helement
  have hcleared := (edited_clearChildren d id).isTree h
  have hkind := kind?_clearChildren d id
  obtain ⟨nodes, d', hd', happended, htrees⟩ :=
    hcleared.appendMarkup_ok ((open_of_isElement helement).of_kind? (hkind id)) hsrc
  have hkind' : d'.kind? id = d.kind? id := by
    have hknown : (d.clearChildren id).Known id := known_of_kind? ((hkind id).trans hk)
    rw [kind?, happended.kept id hknown, Option.map_map, ← hkind id, kind?]
    rfl
  have hholds : d'.holdsRawText id = false := by
    rw [holdsRawText_of_kind? hkind', holdsRawText, hid]
    exact hraw
  have hnone : (d.clearChildren id).children id = [] := by
    rw [h.children_clearChildren, if_pos rfl]
  have hresult : d.setInnerMarkup id src = (none, d') := by
    rw [setInnerMarkup, modifyElement_self hk]
    simp only
    rw [hd']
  rw [hresult]
  refine ⟨rfl, ?_⟩
  rw [innerMarkup, hholds, happended.last, hnone, List.nil_append, htrees, (parse_trees hsrc).2]

/-- A fragment is read as a document is. In an element whose content is not raw text it is accepted
if and only if it is as a document, with the same error otherwise, and the element has the markup of
that document for its content. Under every node that takes children the nodes of a fragment, which
are new, come after those that were there, with the trees of that document, and are entered in the
journal in order if the node is connected. Wherever a fragment is refused, no node that was there
and no entry of the journal is changed. -/
theorem reachable_fragments (h : d.Reachable) (src : String) :
    (∀ id tag, d.tag? id = some tag → isRawTextTag tag = false →
      ((d.setInnerMarkup id src).1 = none ↔ ∃ parsed, parse src = .ok parsed) ∧
      (∀ e, parse src = .error e →
        (d.setInnerMarkup id src).1 = some e ∧ ∃ fault offset, e = .markup fault offset) ∧
      ∀ parsed, parse src = .ok parsed →
        (d.setInnerMarkup id src).2.innerMarkup id = parsed.toMarkup) ∧
    (∀ p, d.Open p →
      (∀ e, parse src = .error e → (d.appendMarkup p src).1 = .error e) ∧
      ∀ parsed, parse src = .ok parsed → ∃ nodes d', d.appendMarkup p src = (.ok nodes, d') ∧
        Appended d p nodes d' ∧ nodes.flatMap d'.trees = parsed.trees .root) ∧
    ∀ p e, (d.appendMarkup p src).1 = .error e →
      (∀ x, d.Known x → (d.appendMarkup p src).2.node? x = d.node? x) ∧
      (d.appendMarkup p src).2.inserted = d.inserted := by
  have ht := h.isTree
  refine ⟨fun id tag hid hraw => ?_, fun p hp => ⟨fun e he => (appendMarkup_breakOff he d p).1,
    fun parsed hparsed => ht.appendMarkup_ok hp hparsed⟩, fun p e he => ?_⟩
  · have helement := isElement_of_tag? hid
    have herror : ∀ e, parse src = .error e → (d.setInnerMarkup id src).1 = some e ∧
        ∃ fault offset, e = .markup fault offset := fun e he =>
      ⟨(setInnerMarkup_extends he helement).1, parse_error_isMarkup he⟩
    refine ⟨⟨fun hnone => ?_, ?_⟩, herror, fun parsed hparsed =>
      (ht.setInnerMarkup_ok hid hraw hparsed).2⟩
    · cases hsrc : parse src with
      | ok parsed => exact ⟨parsed, rfl⟩
      | error e =>
        rw [(herror e hsrc).1] at hnone
        cases hnone
    · rintro ⟨parsed, hparsed⟩
      exact (ht.setInnerMarkup_ok hid hraw hparsed).1
  · have hextends := ht.appendMarkup_refused he
    exact ⟨hextends.old, hextends.journal⟩

/-- A closing tag for the holder and one for the element, a text that is escaped and an element left
open; what can be read is refused by a text, and what cannot by an element. -/
theorem reachable_fragments_closing :
    let src := "</template></div><br>&lt;<i>c"
    ∃ d parsed, parse "<div><p>a</p></div>" = .ok d ∧ parse src = .ok parsed ∧
      parsed.toMarkup = "<br>&lt;<i>c</i>" ∧
      (d.setInnerMarkup ⟨1⟩ src).2.innerMarkup ⟨1⟩ = parsed.toMarkup ∧
      (∃ nodes d', d.appendMarkup ⟨1⟩ src = (.ok nodes, d') ∧ Appended d ⟨1⟩ nodes d' ∧
        d'.children ⟨1⟩ = [⟨2⟩, ⟨5⟩, ⟨6⟩, ⟨7⟩] ∧ d'.inserted.toList = [⟨5⟩, ⟨6⟩, ⟨7⟩]) ∧
      (∃ e, (d.appendMarkup ⟨3⟩ src).1 = .error e) ∧
      (d.appendMarkup ⟨3⟩ src).2.node? ⟨3⟩ = d.node? ⟨3⟩ ∧
      ∃ e, (d.setInnerMarkup ⟨1⟩ "<b><!--").1 = some e := by
  intro src
  have heval : (parse "<div><p>a</p></div>").toOption.map (fun d =>
      (d.tag? ⟨1⟩, (d.node? ⟨3⟩).isSome, (d.appendMarkup ⟨3⟩ src).1.isOk,
        (d.appendMarkup ⟨1⟩ src).2.children ⟨1⟩, (d.appendMarkup ⟨1⟩ src).2.inserted.toList)) =
      some (some "div", true, false, [⟨2⟩, ⟨5⟩, ⟨6⟩, ⟨7⟩], [⟨5⟩, ⟨6⟩, ⟨7⟩]) := by decide +kernel
  have hfragment : (parse src).toOption.map toMarkup = some "<br>&lt;<i>c</i>" := by decide +kernel
  obtain ⟨d, hd, heval⟩ := Option.map_eq_some_iff.mp heval
  obtain ⟨parsed, hparsed, hmarkup⟩ := Option.map_eq_some_iff.mp hfragment
  simp only [Prod.mk.injEq] at heval
  obtain ⟨htag, hknown, hrefused, hchildren, hinserted⟩ := heval
  have hdocument := Reachable.parse (parse_of_toOption hd)
  obtain ⟨hinner, happend, hkept⟩ := reachable_fragments hdocument src
  have hopen : d.Open ⟨1⟩ := open_of_isElement (isElement_of_tag? htag)
  obtain ⟨nodes, d', hd', happended, -⟩ := (happend _ hopen).2 parsed (parse_of_toOption hparsed)
  obtain ⟨e, he⟩ : ∃ e, (d.appendMarkup ⟨3⟩ src).1 = .error e := by
    cases hresult : (d.appendMarkup ⟨3⟩ src).1 with
    | error e => exact ⟨e, rfl⟩
    | ok nodes =>
      rw [hresult] at hrefused
      cases hrefused
  obtain ⟨e', he'⟩ : ∃ e, parse "<b><!--" = .error e := ⟨_, by cbv⟩
  rw [hd'] at hchildren hinserted
  exact ⟨d, parsed, parse_of_toOption hd, parse_of_toOption hparsed, hmarkup,
    (hinner _ _ htag (by decide +kernel)).2.2 parsed (parse_of_toOption hparsed),
    ⟨nodes, d', hd', happended, hchildren, hinserted⟩, ⟨e, he⟩,
    (hkept _ e he).1 _ ((known_iff_node? d _).mpr hknown),
    e', (((reachable_fragments hdocument _).1 _ _ htag (by decide +kernel)).2.1 e' he').1⟩

end ActiveMarkup.Document
