import ActiveMarkup.Proofs.Document.Edits
import Mathlib.Logic.Relation
set_option autoImplicit false

namespace ActiveMarkup.Document

variable {d d' d'' : Document} {c p x : NodeId}

/-- A document with more nodes: the old ones are as they were, and no new one hangs from them. -/
structure Extends (d d' : Document) : Prop where
  old : ∀ x, d.Known x → d'.node? x = d.node? x
  new : ∀ x p, ¬ d.Known x → d'.parent? x = some p → ¬ d.Known p
  journal : d'.inserted = d.inserted
  tree : d.IsTree → d'.IsTree

/-- One edit of a document. The tag of an element is never changed. -/
inductive Edit (d : Document) : Document → Prop where
  | data {id : NodeId} {e : Element} (e' : Element) :
      d.kind? id = some (.element e) → e'.tag = e.tag →
      Edit d (d.modify id fun n => { n with kind := .element e' })
  | extend {d' : Document} : Extends d d' → Edit d d'
  | detach (id : NodeId) : Edit d (d.detach id)
  | append {d' : Document} {p c : NodeId} : d.appendChild p c = .ok d' → Edit d d'

abbrev Edited : Document → Document → Prop :=
  Relation.ReflTransGen Edit

theorem Extends.known (h : Extends d d') (hx : d.Known x) : d'.Known x := by
  rw [known_iff_node?] at hx ⊢
  rwa [h.old x ((known_iff_node? d x).mpr hx)]

theorem Extends.known_of_connected (h : Extends d d') (ht : d.IsTree)
    (hroot : d'.Above .root x) : d.Known x := by
  induction hroot with
  | self => exact ht.known_root
  | step hp _ ih => exact Classical.byContradiction fun hnew => h.new _ _ hnew hp ih

theorem Extends.above_iff (h : Extends d d') (ht : d.IsTree) (hx : d.Known x) (a : NodeId) :
    d'.Above a x ↔ d.Above a x := by
  have hpar : ∀ y, d.Known y → d'.parent? y = d.parent? y := fun y hy => by
    rw [Document.parent?, h.old y hy]
    rfl
  constructor <;> intro hab
  · induction hab with
    | self => exact .self
    | step hp _ ih =>
      rw [hpar _ hx] at hp
      exact .step hp (ih (ht.known_parent hp))
  · induction hab with
    | self => exact .self
    | step hp _ ih => exact .step ((hpar _ hx).trans hp) (ih (ht.known_parent hp))

theorem Edit.known (h : Edit d d') (hx : d.Known x) : d'.Known x := by
  cases h with
  | data e' _ _ => rwa [known_modify]
  | extend he => exact he.known hx
  | detach id => rwa [known_iff_kind?, kind?_detach, ← known_iff_kind?]
  | append ha => rwa [known_iff_kind?, kind?_appendChild ha, ← known_iff_kind?]

theorem Edit.journal (h : Edit d d') {j : NodeId} (hj : j ∈ d.inserted) : j ∈ d'.inserted := by
  cases h with
  | data e' _ _ => exact hj
  | extend he => rwa [he.journal]
  | detach id =>
    unfold Document.detach
    split <;> exact hj
  | append ha =>
    rw [(appendChild_ok ha).2.2]
    split
    · exact Array.mem_push_of_mem _ hj
    · exact hj

theorem Edit.isTree (h : Edit d d') (ht : d.IsTree) : d'.IsTree := by
  cases h with
  | data e' hk _ => exact ht.modify_element hk e'
  | extend he => exact he.tree ht
  | detach id => exact ht.detach id
  | append ha => exact ht.appendChild ha

theorem Edited.isTree (h : Edited d d') (ht : d.IsTree) : d'.IsTree := by
  induction h with
  | refl => exact ht
  | tail _ he ih => exact he.isTree ih

theorem Edited.known (h : Edited d d') (hx : d.Known x) : d'.Known x := by
  induction h with
  | refl => exact hx
  | tail _ he ih => exact he.known ih

theorem Edited.journal (h : Edited d d') {j : NodeId} (hj : j ∈ d.inserted) : j ∈ d'.inserted := by
  induction h with
  | refl => exact hj
  | tail _ he ih => exact he.journal ih

theorem extends_push (d : Document) {kind : NodeKind} (hkind : kind ≠ .document) :
    Extends d (d.push kind).2 where
  old x hx := by
    rw [node?_push, if_neg (ne_push kind hx)]
  new x p hx hp := by
    rw [parent?_push, parent?_fresh hx] at hp
    cases hp
  journal := rfl
  tree ht := ht.push hkind

theorem node?_pushChild (d : Document) (p : NodeId) (kind : NodeKind) (hx : d.Known x)
    (hp : x ≠ p) : (d.pushChild p kind).2.node? x = d.node? x := by
  have hne := ne_push kind hx
  change ((d.push kind).2.link p (d.push kind).1).node? x = d.node? x
  rw [node?_link, node?_push, if_neg hne]
  cases hn : d.node? x <;> simp [hne, hp]

theorem parent?_pushChild (d : Document) (p : NodeId) (kind : NodeKind) (x : NodeId) :
    (d.pushChild p kind).2.parent? x =
      if x = (d.pushChild p kind).1 then some p else d.parent? x := by
  change ((d.push kind).2.link p (d.push kind).1).parent? x = _
  rw [parent?_link p ((d.known_push kind _).mpr (.inl rfl)), parent?_push]
  rfl

theorem kind?_pushChild (d : Document) (p : NodeId) (kind : NodeKind) (x : NodeId) :
    (d.pushChild p kind).2.kind? x =
      if x = (d.pushChild p kind).1 then some kind else d.kind? x := by
  change ((d.push kind).2.link p (d.push kind).1).kind? x = _
  rw [kind?_link, kind?_push]
  rfl

theorem pushChild_fresh (d : Document) (p : NodeId) (kind : NodeKind) :
    ¬ d.Known (d.pushChild p kind).1 :=
  d.push_fresh kind

theorem open_pushChild_self (d : Document) (p : NodeId) (e : Element) :
    (d.pushChild p (.element e)).2.Open (d.pushChild p (.element e)).1 :=
  ⟨.element e, by rw [kind?_pushChild, if_pos rfl], rfl⟩

theorem Open.pushChild (h : d.Open x) (p : NodeId) (kind : NodeKind) :
    (d.pushChild p kind).2.Open x := by
  have hne : x ≠ (d.pushChild p kind).1 := fun he => d.pushChild_fresh p kind (he ▸ h.known)
  obtain ⟨open_kind, ho, hl⟩ := h
  exact ⟨open_kind, by rw [kind?_pushChild, if_neg hne, ho], hl⟩

theorem Extends.pushChild (h : Extends d d') (ho : d'.Open p) (hp : ¬ d.Known p)
    {kind : NodeKind} (hkind : kind ≠ .document) :
    Extends d (d'.pushChild p kind).2 ∧ ¬ d.Known (d'.pushChild p kind).1 := by
  refine ⟨⟨?_, ?_, h.journal, fun ht => (h.tree ht).pushChild ho hkind⟩,
    fun hk => d'.pushChild_fresh p kind (h.known hk)⟩
  · intro x hx
    have hne : x ≠ p := by
      rintro rfl
      exact hp hx
    rw [node?_pushChild d' p kind (h.known hx) hne, h.old x hx]
  · intro x q hx hq
    rw [parent?_pushChild] at hq
    split at hq
    · cases hq
      exact hp
    · exact h.new x q hx hq

theorem closeTag_subset (tag : String) (stack : List (NodeId × String)) :
    closeTag tag stack ⊆ stack := by
  unfold closeTag
  split
  · exact fun _ he => he
  next first rest hd =>
    intro entry he
    refine (List.dropWhile_sublist fun entry : NodeId × String => entry.2 ≠ tag).subset ?_
    rw [hd]
    exact List.mem_cons_of_mem _ he

def kindsOf : Markup.Piece → List NodeKind
  | .comment s => [.comment s]
  | .text s => [.text s]
  | .leaf e => [.element e]
  | .verbatim e s => [.element e, .text s]
  | .opening e => [.element e]
  | .closing _ => []

theorem kindsOf_ne_document (piece : Markup.Piece) : ∀ kind ∈ kindsOf piece, kind ≠ .document := by
  cases piece <;> simp [kindsOf]

/-- What is kept when a node is put under one of the nodes that take part is kept when markup is
built: the parents are the container and the elements built before. -/
theorem build_induction {P : Document → Prop} {Q : NodeId → Prop} {K : NodeKind → Prop}
    (container : NodeId)
    (hstep : ∀ (d : Document) (p : NodeId) (kind : NodeKind), P d → Q p → d.Open p →
      K kind → P (d.pushChild p kind).2 ∧ Q (d.pushChild p kind).1)
    (stack : List (NodeId × String)) (pieces : List Markup.Piece)
    (hpieces : ∀ piece ∈ pieces, ∀ kind ∈ kindsOf piece, K kind) (d : Document) (hP : P d)
    (hcontainer : Q container ∧ d.Open container)
    (hstack : ∀ entry ∈ stack, Q entry.1 ∧ d.Open entry.1) :
    P (build container stack pieces d) := by
  induction pieces generalizing stack d with
  | nil => simpa [build] using hP
  | cons piece rest ih =>
    obtain ⟨hkinds, hrest⟩ := List.forall_mem_cons.mp hpieces
    replace ih := fun stack => ih stack hrest
    have hparent : ∀ parent, parent = (stack.head?.map Prod.fst).getD container →
        Q parent ∧ d.Open parent := by
      rintro parent rfl
      cases stack with
      | nil => exact hcontainer
      | cons entry stack => exact hstack entry List.mem_cons_self
    have hone : ∀ kind parent, parent = (stack.head?.map Prod.fst).getD container → K kind →
        P (build container stack rest (d.pushChild parent kind).2) := by
      intro kind parent hpar hkind
      obtain ⟨hq, ho⟩ := hparent parent hpar
      exact ih stack _ (hstep d parent kind hP hq ho hkind).1
        ⟨hcontainer.1, hcontainer.2.pushChild _ _⟩
        fun entry he => ⟨(hstack entry he).1, (hstack entry he).2.pushChild _ _⟩
    cases piece with
    | comment s => exact hone _ _ rfl (hkinds _ List.mem_cons_self)
    | text s => exact hone _ _ rfl (hkinds _ List.mem_cons_self)
    | leaf e => exact hone _ _ rfl (hkinds _ List.mem_cons_self)
    | verbatim e s =>
      have he : K (.element e) := hkinds _ List.mem_cons_self
      have hs : K (.text s) := hkinds _ (List.mem_cons_of_mem _ List.mem_cons_self)
      obtain ⟨hq, ho⟩ := hparent _ rfl
      obtain ⟨hP₁, hq₁⟩ := hstep d _ (.element e) hP hq ho he
      simp only [build]
      split
      · exact hone _ _ rfl he
      · exact ih stack _ (hstep _ _ (.text s) hP₁ hq₁ (d.open_pushChild_self _ e) hs).1
          ⟨hcontainer.1, (hcontainer.2.pushChild _ _).pushChild _ _⟩
          fun entry he => ⟨(hstack entry he).1, ((hstack entry he).2.pushChild _ _).pushChild _ _⟩
    | opening e =>
      obtain ⟨hq, ho⟩ := hparent _ rfl
      obtain ⟨hP₁, hq₁⟩ := hstep d _ (.element e) hP hq ho (hkinds _ List.mem_cons_self)
      refine ih _ _ hP₁ ⟨hcontainer.1, hcontainer.2.pushChild _ _⟩ ?_
      intro entry he
      rcases List.mem_cons.mp he with rfl | he
      · exact ⟨hq₁, d.open_pushChild_self _ e⟩
      · exact ⟨(hstack entry he).1, (hstack entry he).2.pushChild _ _⟩
    | closing tag =>
      exact ih _ d hP hcontainer fun entry he => hstack entry (closeTag_subset tag stack he)

theorem modifyElement_ok {id : NodeId} {f : Element → Element}
    (h : d.modifyElement id f = .ok d') :
    ∃ e, d.kind? id = some (.element e) ∧
      d' = d.modify id fun n => { n with kind := .element (f e) } := by
  unfold modifyElement at h
  split at h
  · cases h
  next p cs e hn =>
    cases h
    exact ⟨e, by simp [kind?, hn], rfl⟩
  · cases h

theorem edited_modifyElement {id : NodeId} {f : Element → Element} (hf : ∀ e, (f e).tag = e.tag)
    (h : d.modifyElement id f = .ok d') : Edited d d' := by
  obtain ⟨e, hk, rfl⟩ := modifyElement_ok h
  exact .single (.data (f e) hk (hf e))

theorem edited_setAttribute {id : NodeId} {name value : String}
    (h : d.setAttribute id name value = .ok d') : Edited d d' := by
  refine edited_modifyElement (fun e => ?_) h
  split <;> rfl

theorem edited_setStyle {id : NodeId} {name value : String}
    (h : d.setStyle id name value = .ok d') : Edited d d' := by
  refine edited_modifyElement (fun e => ?_) h
  split <;> rfl

theorem edited_setHidden {id : NodeId} {hidden : Bool} (h : d.setHidden id hidden = .ok d') :
    Edited d d' :=
  edited_setStyle h

theorem edited_clearChildren (d : Document) (id : NodeId) : Edited d (d.clearChildren id) := by
  have hfold : ∀ (l : List NodeId) (d : Document), Edited d (l.foldl Document.detach d) := by
    intro l
    induction l with
    | nil => exact fun d => .refl
    | cons c l ih => exact fun d => .head (.detach c) (ih _)
  exact hfold _ d

theorem edited_appendAll (p : NodeId) (nodes : List NodeId) (d : Document) :
    Edited d (appendAll p nodes d).2 := by
  induction nodes generalizing d with
  | nil => exact .refl
  | cons c rest ih =>
    unfold appendAll
    split
    next d' h => exact .head (.append h) (ih d')
    next => exact .refl

theorem parse_eq_ok_iff {src : String} : parse src = .ok d ↔
    (Markup.pieces src).2 = none ∧ empty.build .root [] (Markup.pieces src).1 = d := by
  unfold parse readInto
  obtain ⟨pieces, _ | fault⟩ := Markup.pieces src <;> simp

theorem parse_eq_error_iff {src : String} {e : DocumentError} : parse src = .error e ↔
    ∃ fault offset, (Markup.pieces src).2 = some (fault, offset) ∧ e = .markup fault offset := by
  unfold parse readInto
  obtain ⟨pieces, _ | ⟨fault, offset⟩⟩ := Markup.pieces src
  · simp
  · constructor
    · rintro ⟨⟩
      exact ⟨fault, offset, rfl, rfl⟩
    · rintro ⟨_, _, ⟨⟩, rfl⟩
      rfl

theorem open_empty_root : empty.Open .root := ⟨.document, rfl, rfl⟩

theorem parse_isTree {src : String} (h : parse src = .ok d) : d.IsTree := by
  obtain ⟨-, rfl⟩ := parse_eq_ok_iff.mp h
  exact build_induction (Q := fun _ => True) .root
    (fun d p kind ht _ ho hk => ⟨ht.pushChild ho hk, trivial⟩) [] _
    (fun piece _ => kindsOf_ne_document piece) _ isTree_empty ⟨trivial, open_empty_root⟩ (by simp)

/-- The node under which a fragment is built. -/
def holder (d : Document) : NodeId :=
  (d.push (.element (.ofTag holderTag))).1

def withFragment (d : Document) (src : String) : Document :=
  (d.push (.element (.ofTag holderTag))).2.build d.holder [] (Markup.pieces src).1

def fragment (d : Document) (src : String) : List NodeId :=
  (d.withFragment src).children d.holder

theorem not_known_holder (d : Document) : ¬ d.Known d.holder :=
  d.push_fresh _

theorem open_holder (d : Document) : (d.push (.element (.ofTag holderTag))).2.Open d.holder :=
  ⟨_, by rw [kind?_push, holder, if_pos rfl], rfl⟩

theorem appendMarkup_eq (d : Document) (p : NodeId) (src : String) :
    d.appendMarkup p src =
      match (Markup.pieces src).2 with
      | some (fault, offset) => (.error (.markup fault offset), d.withFragment src)
      | none =>
        ((appendAll p (d.fragment src) (d.withFragment src)).1.elim (.ok (d.fragment src)) .error,
          (appendAll p (d.fragment src) (d.withFragment src)).2) := by
  unfold appendMarkup readInto fragment withFragment holder
  generalize d.push (.element (.ofTag holderTag)) = pushed
  generalize Markup.pieces src = read
  obtain ⟨pieces, _ | ⟨fault, offset⟩⟩ := read
  · dsimp only [Option.map_none]
    generalize appendAll p _ _ = appended
    obtain ⟨_ | e, d'⟩ := appended <;> rfl
  · rfl

theorem extends_withFragment (d : Document) (src : String) : Extends d (d.withFragment src) := by
  refine build_induction (P := Extends d) (Q := fun x => ¬ d.Known x) d.holder
    (fun d' p kind he hp ho hk => he.pushChild ho hp hk) [] _
    (fun piece _ => kindsOf_ne_document piece) _ (extends_push d (by simp)) ?_ (by simp)
  exact ⟨d.not_known_holder, d.open_holder⟩

theorem edited_appendMarkup (d : Document) (p : NodeId) (src : String) :
    Edited d (d.appendMarkup p src).2 := by
  have he : Edit d (d.withFragment src) := .extend (extends_withFragment d src)
  rw [appendMarkup_eq]
  split
  · exact .single he
  · exact .head he (edited_appendAll p _ _)

theorem edited_setInnerMarkup (d : Document) (id : NodeId) (src : String) :
    Edited d (d.setInnerMarkup id src).2 := by
  unfold setInnerMarkup
  split
  · exact .refl
  next d₁ h =>
    have ha := ((edited_modifyElement (fun _ => rfl) h).trans (edited_clearChildren d₁ id)).trans
      (edited_appendMarkup (d₁.clearChildren id) id src)
    generalize (d₁.clearChildren id).appendMarkup id src = appended at ha ⊢
    obtain ⟨_ | nodes, d₂⟩ := appended <;> exact ha

theorem edited_setTextContent {id : NodeId} {s : String} (h : d.setTextContent id s = .ok d') :
    Edited d d' := by
  unfold setTextContent at h
  cases hm : d.modifyElement id fun e => e with
  | error e => simp [hm, bind, Except.bind] at h
  | ok d₁ =>
    have hc := (edited_modifyElement (fun _ => rfl) hm).trans (edited_clearChildren d₁ id)
    simp only [hm, bind, Except.bind] at h
    split at h
    · cases h
      exact hc
    · exact hc.trans (.head (.extend (extends_push _ (by simp))) (.single (.append h)))

theorem edited_outcome {result : Except DocumentError Document}
    (h : ∀ d', result = .ok d' → Edited d d') : Edited d (d.outcome result).2 := by
  cases result with
  | ok d' => exact h d' rfl
  | error e => exact .refl

theorem edited_setProperty (d : Document) (id : NodeId) (name : String) (value : Value) :
    Edited d (d.setProperty id name value).2 := by
  unfold setProperty
  split
  · exact edited_outcome fun _ => edited_setTextContent
  · exact edited_outcome fun _ => edited_setTextContent
  · exact edited_setInnerMarkup d id _
  · exact edited_outcome fun _ => edited_setAttribute
  · exact edited_outcome fun _ => edited_setHidden
  · split
    · exact edited_outcome fun _ => edited_setAttribute
    · exact edited_outcome fun _ => edited_modifyElement fun _ => rfl

end ActiveMarkup.Document
