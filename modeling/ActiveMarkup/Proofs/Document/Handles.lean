import ActiveMarkup.Document.Query
import ActiveMarkup.Proofs.Document.Elements
import ActiveMarkup.Proofs.Expr.Handles
set_option autoImplicit false

namespace ActiveMarkup

/-- Whether an error says that a handle is unknown or not that of an element. -/
def DocumentError.isLost : DocumentError → Bool
  | unknownNode _ | notAnElement _ => true
  | _ => false

namespace Document

open Markup (Bare)

variable {d d' : Document} {id p x : NodeId}

theorem isElement_iff : d.isElement x = true ↔ ∃ e, d.kind? x = some (.element e) := by
  rw [isElement, element?_eq]
  cases hk : d.kind? x with
  | none => simp
  | some kind => cases kind <;> simp

theorem size_le_of_known (h : ∀ x, d.Known x → d'.Known x) : d.nodes.size ≤ d'.nodes.size :=
  Nat.le_of_not_lt fun hlt => Nat.lt_irrefl _ (h ⟨d'.nodes.size⟩ hlt)

theorem known_of_isElement (h : d.isElement x = true) : d.Known x := by
  obtain ⟨e, he⟩ := isElement_iff.mp h
  exact known_of_kind? he

theorem open_of_isElement (h : d.isElement x = true) : d.Open x := by
  obtain ⟨e, he⟩ := isElement_iff.mp h
  exact ⟨.element e, he, rfl⟩

theorem isElement_push (d : Document) (e : Element) :
    (d.push (.element e)).2.isElement (d.push (.element e)).1 = true :=
  isElement_iff.mpr ⟨e, by rw [kind?_push, if_pos rfl]⟩

theorem isElement_root (ht : d.IsTree) : d.isElement .root = false := by
  rw [isElement, element?_eq, (ht.root_kind .root).mpr rfl]
  rfl

theorem Edit.isElement (h : Edit d d') (hx : d.isElement x = true) : d'.isElement x = true := by
  rw [isElement_iff] at hx ⊢
  cases h with
  | data e' he _ =>
    rw [kind?_modify_element he]
    split
    · exact ⟨e', rfl⟩
    · exact hx
  | extend he =>
    obtain ⟨e, hk⟩ := hx
    exact ⟨e, by rw [kind?, he.old x (known_of_kind? hk)]; exact hk⟩
  | detach => rwa [kind?_detach]
  | append ha => rwa [kind?_appendChild ha]

theorem Edited.isElement (h : Edited d d') (hx : d.isElement x = true) :
    d'.isElement x = true := by
  induction h with
  | refl => exact hx
  | tail _ he ih => exact he.isElement ih

theorem isElement_of_mem_elementChildren (h : x ∈ d.elementChildren p) : d.isElement x = true :=
  (List.mem_filter.mp h).2

theorem isElement_of_mem_descendants (h : x ∈ d.descendants p) : d.isElement x = true :=
  (List.mem_filter.mp h).2

theorem isElement_of_mem_select {list : List Selector} (h : x ∈ d.select list) :
    d.isElement x = true :=
  isElement_of_mem_descendants (List.mem_filter.mp h).1

theorem isElement_of_byId? {name : String} (h : d.byId? name = some x) : d.isElement x = true := by
  unfold byId? at h
  split at h
  · cases h
  · exact isElement_of_mem_descendants (List.mem_of_find?_eq_some h)

theorem map_eq_ok {ε α β : Type} {r : Except ε α} {f : α → β} {b : β} :
    r.map f = .ok b ↔ ∃ a, r = .ok a ∧ f a = b := by
  cases r <;> simp [Except.map]

theorem map_eq_error {ε α β : Type} {r : Except ε α} {f : α → β} {e : ε} :
    r.map f = .error e ↔ r = .error e := by
  cases r <;> simp [Except.map]

theorem isElement_of_queryAll {src : String} {found : List NodeId}
    (h : d.queryAll src = .ok found) (hx : x ∈ found) : d.isElement x = true := by
  obtain ⟨list, -, rfl⟩ := map_eq_ok.mp h
  exact isElement_of_mem_select hx

theorem isElement_of_query {src : String} (h : d.query src = .ok (some x)) :
    d.isElement x = true := by
  obtain ⟨list, -, hhead⟩ := map_eq_ok.mp h
  exact isElement_of_mem_select (List.mem_of_head? hhead)

theorem selectors_error {src : String} {e : DocumentError} (h : selectors src = .error e) :
    e.isLost = false := by
  unfold selectors at h
  split at h
  · cases h
  · cases h
    rfl

theorem queryAll_error {src : String} {e : DocumentError} (h : d.queryAll src = .error e) :
    e.isLost = false :=
  selectors_error (map_eq_error.mp h)

theorem query_error {src : String} {e : DocumentError} (h : d.query src = .error e) :
    e.isLost = false :=
  selectors_error (map_eq_error.mp h)

theorem isElement_of_resolve? {reference : String} (h : d.resolve? reference = some x) :
    d.isElement x = true := by
  unfold resolve? at h
  split at h
  next found hfound =>
    cases h
    exact isElement_of_byId? hfound
  next =>
    split at h
    next found hquery => exact isElement_of_query (h ▸ hquery)
    next => cases h

theorem Edited.journal_known (h : Edited d d') (ht : d.IsTree)
    (hd : ∀ j ∈ d.inserted, d.Known j) : ∀ j ∈ d'.inserted, d'.Known j := by
  induction h with
  | refl => exact hd
  | @tail d₁ d₂ h₁ he ih =>
    intro j hj
    cases he with
    | data e' hk htag => exact Edit.known (.data e' hk htag) (ih j hj)
    | extend hext => exact hext.known (ih j (hext.journal ▸ hj))
    | detach id =>
      refine Edit.known (.detach id) (ih j ?_)
      unfold Document.detach at hj
      split at hj <;> exact hj
    | append ha =>
      refine Edit.known (.append ha) ?_
      obtain ⟨hr, -, hjournal⟩ := appendChild_ok ha
      rw [hjournal] at hj
      split at hj
      · rcases Array.mem_push.mp hj with hj | rfl
        · exact ih j hj
        · exact (refusal?_eq_none (Edited.isTree h₁ ht) hr).2.1
      · exact ih j hj

def EveryTable (d : Document) (P : Table Value → Prop) : Prop :=
  d.EveryElement fun _ e => P e.properties

def KeepsProperties (f : Element → Element) : Prop :=
  ∀ e, (f e).tag = e.tag ∧ (f e).properties = e.properties

theorem setAttribute_eq (d : Document) (x : NodeId) (name value : String) :
    ∃ f, KeepsProperties f ∧ d.setAttribute x name value = d.modifyElement x f := by
  refine ⟨_, fun e => ?_, rfl⟩
  split <;> exact ⟨rfl, rfl⟩

theorem setStyle_eq (d : Document) (x : NodeId) (name value : String) :
    ∃ f, KeepsProperties f ∧ d.setStyle x name value = d.modifyElement x f := by
  refine ⟨_, fun e => ?_, rfl⟩
  split <;> exact ⟨rfl, rfl⟩

namespace EveryTable

variable {P : Table Value → Prop}

theorem added (h : d.EveryTable P) (hnil : P []) {kind : NodeKind} (hkind : Bare kind)
    (hk : ∀ x, d'.kind? x = if x = p then some kind else d.kind? x) : d'.EveryTable P :=
  EveryElement.added h (fun e he => hkind e he ▸ hnil) hk

theorem data (h : d.EveryTable P) {f : Element → Element} (hf : KeepsProperties f)
    (hm : d.modifyElement x f = .ok d') : d'.EveryTable P :=
  EveryElement.modifyElement h (fun e he => (hf e).2 ▸ he) hm

theorem setStyle (h : d.EveryTable P) {name value : String}
    (hm : d.setStyle x name value = .ok d') : d'.EveryTable P := by
  obtain ⟨f, hf, heq⟩ := d.setStyle_eq x name value
  exact h.data hf (heq ▸ hm)

theorem parse (hnil : P []) {src : String} (h : Document.parse src = .ok d) : d.EveryTable P :=
  EveryElement.parse (fun _ _ hread => hread.1 ▸ hnil) h

theorem after (h : d.EveryTable P) (hnil : P []) (op : Operation)
    (hinsert : ∀ x name v t, op = .setProperty x name v → reflected.contains name.toLower = false →
      P t → P (Table.insert t name.toLower v)) : (op.after d).EveryTable P := by
  refine EveryElement.after (fun _ _ hread => hread.1 ▸ hnil) h op fun x f hf e he => ?_
  cases hf with
  | setAttribute | reflects =>
    unfold Element.withAttribute
    split <;> exact he
  | setStyle | setHidden | hides =>
    unfold Element.withStyle
    split <;> exact he
  | own hname => exact hinsert _ _ _ _ rfl hname he

end EveryTable

/-- A handle that a property of an element holds. -/
def Mentions (d : Document) (id : NodeId) : Prop :=
  ∃ x e, d.kind? x = some (.element e) ∧ e.properties.Mentions id

theorem not_mentions_iff : ¬ d.Mentions id ↔ d.EveryTable fun t => ¬ t.Mentions id :=
  ⟨fun h x e he hid => h ⟨x, e, he, hid⟩, fun h ⟨x, e, he, hid⟩ => h x e he hid⟩

theorem Mentions.of_everyTable (h : d'.Mentions id)
    (hkeeps : (d.EveryTable fun t => ¬ t.Mentions id) → d'.EveryTable fun t => ¬ t.Mentions id) :
    d.Mentions id :=
  Classical.byContradiction fun hnot =>
    not_mentions_iff.mpr (hkeeps (not_mentions_iff.mp hnot)) h

theorem Mentions.of_kinds (hk : ∀ x, d'.kind? x = d.kind? x) (h : d'.Mentions id) :
    d.Mentions id :=
  h.of_everyTable fun hd => hd.of_kinds hk

theorem Mentions.of_added {kind : NodeKind} (hkind : Bare kind)
    (hk : ∀ x, d'.kind? x = if x = p then some kind else d.kind? x) (h : d'.Mentions id) :
    d.Mentions id :=
  h.of_everyTable fun hd => hd.added Table.not_mentions_nil hkind hk

theorem Mentions.of_data {f : Element → Element} (hf : KeepsProperties f)
    (hm : d.modifyElement x f = .ok d') (h : d'.Mentions id) : d.Mentions id :=
  h.of_everyTable fun hd => hd.data hf hm

theorem Mentions.of_setStyle {name value : String} (hm : d.setStyle x name value = .ok d')
    (h : d'.Mentions id) : d.Mentions id :=
  h.of_everyTable fun hd => hd.setStyle hm

theorem Mentions.of_outcome {result : Except DocumentError Document}
    (h : (d.outcome result).2.Mentions id)
    (hresult : ∀ d', result = .ok d' → d'.Mentions id → d.Mentions id) : d.Mentions id := by
  cases result with
  | ok d' => exact hresult d' rfl h
  | error e => exact h

theorem not_mentions_of_parse {src : String} (h : parse src = .ok d) : ¬ d.Mentions id :=
  not_mentions_iff.mpr (.parse Table.not_mentions_nil h)

theorem inserted_of_parse {src : String} (h : parse src = .ok d) : d.inserted = #[] := by
  obtain ⟨-, rfl⟩ := parse_eq_ok_iff.mp h
  exact build_induction (P := fun d => d.inserted = #[]) (Q := fun _ => True) (K := fun _ => True)
    .root (fun _ _ _ hd _ _ _ => ⟨hd, trivial⟩) [] _ (fun _ _ _ _ => trivial) _ rfl
    ⟨trivial, open_empty_root⟩ (by simp)

/-- Writing a property adds the handles of its value, and no others. -/
theorem Mentions.of_setProperty {name : String} {v : Value}
    (h : (d.setProperty x name v).2.Mentions id) : d.Mentions id ∨ v.Mentions id := by
  by_cases hv : v.Mentions id
  · exact .inr hv
  · refine .inl (h.of_everyTable fun hd =>
      hd.after Table.not_mentions_nil (.setProperty x name v) ?_)
    rintro _ _ _ t ⟨⟩ - ht hid
    exact (Table.mentions_insert hid).elim ht hv

theorem mentions_node_or_null {o : Option NodeId}
    (h : ((o.map Value.node).getD .null).Mentions id) : o = some id := by
  cases o with
  | none => cases h
  | some x =>
    cases h
    rfl

theorem mentions_computed? {e : Element} {name : String} {v : Value}
    (h : d.computed? x e name = some v) (hid : v.Mentions id) : d.parent? x = some id := by
  unfold computed? at h
  split at h <;> cases h
  case h_15 => exact mentions_node_or_null hid
  case h_16 => exact (Option.filter_eq_some_iff.mp (mentions_node_or_null hid)).1
  all_goals cases hid

theorem mentions_property {name : String} (h : (d.property x name).Mentions id) :
    d.Mentions id ∨ d.parent? x = some id := by
  unfold property at h
  split at h
  · cases h
  next e he =>
    split at h
    next v hv => exact .inr (mentions_computed? hv h)
    next =>
      split at h
      next v hv =>
        refine .inl ⟨x, e, kind?_of_element? he, ?_⟩
        unfold written? at hv
        split at hv
        next w hw =>
          cases hv
          exact Table.mentions_of_find? hw h
        next => exact Table.mentions_of_find? hv h
      next =>
        split at h
        · cases h
        · split at h <;> cases h

theorem modifyElement_isElement (hx : d.isElement x = true) (f : Element → Element) :
    ∃ d', d.modifyElement x f = .ok d' := by
  obtain ⟨e, he⟩ := isElement_iff.mp hx
  obtain ⟨⟨parent, children, kind⟩, hn, hkind⟩ := Option.map_eq_some_iff.mp he
  cases hkind
  exact ⟨_, by rw [modifyElement, hn]⟩

theorem outcome_eq_error {result : Except DocumentError Document} {e : DocumentError}
    (h : (d.outcome result).1 = some e) : result = .error e := by
  cases result with
  | ok d' => cases h
  | error e' =>
    cases h
    rfl

theorem refusal?_lost (hp : d.Open p) {c : NodeId} {e : DocumentError}
    (h : d.refusal? p c = some e) (he : e.isLost = true) :
    e = .unknownNode c ∧ (d.Known c → c = .root) := by
  rw [refusal?_open hp] at h
  split at h
  next hc =>
    cases h
    refine ⟨rfl, fun hknown => ?_⟩
    rw [known_iff_node?] at hknown
    simpa [Option.isNone_iff_eq_none, Option.isSome_iff_ne_none.mp hknown] using hc
  next =>
    split at h
    · cases h
      cases he
    · cases h

theorem appendChild_lost (hp : d.Open p) {c : NodeId} {e : DocumentError}
    (h : d.appendChild p c = .error e) (he : e.isLost = true) :
    e = .unknownNode c ∧ (d.Known c → c = .root) := by
  unfold Document.appendChild at h
  cases hr : d.refusal? p c with
  | none =>
    rw [hr] at h
    cases h
  | some e' =>
    rw [hr] at h
    cases h
    exact refusal?_lost hp hr he

theorem appendAll_error {nodes : List NodeId} {e : DocumentError} (hp : d.Open p)
    (hnodes : ∀ c ∈ nodes, d.Known c ∧ c ≠ .root) (h : (appendAll p nodes d).1 = some e) :
    e.isLost = false := by
  induction nodes generalizing d with
  | nil => cases h
  | cons c rest ih =>
    obtain ⟨hc, hrest⟩ := List.forall_mem_cons.mp hnodes
    unfold appendAll at h
    split at h
    next d' ha =>
      refine ih ?_ (fun c' hc' => ⟨Edit.known (.append ha) (hrest c' hc').1, (hrest c' hc').2⟩) h
      obtain ⟨kind, hk, hleaf⟩ := hp
      exact ⟨kind, by rw [kind?_appendChild ha, hk], hleaf⟩
    next e' ha =>
      cases h
      by_contra hlost
      exact hc.2 ((appendChild_lost hp ha (by simpa using hlost)).2 hc.1)

theorem appendMarkup_error (ht : d.IsTree) (hp : d.Open p) {src : String} {e : DocumentError}
    (h : (d.appendMarkup p src).1 = .error e) : e.isLost = false := by
  have hext := extends_withFragment d src
  have ht' := hext.tree ht
  rw [appendMarkup_eq] at h
  split at h
  · cases h
    rfl
  · have hopen : (d.withFragment src).Open p := by
      obtain ⟨kind, hk, hleaf⟩ := hp
      exact ⟨kind, by rw [kind?, hext.old p (Open.known ⟨kind, hk, hleaf⟩)]; exact hk, hleaf⟩
    have hnodes : ∀ c ∈ d.fragment src, (d.withFragment src).Known c ∧ c ≠ .root := by
      intro c hc
      refine ⟨ht'.known_child hc, ?_⟩
      rintro rfl
      rw [fragment, ht'.mem_children, ht'.root_top] at hc
      cases hc
    cases happend : (appendAll p (d.fragment src) (d.withFragment src)).1 with
    | none =>
      rw [happend] at h
      cases h
    | some e' =>
      rw [happend] at h
      cases h
      exact appendAll_error hopen hnodes happend

theorem setInnerMarkup_error (ht : d.IsTree) (hx : d.isElement x = true) {src : String}
    {e : DocumentError} (h : (d.setInnerMarkup x src).1 = some e) : e.isLost = false := by
  obtain ⟨e₀, he₀⟩ := isElement_iff.mp hx
  have hopen : (d.clearChildren x).Open x :=
    ⟨.element e₀, (kind?_foldl_detach _ d x).trans he₀, rfl⟩
  have hmarkup : ∀ e, ((d.clearChildren x).appendMarkup x src).1 = .error e → e.isLost = false :=
    fun e => appendMarkup_error ((edited_clearChildren d x).isTree ht) hopen
  rw [setInnerMarkup, modifyElement_self he₀] at h
  simp only at h
  generalize (d.clearChildren x).appendMarkup x src = appended at h hmarkup
  obtain ⟨e' | nodes, d₂⟩ := appended
  · cases h
    exact hmarkup e rfl
  · cases h

theorem setProperty_error (ht : d.IsTree) (hx : d.isElement x = true) {name : String} {v : Value}
    {e : DocumentError} (h : (d.setProperty x name v).1 = some e) : e.isLost = false := by
  have hdata : ∀ f, d.modifyElement x f ≠ .error e := by
    intro f hf
    obtain ⟨d', hd'⟩ := modifyElement_isElement hx f
    rw [hd'] at hf
    cases hf
  have htext : ∀ s, d.setTextContent x s ≠ .error e := by
    intro s hs
    obtain ⟨e₀, he₀⟩ := isElement_iff.mp hx
    obtain ⟨d', hd', -⟩ := ht.setTextContent he₀ s
    rw [hd'] at hs
    cases hs
  unfold setProperty at h
  split at h
  · exact (htext _ (outcome_eq_error h)).elim
  · exact (htext _ (outcome_eq_error h)).elim
  · exact setInnerMarkup_error ht hx h
  · exact (hdata _ (outcome_eq_error h)).elim
  · exact (hdata _ (outcome_eq_error h)).elim
  · split at h <;> exact (hdata _ (outcome_eq_error h)).elim

end Document

end ActiveMarkup
