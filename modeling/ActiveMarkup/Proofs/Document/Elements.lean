import ActiveMarkup.Proofs.Document.TextContent
import ActiveMarkup.Proofs.Expr.Reading
set_option autoImplicit false

namespace ActiveMarkup

namespace Markup

open Document (kindsOf)

theorem addAttribute_properties (e : Element) (name value : String) :
    (addAttribute e name value).properties = e.properties := by
  unfold addAttribute
  split <;> rfl

theorem readAttributes_properties {bound : Nat} {e : Element} {cs : List Char}
    {r : Element × Bool × List Char} (h : readAttributes bound e cs = .ok r) :
    r.1.properties = e.properties := by
  induction bound generalizing e cs with
  | zero => cases h
  | succ bound ih =>
    unfold readAttributes at h
    split at h
    · cases h
    · cases h
      rfl
    · cases h
      rfl
    · exact ih h
    · simp only at h
      split at h
      · exact ih h
      · obtain ⟨⟨value, rest⟩, -, h⟩ := Parser.bind_eq_ok.mp h
        rw [ih h, addAttribute_properties]

def Bare (kind : NodeKind) : Prop :=
  ∀ e, kind = .element e → e.properties = []

theorem bare_element {e : Element} (he : e.properties = []) : Bare (.element e) := by
  rintro _ ⟨⟩
  exact he

theorem bare_ofTag {e : Element} (he : e.properties = []) (closed : Bool) (rest : List Char) :
    ∀ kind ∈ kindsOf (ofTag e closed rest).1, Bare kind := by
  have hbare := bare_element he
  unfold ofTag
  split
  · exact List.forall_mem_singleton.mpr hbare
  · split
    · exact List.forall_mem_cons.mpr ⟨hbare, List.forall_mem_singleton.mpr nofun⟩
    · exact List.forall_mem_singleton.mpr hbare

theorem bare_nextPiece {c : Char} {cs : List Char} {p : Piece} {rest : List Char}
    (h : nextPiece c cs = .ok (some p, rest)) : ∀ kind ∈ kindsOf p, Bare kind := by
  obtain ⟨_, s, _, _, rfl⟩ | ⟨tag, rfl⟩ | ⟨_, _, e, closed, after, _, hread, rfl⟩ | ⟨_, _, rfl⟩ :=
    nextPiece_cases h
  · exact List.forall_mem_singleton.mpr nofun
  · nofun
  · exact bare_ofTag (readAttributes_properties hread) closed after
  · exact List.forall_mem_singleton.mpr nofun

/-- What holds of each element when it is added to a document. -/
def AsRead (e : Element) : Prop :=
  e.properties = [] ∧ Writable e

theorem inTagName_of_named {c : Char}
    (h : (c.isAlphanum || c == '-' || c == '_' || c == ':') = true) : inTagName c = true := by
  simp only [Char.isAlphanum, Bool.or_eq_true, beq_iff_eq] at h
  rcases h with (((halpha | hdigit) | rfl) | rfl) | rfl
  · exact inTagName_of_isAlpha halpha
  · have hall : ∀ n : Fin 10, inTagName (Char.ofNat (48 + n.val)) = true := by decide
    simp only [Char.isDigit, Bool.and_eq_true, decide_eq_true_eq, ge_iff_le,
      UInt32.le_iff_toNat_le] at hdigit
    obtain ⟨n, rfl⟩ := Text.exists_ofNat 10 hdigit.1 (Nat.lt_succ_of_le hdigit.2)
    exact hall n
  · rfl
  · rfl
  · rfl

theorem asRead_ofTag {tag : String} (h : Document.isTagName tag = true) :
    AsRead (.ofTag tag) := by
  have htag : (Element.ofTag tag).tag.toList = tag.toList.map Char.toLower :=
    Text.toList_toLower tag
  unfold Document.isTagName at h
  split at h
  · cases h
  next c cs hcs =>
    obtain ⟨hc, hrest⟩ := Bool.and_eq_true_iff.mp h
    refine ⟨rfl, {
      tag_alpha := ⟨c.toLower, cs.map Char.toLower, by rw [htag, hcs]; rfl, by
        rw [isAlpha_toLower, hc]⟩
      tag_chars := ?_
      tag_lower := Text.string_toLower_toLower tag
      distinct := List.nodup_nil
      names := by simp [Element.ofTag]
      style := Style.sound_nil }⟩
    intro a ha
    rw [htag, hcs, List.mem_map] at ha
    obtain ⟨b, hb, rfl⟩ := ha
    rw [inTagName_toLower]
    rcases List.mem_cons.mp hb with rfl | hb
    · exact inTagName_of_isAlpha hc
    · exact inTagName_of_named (List.all_eq_true.mp hrest b hb)

theorem asRead_piecesWithin (bound : Nat) (cs : List Char) :
    ∀ p ∈ (piecesWithin bound cs).1, ∀ kind ∈ kindsOf p, ∀ e, kind = .element e → AsRead e := by
  intro p hp kind hkind e he
  have hsound := piecesWithin_sound bound cs p hp
  have hbare := forall_mem_piecesWithin (fun _ _ _ _ => bare_nextPiece) bound cs p hp
  refine ⟨hbare kind hkind e he, ?_⟩
  subst he
  cases p with
  | opening e' =>
    cases List.mem_singleton.mp hkind
    exact hsound.1
  | leaf e' =>
    cases List.mem_singleton.mp hkind
    exact hsound
  | verbatim e' s =>
    rcases List.mem_pair.mp hkind with hkind | hkind <;> cases hkind
    exact hsound.1
  | comment s => cases List.mem_singleton.mp hkind
  | text s => cases List.mem_singleton.mp hkind
  | closing tag => cases hkind

end Markup

namespace Element

def withAttribute (name value : String) (e : Element) : Element :=
  if name = "style" then { e with style := Style.parse value }
  else { e with attributes := Table.insert e.attributes name value }

def withStyle (name value : String) (e : Element) : Element :=
  if value = "" then { e with style := Table.erase e.style name }
  else { e with style := Table.insert e.style name value }

end Element

namespace Document

variable {d d' : Document} {id p x : NodeId}

inductive Changes : Operation → NodeId → (Element → Element) → Prop where
  | setAttribute {x : NodeId} {name value : String} :
      Changes (.setAttribute x name value) x (Element.withAttribute name.toLower value)
  | setStyle {x : NodeId} {property value : String} :
      Changes (.setStyle x property value) x (Element.withStyle (Style.propertyName property) value)
  | setHidden {x : NodeId} {hidden : Bool} :
      Changes (.setHidden x hidden) x (Element.withStyle "display" (if hidden then "none" else ""))
  | reflects {x : NodeId} {name key : String} {v : Value} :
      Changes (.setProperty x name v) x (Element.withAttribute key v.toText)
  | hides {x : NodeId} {name : String} {v : Value} :
      Changes (.setProperty x name v) x
        (Element.withStyle "display" (if v.isTruthy then "none" else ""))
  | own {x : NodeId} {name : String} {v : Value} : reflected.contains name.toLower = false →
      Changes (.setProperty x name v) x
        fun e => { e with properties := Table.insert e.properties name.toLower v }

theorem kind?_modify_element {e e' : Element} (he : d.kind? id = some (.element e)) (x : NodeId) :
    (d.modify id fun n => { n with kind := .element e' }).kind? x =
      if x = id then some (.element e') else d.kind? x := by
  simp only [kind?, node?_modify]
  split
  next hx =>
    obtain ⟨n, hn, -⟩ := Option.map_eq_some_iff.mp he
    rw [hx, hn]
    rfl
  next => rfl

theorem kind?_appendAll (p : NodeId) (nodes : List NodeId) (d : Document) (x : NodeId) :
    (appendAll p nodes d).2.kind? x = d.kind? x := by
  induction nodes generalizing d with
  | nil => rfl
  | cons c rest ih =>
    unfold appendAll
    split
    next d' h => rw [ih, kind?_appendChild h]
    next => rfl

def EveryElement (d : Document) (P : NodeId → Element → Prop) : Prop :=
  ∀ x e, d.kind? x = some (.element e) → P x e

namespace EveryElement

variable {P : NodeId → Element → Prop}

theorem of_kinds (h : d.EveryElement P) (hk : ∀ x, d'.kind? x = d.kind? x) : d'.EveryElement P :=
  fun x e he => h x e (hk x ▸ he)

theorem added (h : d.EveryElement P) {kind : NodeKind} (hkind : ∀ e, kind = .element e → P p e)
    (hk : ∀ x, d'.kind? x = if x = p then some kind else d.kind? x) : d'.EveryElement P := by
  intro x e he
  rw [hk] at he
  split at he
  next hx => exact hx ▸ hkind e (Option.some.inj he)
  next => exact h x e he

theorem modifyElement (h : d.EveryElement P) {f : Element → Element}
    (hf : ∀ e, P x e → P x (f e)) (hm : d.modifyElement x f = .ok d') : d'.EveryElement P := by
  obtain ⟨e, he, rfl⟩ := modifyElement_ok hm
  intro y e' he'
  rw [kind?_modify_element he] at he'
  split at he'
  next hy =>
    cases he'
    exact hy ▸ hf e (h x e he)
  next => exact h y e' he'

theorem outcome (h : d.EveryElement P) {result : Except DocumentError Document}
    (hresult : ∀ d', result = .ok d' → d'.EveryElement P) :
    (d.outcome result).2.EveryElement P := by
  cases result with
  | ok d' => exact hresult d' rfl
  | error e => exact h

theorem clearChildren (h : d.EveryElement P) (x : NodeId) : (d.clearChildren x).EveryElement P :=
  h.of_kinds (kind?_foldl_detach (d.children x) d)

theorem setTextContent (h : d.EveryElement P) {s : String}
    (hm : d.setTextContent x s = .ok d') : d'.EveryElement P := by
  obtain ⟨d₁, hself, hm⟩ := Parser.bind_eq_ok.mp hm
  have hcleared := (h.modifyElement (fun _ he => he) hself).clearChildren x
  split at hm
  · cases hm
    exact hcleared
  · exact (hcleared.added (by rintro _ ⟨⟩) (kind?_push _ (.text s))).of_kinds (kind?_appendChild hm)

theorem empty : Document.empty.EveryElement P := by
  rintro ⟨_ | n⟩ e he
  · cases he
  · cases he

section

variable (hread : ∀ x e, Markup.AsRead e → P x e)
include hread

theorem build (h : d.EveryElement P) {container : NodeId} (hopen : d.Open container)
    (src : String) : (d.build container [] (Markup.pieces src).1).EveryElement P := by
  refine build_induction (P := fun d' => d'.EveryElement P) (Q := fun _ => True)
    (K := fun kind => ∀ e, kind = .element e → Markup.AsRead e)
    container (fun d' p kind hd' _ _ hkind => ?_) [] _ (Markup.asRead_piecesWithin _ _) d h
    ⟨trivial, hopen⟩ (by simp)
  exact ⟨hd'.added (fun e he => hread _ e (hkind e he)) (kind?_pushChild d' p kind), trivial⟩

theorem parse {src : String} (h : Document.parse src = .ok d) : d.EveryElement P := by
  obtain ⟨-, rfl⟩ := parse_eq_ok_iff.mp h
  exact build hread empty open_empty_root src

theorem appendMarkup (h : d.EveryElement P) (src : String) :
    (d.appendMarkup p src).2.EveryElement P := by
  have hpush : (d.push (.element (.ofTag holderTag))).2.EveryElement P :=
    h.added (by rintro _ ⟨⟩; exact hread _ _ (Markup.asRead_ofTag (by decide))) (kind?_push d _)
  have hbuilt : (d.withFragment src).EveryElement P := build hread hpush d.open_holder src
  rw [appendMarkup_eq]
  split
  · exact hbuilt
  · exact hbuilt.of_kinds (kind?_appendAll p _ _)

theorem setInnerMarkup (h : d.EveryElement P) (src : String) :
    (d.setInnerMarkup x src).2.EveryElement P := by
  unfold Document.setInnerMarkup
  split
  · exact h
  next d₁ hm =>
    have hcleared := (h.modifyElement (fun _ he => he) hm).clearChildren x
    have happend := appendMarkup (p := x) hread hcleared src
    generalize (d₁.clearChildren x).appendMarkup x src = appended at happend ⊢
    obtain ⟨_ | nodes, d₂⟩ := appended <;> exact happend

/-- What holds of elements as they are read and is kept by the changes of an operation is kept by
the operation. -/
theorem after (h : d.EveryElement P) (op : Operation)
    (hchange : ∀ x f, Changes op x f → ∀ e, P x e → P x (f e)) : (op.after d).EveryElement P := by
  cases op with
  | createElement tag =>
    refine h.outcome fun d' hd' => ?_
    unfold Document.createElement at hd'
    split at hd'
    next htag =>
      cases hd'
      exact h.added (by rintro _ ⟨⟩; exact hread _ _ (Markup.asRead_ofTag htag)) (kind?_push d _)
    · cases hd'
  | createText s => exact h.added (by rintro _ ⟨⟩) (kind?_push d (.text s))
  | createComment s => exact h.added (by rintro _ ⟨⟩) (kind?_push d (.comment s))
  | appendChild parent child => exact h.outcome fun _ hd' => h.of_kinds (kind?_appendChild hd')
  | appendMarkup parent src => exact appendMarkup hread h src
  | setInnerMarkup id src => exact setInnerMarkup hread h src
  | setTextContent id s => exact h.outcome fun _ => h.setTextContent
  | setProperty id name v =>
    have hchanged := hchange id
    change (d.setProperty id name v).2.EveryElement P
    unfold Document.setProperty
    split
    · exact h.outcome fun _ => h.setTextContent
    · exact h.outcome fun _ => h.setTextContent
    · exact setInnerMarkup hread h _
    · exact h.outcome fun _ => h.modifyElement
        (hchanged (Element.withAttribute "class".toLower v.toText) .reflects)
    · exact h.outcome fun _ => h.modifyElement (hchanged _ .hides)
    · split
      · exact h.outcome fun _ => h.modifyElement
          (hchanged (Element.withAttribute _ v.toText) .reflects)
      next hname =>
        exact h.outcome fun _ => h.modifyElement
          (hchanged _ (.own (Bool.eq_false_iff.mpr hname)))
  | setAttribute id name value =>
    exact h.outcome fun _ => h.modifyElement (hchange id _ .setAttribute)
  | setStyle id property value => exact h.outcome fun _ => h.modifyElement (hchange id _ .setStyle)
  | setHidden id hidden => exact h.outcome fun _ => h.modifyElement (hchange id _ .setHidden)
  | detach id => exact h.of_kinds (kind?_detach d id)
  | clearChildren id => exact h.clearChildren id
  | takeInserted => exact h

end

end EveryElement

end Document

end ActiveMarkup
