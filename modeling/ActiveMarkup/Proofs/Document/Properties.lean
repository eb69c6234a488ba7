import ActiveMarkup.Proofs.Document.BreakOff
import ActiveMarkup.Proofs.Text.Lowercase
set_option autoImplicit false

namespace ActiveMarkup

theorem Table.find?_erase_same {α : Type} (t : Table α) (key : String) :
    (t.erase key).find? key = none := by
  rw [find?_eq_none_iff, keys, erase]
  simp

namespace Markup

mutual

/-- The text of a tree; elements that are not shown may be left out. -/
def textOf (shownOnly : Bool) : Tree → String
  | .text s => s
  | .comment _ => ""
  | .element _ _ style children =>
    if shownOnly && Table.find? style "display" == some "none" then ""
    else textOfAll shownOnly children

def textOfAll (shownOnly : Bool) : List Tree → String
  | [] => ""
  | t :: ts => textOf shownOnly t ++ textOfAll shownOnly ts

end

theorem textOfAll_append (shownOnly : Bool) (ts us : List Tree) :
    textOfAll shownOnly (ts ++ us) = textOfAll shownOnly ts ++ textOfAll shownOnly us := by
  induction ts with
  | nil => simp [textOfAll]
  | cons t ts ih => simp [textOfAll, ih, String.append_assoc]

theorem textOfAll_flatMap {α : Type} (shownOnly : Bool) (f : α → List Tree) (l : List α) :
    textOfAll shownOnly (l.flatMap f) = String.join (l.map fun x => textOfAll shownOnly (f x)) := by
  induction l with
  | nil => rfl
  | cons x l ih => rw [List.flatMap_cons, textOfAll_append, ih, List.map_cons, String.join_cons]

end Markup

namespace Document

variable {d d' : Document} {id x : NodeId} {name : String} {v : Value}

theorem textWithin_eq (d : Document) (shownOnly : Bool) (depth : Nat) (x : NodeId) :
    d.textWithin shownOnly depth x = Markup.textOfAll shownOnly (d.treesWithin depth x) := by
  induction depth generalizing x with
  | zero => rfl
  | succ depth ih =>
    have hchildren : ∀ children : List NodeId,
        String.join (children.map (d.textWithin shownOnly depth)) =
          Markup.textOfAll shownOnly (children.flatMap (d.treesWithin depth)) := fun children => by
      rw [Markup.textOfAll_flatMap, List.map_congr_left fun c _ => ih c]
    rw [textWithin, treesWithin]
    cases d.node? x with
    | none => rfl
    | some n =>
      simp only
      cases n.kind with
      | document => exact hchildren n.children
      | text s => simp [Markup.textOfAll, Markup.textOf]
      | comment s => simp [Markup.textOfAll, Markup.textOf]
      | element e => simp [Markup.textOfAll, Markup.textOf, hchildren, Element.isHidden]

theorem IsTree.text_of_forest (h : d.IsTree) {e : Element} (he : d.kind? id = some (.element e))
    {s : String} (hforest : d.forest id = if s = "" then [] else [.text s]) (shownOnly : Bool) :
    d.textWithin shownOnly (d.nodes.size + 1) id = if shownOnly && e.isHidden then "" else s := by
  have htext : Markup.textOfAll shownOnly (d.forest id) = s := by
    rw [hforest]
    split
    next hs => exact hs.symm
    next => simp [Markup.textOfAll, Markup.textOf]
  rw [textWithin_eq, ← trees, h.trees_eq, he]
  simp [NodeKind.trees, Markup.Tree.ofElement, Markup.textOfAll, Markup.textOf, htext,
    Element.isHidden]

/-- The properties have names in lower case, and none that of an attribute that stands for it. -/
def OwnNames (t : Table Value) : Prop :=
  ∀ key ∈ t.keys, key.toLower = key ∧ reflected.contains key = false

theorem OwnNames.nil : OwnNames [] := nofun

theorem OwnNames.insert {t : Table Value} (h : OwnNames t) (v : Value)
    (hname : reflected.contains name.toLower = false) :
    OwnNames (Table.insert t name.toLower v) := by
  intro key hkey
  rw [Table.keys_insert] at hkey
  split at hkey
  · exact h key hkey
  · rcases List.mem_append.mp hkey with hkey | hkey
    · exact h key hkey
    · rw [List.mem_singleton.mp hkey]
      exact ⟨Text.string_toLower_toLower name, hname⟩

theorem Reachable.everyTable {P : Table Value → Prop} (hnil : P [])
    (hinsert : ∀ t (name : String) v, reflected.contains name.toLower = false → P t →
      P (Table.insert t name.toLower v))
    (h : d.Reachable) : d.EveryTable P := by
  induction h with
  | empty => exact EveryElement.empty
  | parse hp => exact .parse hnil hp
  | after op _ ih => exact ih.after hnil op fun _ name v t _ => hinsert t name v

theorem Reachable.ownNames (h : d.Reachable) : d.EveryTable OwnNames :=
  h.everyTable .nil fun _ _ v hname ht => ht.insert v hname

def builtIn : List String :=
  ["innertext", "textcontent", "innerhtml", "classname", "hidden"]

/-- The spellings that are computed whatever is written under them. -/
def readOnly : List String :=
  ["outerHTML", "outerhtml", "tagName", "nodeName", "childElementCount", "parentNode",
    "parentElement"]

theorem computed?_eq_none {e : Element} (hname : name.toLower ∉ builtIn) (hread : name ∉ readOnly) :
    d.computed? id e name = none := by
  unfold computed?
  split
  all_goals first | rfl | exact absurd (by decide +kernel) hname | exact absurd (by decide) hread

theorem toLower_of_mem_reflected (hname : name ∈ reflected) : name.toLower = name := by
  have hall : ∀ name ∈ reflected, name.toLower = name := by decide +kernel
  exact hall name hname

theorem written?_insert {e : Element} (h : OwnNames e.properties) (name : String) (v : Value) :
    written? { e with properties := Table.insert e.properties name.toLower v } name = some v := by
  unfold written?
  by_cases hlower : name = name.toLower
  · rw [← hlower, Table.find?_insert_same]
  · have hother : Table.find? e.properties name = none :=
      (Table.find?_eq_none_iff _ _).mpr fun hkey => hlower (h name hkey).1.symm
    rw [Table.find?_insert_other _ _ hlower, hother, Table.find?_insert_same]

/-- No property hides an attribute that stands for it. -/
theorem written?_reflected {e : Element} (h : OwnNames e.properties) (hname : name ∈ reflected) :
    written? e name = none := by
  have hnone : Table.find? e.properties name = none :=
    (Table.find?_eq_none_iff _ _).mpr fun hkey => by
      have hcontains := (h name hkey).2
      rw [List.contains_iff_mem.mpr hname] at hcontains
      cases hcontains
  rw [written?, toLower_of_mem_reflected hname, hnone]

theorem outcome_eq_ok {result : Except DocumentError Document} (h : d.outcome result = (none, d')) :
    result = .ok d' := by
  cases result with
  | ok d'' =>
    cases h
    rfl
  | error e => cases h

theorem setProperty_text (hname : name.toLower ∈ ["innertext", "textcontent"]) (v : Value) :
    d.setProperty id name v = d.outcome (d.setTextContent id v.toText) := by
  rcases List.mem_cons.mp hname with hname | hname
  · rw [setProperty, hname]
    rfl
  · rw [setProperty, List.mem_singleton.mp hname]
    rfl

theorem setProperty_classes (hname : name.toLower = "classname") (v : Value) :
    d.setProperty id name v = d.outcome (d.setAttribute id "class" v.toText) := by
  rw [setProperty, hname]
  rfl

theorem setProperty_hidden (hname : name.toLower = "hidden") (v : Value) :
    d.setProperty id name v = d.outcome (d.setHidden id v.isTruthy) := by
  rw [setProperty, hname]
  rfl

theorem setProperty_other (hname : name.toLower ∉ builtIn) (v : Value) :
    d.setProperty id name v =
      if reflected.contains name.toLower then
        d.outcome (d.setAttribute id name.toLower v.toText)
      else
        d.outcome (d.modifyElement id fun e =>
          { e with properties := Table.insert e.properties name.toLower v }) := by
  unfold setProperty
  split
  case h_6 => rfl
  all_goals
    next hkey => exact absurd (by rw [hkey]; decide) hname

theorem modifyElement_kind? {f : Element → Element} (h : d.modifyElement id f = .ok d') :
    ∃ e, d.kind? id = some (.element e) ∧ d'.kind? id = some (.element (f e)) := by
  obtain ⟨e, he, rfl⟩ := modifyElement_ok h
  exact ⟨e, he, by rw [kind?_modify_element he, if_pos rfl]⟩

theorem element?_of_kind? {e : Element} (h : d.kind? x = some (.element e)) :
    d.element? x = some e := by
  rw [element?_eq, h]

theorem setAttribute_attribute? {s : String} (hname : name.toLower ≠ "style")
    (h : d.setAttribute id name s = .ok d') :
    ∃ e e', d.kind? id = some (.element e) ∧ d'.element? id = some e' ∧
      e'.properties = e.properties ∧ e'.attribute? name.toLower = some s := by
  obtain ⟨e, he, he'⟩ := modifyElement_kind? h
  rw [if_neg hname] at he'
  exact ⟨e, _, he, element?_of_kind? he', rfl, Table.find?_insert_same _ _ _⟩

theorem setHidden_isHidden {hidden : Bool} (h : d.setHidden id hidden = .ok d') :
    ∃ e, d'.element? id = some e ∧ e.isHidden = hidden := by
  obtain ⟨e, -, he'⟩ := modifyElement_kind? h
  have hname : Style.propertyName "display" = "display" := by decide +kernel
  refine ⟨_, element?_of_kind? he', ?_⟩
  rw [hname]
  cases hidden with
  | true => simp [Element.isHidden, Table.find?_insert_same]
  | false => simp [Element.isHidden, Table.find?_erase_same]

structure SameShown (d d' : Document) : Prop where
  size : d'.nodes.size = d.nodes.size
  parent : ∀ x, d'.parent? x = d.parent? x
  children : ∀ x, d'.children x = d.children x
  tag : ∀ x, d'.tag? x = d.tag? x
  printed : ∀ x, (d'.kind? x).map NodeKind.trees = (d.kind? x).map NodeKind.trees

theorem sameShown_properties {e : Element} (he : d.kind? id = some (.element e))
    (properties : Table Value) :
    SameShown d (d.modify id fun n =>
      { n with kind := .element { e with properties := properties } }) := by
  have hkind := @kind?_modify_element d id e { e with properties := properties } he
  refine ⟨by simp [modify], parent?_modify fun _ => rfl, children_modify fun _ => rfl,
    fun x => ?_, fun x => ?_⟩
  all_goals by_cases hx : x = id
  · rw [tag?, tag?, element?_of_kind? ((hkind x).trans (if_pos hx)), hx, element?_of_kind? he]
    rfl
  · rw [tag?, tag?, element?_eq, element?_eq, hkind, if_neg hx]
  · rw [hkind, if_pos hx, hx, he]
    rfl
  · rw [hkind, if_neg hx]

theorem SameShown.computed? (h : SameShown d d') (ht : d.IsTree) {e e' : Element}
    (he : e'.tag = e.tag) (hname : name ∈ readOnly) :
    d'.computed? id e' name = d.computed? id e name := by
  have helement : d'.isElement = d.isElement := funext fun x => by
    have hsome := congrArg Option.isSome (h.tag x)
    rwa [tag?, tag?, Option.isSome_map, Option.isSome_map] at hsome
  have hraw : d'.holdsRawText = d.holdsRawText := funext fun x => by
    rw [holdsRawText, h.tag, ← holdsRawText]
  have htrees : d'.trees id = d.trees id :=
    ht.trees_congr (Nat.le_of_eq h.size.symm) fun z _ => ⟨h.printed z, h.children z⟩
  simp only [readOnly, List.mem_cons, List.not_mem_nil, or_false] at hname
  rcases hname with rfl | rfl | rfl | rfl | rfl | rfl | rfl
  · simp only [Document.computed?, outerMarkup, h.parent, hraw, htrees]
  · simp only [Document.computed?, outerMarkup, h.parent, hraw, htrees]
  · simp only [Document.computed?, he]
  · simp only [Document.computed?, he]
  · simp only [Document.computed?, elementChildren, h.children, helement]
  · simp only [Document.computed?, h.parent]
  · simp only [Document.computed?, h.parent, helement]

theorem computed?_isSome (d : Document) (id : NodeId) (e : Element) (hname : name ∈ readOnly) :
    (d.computed? id e name).isSome = true := by
  simp only [readOnly, List.mem_cons, List.not_mem_nil, or_false] at hname
  rcases hname with rfl | rfl | rfl | rfl | rfl | rfl | rfl <;> rfl

theorem property_of_computed? {e : Element} {w : Value} (he : d.element? id = some e)
    (hw : d.computed? id e name = some w) : d.property id name = w := by
  rw [property, he]
  simp only [hw]

theorem property_of_not_computed {e : Element} (he : d.element? id = some e)
    (hnone : d.computed? id e name = none) :
    d.property id name = (written? e name).getD (((e.attribute? name).map Value.text).getD
      (if reflected.contains name || name = "value" then .text "" else .undefined)) := by
  rw [property, he]
  simp only [hnone]
  cases written? e name with
  | some v => rfl
  | none => cases e.attribute? name <;> rfl

structure Spellings : Prop where
  text : ∀ name ∈ ["textContent", "textcontent", "innerText", "innertext"],
    name.toLower ∈ ["innertext", "textcontent"]
  markup : ∀ name ∈ ["innerHTML", "innerhtml"], name.toLower = "innerhtml"
  classes : ∀ name ∈ ["className", "classname"], name.toLower = "classname"
  classAttribute : "class".toLower = "class"
  hidden : "hidden".toLower = "hidden"
  reflects : ∀ name ∈ reflected, name.toLower ∉ builtIn ∧ name ∉ readOnly ∧ name.toLower ≠ "style"
  computed : ∀ name ∈ readOnly, name.toLower ∉ builtIn ∧ name.toLower ∉ reflected

theorem spellings : Spellings := by
  constructor <;> decide +kernel

/-- What the properties of an element read as when one of them was written. -/
structure ReadsBack (d : Document) (id : NodeId) (name : String) (v : Value) (d' : Document) :
    Prop where
  content : name ∈ ["textContent", "textcontent"] → d'.property id name = .text v.toText
  shown : name ∈ ["innerText", "innertext"] →
    d'.property id name = .text (if d.isHidden id then "" else v.toText)
  markup : name ∈ ["innerHTML", "innerhtml"] → d'.property id name = .text (d'.innerMarkup id)
  classes : name ∈ ["className", "classname"] → d'.property id name = .text v.toText
  hidden : name = "hidden" → d'.property id name = .bool v.isTruthy
  reflects : name ∈ reflected → d'.property id name = .text v.toText
  own : name.toLower ∉ builtIn → name.toLower ∉ reflected → name ∉ readOnly →
    d'.property id name = v
  computed : name ∈ readOnly → d'.property id name = d.property id name

theorem IsTree.text_setProperty (h : d.IsTree)
    (hname : name.toLower ∈ ["innertext", "textcontent"])
    (hset : d.setProperty id name v = (none, d')) :
    ∃ e, d'.element? id = some e ∧ ∀ shownOnly,
      d'.textWithin shownOnly (d'.nodes.size + 1) id =
        if shownOnly && d.isHidden id then "" else v.toText := by
  rw [setProperty_text hname] at hset
  have hset := outcome_eq_ok hset
  obtain ⟨d₁, hself, -⟩ := Parser.bind_eq_ok.mp hset
  obtain ⟨e, he, -⟩ := modifyElement_ok hself
  obtain ⟨d₂, hset', ht', hkind, -, hforest⟩ := h.setTextContent he v.toText
  cases hset.symm.trans hset'
  have he' : d'.kind? id = some (.element e) := by
    rw [hkind id (known_of_kind? he), he]
  refine ⟨e, element?_of_kind? he', fun shownOnly => ?_⟩
  rw [ht'.text_of_forest he' hforest, isHidden, element?_of_kind? he]
  rfl

theorem IsTree.property_content (h : d.IsTree) (hname : name ∈ ["textContent", "textcontent"])
    (hset : d.setProperty id name v = (none, d')) : d'.property id name = .text v.toText := by
  have hlower := spellings.text name (List.mem_append_left ["innerText", "innertext"] hname)
  obtain ⟨e, he, htext⟩ := h.text_setProperty hlower hset
  have hread : d'.textContent id = v.toText := htext false
  refine property_of_computed? he ?_
  rcases List.mem_pair.mp hname with rfl | rfl <;>
    exact congrArg (fun s => some (Value.text s)) hread

theorem IsTree.property_shown (h : d.IsTree) (hname : name ∈ ["innerText", "innertext"])
    (hset : d.setProperty id name v = (none, d')) :
    d'.property id name = .text (if d.isHidden id then "" else v.toText) := by
  have hlower := spellings.text name (List.mem_append_right ["textContent", "textcontent"] hname)
  obtain ⟨e, he, htext⟩ := h.text_setProperty hlower hset
  have hread : d'.innerText id = if d.isHidden id then "" else v.toText := by
    rw [innerText, htext, Bool.true_and]
  refine property_of_computed? he ?_
  rcases List.mem_pair.mp hname with rfl | rfl <;>
    exact congrArg (fun s => some (Value.text s)) hread

theorem isElement_of_setInnerMarkup {src : String} (h : d.setInnerMarkup id src = (none, d')) :
    d'.isElement id = true := by
  have hedited := edited_setInnerMarkup d id src
  rw [h] at hedited
  refine hedited.isElement ?_
  unfold Document.setInnerMarkup at h
  split at h
  · cases h
  next hself =>
    obtain ⟨e, he, -⟩ := modifyElement_ok hself
    exact isElement_iff.mpr ⟨e, he⟩

theorem property_markup (hname : name ∈ ["innerHTML", "innerhtml"])
    (hset : d.setProperty id name v = (none, d')) :
    d'.property id name = .text (d'.innerMarkup id) := by
  rw [setProperty_innerMarkup (spellings.markup name hname)] at hset
  obtain ⟨e, he⟩ := Option.isSome_iff_exists.mp (isElement_of_setInnerMarkup hset)
  refine property_of_computed? he ?_
  rcases List.mem_pair.mp hname with rfl | rfl <;> rfl

theorem property_classes (hname : name ∈ ["className", "classname"])
    (hset : d.setProperty id name v = (none, d')) : d'.property id name = .text v.toText := by
  have hclass := spellings.classAttribute
  rw [setProperty_classes (spellings.classes name hname)] at hset
  obtain ⟨-, e', -, he', -, hfound⟩ :=
    setAttribute_attribute? (by rw [hclass]; decide) (outcome_eq_ok hset)
  rw [hclass] at hfound
  refine property_of_computed? he' ?_
  rcases List.mem_pair.mp hname with rfl | rfl <;>
    exact congrArg (fun found => some (Value.text (found.getD ""))) hfound

theorem property_hidden (hset : d.setProperty id "hidden" v = (none, d')) :
    d'.property id "hidden" = .bool v.isTruthy := by
  rw [setProperty_hidden spellings.hidden] at hset
  obtain ⟨e, he, hhidden⟩ := setHidden_isHidden (outcome_eq_ok hset)
  exact property_of_computed? he (congrArg (fun b => some (Value.bool b)) hhidden)

theorem property_reflects (hname : name ∈ reflected) (hown : d.EveryTable OwnNames)
    (hset : d.setProperty id name v = (none, d')) : d'.property id name = .text v.toText := by
  obtain ⟨hbuiltIn, hread, hstyle⟩ := spellings.reflects name hname
  have hlower := toLower_of_mem_reflected hname
  have hcontains : reflected.contains name.toLower = true := by
    rw [hlower]
    exact List.contains_iff_mem.mpr hname
  rw [setProperty_other hbuiltIn, if_pos hcontains, hlower] at hset
  obtain ⟨e, e', he, he', hproperties, hfound⟩ :=
    setAttribute_attribute? hstyle (outcome_eq_ok hset)
  have hkept : OwnNames e'.properties := hproperties ▸ hown id e he
  rw [hlower] at hfound
  rw [property_of_not_computed he' (computed?_eq_none hbuiltIn hread),
    written?_reflected hkept hname, hfound]
  rfl

theorem property_own (hbuiltIn : name.toLower ∉ builtIn) (hreflected : name.toLower ∉ reflected)
    (hread : name ∉ readOnly) (hown : d.EveryTable OwnNames)
    (hset : d.setProperty id name v = (none, d')) : d'.property id name = v := by
  rw [setProperty_other hbuiltIn, if_neg (by simpa using hreflected)] at hset
  obtain ⟨e, he, he'⟩ := modifyElement_kind? (outcome_eq_ok hset)
  rw [property_of_not_computed (element?_of_kind? he') (computed?_eq_none hbuiltIn hread),
    written?_insert (hown id e he)]
  rfl

theorem IsTree.property_computed (h : d.IsTree) (hname : name ∈ readOnly)
    (hset : d.setProperty id name v = (none, d')) : d'.property id name = d.property id name := by
  obtain ⟨hbuiltIn, hreflected⟩ := spellings.computed name hname
  rw [setProperty_other hbuiltIn, if_neg (by simpa using hreflected)] at hset
  have hmodify := outcome_eq_ok hset
  obtain ⟨e, he, rfl⟩ := modifyElement_ok hmodify
  obtain ⟨e₀, he₀, he'⟩ := modifyElement_kind? hmodify
  cases he.symm.trans he₀
  obtain ⟨w, hw⟩ := Option.isSome_iff_exists.mp (computed?_isSome d id e hname)
  rw [property_of_computed? (element?_of_kind? he) hw]
  exact property_of_computed? (element?_of_kind? he')
    (((sameShown_properties he _).computed? h rfl hname).trans hw)

/-- Whatever was done to a document, a property that is written is read again: the text of the value
for the content, the classes and the reflected attributes, whether it counts as true for `hidden`,
the markup of the content where markup was written, and the value itself under every other name, in
whatever case it is spelled. The text of an element that is not shown reads empty, and what is
computed whatever is written reads as before. -/
theorem reachable_property_setProperty (h : d.Reachable)
    (hset : d.setProperty id name v = (none, d')) : ReadsBack d id name v d' := by
  have ht := h.isTree
  exact {
    content := fun hname => ht.property_content hname hset
    shown := fun hname => ht.property_shown hname hset
    markup := fun hname => property_markup hname hset
    classes := fun hname => property_classes hname hset
    hidden := fun hname => by
      subst hname
      exact property_hidden hset
    reflects := fun hname => property_reflects hname h.ownNames hset
    own := fun hbuiltIn hreflected hread =>
      property_own hbuiltIn hreflected hread h.ownNames hset
    computed := fun hname => ht.property_computed hname hset }

/-- A text is written into a new element, and then a handle under a name with a capital letter. -/
theorem reachable_property_setProperty_twice :
    ∃ d d₁ d₂, empty.createElement "p" = .ok (⟨1⟩, d) ∧
      d.setProperty ⟨1⟩ "innerText" (.bool true) = (none, d₁) ∧
      d₁.setProperty ⟨1⟩ "firstSeen" (.node ⟨2⟩) = (none, d₂) ∧
      d₁.property ⟨1⟩ "innerText" = .text "true" ∧
      d₂.property ⟨1⟩ "firstSeen" = .node ⟨2⟩ := by
  have hr := Reachable.empty.after (.createElement "p")
  have hr₁ := hr.after (.setProperty ⟨1⟩ "innerText" (.bool true))
  have hset : ((Operation.createElement "p").after empty |>.setProperty ⟨1⟩ "innerText"
      (.bool true)).1 = none := by decide +kernel
  have hset₁ : ((Operation.setProperty ⟨1⟩ "innerText" (.bool true)).after
      ((Operation.createElement "p").after empty) |>.setProperty ⟨1⟩ "firstSeen"
      (.node ⟨2⟩)).1 = none := by decide +kernel
  refine ⟨_, _, _, rfl, Prod.ext hset rfl, Prod.ext hset₁ rfl, ?_, ?_⟩
  · exact ((reachable_property_setProperty hr (Prod.ext hset rfl)).shown (by decide)).trans (by cbv)
  · exact (reachable_property_setProperty hr₁ (Prod.ext hset₁ rfl)).own (by decide +kernel)
      (by decide +kernel) (by decide)

/-- The text of an element that is not shown, the tag, and an attribute under a name with capital
letters do not read as they were written. -/
theorem property_setProperty_lost :
    ∃ d hidden d₁ d₂ d₃, empty.createElement "p" = .ok (⟨1⟩, d) ∧
      d.setHidden ⟨1⟩ true = .ok hidden ∧
      hidden.setProperty ⟨1⟩ "innerText" (.text "x") = (none, d₁) ∧
      d₁.property ⟨1⟩ "innerText" = .text "" ∧
      d.setProperty ⟨1⟩ "tagName" (.text "x") = (none, d₂) ∧
      d₂.property ⟨1⟩ "tagName" = .text "P" ∧
      d.setProperty ⟨1⟩ "ID" (.text "x") = (none, d₃) ∧ d₃.property ⟨1⟩ "ID" = .undefined := by
  refine ⟨_, _, _, _, _, rfl, rfl, Prod.ext (by decide +kernel) rfl, by cbv,
    Prod.ext (by decide +kernel) rfl, by cbv, Prod.ext (by decide +kernel) rfl, ?_⟩
  obtain ⟨e, he, hwritten, hattribute⟩ : ∃ e,
      ((empty.push (.element (.ofTag "p"))).2.setProperty ⟨1⟩ "ID" (.text "x")).2.element? ⟨1⟩ =
        some e ∧ written? e "ID" = none ∧ e.attribute? "ID" = none := ⟨_, by cbv, by cbv, by cbv⟩
  refine (property_of_not_computed he (computed?_eq_none (by decide +kernel) (by decide))).trans ?_
  rw [hwritten, hattribute]
  rfl

end Document

end ActiveMarkup
