import ActiveMarkup.Proofs.Document.Handles
set_option autoImplicit false

namespace ActiveMarkup.Document

open Markup (Readable Writable)

variable {d d₀ : Document} {id x : NodeId} {e : Element} {ops : List Operation}

/-- An element that can be written, but for the names of its attributes and for the declarations
that style writes among some operations put in. -/
structure Kept (ops : List Operation) (x : NodeId) (e : Element) : Prop where
  tag : Writable ⟨e.tag, [], [], []⟩
  attributes : Table.Distinct e.attributes
  names : ∀ entry ∈ e.attributes, entry.1 ≠ "style"
  styles : Table.Distinct e.style
  declared : ∀ entry ∈ e.style, Style.Declares entry.1.toList entry.2.toList ∨ entry.2 ≠ "" ∧
    ∃ property, .setStyle x property entry.2 ∈ ops ∧ Style.propertyName property = entry.1

namespace Kept

theorem of_read (h : Markup.AsRead e) : Kept ops x e where
  tag := h.2.withData List.nodup_nil nofun Style.sound_nil
  attributes := h.2.distinct
  names entry hentry := (h.2.names entry hentry).2
  styles := h.2.style.distinct
  declared entry hentry := .inl (h.2.style.declares entry hentry)

theorem withAttribute (h : Kept ops x e) (name value : String) :
    Kept ops x (e.withAttribute name value) := by
  unfold Element.withAttribute
  split
  · have hsound := Style.parse_sound value
    exact { h with
      styles := hsound.distinct
      declared := fun entry hentry => .inl (hsound.declares entry hentry) }
  next hname =>
    refine { h with
      attributes := h.attributes.insert name value
      names := fun entry hentry => ?_ }
    rcases Table.mem_of_mem_insert hentry with rfl | hold
    · exact hname
    · exact h.names entry hold

theorem withStyle (h : Kept ops x e) {name value : String}
    (hdeclared : value ≠ "" → Style.Declares name.toList value.toList ∨
      ∃ property, .setStyle x property value ∈ ops ∧ Style.propertyName property = name) :
    Kept ops x (e.withStyle name value) := by
  unfold Element.withStyle
  split
  · exact { h with
      styles := h.styles.erase name
      declared := fun entry hentry => h.declared entry (List.mem_of_mem_filter hentry) }
  next hvalue =>
    refine { h with
      styles := h.styles.insert name value
      declared := fun entry hentry => ?_ }
    rcases Table.mem_of_mem_insert hentry with rfl | hold
    · exact (hdeclared hvalue).imp_right fun hset => ⟨hvalue, hset⟩
    · exact h.declared entry hold

theorem withHidden (h : Kept ops x e) (hidden : Bool) :
    Kept ops x (e.withStyle "display" (if hidden then "none" else "")) := by
  refine h.withStyle fun hvalue => ?_
  cases hidden with
  | false => exact absurd rfl hvalue
  | true =>
    have hname : Style.propertyName "display" = "display" := by decide +kernel
    have hplain : Style.Plain "display" "none" :=
      ⟨by decide, by decide, by decide, by decide, by decide, by decide⟩
    exact .inl (hname ▸ Style.declares_propertyName_iff.mpr hplain)

/-- What one operation leaves: only a style write puts in a value that was not read from a text. -/
theorem change {op : Operation} (hop : op ∈ ops) {f : Element → Element} (hf : Changes op x f)
    (h : Kept ops x e) : Kept ops x (f e) := by
  cases hf with
  | setAttribute => exact h.withAttribute _ _
  | setStyle => exact h.withStyle fun _ => .inr ⟨_, hop, rfl⟩
  | setHidden => exact h.withHidden _
  | reflects => exact h.withAttribute _ _
  | hides => exact h.withHidden _
  | own => exact { h with }

end Kept

theorem everyElement_kept (h : d.EveryElement (Kept ops)) {run : List Operation}
    (hrun : ∀ op ∈ run, op ∈ ops) : (run.foldl Operation.after d).EveryElement (Kept ops) := by
  induction run generalizing d with
  | nil => exact h
  | cons op run ih =>
    obtain ⟨hop, hrest⟩ := List.forall_mem_cons.mp hrun
    exact ih (.after (fun _ _ => .of_read) h op fun _ _ hf _ => .change hop hf) hrest

/-- How the style of an element that was there after some operations comes through its text. -/
structure StyleThroughText (ops : List Operation) (id : NodeId) (e : Element) : Prop where
  reads_back_iff : Style.parse (Style.render e.style) = e.style ↔
    ∀ entry ∈ e.style, Style.Declares entry.1.toList entry.2.toList
  undeclared : ∀ entry ∈ e.style, ¬ Style.Declares entry.1.toList entry.2.toList →
    ∃ property, .setStyle id property entry.2 ∈ ops ∧ Style.propertyName property = entry.1 ∧
      ¬ Style.Plain property entry.2
  of_plain : (∀ property value, .setStyle id property value ∈ ops → value ≠ "" →
    Style.Plain property value) → Style.parse (Style.render e.style) = e.style
  printed : (∀ entry ∈ e.attributes, Readable entry.1) → ∀ rest,
    Markup.readTag (e.tag.toList ++
        ((Markup.renderAttributes e.attributes e.style).toList ++ '>' :: rest)) =
      .ok (⟨e.tag, e.attributes, Style.parse (Style.render e.style), []⟩, false, rest)

theorem Kept.styleThroughText (h : Kept ops id e) : StyleThroughText ops id e := by
  have hiff : Style.parse (Style.render e.style) = e.style ↔
      ∀ entry ∈ e.style, Style.Declares entry.1.toList entry.2.toList :=
    ⟨fun hread => hread ▸ (Style.parse_sound (Style.render e.style)).declares,
      fun hdeclares => Style.parse_render ⟨h.styles, hdeclares⟩⟩
  refine ⟨hiff, fun entry hentry hnot => ?_, fun hplain => hiff.mpr fun entry hentry => ?_,
    fun hnames rest => ?_⟩
  · obtain ⟨-, property, hop, hname⟩ := (h.declared entry hentry).resolve_left hnot
    refine ⟨property, hop, hname, fun hplain => hnot ?_⟩
    exact hname ▸ Style.declares_propertyName_iff.mpr hplain
  · rcases h.declared entry hentry with hdeclares | ⟨hvalue, property, hop, hname⟩
    · exact hdeclares
    · exact hname ▸ Style.declares_propertyName_iff.mpr (hplain property entry.2 hop hvalue)
  · have hattributes : ∀ entry ∈ e.attributes, Readable entry.1 ∧ entry.1 ≠ "style" :=
      fun entry hentry => ⟨hnames entry hentry, h.names entry hentry⟩
    have hwritable := h.tag.withData h.attributes hattributes Style.sound_nil
    exact Markup.readTag_printed hwritable e.style rest

/-- Whatever was done to a document that was empty or read from markup, the style of an element is
read back from its text, with the same declarations in the same order, exactly if each of them can
stand in such a text. One that cannot was put in as it stands by a style write, of a name or a
value that is not plain, so a style is read back if all style writes of the element were plain. The
opening tag that is printed is read back with the style that the text gives. -/
theorem operations_styleThroughText (hstart : d₀ = empty ∨ ∃ src, parse src = .ok d₀)
    (he : (ops.foldl Operation.after d₀).element? id = some e) : StyleThroughText ops id e := by
  have hkept : d₀.EveryElement (Kept ops) := by
    rcases hstart with rfl | ⟨src, hsrc⟩
    · exact .empty
    · exact .parse (fun _ _ => .of_read) hsrc
  exact (everyElement_kept hkept (fun _ hop => hop) id e (kind?_of_element? he)).styleThroughText

/-- A style that is read from markup with two declarations gives way to another one, under a name in
any case, and then a property is written with a colon in its value and one is taken out again. -/
theorem operations_styleThroughText_plain :
    let ops := [Operation.setAttribute ⟨1⟩ "Style" "TOP : 1px;; color:b;left", .setHidden ⟨1⟩ true,
      .setStyle ⟨1⟩ "backgroundImage" "url(a:b)", .setStyle ⟨1⟩ "top" ""]
    ∃ d₀ e, parse "<p style='x:y'></p>" = .ok d₀ ∧
      (ops.foldl Operation.after d₀).element? ⟨1⟩ = some e ∧
      e.style = [("color", "b"), ("display", "none"), ("background-image", "url(a:b)")] ∧
      Style.parse (Style.render e.style) = e.style := by
  intro ops
  have heval : (parse "<p style='x:y'></p>").map
      (fun d => ((ops.foldl Operation.after d).element? ⟨1⟩).map Element.style) =
      .ok (some [("color", "b"), ("display", "none"), ("background-image", "url(a:b)")]) := by
    decide +kernel
  obtain ⟨d₀, hd₀, hstyle⟩ := map_eq_ok.mp heval
  obtain ⟨e, he, hstyle⟩ := Option.map_eq_some_iff.mp hstyle
  refine ⟨d₀, e, hd₀, he, hstyle, ?_⟩
  refine (operations_styleThroughText (.inr ⟨_, hd₀⟩) he).of_plain
    fun property value hop hvalue => ?_
  simp only [ops, List.mem_cons, List.not_mem_nil, or_false, reduceCtorEq, false_or,
    Operation.setStyle.injEq, true_and] at hop
  rcases hop with ⟨rfl, rfl⟩ | ⟨rfl, rfl⟩
  · exact ⟨by decide, by decide, by decide, by decide, by decide, by decide⟩
  · exact absurd rfl hvalue

/-- A value with a semicolon is read back as two declarations, the second of which hides the
element. -/
theorem styleThroughText_lost :
    ∃ d₀ e, parse "<p id=a></p>" = .ok d₀ ∧
      ((Operation.setStyle ⟨1⟩ "color" "red; display: none").after d₀).element? ⟨1⟩ = some e ∧
      e.style = [("color", "red; display: none")] ∧
      Style.parse (Style.render e.style) = [("color", "red"), ("display", "none")] ∧
      Style.parse (Style.render e.style) ≠ e.style := by
  have heval : (parse "<p id=a></p>").map (fun d =>
      (((Operation.setStyle ⟨1⟩ "color" "red; display: none").after d).element? ⟨1⟩).map
        Element.style) = .ok (some [("color", "red; display: none")]) := by
    decide +kernel
  obtain ⟨d₀, hd₀, hstyle⟩ := map_eq_ok.mp heval
  obtain ⟨e, he, hstyle⟩ := Option.map_eq_some_iff.mp hstyle
  refine ⟨d₀, e, hd₀, he, hstyle, ?_⟩
  rw [hstyle]
  decide +kernel

end ActiveMarkup.Document
