import ActiveMarkup.Proofs.Document.History
import ActiveMarkup.Proofs.Document.RoundTrip
set_option autoImplicit false

namespace ActiveMarkup

open Markup (Tree Writable Printable)

variable {d d' : Document} {c id p x : NodeId}

theorem Text.noStart_of_breakWhere {starts : List Char → Bool} {cs : List Char}
    (h : Text.breakWhere starts [] cs = (cs, [])) : Text.NoStart starts cs [] := by
  obtain ⟨a, b, hbreak, -, hno, -⟩ := Text.breakWhere_spec starts [] cs
  rw [h] at hbreak
  cases hbreak
  exact hno

namespace Document

theorem kind?_foldl_detach (l : List NodeId) (d : Document) (x : NodeId) :
    (l.foldl Document.detach d).kind? x = d.kind? x := by
  induction l generalizing d with
  | nil => rfl
  | cons c l ih => rw [List.foldl_cons, ih, kind?_detach]

theorem children_foldl_detach {l : List NodeId} (hl : l.Nodup)
    (hparent : ∀ c ∈ l, d.parent? c = some p) (x : NodeId) :
    (l.foldl Document.detach d).children x =
      if x = p then (d.children p).filter (· ∉ l) else d.children x := by
  induction l generalizing d with
  | nil =>
    split
    next hx => simp [hx]
    next => rfl
  | cons c l ih =>
    obtain ⟨hc, hl⟩ := List.nodup_cons.mp hl
    have hstep : ∀ c' ∈ l, (d.detach c).parent? c' = some p := by
      intro c' hc'
      have hne : c' ≠ c := by
        rintro rfl
        exact hc hc'
      rw [parent?_detach, if_neg hne, hparent c' (List.mem_cons_of_mem _ hc')]
    rw [List.foldl_cons, ih hl hstep, children_detach, children_detach,
      hparent c List.mem_cons_self]
    by_cases hx : x = p
    · subst hx
      simp [List.filter_filter, Bool.and_comm]
    · simp [hx, Ne.symm hx]

theorem IsTree.children_clearChildren (h : d.IsTree) (p x : NodeId) :
    (d.clearChildren p).children x = if x = p then [] else d.children x := by
  rw [clearChildren, children_foldl_detach (h.once p) fun c hc => (h.mem_children p c).mp hc]
  split
  · simp
  · rfl

theorem modify_self {n : Node} (hn : d.node? id = some n) (f : Node → Node) (hf : f n = n) :
    d.modify id f = d := by
  obtain ⟨nodes, journal⟩ := d
  have hnodes : nodes.modify id.index f = nodes := by
    refine Array.ext_getElem? fun i => ?_
    rw [Array.getElem?_modify]
    split
    next hi =>
      subst hi
      rw [show nodes[id.index]? = some n from hn, Option.map_some, hf]
    next => rfl
  rw [modify, hnodes]

theorem modifyElement_self {e : Element} (he : d.kind? id = some (.element e)) :
    d.modifyElement id (fun e => e) = .ok d := by
  obtain ⟨⟨parent, children, kind⟩, hn, hkind⟩ := Option.map_eq_some_iff.mp he
  cases hkind
  rw [modifyElement, hn]
  exact congrArg Except.ok (modify_self hn _ rfl)

theorem refusal?_open (hp : d.Open p) (c : NodeId) :
    d.refusal? p c =
      if (d.node? c).isNone || c = .root then some (.unknownNode c)
      else if d.isAncestor c p then some (.cycle c p) else none := by
  obtain ⟨kind, hk, hleaf⟩ := hp
  have hkind : (d.node? p).map Node.kind = some kind := hk
  unfold refusal?
  rw [hkind]
  cases kind with
  | document => rfl
  | element e => rfl
  | text s => cases hleaf
  | comment s => cases hleaf

theorem IsTree.appendChild_push (h : d.IsTree) (hp : d.Open p) {kind : NodeKind}
    (hkind : kind ≠ .document) :
    ∃ d', (d.push kind).2.appendChild p (d.push kind).1 = .ok d' ∧ d'.IsTree ∧
      (∀ x, d'.kind? x = if x = (d.push kind).1 then some kind else d.kind? x) ∧
      ∀ x, d'.children x = if x = p then d.children p ++ [(d.push kind).1] else d.children x := by
  have hpushed := h.push hkind
  have hopen := hp.push kind
  have hknown : (d.push kind).2.Known (d.push kind).1 := (d.known_push kind _).mpr (.inl rfl)
  have hrefusal : (d.push kind).2.refusal? p (d.push kind).1 = none := by
    rw [known_iff_node?, Option.isSome_iff_ne_none] at hknown
    rw [refusal?_open hopen, if_neg (by simp [hknown, (ne_push kind h.known_root).symm]),
      if_neg (by rw [hpushed.isAncestor_iff]; exact h.not_above_push hp.known kind)]
  obtain ⟨d', hd'⟩ : ∃ d', (d.push kind).2.appendChild p (d.push kind).1 = .ok d' := by
    rw [Document.appendChild, hrefusal]
    exact ⟨_, rfl⟩
  refine ⟨d', hd', hpushed.appendChild hd', fun x => ?_, fun x => ?_⟩
  · rw [kind?_appendChild hd', kind?_push]
  · obtain ⟨-, hnodes, -⟩ := appendChild_ok hd'
    have htop := d.parent?_push_self kind
    have hchildren : ∀ y, ((d.push kind).2.detach (d.push kind).1).children y = d.children y := by
      intro y
      rw [children_detach, htop, if_neg (by simp), children_push]
    have hknown' : ((d.push kind).2.detach (d.push kind).1).Known p := by
      rw [known_iff_kind?, kind?_detach, ← known_iff_kind?]
      exact hopen.known
    have hlinked : d'.children x =
        (((d.push kind).2.detach (d.push kind).1).link p (d.push kind).1).children x := by
      simp only [children, node?, hnodes]
    rw [hlinked, children_link hknown', hchildren, hchildren]

theorem IsTree.setTextContent (h : d.IsTree) {e : Element} (he : d.kind? id = some (.element e))
    (s : String) :
    ∃ d', d.setTextContent id s = .ok d' ∧ d'.IsTree ∧
      (∀ x, d.Known x → d'.kind? x = d.kind? x) ∧
      (∀ x, d.Known x → x ≠ id → d'.children x = d.children x) ∧
      d'.forest id = if s = "" then [] else [.text s] := by
  have hcleared : (d.clearChildren id).IsTree := (edited_clearChildren d id).isTree h
  have hkind : ∀ x, (d.clearChildren id).kind? x = d.kind? x := kind?_foldl_detach _ d
  have hchildren := h.children_clearChildren id
  simp only [Document.setTextContent, modifyElement_self he, bind, Except.bind]
  by_cases hs : s = ""
  · refine ⟨d.clearChildren id, by rw [if_pos hs]; rfl, hcleared, fun x _ => hkind x,
      fun x _ hx => by rw [hchildren, if_neg hx], ?_⟩
    rw [forest, hchildren, if_pos rfl, if_pos hs]
    rfl
  · have hopen : (d.clearChildren id).Open id := ⟨.element e, by rw [hkind, he], rfl⟩
    have htext : NodeKind.text s ≠ .document := by simp
    obtain ⟨d', hd', htree, hkind', hchildren'⟩ := hcleared.appendChild_push hopen htext
    have hfresh : ∀ x, d.Known x → x ≠ ((d.clearChildren id).push (.text s)).1 := by
      rintro x hx rfl
      refine (d.clearChildren id).push_fresh (.text s) ?_
      rw [known_iff_kind?, hkind, ← known_iff_kind?]
      exact hx
    refine ⟨d', by rw [if_neg hs]; exact hd', htree, fun x hx => ?_, fun x hx hne => ?_, ?_⟩
    · rw [hkind', if_neg (hfresh x hx), hkind]
    · rw [hchildren', if_neg hne, hchildren, if_neg hne]
    · rw [forest, hchildren', if_pos rfl, hchildren, if_pos rfl, List.nil_append,
        List.flatMap_singleton, htree.trees_eq, hkind', if_pos rfl, if_neg hs]
      rfl

theorem IsTree.of_trees_singleton (h : d.IsTree) (hne : x ≠ .root) {t : Tree}
    (ht : d.trees x = [t]) :
    (∃ s, d.kind? x = some (.text s) ∧ t = .text s) ∨
      (∃ s, d.kind? x = some (.comment s) ∧ t = .comment s) ∨
      ∃ e, d.kind? x = some (.element e) ∧ t = .ofElement e (d.forest x) := by
  rw [h.trees_eq] at ht
  cases hk : d.kind? x with
  | none =>
    rw [hk] at ht
    cases ht
  | some kind =>
    rw [hk] at ht
    cases kind with
    | document => exact absurd ((h.root_kind x).mp hk) hne
    | text s => exact .inl ⟨s, rfl, (List.cons.inj ht).1.symm⟩
    | comment s => exact .inr (.inl ⟨s, rfl, (List.cons.inj ht).1.symm⟩)
    | element e => exact .inr (.inr ⟨e, rfl, (List.cons.inj ht).1.symm⟩)

theorem IsTree.trees_child (h : d.IsTree) (hc : c ∈ d.children p) :
    c ≠ .root ∧ ∃ t ∈ d.forest p, d.trees c = [t] := by
  have hpar := (h.mem_children p c).mp hc
  have hne : c ≠ .root := by
    rintro rfl
    rw [h.root_top] at hpar
    cases hpar
  obtain ⟨kind, hk⟩ := Option.isSome_iff_exists.mp ((known_iff_kind? d c).mp (h.known_child hc))
  obtain ⟨t, ht⟩ : ∃ t, d.trees c = [t] := by
    rw [h.trees_eq, hk]
    cases kind with
    | document => exact absurd ((h.root_kind c).mp hk) hne
    | element e => exact ⟨_, rfl⟩
    | text s => exact ⟨_, rfl⟩
    | comment s => exact ⟨_, rfl⟩
  exact ⟨hne, t, List.mem_flatMap.mpr ⟨c, hc, by rw [ht]; exact List.mem_singleton_self t⟩, ht⟩

end Document

namespace Markup

theorem Printable.writable {apart : List Tree → Prop} {tag : String}
    {attributes style : Table String} {ts : List Tree}
    (h : Printable apart (.element tag attributes style ts)) :
    Writable ⟨tag, attributes, style, []⟩ := by
  cases h with
  | leaf hw => exact hw
  | raw _ hv => exact hv.1
  | branch ho _ _ => exact ho.1

theorem written_text {tag s : String} {attributes style : Table String}
    (hw : Writable ⟨tag, attributes, style, []⟩) (hvoid : isVoidTag tag = false)
    (hraw : isRawTextTag tag = true → Text.NoStart (startsClosing tag) s.toList []) :
    (Tree.element tag attributes style (if s = "" then [] else [.text s])).Written := by
  split
  · exact .leaf hw
  next hs =>
    cases htag : isRawTextTag tag with
    | true => exact .raw hs ⟨hw, hvoid, htag, noStart_closing htag (hraw htag)⟩
    | false =>
      refine .branch ⟨hw, hvoid, htag⟩ trivial fun t ht => ?_
      rw [List.mem_singleton.mp ht]
      exact .text hs

end Markup

namespace Document

/-- A document in which only what one node holds was changed. -/
structure KeptBut (d d' : Document) (id : NodeId) : Prop where
  before : d.IsTree
  after : d'.IsTree
  kind : ∀ x, d.Known x → d'.kind? x = d.kind? x
  children : ∀ x, d.Known x → x ≠ id → d'.children x = d.children x

theorem KeptBut.trees_element (h : KeptBut d d' id) {e : Element}
    (hk : d.kind? x = some (.element e)) : d'.trees x = [.ofElement e (d'.forest x)] := by
  rw [h.after.trees_eq, h.kind x (known_of_kind? hk), hk]
  rfl

theorem KeptBut.trees_leaf (h : KeptBut d d' id) {kind : NodeKind} (hk : d.kind? x = some kind)
    (hleaf : kind.isLeaf = true) : d'.trees x = d.trees x := by
  rw [h.after.trees_eq, h.before.trees_eq, h.kind x (known_of_kind? hk), hk]
  cases kind with
  | document => cases hleaf
  | element e => cases hleaf
  | text s => rfl
  | comment s => rfl

theorem KeptBut.forest_texts (h : KeptBut d d' id) (hx : d.Known x) (hne : x ≠ id)
    (htexts : ∀ t ∈ d.forest x, ∃ s, t = .text s) : d'.forest x = d.forest x := by
  rw [forest, h.children x hx hne, forest, List.flatMap_def, List.flatMap_def]
  refine congrArg List.flatten (List.map_congr_left fun c hc => ?_)
  obtain ⟨hroot, t, ht, htrees⟩ := h.before.trees_child hc
  obtain ⟨s, rfl⟩ := htexts t ht
  rcases h.before.of_trees_singleton hroot htrees with ⟨s', hk, -⟩ | ⟨_, -, he⟩ | ⟨e, -, he⟩
  · exact h.trees_leaf hk rfl
  · cases he
  · cases he

theorem KeptBut.written_element (h : KeptBut d d' id)
    (hid : ∀ e, d.kind? id = some (.element e) → Writable ⟨e.tag, e.attributes, e.style, []⟩ →
      (Tree.ofElement e (d'.forest id)).Written)
    {tag : String} {attributes style : Table String} {ts : List Tree}
    (ht : (Tree.element tag attributes style ts).Written) (hx : x ≠ .root)
    (htrees : d.trees x = [.element tag attributes style ts])
    (hrest : d.Known x → x ≠ id → d.forest x = ts →
      (Tree.element tag attributes style (d'.forest x)).Written) :
    ∀ t' ∈ d'.trees x, t'.Written := by
  rcases h.before.of_trees_singleton hx htrees with ⟨_, -, he⟩ | ⟨_, -, he⟩ | ⟨e, hk, he⟩
  · cases he
  · cases he
  · cases he
    intro t' ht'
    rw [h.trees_element hk] at ht'
    rw [List.mem_singleton.mp ht']
    by_cases hne : x = id
    · subst hne
      exact hid e hk ht.writable
    · exact hrest (known_of_kind? hk) hne rfl

/-- Where what one node holds was changed and can be written, everything can that could before. -/
theorem KeptBut.written (h : KeptBut d d' id)
    (hid : ∀ e, d.kind? id = some (.element e) → Writable ⟨e.tag, e.attributes, e.style, []⟩ →
      (Tree.ofElement e (d'.forest id)).Written)
    {t : Tree} (ht : t.Written) (hx : x ≠ .root) (htrees : d.trees x = [t]) :
    ∀ t' ∈ d'.trees x, t'.Written := by
  -- the induction follows how the tree could be written; `hid` covers the one changed element
  induction ht generalizing x with
  | text hs =>
    rcases h.before.of_trees_singleton hx htrees with ⟨_, hk, -⟩ | ⟨_, -, he⟩ | ⟨e, -, he⟩
    · rw [h.trees_leaf hk rfl, htrees]
      exact fun t' ht' => List.mem_singleton.mp ht' ▸ .text hs
    · cases he
    · cases he
  | comment hs =>
    rcases h.before.of_trees_singleton hx htrees with ⟨_, -, he⟩ | ⟨_, hk, -⟩ | ⟨e, -, he⟩
    · cases he
    · rw [h.trees_leaf hk rfl, htrees]
      exact fun t' ht' => List.mem_singleton.mp ht' ▸ .comment hs
    · cases he
  | leaf hw =>
    refine h.written_element hid (.leaf hw) hx htrees fun hknown hne hforest => ?_
    rw [h.forest_texts hknown hne (by simp [hforest]), hforest]
    exact .leaf hw
  | raw hs hv =>
    refine h.written_element hid (.raw hs hv) hx htrees fun hknown hne hforest => ?_
    rw [h.forest_texts hknown hne (by simp [hforest]), hforest]
    exact .raw hs hv
  | branch ho _ hall ih =>
    refine h.written_element hid (.branch ho trivial hall) hx htrees fun hknown hne hforest => ?_
    refine .branch ho trivial fun t ht => ?_
    rw [forest, h.children _ hknown hne] at ht
    obtain ⟨c, hc, ht⟩ := List.mem_flatMap.mp ht
    obtain ⟨hroot, t₀, ht₀, htrees₀⟩ := h.before.trees_child hc
    exact ih t₀ (hforest ▸ ht₀) hroot htrees₀ t ht

theorem KeptBut.written_root (h : KeptBut d d' id) (hne : id ≠ .root)
    (hid : ∀ e, d.kind? id = some (.element e) → Writable ⟨e.tag, e.attributes, e.style, []⟩ →
      (Tree.ofElement e (d'.forest id)).Written)
    (hwritten : ∀ t ∈ d.trees .root, t.Written) : ∀ t ∈ d'.trees .root, t.Written := by
  intro t ht
  rw [h.after.trees_root, forest, h.children .root h.before.known_root hne.symm] at ht
  obtain ⟨c, hc, ht⟩ := List.mem_flatMap.mp ht
  obtain ⟨hroot, t₀, ht₀, htrees₀⟩ := h.before.trees_child hc
  exact h.written hid (hwritten t₀ (h.before.trees_root ▸ ht₀)) hroot htrees₀ t ht

theorem kind?_of_element? {e : Element} (h : d.element? x = some e) :
    d.kind? x = some (.element e) := by
  rw [element?_eq] at h
  split at h
  next e' hk =>
    cases h
    exact hk
  · cases h

/-- Text written into an element that may have content is the content afterwards, and the document
is read back from its markup with nothing but texts merged. In an element of raw text the text must
not hold the closing tag of the element. -/
theorem setTextContent_reads_back {src : String} (h : parse src = .ok d) {e : Element}
    (he : d.element? id = some e) (hvoid : isVoidTag e.tag = false) (s : String)
    (hraw : isRawTextTag e.tag = true →
      Text.NoStart (Markup.startsClosing e.tag) s.toList []) :
    ∃ d₁, d.setTextContent id s = .ok d₁ ∧
      d₁.trees id = [.ofElement e (if s = "" then [] else [.text s])] ∧
      ∃ d₂, parse d₁.toMarkup = .ok d₂ ∧ d₂.trees .root = Markup.mergeAll (d₁.trees .root) ∧
        d₂.toMarkup = d₁.toMarkup := by
  have ht := parse_isTree h
  have hk : d.kind? id = some (.element e) := kind?_of_element? he
  obtain ⟨d₁, hset, ht₁, hkind, hchildren, hforest⟩ := ht.setTextContent hk s
  have hkept : KeptBut d d₁ id := ⟨ht, ht₁, hkind, hchildren⟩
  have hroot : id ≠ .root := by
    rw [Ne, ← ht.root_kind, hk]
    simp
  refine ⟨d₁, hset, by rw [hkept.trees_element hk, hforest], ht₁.reads_back ?_⟩
  refine hkept.written_root hroot (fun e' he' hw => ?_) (parse_written h)
  cases hk.symm.trans he'
  rw [hforest]
  exact Markup.written_text hw hvoid hraw

/-- Raw text with parts of tags in it, and almost the closing tag. -/
theorem setTextContent_reads_back_script :
    ∃ d d₁ d₂, parse "<p>a<script>x</script>b</p>" = .ok d ∧
      d.setTextContent ⟨3⟩ "<!--</SCRIP</b>" = .ok d₁ ∧
      d₁.toMarkup = "<p>a<script><!--</SCRIP</b></script>b</p>" ∧
      parse d₁.toMarkup = .ok d₂ ∧ d₂.trees .root = Markup.mergeAll (d₁.trees .root) := by
  have heval : (parse "<p>a<script>x</script>b</p>").toOption.bind (fun d =>
      (d.element? ⟨3⟩).bind fun e => (d.setTextContent ⟨3⟩ "<!--</SCRIP</b>").toOption.map fun d₁ =>
        (e.tag, d₁.toMarkup)) =
      some ("script", "<p>a<script><!--</SCRIP</b></script>b</p>") := by decide +kernel
  obtain ⟨d, hd, heval⟩ := Option.bind_eq_some_iff.mp heval
  obtain ⟨e, he, heval⟩ := Option.bind_eq_some_iff.mp heval
  obtain ⟨d₁, hd₁, heval⟩ := Option.map_eq_some_iff.mp heval
  obtain ⟨htag, hmarkup⟩ := Prod.mk.inj heval
  have hvoid : isVoidTag e.tag = false := by
    rw [htag]
    decide
  have hraw : isRawTextTag e.tag = true →
      Text.NoStart (Markup.startsClosing e.tag) "<!--</SCRIP</b>".toList [] := by
    rw [htag]
    exact fun _ => Text.noStart_of_breakWhere (by decide)
  have hparse := parse_of_toOption hd
  obtain ⟨d₁', hset, -, d₂, hd₂, htrees, -⟩ :=
    setTextContent_reads_back hparse he hvoid "<!--</SCRIP</b>" hraw
  rw [hset] at hd₁
  cases hd₁
  exact ⟨d, d₁, d₂, hparse, hset, hmarkup, hd₂, htrees⟩

/-- Raw text that holds the closing tag of its element is cut off there, and what follows in it is
read as elements. -/
theorem setTextContent_closing_tag :
    ∃ d d₁ d₂, parse "<script></script>" = .ok d ∧ d.tag? ⟨1⟩ = some "script" ∧
      isVoidTag "script" = false ∧
      d.setTextContent ⟨1⟩ "</script><b>y</b>" = .ok d₁ ∧ parse d₁.toMarkup = .ok d₂ ∧
      d₂.trees .root ≠ Markup.mergeAll (d₁.trees .root) := by
  have heval : (parse "<script></script>").toOption.bind (fun d =>
      (d.setTextContent ⟨1⟩ "</script><b>y</b>").toOption.bind fun d₁ =>
        (parse d₁.toMarkup).toOption.map fun d₂ =>
          (d.tag? ⟨1⟩, (d₂.trees .root).length, (Markup.mergeAll (d₁.trees .root)).length)) =
      some (some "script", 2, 1) := by decide +kernel
  obtain ⟨d, hd, heval⟩ := Option.bind_eq_some_iff.mp heval
  obtain ⟨d₁, hd₁, heval⟩ := Option.bind_eq_some_iff.mp heval
  obtain ⟨d₂, hd₂, heval⟩ := Option.map_eq_some_iff.mp heval
  simp only [Prod.mk.injEq] at heval
  obtain ⟨htag, hlength, hlength'⟩ := heval
  refine ⟨d, d₁, d₂, parse_of_toOption hd, htag, by decide, ?_, parse_of_toOption hd₂, ?_⟩
  · cases hset : d.setTextContent ⟨1⟩ "</script><b>y</b>" with
    | error e =>
      rw [hset] at hd₁
      cases hd₁
    | ok d' =>
      rw [hset] at hd₁
      cases hd₁
      rfl
  · intro heq
    rw [heq, hlength'] at hlength
    cases hlength

end Document

end ActiveMarkup
