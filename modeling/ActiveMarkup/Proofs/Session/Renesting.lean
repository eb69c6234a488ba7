import ActiveMarkup.Host.Recorder
import ActiveMarkup.Proofs.Document.RoundTrip
import ActiveMarkup.Proofs.Session.Exposure
import ActiveMarkup.Proofs.Session.Termination
set_option autoImplicit false

/-!
A document whose run does not end. Of two directives, one in the body of the other, each takes the
other one out of its body and moves into the body of the other one, which is read only then. The
tree is the same again after two such turns; nothing in it is a loop or a call, and no round of
insertions is reached.
-/

namespace ActiveMarkup.Session.Renesting

open Markup (Tree)

def finder (name : String) : Element :=
  ⟨"getelementbyid", [("id", name), ("target", "m")], [], []⟩

def mover (attributes : Table String) : Element :=
  ⟨"append", attributes, [], []⟩

def place : Element :=
  ⟨"div", [("id", "m")], [], []⟩

/-- The directive `a` with the directive `b` in its body. -/
def renesting : Tree :=
  .ofElement place [.ofElement (finder "a") [
    .ofElement (mover [("source", "b")]) [],
    .ofElement (mover [("target", "b"), ("source", "a")]) [],
    .ofElement (finder "b") [
      .ofElement (mover [("source", "a")]) [],
      .ofElement (mover [("target", "a"), ("source", "b")]) []]]]

/-- The nodes of the document, given what stands in `m`, behind the movers of `a` and `b`, and the
parents of `a` and `b`. -/
def arena (inPlace inA inB : List NodeId) (ofA ofB : NodeId) : Array Node := #[
  ⟨none, [⟨1⟩], .document⟩,
  ⟨some ⟨0⟩, inPlace, .element place⟩,
  ⟨some ofA, ⟨3⟩ :: ⟨4⟩ :: inA, .element (finder "a")⟩,
  ⟨some ⟨2⟩, [], .element (mover [("source", "b")])⟩,
  ⟨some ⟨2⟩, [], .element (mover [("target", "b"), ("source", "a")])⟩,
  ⟨some ofB, ⟨6⟩ :: ⟨7⟩ :: inB, .element (finder "b")⟩,
  ⟨some ⟨5⟩, [], .element (mover [("source", "a")])⟩,
  ⟨some ⟨5⟩, [], .element (mover [("target", "a"), ("source", "b")])⟩]

def aroundB : Array Node := arena [⟨2⟩] [⟨5⟩] [] ⟨1⟩ ⟨2⟩

def aroundA : Array Node := arena [⟨5⟩] [] [⟨2⟩] ⟨5⟩ ⟨1⟩

def apart (inPlace : List NodeId) : Array Node := arena inPlace [] [] ⟨1⟩ ⟨1⟩

theorem writable_plain (tag : String) {attributes : Table String}
    (halpha : ∃ c cs, tag.toList = c :: cs ∧ c.isAlpha = true)
    (hchars : ∀ c ∈ tag.toList, Markup.inTagName c = true)
    (hlower : tag.toList.map Char.toLower = tag.toList) (hdistinct : attributes.keys.Nodup)
    (hnames : ∀ name ∈ attributes.keys, name ∈ ["id", "source", "target"]) :
    Markup.Writable ⟨tag, attributes, [], []⟩ where
  tag_alpha := halpha
  tag_chars := hchars
  tag_lower := by
    rw [← String.toList_inj, Text.toList_toLower]
    exact hlower
  distinct := hdistinct
  names entry hentry := by
    have hname := hnames entry.1 (List.mem_map_of_mem hentry)
    simp only [List.mem_cons, List.not_mem_nil, or_false] at hname
    rcases hname with h | h | h
    all_goals
      rw [h]
      exact ⟨⟨by decide, List.all_eq_true.mp (by decide), by decide +kernel⟩, by decide⟩
  style := Style.sound_nil

theorem finder_sound (name : String) : (Markup.Piece.opening (finder name)).Sound := by
  refine ⟨writable_plain _ ⟨_, _, rfl, by decide⟩ (List.all_eq_true.mp (by decide)) (by decide)
    ?_ ?_, rfl, rfl⟩
  · simp [Table.keys]
  · simp [Table.keys]

theorem renesting_written : renesting.Written := by
  have hmover : ∀ attributes : Table String, attributes.keys.Nodup →
      (∀ name ∈ attributes.keys, name ∈ ["id", "source", "target"]) →
      (Tree.ofElement (mover attributes) []).Written := fun attributes hdistinct hnames =>
    .leaf (writable_plain "append" ⟨_, _, rfl, by decide⟩ (List.all_eq_true.mp (by decide))
      (by decide) hdistinct hnames)
  have hplace : (Markup.Piece.opening place).Sound :=
    ⟨writable_plain _ ⟨_, _, rfl, by decide⟩ (List.all_eq_true.mp (by decide)) (by decide)
      (by decide) (by decide), by decide, by decide⟩
  have hb : (Tree.ofElement (finder "b") [
      .ofElement (mover [("source", "a")]) [],
      .ofElement (mover [("target", "a"), ("source", "b")]) []]).Written := by
    refine .branch (finder_sound "b") trivial fun t ht => ?_
    simp only [List.mem_cons, List.not_mem_nil, or_false] at ht
    rcases ht with rfl | rfl
    · exact hmover _ (by decide) (by decide)
    · exact hmover _ (by decide) (by decide)
  refine .branch hplace trivial fun t ht => ?_
  obtain rfl := List.mem_singleton.mp ht
  refine .branch (finder_sound "a") trivial fun t ht => ?_
  simp only [List.mem_cons, List.not_mem_nil, or_false] at ht
  rcases ht with rfl | rfl | rfl
  · exact hmover _ (by decide) (by decide)
  · exact hmover _ (by decide) (by decide)
  · exact hb

def pieces : List Markup.Piece := [
  .opening place, .opening (finder "a"),
  .opening (mover [("source", "b")]), .closing "append",
  .opening (mover [("target", "b"), ("source", "a")]), .closing "append",
  .opening (finder "b"),
  .opening (mover [("source", "a")]), .closing "append",
  .opening (mover [("target", "a"), ("source", "b")]), .closing "append",
  .closing "getelementbyid", .closing "getelementbyid", .closing "div"]

theorem flattenAll_renesting : Markup.flattenAll (Markup.mergeAll [renesting]) = pieces := rfl

theorem build_pieces : Document.build .root [] pieces .empty = ⟨aroundB, #[]⟩ := rfl

theorem parse_renesting :
    Document.parse (Markup.renderAll false [renesting]) = .ok ⟨aroundB, #[]⟩ := by
  have hpieces := Markup.pieces_renderAll (List.forall_mem_singleton.mpr renesting_written)
  rw [flattenAll_renesting] at hpieces
  rw [Document.parse_of_pieces hpieces, build_pieces]

theorem markup_renesting : Markup.renderAll false [renesting] =
    "<div id=\"m\"><getelementbyid id=\"a\" target=\"m\"><append source=\"b\"></append>" ++
    "<append target=\"b\" source=\"a\"></append>" ++
    "<getelementbyid id=\"b\" target=\"m\"><append source=\"a\"></append>" ++
    "<append target=\"a\" source=\"b\"></append></getelementbyid></getelementbyid></div>" := by
  decide +kernel

variable {σ : Type}

structure At (nodes : Array Node) (s : Session σ) : Prop where
  nodes : s.document.nodes = nodes
  names : s.names = .empty
  interrupted : s.interrupted = false
  hide : s.settings.hide = false

def ofNodes (nodes : Array Node) (inserted : Array NodeId) (s : Session σ) : Session σ :=
  { s with document := ⟨nodes, inserted⟩, names := .empty }

theorem At.eq_ofNodes {nodes : Array Node} {s : Session σ} (h : At nodes s) :
    s = ofNodes nodes s.document.inserted s := by
  obtain ⟨⟨_, inserted⟩, _, _, _, _, _, _, _, _⟩ := s
  obtain ⟨rfl, rfl, -, -⟩ := h
  rfl

theorem At.enter {nodes : Array Node} {s : Session σ} (h : At nodes s) (kind : Directive)
    (node : NodeId) (scope : Option NodeId) : At nodes (s.enter kind node scope) := by
  unfold Session.enter
  by_cases htrace : s.settings.trace <;> by_cases hmem : s.executed.contains node
  all_goals
    simp only [htrace, hmem, Session.note, if_true, if_false, Bool.false_eq_true]
    exact ⟨h.nodes, h.names, h.interrupted, h.hide⟩

theorem kindOf?_of_tag {d : Document} {node : NodeId} {tag : String} {kind : Option Directive}
    (htag : d.tag? node = some tag) (hkind : Directive.ofTag? tag = kind) :
    kindOf? d node = kind := by
  rw [kindOf?, htag, Option.bind_some, hkind]

theorem ofTag?_append : Directive.ofTag? "append" = some .append := by decide +kernel

theorem ofTag?_finder : Directive.ofTag? "getelementbyid" = some .findById := by
  have hlower : Directive.findById.tag.toLower = "getelementbyid".toLower := by
    rw [← String.toList_inj, Text.toList_toLower, Text.toList_toLower]
    decide +kernel
  unfold Directive.ofTag?
  rw [← hlower]
  decide +kernel

theorem appendTarget_eq {s : Session σ} {node parent child : NodeId} {scope : Option NodeId}
    (hparent : (s.required? node "target").elim scope s.document.resolve? = some parent)
    (hchild : (s.required? node "source").elim scope s.source? = some child) :
    s.appendTarget node scope =
      s.takeDocument (s.document.outcome (s.document.appendChild parent child)) := by
  unfold appendTarget
  cases htarget : s.required? node "target" <;> cases hsource : s.required? node "source"
  all_goals
    rw [htarget] at hparent
    rw [hsource] at hchild
    simp only [Option.elim] at hparent hchild
    simp_all only [Option.some.injEq]

variable [Host σ]

def Moves (σ : Type) [Host σ] (node : NodeId) (nodes nodes' : Array Node) : Prop :=
  ∀ s : Session σ, At nodes s → ∃ s', dispatch 1 node (some ⟨1⟩) s = some s' ∧ At nodes' s'

theorem moves_of_appendChild {node : NodeId} {nodes nodes' : Array Node} (parent child : NodeId)
    (htag : ∀ j, (Document.mk nodes j).tag? node = some "append")
    (hparent : ∀ (s : Session σ) j, ((ofNodes nodes j s).required? node "target").elim (some ⟨1⟩)
      (ofNodes nodes j s).document.resolve? = some parent)
    (hchild : ∀ (s : Session σ) j, ((ofNodes nodes j s).required? node "source").elim (some ⟨1⟩)
      (ofNodes nodes j s).source? = some child)
    (happend : ∀ j, (Document.mk nodes j).appendChild parent child = .ok ⟨nodes', j.push child⟩) :
    Moves σ node nodes nodes' := by
  intro s hs
  have hkind : kindOf? s.document node = some .append := by
    have htag := htag s.document.inserted
    rw [← hs.nodes] at htag
    exact kindOf?_of_tag htag ofTag?_append
  have ht := hs.enter .append node (some ⟨1⟩)
  generalize hentered : s.enter .append node (some ⟨1⟩) = t at ht
  have hparent := hparent t t.document.inserted
  have hchild := hchild t t.document.inserted
  have hdone := happend t.document.inserted
  rw [← ht.eq_ofNodes] at hparent hchild
  rw [← ht.nodes] at hdone
  refine ⟨{ t with document := ⟨nodes', t.document.inserted.push child⟩ }, ?_,
    ⟨rfl, ht.names, ht.interrupted, ht.hide⟩⟩
  rw [dispatch, hkind]
  simp only [hentered, perform, appendTarget_eq hparent hchild, hdone, Document.outcome,
    takeDocument, leave, ht.hide, Bool.false_eq_true, if_false]

theorem moves_b_out : Moves σ ⟨3⟩ aroundB (apart [⟨2⟩, ⟨5⟩]) :=
  moves_of_appendChild ⟨1⟩ ⟨5⟩ (fun _ => rfl) (fun _ _ => by rfl) (fun _ _ => by rfl)
    fun _ => by rfl

theorem moves_a_in : Moves σ ⟨4⟩ (apart [⟨2⟩, ⟨5⟩]) aroundA :=
  moves_of_appendChild ⟨5⟩ ⟨2⟩ (fun _ => rfl) (fun _ _ => by rfl) (fun _ _ => by rfl)
    fun _ => by rfl

theorem moves_a_out : Moves σ ⟨6⟩ aroundA (apart [⟨5⟩, ⟨2⟩]) :=
  moves_of_appendChild ⟨1⟩ ⟨2⟩ (fun _ => rfl) (fun _ _ => by rfl) (fun _ _ => by rfl)
    fun _ => by rfl

theorem moves_b_in : Moves σ ⟨7⟩ (apart [⟨5⟩, ⟨2⟩]) aroundB :=
  moves_of_appendChild ⟨2⟩ ⟨5⟩ (fun _ => rfl) (fun _ _ => by rfl) (fun _ _ => by rfl)
    fun _ => by rfl

theorem makes_planAll_cons {bound : Nat} {node : NodeId} {scope : Option NodeId}
    {rest : List NodeId} {s s' : Session σ} {x : Execution σ} (hi : s.interrupted = false)
    (hd : dispatch bound node scope s = some s') (h : (planAll scope rest s').Makes x) :
    (planAll scope (node :: rest) s).Makes x := by
  rw [planAll, hi]
  exact .later hd h

/-- A directive that lets two others move the nodes executes the third one of its body then. -/
theorem nests_turn {x : Execution σ} {name : String} {first second third : NodeId}
    {nodes nodes₁ nodes₂ : Array Node} (hx : At nodes x.session)
    (helement : ∀ j, (Document.mk nodes j).element? x.node = some (finder name))
    (hplace : ∀ j, (Document.mk nodes j).byId? "m" = some ⟨1⟩)
    (hbody : ∀ j, (Document.mk nodes j).elementChildren x.node = [first, second, third])
    (h₁ : Moves σ first nodes nodes₁) (h₂ : Moves σ second nodes₁ nodes₂) :
    ∃ s, Nests x ⟨third, some ⟨1⟩, s⟩ ∧ At nodes₂ s := by
  have hkind : kindOf? x.session.document x.node = some .findById := by
    have helement := helement x.session.document.inserted
    rw [← hx.nodes] at helement
    refine kindOf?_of_tag ?_ ofTag?_finder
    rw [Document.tag?, helement]
    rfl
  have ht := hx.enter .findById x.node x.scope
  generalize hentered : x.session.enter .findById x.node x.scope = t at ht
  obtain ⟨s₁, hd₁, hs₁⟩ := h₁ t ht
  obtain ⟨s₂, hd₂, hs₂⟩ := h₂ s₁ hs₁
  have hplan : plan .findById x.node x.scope t = planBody x.node [some ⟨1⟩] t := by
    have helement := helement t.document.inserted
    have hplace := hplace t.document.inserted
    rw [← ht.nodes] at helement hplace
    simp only [plan, attribute?, Document.attribute?, helement]
    rw [show ((some (finder name)).bind (·.attribute? "target")).getD "" = "m" from rfl, hplace]
    rfl
  have hchildren := hbody t.document.inserted
  rw [← ht.nodes] at hchildren
  refine ⟨s₂, ?_, hs₂⟩
  unfold Nests planDispatch
  rw [hkind]
  simp only [hentered, hplan, planBody, Plan.andThen, hchildren]
  refine ((makes_planAll_cons ht.interrupted hd₁ ?_).bind _).bind _
  refine makes_planAll_cons hs₁.interrupted hd₂ ?_
  rw [planAll, hs₂.interrupted]
  exact .here

def Turning (x : Execution σ) : Prop :=
  x.node = ⟨2⟩ ∧ At aroundB x.session ∨ x.node = ⟨5⟩ ∧ At aroundA x.session

theorem exists_nests_turning (x : Execution σ) (h : Turning x) : ∃ y, Nests x y ∧ Turning y := by
  obtain ⟨node, scope, s⟩ := x
  rcases h with ⟨rfl, hs⟩ | ⟨rfl, hs⟩
  · obtain ⟨s', hnests, hs'⟩ := nests_turn hs (fun _ => rfl) (fun _ => rfl) (fun _ => rfl)
      moves_b_out moves_a_in
    exact ⟨_, hnests, .inr ⟨rfl, hs'⟩⟩
  · obtain ⟨s', hnests, hs'⟩ := nests_turn hs (fun _ => rfl) (fun _ => rfl) (fun _ => rfl)
      moves_a_out moves_b_in
    exact ⟨_, hnests, .inl ⟨rfl, hs'⟩⟩

omit [Host σ] in
theorem frontier_renesting (s : Session σ) (h : At aroundB s) (he : s.executed = []) :
    s.frontier .root = [⟨2⟩] := by
  obtain ⟨⟨_, j⟩, _, _, _, _, _, _, _, _⟩ := s
  obtain ⟨rfl, -, -, -⟩ := h
  cases he
  have hdiv : Directive.ofTag? "div" = none := by decide +kernel
  have hroot : kindOf? ⟨aroundB, j⟩ .root = none := rfl
  have hplace : kindOf? ⟨aroundB, j⟩ ⟨1⟩ = none := kindOf?_of_tag rfl hdiv
  have ha : kindOf? ⟨aroundB, j⟩ ⟨2⟩ = some .findById := kindOf?_of_tag rfl ofTag?_finder
  have hunder : (Document.mk aroundB j).children .root = [⟨1⟩] := rfl
  have hin : (Document.mk aroundB j).children ⟨1⟩ = [⟨2⟩] := rfl
  change frontierWithin ⟨aroundB, j⟩ [] 9 .root = [⟨2⟩]
  rw [frontierWithin_succ [] 8 hroot fun _ => rfl, hunder, List.flatMap_singleton,
    frontierWithin_succ [] 7 hplace nofun, hin, List.flatMap_singleton,
    frontierWithin_directive [] 6 (by rw [ha]; rfl)]
  rfl

theorem executes_turning (s : Session σ) (h : At aroundB s) (he : s.executed = []) :
    ∃ x, Executes s x ∧ Turning x := by
  refine ⟨⟨⟨2⟩, none, s⟩, .scanned (Plan.Makes.bind ?_ _), .inl ⟨rfl, h⟩⟩
  rw [frontier_renesting s h he, planScanned, h.interrupted]
  exact .here

/-- The run of the document does not end, whatever the bound. -/
theorem run_renesting_unfinished : ∃ d, Document.parse (
      "<div id=\"m\"><getelementbyid id=\"a\" target=\"m\"><append source=\"b\"></append>" ++
      "<append target=\"b\" source=\"a\"></append>" ++
      "<getelementbyid id=\"b\" target=\"m\"><append source=\"a\"></append>" ++
      "<append target=\"a\" source=\"b\"></append></getelementbyid></getelementbyid></div>") =
      .ok d ∧
    ∀ bound, run bound (ofDocument d (Recorder.ofAnswers [] [])
      { Settings.standard with hide := false }) = none := by
  refine ⟨⟨aroundB, #[]⟩, ?_, fun bound => ?_⟩
  · rw [← markup_renesting]
    exact parse_renesting
  · obtain ⟨x, hx, hturn⟩ := executes_turning
      (ofDocument ⟨aroundB, #[]⟩ (Recorder.ofAnswers [] [])
        { Settings.standard with hide := false })
      ⟨rfl, rfl, rfl, rfl⟩ rfl
    rw [Option.eq_none_iff_forall_ne_some]
    intro r hr
    exact not_finishes_of_nests exists_nests_turning hturn (hx.finishes hr)

end ActiveMarkup.Session.Renesting
