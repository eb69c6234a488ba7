import ActiveMarkup.Proofs.Session.Contracts
set_option autoImplicit false

namespace ActiveMarkup

variable {σ : Type}

structure Function.Sound (d : Document) (f : Function) : Prop where
  body : ∀ id ∈ f.body, d.isElement id = true
  scope : ∀ id ∈ f.scope, d.isElement id = true

theorem Function.Sound.mono {d d' : Document} {f : Function} (h : f.Sound d)
    (hd : ∀ id, d.isElement id = true → d'.isElement id = true) : f.Sound d' :=
  ⟨fun id hid => hd id (h.body id hid), fun id hid => hd id (h.scope id hid)⟩

theorem Function.Sound.edited {d d' : Document} {f : Function} (h : f.Sound d)
    (hd : d.Edited d') : f.Sound d' :=
  h.mono fun _ => hd.isElement

namespace Session

/-- Every handle that a session holds is good. -/
structure Sound (s : Session σ) : Prop where
  tree : s.document.IsTree
  values : ∀ id, s.names.vars.Mentions id → s.document.Known id
  properties : ∀ id, s.document.Mentions id → s.document.Known id
  functions : ∀ entry ∈ s.names.functions, entry.2.Sound s.document
  targets : ∀ l ∈ s.listeners, ∀ id, l.target = .node id → s.document.isElement id = true
  listeners : ∀ l ∈ s.listeners, l.function.Sound s.document
  executed : ∀ id ∈ s.executed, s.document.isElement id = true
  journal : ∀ id ∈ s.document.inserted, s.document.Known id

def InScope (s : Session σ) (scope : Option NodeId) : Prop :=
  ∀ id ∈ scope, s.document.isElement id = true

variable {s s' : Session σ} {id : NodeId}

theorem InScope.edited {scope : Option NodeId} (h : s.InScope scope)
    (hd : s.document.Edited s'.document) : s'.InScope scope :=
  fun id hid => hd.isElement (h id hid)

namespace Sound

theorem known_of_holds (h : s.Sound) (hid : s.Holds id) : s.document.Known id := by
  rcases hid with hvar | hprop | helement | ⟨x, hparent⟩
  · exact h.values id hvar
  · exact h.properties id hprop
  · exact Document.known_of_isElement helement
  · exact h.tree.known_parent hparent

theorem edited (h : s.Sound) {d : Document} (hd : s.document.Edited d)
    (hheld : ∀ id, d.Mentions id → s.Holds id) : Sound { s with document := d } where
  tree := hd.isTree h.tree
  values id hid := hd.known (h.values id hid)
  properties id hid := hd.known (h.known_of_holds (hheld id hid))
  functions entry hentry := (h.functions entry hentry).edited hd
  targets l hl id hid := hd.isElement (h.targets l hl id hid)
  listeners l hl := (h.listeners l hl).edited hd
  executed id hid := hd.isElement (h.executed id hid)
  journal := hd.journal_known h.tree h.journal

theorem declare (h : s.Sound) (name : String) {v : Value}
    (hv : ∀ id, v.Mentions id → s.document.Known id) : (s.declare name v).Sound :=
  { h with values := fun id hid => (Table.mentions_insert hid).elim (h.values id) (hv id) }

theorem lookupFunction (h : s.Sound) {name : String} {f : Function}
    (hf : s.names.lookupFunction name = some f) : f.Sound s.document :=
  h.functions (name, f) (Table.mem_of_find? hf)

variable [Host σ] {x : Execution σ}

theorem act (h : s.Sound) (hscope : s.InScope x.scope) (ha : Act x s s') : s'.Sound := by
  cases ha with
  | noted | served => exact { h with }
  | evaluated hnames =>
    exact { h with
      values := fun id hid => h.values id (hnames.handles id hid)
      functions := hnames.functions ▸ h.functions }
  | declared name hv => exact h.declare name fun id hid => h.known_of_holds (hv id hid)
  | defined name =>
    refine { h with functions := fun entry hentry => ?_ }
    rcases Table.mem_of_mem_insert hentry with rfl | hold
    · exact ⟨fun id hid => Document.isElement_of_mem_elementChildren hid, hscope⟩
    · exact h.functions entry hold
  | @listened target event name f htarget hf =>
    have hall : ∀ l ∈ s.listeners ++ [⟨target, event, f⟩],
        l ∈ s.listeners ∨ l = (⟨target, event, f⟩ : Listener) :=
      fun l hl => (List.mem_append.mp hl).imp_right List.mem_singleton.mp
    refine { h with targets := fun l hl => ?_, listeners := fun l hl => ?_ }
    · rcases hall l hl with hold | rfl
      · exact h.targets l hold
      · exact htarget
    · rcases hall l hl with hold | rfl
      · exact h.listeners l hold
      · exact h.lookupFunction hf
  | edited hd hheld => exact h.edited hd hheld

end Sound

theorem isElement_of_kindOf? {d : Document} {kind : Directive} (h : kindOf? d id = some kind) :
    d.isElement id = true := by
  obtain ⟨tag, htag, -⟩ := Option.bind_eq_some_iff.mp h
  obtain ⟨e, he, -⟩ := Option.map_eq_some_iff.mp htag
  exact Document.isElement_iff.mpr ⟨e, Document.kind?_of_element? he⟩

structure Execution.Sound (x : Execution σ) : Prop where
  session : x.session.Sound
  node : x.session.document.isElement x.node = true
  scope : x.session.InScope x.scope

theorem Sound.enter (h : s.Sound) {kind : Directive} {node : NodeId} (scope : Option NodeId)
    (hk : kindOf? s.document node = some kind) : (s.enter kind node scope).Sound := by
  obtain ⟨notices, executed, henter, -, -, hsub⟩ := enter_spec s node scope kind
  rw [henter]
  refine { h with executed := fun id hid => ?_ }
  rcases List.mem_cons.mp (hsub hid) with rfl | hold
  · exact isElement_of_kindOf? hk
  · exact h.executed id hold

variable [Host σ]

/-- Good handles stay good: a directive comes by good handles only, and offers good handles to the
executions that it asks for. -/
theorem contract_sound :
    Contract (Execution.Sound (σ := σ)) fun x s => s.Sound ∧ s.InScope x.scope where
  pass hx := ⟨hx.session, hx.scope⟩
  enter {x kind} hx hk :=
    ⟨hx.session.enter x.scope hk, hx.scope.edited (leads_enter _ _ _ kind).document⟩
  move {x s s'} hx hs hm := by
    cases hm with
    | act ha => exact ⟨hs.1.act hs.2 ha, hs.2.edited ha.leads.document⟩
    | depth n => exact ⟨{ hs.1 with }, hs.2⟩
  ask {x y} hx hs _ hy := by
    cases hy with
    | body hnode hscope =>
      refine ⟨hs.1, hnode, fun id hid => ?_⟩
      rcases hscope with hsame | ⟨target, htarget, helement⟩
      · exact hs.2 id (hsame ▸ hid)
      · rw [htarget] at hid
        cases hid
        exact helement
    | called hf hnode hscope hd =>
      have hsound := (hx.session.lookupFunction hf).edited hd
      exact ⟨hs.1, hsound.body _ hnode, fun id hid => hsound.scope id (hscope ▸ hid)⟩
  back _ hs hleads hs' := ⟨hs'.1, hs.2.edited hleads.document⟩

section

omit [Host σ]

theorem Sound.takeInserted (h : s.Sound) :
    Sound { s with document := s.document.takeInserted.2 } :=
  { h with
    tree := h.tree.of_nodes rfl
    functions := fun entry hentry => (h.functions entry hentry).mono fun _ hid => hid
    listeners := fun l hl => (h.listeners l hl).mono fun _ hid => hid
    journal := nofun }

theorem Sound.turns (h : s.Sound) (ht : Turns s s') : s'.Sound := by
  induction ht with
  | refl => exact h
  | tail _ ht ih =>
    cases ht with
    | noted | depth => exact { ih with }
    | taken => exact ih.takeInserted

theorem Starts.sound {last : Session σ} {y : Execution σ} (hy : Starts s last y) (hs : s.Sound)
    (hlast : last.Sound) : y.Sound := by
  have hsession := hlast.turns hy.turns
  cases hy.origin with
  | scanned hk hscope =>
    obtain ⟨kind, hk⟩ := Option.isSome_iff_exists.mp hk
    exact ⟨hsession, isElement_of_kindOf? hk, by simp [InScope, hscope]⟩
  | @called f hf hnode hscope hd =>
    have hsound : f.Sound s.document := by
      rcases hf with ⟨name, hname⟩ | ⟨l, hl, rfl⟩
      · exact hs.lookupFunction hname
      · exact hs.listeners l hl
    have hlater := hsound.edited hd
    exact ⟨hsession, hlater.body _ hnode, fun id hid => hlater.scope id (hscope ▸ hid)⟩

end

variable {x : Execution σ} {request : Request} {bound : Nat}

namespace Request

theorem Executes.sound (hs : s.Sound) (hrequest : request.executing = true)
    (h : request.Executes s x) : x.Sound := by
  induction h with
  | first hx =>
    obtain ⟨last, hlast, hx⟩ := (request.follows hrequest s).makes (I := Sound) hs
      (fun _ _ _ _ hlast hy hd => (contract_sound.dispatch (hy.sound hs hlast) hd).1) hx
    exact hx.sound hs hlast
  | nested _ hy ih => exact contract_sound.nests ih hy

theorem after_sound (hs : s.Sound) (hrequest : request.executing = true)
    (h : request.after bound s = some s') : s'.Sound := by
  rw [after_eq] at h
  obtain ⟨last, hlast, hturns⟩ := (request.follows hrequest s).run (I := Sound) hs
    (fun _ _ _ hlast hy hd => (contract_sound.dispatch (hy.sound hs hlast) hd).1) h
  exact hlast.turns hturns

end Request

/-- A session over parsed markup, with variables that hold no handle, after requests to execute;
between them an interruption may be raised or taken back. -/
inductive Reached : Session σ → Prop where
  | parsed {src : String} {d : Document} {names : Namespace} (host : σ) (settings : Settings) :
      Document.parse src = .ok d → names.functions = [] → (∀ id, ¬ names.vars.Mentions id) →
      Reached { ofDocument d host settings with names }
  | after {s s' : Session σ} (request : Request) (bound : Nat) : Reached s →
      request.executing = true → request.after bound s = some s' → Reached s'
  | interrupt {s : Session σ} (raised : Bool) : Reached s →
      Reached { s with interrupted := raised }

theorem Reached.sound (h : Reached s) : s.Sound := by
  induction h with
  | @parsed src d names host settings hparse hfunctions hvars =>
    exact {
      tree := Document.parse_isTree hparse
      values := fun id hid => (hvars id hid).elim
      properties := fun id hid => (Document.not_mentions_of_parse hparse hid).elim
      functions := by simp [hfunctions]
      targets := nofun
      listeners := nofun
      executed := nofun
      journal := by simp [ofDocument, Document.inserted_of_parse hparse] }
  | after request bound _ hrequest hafter ih => exact request.after_sound ih hrequest hafter
  | interrupt raised _ ih => exact { ih with }

section

omit [Host σ]

variable {node : NodeId} {scope : Option NodeId} {e : DocumentError} {t : Session σ}

theorem takeDocument_failed {result : Option DocumentError × Document}
    (h : s.takeDocument result = .failed (.document e) t) : result.1 = some e := by
  obtain ⟨_ | e', d⟩ := result
  · cases h
  · cases h
    rfl

theorem source?_spec {reference : String} (h : s.source? reference = some id) :
    s.document.isElement id = true ∨ s.names.lookup reference = some (.node id) := by
  unfold source? at h
  split at h
  next hvar =>
    cases h
    exact .inr hvar
  next => exact .inl (Document.isElement_of_resolve? h)

/-- An insertion misses a node only if its source is a variable that holds the root. -/
theorem appendTarget_lost (h : s.Sound) (hscope : s.InScope scope)
    (he : s.appendTarget node scope = .failed (.document e) t) (hlost : e.isLost = true) :
    e = .unknownNode .root ∧ ∃ reference, s.required? node "source" = some reference ∧
      s.names.lookup reference = some (.node .root) := by
  unfold appendTarget at he
  simp only at he
  split at he
  next p c hp hc =>
    have hparent : s.document.isElement p = true := by
      split at hp
      · exact Document.isElement_of_resolve? hp
      · exact hscope p hp
    have hchild : s.document.isElement c = true ∨ ∃ reference,
        s.required? node "source" = some reference ∧
          s.names.lookup reference = some (.node c) := by
      split at hc
      next reference hreference =>
        exact (source?_spec hc).imp_right fun hvar => ⟨reference, hreference, hvar⟩
      next => exact .inl (hscope c hc)
    obtain ⟨rfl, hroot⟩ := Document.appendChild_lost (Document.open_of_isElement hparent)
      (Document.outcome_eq_error (takeDocument_failed he)) hlost
    rcases hchild with helement | ⟨reference, hreference, hvar⟩
    · have hc' := hroot (Document.known_of_isElement helement)
      rw [hc', Document.isElement_root h.tree] at helement
      cases helement
    · have hc' := hroot (h.values c (Table.mentions_of_find? hvar .node))
      exact hc' ▸ ⟨rfl, reference, hreference, hvar⟩
  next => cases he

end

theorem Execution.Sound.perform_lost (hx : x.Sound) {kind : Directive} {e : DocumentError}
    {t : Session σ} (hk : kindOf? x.session.document x.node = some kind)
    (h : perform (dispatch bound) kind x.node x.scope (x.session.enter kind x.node x.scope) =
      .failed (.document e) t) (hlost : e.isLost = true) :
    kind = .append ∧ e = .unknownNode .root ∧ ∃ reference,
      x.session.required? x.node "source" = some reference ∧
        x.session.names.lookup reference = some (.node .root) := by
  obtain ⟨last, hlast, -, u, hmoves, hfault⟩ :=
    contract_sound.perform (o := .failed (.document e) t) hx hk nofun h
  obtain ⟨hu, hscope⟩ := contract_sound.moves hx hlast hmoves
  cases hfault with
  | plain hplain => exact (hplain e rfl).elim
  | refused hrefused =>
    rw [hlost] at hrefused
    cases hrefused
  | @data _ target f _ htarget herror =>
    obtain ⟨d, hd⟩ := Document.modifyElement_isElement (hscope _ htarget) f
    rw [hd] at herror
    cases herror
  | property htarget herror =>
    rw [Document.setProperty_error hu.tree (hscope _ htarget) herror] at hlost
    cases hlost
  | append =>
    have henter := hx.session.enter x.scope hk
    obtain ⟨notices, executed, heq, -⟩ := enter_spec x.session x.node x.scope .append
    rw [heq] at h henter
    have happend := appendTarget_lost henter hx.scope h hlost
    exact ⟨rfl, happend⟩

/-- In every state that is reached, the handles that a session holds are good. They are where a
request to execute comes to execute a node as well, and so are the node and its scope. No directive
finds that a handle is not that of an element, and none finds it unknown, but for an append with a
variable as its source that holds the root. -/
theorem Reached.handles_good (h : Reached s) :
    s.Sound ∧ ∀ request : Request, request.executing = true → ∀ x, request.Executes s x →
      x.session.Sound ∧ x.session.document.isElement x.node = true ∧
      x.session.InScope x.scope ∧
      (∀ bound s', dispatch bound x.node x.scope x.session = some s' → s'.Sound) ∧
      ∀ kind bound e t, kindOf? x.session.document x.node = some kind →
        perform (dispatch bound) kind x.node x.scope (x.session.enter kind x.node x.scope) =
          .failed (.document e) t →
        (∀ id, e ≠ .notAnElement id) ∧ ∀ id, e = .unknownNode id →
          kind = .append ∧ id = .root ∧ ∃ reference,
            x.session.required? x.node "source" = some reference ∧
              x.session.names.lookup reference = some (.node .root) := by
  refine ⟨h.sound, fun request hrequest x hx => ?_⟩
  have hsound := hx.sound h.sound hrequest
  refine ⟨hsound.session, hsound.node, hsound.scope,
    fun bound s' hd => (contract_sound.dispatch hsound hd).1, fun kind bound e t hk hfail => ?_⟩
  constructor
  · rintro id rfl
    obtain ⟨-, heq, -⟩ := hsound.perform_lost hk hfail rfl
    cases heq
  · rintro id rfl
    obtain ⟨hkind, heq, hsource⟩ := hsound.perform_lost hk hfail rfl
    cases heq
    exact ⟨hkind, rfl, hsource⟩

/-- A variable takes the parent of a new element, and comes back as what is to be put under itself.
-/
theorem Reached.handles_good_parent :
    let src := "<div id=d></div><create tag=b><append target=d></append>" ++
      "<get property=parentNode variable=p></get></create><append target=d source=p></append>"
    ∃ d s', Document.parse src = .ok d ∧
      Request.run.after 9 (ofDocument d (Recorder.ofAnswers [] []) .standard) = some s' ∧
      (s'.names.lookup "p" matches some (.node ⟨1⟩)) ∧
      (s'.notices.toList matches [.directiveFailed .append ⟨5⟩ (.document (.cycle ..))]) ∧
      s'.Sound := by
  intro src
  have heval : (Document.parse src).toOption.bind (fun d =>
      (Request.run.after 9 (ofDocument d (Recorder.ofAnswers [] []) .standard)).map fun s' =>
        (s'.names.lookup "p" matches some (.node ⟨1⟩),
          s'.notices.toList matches [.directiveFailed .append ⟨5⟩ (.document (.cycle ..))])) =
      some (true, true) := by decide +kernel
  obtain ⟨d, hd, heval⟩ := Option.bind_eq_some_iff.mp heval
  obtain ⟨s', hafter, heval⟩ := Option.map_eq_some_iff.mp heval
  obtain ⟨hvalue, hnotices⟩ := Prod.mk.inj heval
  have hparse := Document.parse_of_toOption hd
  have hparsed : Reached (ofDocument d (Recorder.ofAnswers [] []) .standard) :=
    .parsed _ _ hparse rfl fun id hid => nomatch hid
  have hreached := Reached.after .run 9 hparsed rfl hafter
  exact ⟨d, s', hparse, hafter, hvalue, hnotices, hreached.handles_good.1⟩

end Session

end ActiveMarkup
