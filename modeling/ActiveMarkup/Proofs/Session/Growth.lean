import ActiveMarkup.Proofs.Session.Contracts
set_option autoImplicit false

namespace ActiveMarkup

def NodeKind.Keeps : NodeKind → NodeKind → Prop
  | .element e, after => ∃ e', after = .element e' ∧ e'.tag = e.tag
  | kind, after => after = kind

theorem NodeKind.Keeps.refl (kind : NodeKind) : kind.Keeps kind := by
  cases kind with
  | element e => exact ⟨e, rfl, rfl⟩
  | document | text | comment => rfl

theorem NodeKind.Keeps.trans {kind kind' kind'' : NodeKind} (h : kind.Keeps kind')
    (h' : kind'.Keeps kind'') : kind.Keeps kind'' := by
  cases kind with
  | element e =>
    obtain ⟨e', rfl, htag⟩ := h
    obtain ⟨e'', rfl, htag'⟩ := h'
    exact ⟨e'', rfl, htag'.trans htag⟩
  | document | text | comment =>
    cases h
    exact h'

namespace Document

variable {d d' d'' : Document}

structure Grows (d d' : Document) : Prop where
  size : d.nodes.size ≤ d'.nodes.size
  kinds : ∀ id kind, d.kind? id = some kind → ∃ kind', d'.kind? id = some kind' ∧ kind.Keeps kind'

theorem Grows.refl (d : Document) : d.Grows d :=
  ⟨le_rfl, fun _ kind hk => ⟨kind, hk, .refl kind⟩⟩

theorem Grows.trans (h : d.Grows d') (h' : d'.Grows d'') : d.Grows d'' where
  size := h.size.trans h'.size
  kinds id kind hk := by
    obtain ⟨kind', hk', hkeeps⟩ := h.kinds id kind hk
    obtain ⟨kind'', hk'', hkeeps'⟩ := h'.kinds id kind' hk'
    exact ⟨kind'', hk'', hkeeps.trans hkeeps'⟩

theorem Grows.of_kinds
    (h : ∀ id kind, d.kind? id = some kind → ∃ kind', d'.kind? id = some kind' ∧ kind.Keeps kind') :
    d.Grows d' := by
  refine ⟨size_le_of_known fun id hid => ?_, h⟩
  rw [known_iff_kind?] at hid ⊢
  obtain ⟨kind, hk⟩ := Option.isSome_iff_exists.mp hid
  obtain ⟨kind', hk', -⟩ := h id kind hk
  rw [hk']
  rfl

theorem Grows.of_same_kinds (h : ∀ id, d.Known id → d'.kind? id = d.kind? id) : d.Grows d' := by
  refine .of_kinds fun id kind hk => ⟨kind, ?_, .refl kind⟩
  rw [h id (known_of_kind? hk), hk]

theorem Edit.grows (h : Edit d d') : d.Grows d' := by
  cases h with
  | @data id e e' hk htag =>
    refine .of_kinds fun x kind hx => ?_
    rw [kind?_modify_element hk]
    split
    next heq =>
      rw [heq, hk] at hx
      cases hx
      exact ⟨.element e', rfl, e', rfl, htag⟩
    next => exact ⟨kind, hx, .refl kind⟩
  | extend h => exact .of_same_kinds fun id hid => by rw [kind?, kind?, h.old id hid]
  | detach id => exact .of_same_kinds fun x _ => kind?_detach d id x
  | append h => exact .of_same_kinds fun x _ => kind?_appendChild h x

theorem Edited.grows (h : Edited d d') : d.Grows d' := by
  induction h with
  | refl => exact .refl d
  | tail _ he ih => exact ih.trans he.grows

end Document

namespace Session

variable {σ : Type}

/-- The names of variables and of functions, the listeners and the nodes of the document keep their
places, and what was executed stays so. -/
structure Grows (s s' : Session σ) : Prop where
  vars : s.names.vars.keys <+: s'.names.vars.keys
  functions : s.names.functions.keys <+: s'.names.functions.keys
  listeners : s.listeners <+: s'.listeners
  executed : s.executed ⊆ s'.executed
  document : s.document.Grows s'.document

namespace Grows

variable {s s' s'' : Session σ}

theorem refl (s : Session σ) : s.Grows s :=
  ⟨List.prefix_rfl, List.prefix_rfl, List.prefix_rfl, fun _ hid => hid, .refl s.document⟩

theorem trans (h : s.Grows s') (h' : s'.Grows s'') : s.Grows s'' where
  vars := h.vars.trans h'.vars
  functions := h.functions.trans h'.functions
  listeners := h.listeners.trans h'.listeners
  executed := List.Subset.trans h.executed h'.executed
  document := h.document.trans h'.document

theorem of_enter (s : Session σ) (kind : Directive) (node : NodeId) (scope : Option NodeId) :
    s.Grows (s.enter kind node scope) := by
  obtain ⟨notices, executed, henter, -, hsub, -⟩ := enter_spec s node scope kind
  rw [henter]
  exact { refl s with executed := hsub }

theorem of_turns (h : Turns s s') : s.Grows s' := by
  induction h with
  | refl => exact refl s
  | tail _ ht ih =>
    cases ht with
    | noted | depth => exact { ih with }
    | taken => exact { ih with document := ⟨ih.document.size, ih.document.kinds⟩ }

variable [Host σ] {x : Execution σ}

theorem of_act (h : Act x s s') : s.Grows s' := by
  cases h with
  | noted | served => exact { refl s with }
  | evaluated hnames =>
    exact { refl s with
      vars := hnames.keys
      functions := by rw [hnames.functions] }
  | @declared name v => exact { refl s with vars := s.names.vars.keys_prefix_insert name v }
  | defined name =>
    exact { refl s with functions := s.names.functions.keys_prefix_insert name _ }
  | listened => exact { refl s with listeners := List.prefix_append _ _ }
  | edited hd => exact { refl s with document := hd.grows }

theorem of_move (h : Move x s s') : s.Grows s' := by
  cases h with
  | act ha => exact of_act ha
  | depth n => exact { refl s with }

end Grows

variable [Host σ] {s s' : Session σ}

theorem contract_grows :
    Contract (fun _ : Execution σ => True) fun x s => x.session.Grows s where
  pass {x} _ := .refl x.session
  enter {x kind} _ _ := .of_enter x.session kind x.node x.scope
  move _ hs hm := hs.trans (.of_move hm)
  ask _ _ _ _ := trivial
  back _ hs _ hs' := hs.trans hs'

/-- Whatever a request executes, and whatever fails in it, it only adds to the session: names and
listeners stand in their places before the new ones, no directive is forgotten that was executed,
and every handle goes on standing for a node of the same kind, with its tag or its text. -/
theorem Request.after_grows {request : Request} (hrequest : request.executing = true) {bound : Nat}
    (h : request.after bound s = some s') : s.Grows s' := by
  rw [after_eq] at h
  obtain ⟨last, hlast, hturns⟩ := (request.follows hrequest s).run (I := s.Grows) (.refl s)
    (fun _ _ _ hlast hy hd => (hlast.trans (.of_turns hy.turns)).trans
      (contract_grows.dispatch trivial hd)) h
  exact hlast.trans (.of_turns hturns)

/-- A function that listens binds an old name again, declares a function, and makes a node; its last
directive fails. -/
theorem Request.after_grows_fired :
    let src := "<create tag=p variable=v></create><function name=g></function>" ++
      "<create tag=\"1\"></create>"
    let f : Function := ⟨"f", [⟨1⟩, ⟨2⟩, ⟨3⟩], none, 0⟩
    let start (d : Document) : Session Recorder :=
      { ofDocument d (Recorder.ofAnswers [] []) .standard with
        names := ⟨[("v", .null), ("w", .null)], [("f", f)], 0, 1⟩
        listeners := [⟨.window, "load", f⟩] }
    ∃ d s', Document.parse src = .ok d ∧ (fire .window "load").after 3 (start d) = some s' ∧
      s'.names.vars.keys = ["v", "w"] ∧ s'.names.functions.keys = ["f", "g"] ∧
      s'.executed = [⟨3⟩, ⟨2⟩, ⟨1⟩] ∧ s'.notices.size = 1 ∧ s'.document.nodes.size = 5 ∧
      (start d).Grows s' := by
  intro src f start
  have heval : (Document.parse src).toOption.bind (fun d =>
      ((fire .window "load").after 3 (start d)).map fun s' =>
        (s'.names.vars.keys, s'.names.functions.keys, s'.executed, s'.notices.size,
          s'.document.nodes.size)) =
      some (["v", "w"], ["f", "g"], [⟨3⟩, ⟨2⟩, ⟨1⟩], 1, 5) := by decide +kernel
  obtain ⟨d, hd, heval⟩ := Option.bind_eq_some_iff.mp heval
  obtain ⟨s', hafter, heval⟩ := Option.map_eq_some_iff.mp heval
  simp only [Prod.mk.injEq] at heval
  obtain ⟨hvars, hfunctions, hexecuted, hnotices, hsize⟩ := heval
  exact ⟨d, s', Document.parse_of_toOption hd, hafter, hvars, hfunctions, hexecuted, hnotices,
    hsize, after_grows rfl hafter⟩

end Session

end ActiveMarkup
