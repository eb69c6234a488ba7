import ActiveMarkup.Host.Recorder
import ActiveMarkup.Proofs.Document.Handles
import ActiveMarkup.Proofs.Session.Progress
set_option autoImplicit false

namespace ActiveMarkup

variable {σ : Type}

def HostEvent.request [Host σ] (event : HostEvent) (host : σ) : Served σ Unit :=
  match event with
  | alert message => Host.alert message host
  | confirm message => { Host.confirm message host with answer := () }
  | prompt message default => { Host.prompt message default host with answer := () }
  | log message => Host.log message host

namespace Session

/-- The execution of a node in a scope, with the session in which it starts. -/
structure Execution (σ : Type) where
  node : NodeId
  scope : Option NodeId
  session : Session σ

/-- A handle that a session can come by: a variable or a property holds it, or it is that of an
element or of a parent. -/
def Holds (s : Session σ) (id : NodeId) : Prop :=
  s.names.vars.Mentions id ∨ s.document.Mentions id ∨ s.document.isElement id = true ∨
    ∃ x, s.document.parent? x = some id

variable [Host σ]

/-- One act of the directive that is executed. -/
inductive Act (x : Execution σ) (s : Session σ) : Session σ → Prop where
  | noted (n : Notice) : Act x s (s.note n)
  | evaluated {names : Namespace} : s.names.Reworked names → Act x s { s with names }
  | declared (name : String) {v : Value} :
      (∀ id, v.Mentions id → s.Holds id) → Act x s (s.declare name v)
  | defined (name : String) :
      Act x s { s with
        names := s.names.declareFunction name (s.document.elementChildren x.node) x.scope }
  | listened {target : EventTarget} (event : String) {name : String} {f : Function} :
      (∀ id, target = .node id → s.document.isElement id = true) →
      s.names.lookupFunction name = some f →
      Act x s { s with listeners := s.listeners ++ [⟨target, event, f⟩] }
  | edited {d : Document} : s.document.Edited d → (∀ id, d.Mentions id → s.Holds id) →
      Act x s { s with document := d }
  | served (event : HostEvent) : s.interrupted = x.session.interrupted →
      Act x s (s.serve event.request).2

abbrev Acts (x : Execution σ) : Session σ → Session σ → Prop :=
  Relation.ReflTransGen (Act x)

inductive Fault (x : Execution σ) (s : Session σ) : Directive → DirectiveError → Prop where
  | plain {kind : Directive} {e : DirectiveError} : (∀ e', e ≠ .document e') → Fault x s kind e
  | refused {kind : Directive} {e : DocumentError} : e.isLost = false → Fault x s kind (.document e)
  | data {kind : Directive} {target : NodeId} {f : Element → Element} {e : DocumentError} :
      x.scope = some target → s.document.modifyElement target f = .error e →
      Fault x s kind (.document e)
  | property {kind : Directive} {target : NodeId} {name : String} {v : Value}
      {e : DocumentError} : x.scope = some target →
      (s.document.setProperty target name v).1 = some e → Fault x s kind (.document e)
  | append {e : DocumentError} : Fault x s .append (.document e)

theorem Act.leads {x : Execution σ} {s s' : Session σ} (h : Act x s s') : Leads s s' := by
  cases h with
  | noted | evaluated | declared | defined | listened => exact .same rfl rfl rfl rfl rfl
  | edited hd _ => exact .edited hd
  | served event _ =>
    refine ⟨.refl, fun _ hx => hx, fun hi => ?_, rfl, rfl⟩
    change (s.interrupted || (event.request s.host).interrupts) = true
    rw [hi]
    rfl

theorem Acts.leads {x : Execution σ} {s s' : Session σ} (h : Acts x s s') : Leads s s' := by
  induction h with
  | refl => exact .refl s
  | tail _ ha ih => exact ih.trans ha.leads

end Session

open Session (Execution Acts Fault)

variable [Host σ]

def Outcome.Does (x : Execution σ) (kind : Directive) (s : Session σ) : Outcome σ → Prop
  | .done s' => Acts x s s'
  | .failed e s' => Acts x s s' ∧ ∃ t, Acts x s t ∧ Fault x t kind e
  | .unfinished => False

namespace Outcome.Does

variable {x : Execution σ} {kind : Directive} {s s' : Session σ} {o : Outcome σ}

theorem after (h : Acts x s s') (ho : o.Does x kind s') : o.Does x kind s := by
  cases o with
  | done t => exact h.trans ho
  | failed e t =>
    obtain ⟨ht, u, hu, hfault⟩ := ho
    exact ⟨h.trans ht, u, h.trans hu, hfault⟩
  | unfinished => exact ho

theorem andThen {next : Session σ → Outcome σ} (ho : o.Does x kind s)
    (hnext : ∀ s, (next s).Does x kind s) : (o.andThen next).Does x kind s := by
  cases o with
  | done t => exact (hnext t).after ho
  | failed e t => exact ho
  | unfinished => exact ho

theorem leads (ho : o.Does x kind s) : o.From s := by
  cases o with
  | done t => exact Acts.leads ho
  | failed e t => exact ho.1.leads
  | unfinished => exact ho

end Outcome.Does

namespace Session

variable {x : Execution σ} {kind : Directive}

section

variable (s : Session σ)

theorem acts_condition (src : String) : Acts x s (s.condition src).2 := by
  unfold condition
  split
  · exact .refl
  · exact .single (.noted _)

theorem acts_value (src : String) :
    Acts x s (s.value src).2 ∧ ∀ id, (s.value src).1.Mentions id → (s.value src).2.Holds id := by
  obtain ⟨⟨next, hnames⟩, hvalue⟩ := s.names.resolve_spec src
  have hs : (s.value src).2 = { s with names := { s.names with nextRef := next } } := by
    rw [← hnames]
    rfl
  rw [hs]
  exact ⟨.single (.evaluated (.ref _ next)), fun id hid => .inl (hvalue id hid)⟩

theorem acts_declareNamed (node : NodeId) {v : Value} (hv : ∀ id, v.Mentions id → s.Holds id) :
    Acts x s (s.declareNamed node v) := by
  unfold declareNamed
  split
  · exact .single (.declared _ hv)
  · exact .refl

theorem acts_message (node : NodeId) : Acts x s (s.message node).2 :=
  (acts_value s _).1

theorem takeDocument_does {result : Option DocumentError × Document}
    (hd : s.document.Edited result.2) (hheld : ∀ id, result.2.Mentions id → s.Holds id)
    (he : ∀ e, result.1 = some e → Fault x s kind (.document e)) :
    (s.takeDocument result).Does x kind s := by
  obtain ⟨_ | e, d⟩ := result
  · exact .single (.edited hd hheld)
  · exact ⟨.single (.edited hd hheld), s, .refl, he e rfl⟩

theorem takeData_does {target : NodeId} (hscope : x.scope = some target)
    {result : Except DocumentError Document}
    (hresult : ∃ f, Document.KeepsProperties f ∧ result = s.document.modifyElement target f) :
    (s.takeDocument (s.document.outcome result)).Does x kind s := by
  obtain ⟨f, hf, rfl⟩ := hresult
  refine takeDocument_does s
    (Document.edited_outcome fun _ => Document.edited_modifyElement fun e => (hf e).1)
    (fun id hid => .inr (.inl ?_)) fun e he => .data hscope (Document.outcome_eq_error he)
  exact hid.of_outcome fun _ hm h => h.of_data hf hm

end

section

variable (s : Session σ)

theorem declareFunction_does : (s.declareFunction x.node x.scope).Does x kind s := by
  unfold declareFunction
  split
  · exact .refl
  · exact .single (.defined _)

theorem literal?_spec {names names' : Namespace} {type : String} {src : Option String} {v : Value}
    (h : literal? names type src = some (v, names')) :
    (∃ next, names' = { names with nextRef := next }) ∧ ∀ id, ¬ v.Mentions id := by
  unfold literal? at h
  split at h
  case h_4 | h_5 =>
    obtain ⟨json, -, heq⟩ := Option.map_eq_some_iff.mp h
    cases heq
    exact ⟨⟨_, rfl⟩, fun id => Value.not_mentions_ofJson _ json⟩
  all_goals
    cases h
    exact ⟨⟨names.nextRef, rfl⟩, nofun⟩

theorem declareVariable_does (node : NodeId) : (s.declareVariable node).Does x kind s := by
  unfold declareVariable
  split
  · exact .refl
  next name _ =>
    simp only
    split
    · exact ⟨.refl, s, .refl, .plain (by simp)⟩
    next v names h =>
      obtain ⟨⟨next, rfl⟩, hv⟩ := literal?_spec h
      let s₁ : Session σ := { s with names := { s.names with nextRef := next } }
      have hs₁ : Act x s s₁ := .evaluated (.ref _ next)
      have hs₂ : Act x s₁ (s₁.declare name v) := .declared name fun id hid => (hv id hid).elim
      exact Relation.ReflTransGen.tail (.single hs₁) hs₂

theorem addListener_does (node : NodeId) : (s.addListener node).Does x kind s := by
  unfold addListener
  split
  next reference event function _ _ _ =>
    split
    next target f htarget hf =>
      refine .single (.listened event (fun id hid => ?_) hf)
      subst hid
      unfold eventTarget? at htarget
      split at htarget
      · cases htarget
      · split at htarget
        · cases htarget
        · obtain ⟨found, hfound, heq⟩ := Option.map_eq_some_iff.mp htarget
          cases heq
          exact Document.isElement_of_resolve? hfound
    · exact .refl
  · exact .refl

theorem runStatements_does (src : Option String) : (runStatements src s).Does x kind s := by
  cases src with
  | none => exact .refl
  | some src =>
    have hnames := s.names.reworked_execute src
    simp only [runStatements]
    generalize s.names.execute src = executed at hnames ⊢
    obtain ⟨_ | e, names⟩ := executed
    · exact .single (.evaluated hnames)
    · exact ⟨.single (.evaluated hnames), s, .refl, .plain (by simp)⟩

end

section

variable (s : Session σ)

theorem write_does {target : NodeId} (hscope : x.scope = some target) (name raw : String) :
    (s.write target name raw).Does x kind s := by
  obtain ⟨hacts, hvalue⟩ := acts_value (x := x) s raw
  unfold write
  generalize s.value raw = evaluated at hacts hvalue ⊢
  obtain ⟨v, s₁⟩ := evaluated
  split
  · exact takeData_does s hscope (s.document.setAttribute_eq target name raw)
  · split
    · exact (takeData_does s₁ hscope (s₁.document.setStyle_eq target _ v.toText)).after hacts
    · split
      · exact .refl
      · refine (takeDocument_does s₁ (Document.edited_setProperty _ target name v)
          (fun id hid => ?_) fun e he => .property hscope he).after hacts
        exact (Document.Mentions.of_setProperty hid).elim (fun hold => .inr (.inl hold)) (hvalue id)

theorem writeAll_does {target : NodeId} (hscope : x.scope = some target)
    (attributes : List (String × String)) (s : Session σ) :
    (writeAll target attributes s).Does x kind s := by
  induction attributes generalizing s with
  | nil => exact .refl
  | cons entry rest ih => exact (write_does s hscope entry.1 entry.2).andThen ih

theorem setTarget_does (node : NodeId) : (s.setTarget node x.scope).Does x kind s := by
  unfold setTarget
  split
  · exact .refl
  next target hscope => exact writeAll_does hscope _ s

theorem getTarget_does (node : NodeId) : (s.getTarget node x.scope).Does x kind s := by
  unfold getTarget
  split
  next target property name _ _ _ =>
    refine .single (.declared name fun id hid => ?_)
    rcases Document.mentions_property hid with hold | hparent
    · exact .inr (.inl hold)
    · exact .inr (.inr (.inr ⟨target, hparent⟩))
  · exact .refl

theorem appendTarget_does : (s.appendTarget x.node x.scope).Does x .append s := by
  unfold appendTarget
  simp only
  split
  · refine takeDocument_does s (Document.edited_outcome fun _ h => .single (.append h))
      (fun id hid => .inr (.inl ?_)) fun e _ => .append
    exact hid.of_outcome fun _ hm h => h.of_kinds (Document.kind?_appendChild hm)
  · exact .refl

theorem removeTarget_does : (s.removeTarget x.scope).Does x kind s := by
  unfold removeTarget
  split
  · exact .refl
  next target _ =>
    exact .single (.edited (.single (.detach target)) fun id hid =>
      .inr (.inl (hid.of_kinds (Document.kind?_detach _ target))))

theorem hideTarget_does (next : Bool → Bool) : (s.hideTarget x.scope next).Does x kind s := by
  unfold hideTarget
  split
  · exact .refl
  next target hscope => exact takeData_does s hscope (s.document.setStyle_eq target _ _)

end

section

variable (s : Session σ) (node : NodeId)

theorem acts_serve (hs : s.interrupted = x.session.interrupted) (event : HostEvent) :
    Acts x s ((s.message node).2.serve event.request).2 :=
  (acts_message s node).tail (.served event hs)

theorem alert_does (hs : s.interrupted = x.session.interrupted) : (s.alert node).Does x kind s :=
  acts_serve s node hs (.alert (s.message node).1)

theorem confirm_does (hs : s.interrupted = x.session.interrupted) :
    (s.confirm node).Does x kind s :=
  (acts_serve s node hs (.confirm (s.message node).1)).trans (acts_declareNamed _ node nofun)

theorem prompt_does (hs : s.interrupted = x.session.interrupted) :
    (s.prompt node).Does x kind s := by
  have hasked := acts_message (x := x) s node
  have hflag : (s.message node).2.interrupted = s.interrupted := rfl
  unfold prompt
  generalize s.message node = asked at hasked hflag ⊢
  obtain ⟨message, s₁⟩ := asked
  simp only at hasked hflag ⊢
  have hheld : ∀ (s : Session σ) (answer : Option String) id,
      (answer.elim Value.null .text).Mentions id → s.Holds id := by
    intro s answer id hid
    cases answer <;> cases hid
  split
  next src _ =>
    have hserved := (hasked.trans (acts_value s₁ src).1).tail
      (.served (.prompt message (s₁.value src).1.toText) (hflag.trans hs))
    exact hserved.trans (acts_declareNamed _ node (hheld _ _))
  next =>
    have hserved := hasked.tail (.served (.prompt message "") (hflag.trans hs))
    exact hserved.trans (acts_declareNamed _ node (hheld _ _))

theorem log_does (hs : s.interrupted = x.session.interrupted) : (s.log node).Does x kind s :=
  acts_serve s node hs (.log (s.message node).1)

end

section

variable (s : Session σ) (node : NodeId)

theorem acts_report (kind : Directive) (e : DirectiveError) : Acts x s (s.report kind node e) := by
  unfold report
  split
  · exact .single (.noted _)
  · exact .single (.noted _)
  · exact .refl
  · exact .single (.noted _)

theorem acts_leave : Acts x s (s.leave node) := by
  unfold leave
  split
  · refine .single (.edited (Document.edited_outcome fun _ => Document.edited_setHidden)
      fun id hid => .inr (.inl ?_))
    exact hid.of_outcome fun _ hm h => h.of_setStyle hm
  · exact .refl

end

end Session

end ActiveMarkup
