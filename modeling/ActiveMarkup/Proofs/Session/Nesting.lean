import ActiveMarkup.Proofs.Session.Acts
import ActiveMarkup.Proofs.Session.Plan
set_option autoImplicit false

/-!
What a directive executes. It asks for the element children that it has at the time, or, one call
deeper, for the body of a function, and it asks for nothing while the session is interrupted;
between these executions it goes on by acts of its own from the state that they leave. So an
execution under any bound leads from its state to a later one, and every execution that it comes to
make stands in its body or one call deeper.
-/

namespace ActiveMarkup.Session

variable {σ α β : Type}

def BodyOf (x y : Execution σ) : Prop :=
  ∃ t, Leads x.session t ∧ y.node ∈ t.document.elementChildren x.node ∧ Leads t y.session

def CallOf (x y : Execution σ) : Prop :=
  x.session.callDepth < x.session.settings.calls ∧
    y.session.callDepth = x.session.callDepth + 1 ∧ y.session.settings = x.session.settings

def Inside (x y : Execution σ) : Prop :=
  BodyOf x y ∨ CallOf x y

namespace Plan

/-- Whatever the executions lead to, each that is asked for satisfies `R` with the state in which
the plan was left to itself before, and so does the end with `E`. -/
def Follows (R : Session σ → Execution σ → Prop) (E : Session σ → α → Prop) :
    Plan σ α → Session σ → Prop
  | ended a, last => E last a
  | ask node scope s resume, last =>
    R last ⟨node, scope, s⟩ ∧ ∀ s', Leads s s' → (resume s').Follows R E s'

def Along (Q : Execution σ → Prop) (E : α → Prop) : Plan σ α → Prop
  | ended a => E a
  | ask node scope s resume => Q ⟨node, scope, s⟩ ∧ ∀ s', Leads s s' → (resume s').Along Q E

variable {Q : Execution σ → Prop} {R : Session σ → Execution σ → Prop}
  {E E' : Session σ → α → Prop} {p : Plan σ α} {last : Session σ}

theorem Follows.mono (h : p.Follows R E last) (hE : ∀ last a, E last a → E' last a) :
    p.Follows R E' last := by
  induction p generalizing last with
  | ended a => exact hE last a h
  | ask node scope s resume ih => exact ⟨h.1, fun s' hs => ih s' (h.2 s' hs)⟩

theorem Follows.bind {F : Session σ → β → Prop} {next : α → Plan σ β} (h : p.Follows R E last)
    (hnext : ∀ last a, E last a → (next a).Follows R F last) :
    (p.bind next).Follows R F last := by
  induction p generalizing last with
  | ended a => exact hnext last a h
  | ask node scope s resume ih => exact ⟨h.1, fun s' hs => ih s' (h.2 s' hs)⟩

theorem Follows.of_last {last' : Session σ} (h : p.Follows R E last')
    (hR : ∀ y, R last' y → R last y) (hE : ∀ a, E last' a → E last a) : p.Follows R E last := by
  cases p with
  | ended a => exact hE a h
  | ask node scope s resume => exact ⟨hR _ h.1, h.2⟩

theorem Follows.along {F : α → Prop} (h : p.Follows R E last) (hR : ∀ last y, R last y → Q y)
    (hE : ∀ last a, E last a → F a) : p.Along Q F := by
  induction p generalizing last with
  | ended a => exact hE last a h
  | ask node scope s resume ih => exact ⟨hR last _ h.1, fun s' hs => ih s' (h.2 s' hs)⟩

theorem Along.run {E : α → Prop} {recur : Recur σ} {a : α} (h : p.Along Q E)
    (hrecur : ∀ node scope s s', recur node scope s = some s' → Leads s s')
    (hrun : p.run recur = some a) : E a := by
  induction p with
  | ended b =>
    cases hrun
    exact h
  | ask node scope s resume ih =>
    obtain ⟨s', hr, hrun⟩ := run_ask_eq_some.mp hrun
    exact ih s' (h.2 s' (hrecur node scope s s' hr)) hrun

end Plan

section

variable [Host σ]

inductive Move (x : Execution σ) (s : Session σ) : Session σ → Prop where
  | act {s' : Session σ} : Act x s s' → Move x s s'
  | depth (n : Nat) : Move x s { s with callDepth := n }

abbrev Moves (x : Execution σ) : Session σ → Session σ → Prop :=
  Relation.ReflTransGen (Move x)

theorem Acts.moves {x : Execution σ} {s s' : Session σ} (h : Acts x s s') : Moves x s s' := by
  induction h with
  | refl => exact .refl
  | tail _ ha ih => exact ih.tail (.act ha)

omit [Host σ] in
inductive Offered (x y : Execution σ) : Prop where
  | body : y.session.document.isElement y.node = true →
      (y.scope = x.scope ∨
        ∃ id, y.scope = some id ∧ y.session.document.isElement id = true) → Offered x y
  | called {name : String} {f : Function} : x.session.names.lookupFunction name = some f →
      y.node ∈ f.body → y.scope = f.scope → x.session.document.Edited y.session.document →
      Offered x y

/-- An execution that a directive asks for, after it was left to itself in the state `last`. -/
structure Asks (x : Execution σ) (last : Session σ) (y : Execution σ) : Prop where
  moves : Moves x last y.session
  free : y.session.interrupted = false
  inside : Inside x y
  offered : Offered x y

def Goes (x : Execution σ) (kind : Directive) (last : Session σ) : Outcome σ → Prop
  | .done t => Moves x last t
  | .failed e t => Moves x last t ∧ ∃ u, Moves x last u ∧ Fault x u kind e
  | .unfinished => False

structure Ends (x : Execution σ) (kind : Directive) (s last : Session σ) (o : Outcome σ) :
    Prop where
  leads : o.From s
  goes : Goes x kind last o

variable {x : Execution σ} {kind : Directive} {s s' last last' : Session σ} {o : Outcome σ}
  {p : Plan σ (Outcome σ)}

theorem Goes.after (h : Moves x last last') (ho : Goes x kind last' o) : Goes x kind last o := by
  cases o with
  | done t => exact h.trans ho
  | failed e t =>
    obtain ⟨ht, u, hu, hfault⟩ := ho
    exact ⟨h.trans ht, u, h.trans hu, hfault⟩
  | unfinished => exact ho

theorem Ends.after (h : Leads s s') (ho : Ends x kind s' last o) : Ends x kind s last o :=
  ⟨ho.leads.after h, ho.goes⟩

theorem ends_of_does (ho : o.Does x kind s) : Ends x kind s s o := by
  refine ⟨ho.leads, ?_⟩
  cases o with
  | done t => exact Acts.moves ho
  | failed e t =>
    obtain ⟨ht, u, hu, hfault⟩ := ho
    exact ⟨ht.moves, u, hu.moves, hfault⟩
  | unfinished => exact ho

theorem follows_after (h : Moves x last last')
    (hp : p.Follows (Asks x) (Ends x kind s) last') : p.Follows (Asks x) (Ends x kind s) last :=
  hp.of_last (fun _ hy => { hy with moves := h.trans hy.moves })
    fun _ ho => { ho with goes := ho.goes.after h }

theorem follows_acts (h : Acts x s s')
    (hp : p.Follows (Asks x) (Ends x kind s') s') : p.Follows (Asks x) (Ends x kind s) s :=
  follows_after h.moves (hp.mono fun _ _ ho => ho.after h.leads)

theorem follows_andThen {next : Session σ → Plan σ (Outcome σ)}
    (hp : p.Follows (Asks x) (Ends x kind s) last)
    (hnext : ∀ s', Leads s s' → (next s').Follows (Asks x) (Ends x kind s') s') :
    (p.andThen next).Follows (Asks x) (Ends x kind s) last := by
  refine hp.bind fun last o ho => ?_
  cases o with
  | done s' =>
    refine follows_after ho.goes ((hnext s' ho.leads).mono fun _ _ ho' => ho'.after ?_)
    exact ho.leads
  | failed e s' => exact ho
  | unfinished => exact ho

end

section

variable {R : Session σ → Execution σ → Prop} {s : Session σ}

theorem planAll_follows {scope : Option NodeId} {nodes : List NodeId}
    (hR : ∀ node ∈ nodes, ∀ s', Leads s s' → s'.interrupted = false → R s' ⟨node, scope, s'⟩) :
    (planAll scope nodes s).Follows R
      (fun last o => Leads s last ∧ (o = .done last ∨ o = .failed .interrupted last)) s := by
  induction nodes generalizing s with
  | nil => exact ⟨.refl s, .inl rfl⟩
  | cons node rest ih =>
    unfold planAll
    split
    · exact ⟨.refl s, .inr rfl⟩
    next hi =>
      refine ⟨hR node List.mem_cons_self s (.refl s) (by simpa using hi), fun s' hs => ?_⟩
      refine (ih fun n hn s'' hs' => ?_).mono fun _ _ ho => ⟨hs.trans ho.1, ho.2⟩
      exact hR n (List.mem_cons_of_mem _ hn) s'' (hs.trans hs')

theorem leads_invoked {s' : Session σ} (h : Leads { s with callDepth := s.callDepth + 1 } s') :
    Leads s { s' with callDepth := s'.callDepth - 1 } where
  document := h.document
  executed := h.executed
  interrupted := h.interrupted
  settings := h.settings
  callDepth := by
    have hd : s'.callDepth = s.callDepth + 1 := h.callDepth
    change s'.callDepth - 1 = s.callDepth
    omega

def Returns (last : Session σ) (o : Outcome σ) : Prop :=
  ∃ n, o = .done { last with callDepth := n } ∨
    ∃ e, o = .failed e { last with callDepth := n } ∧ ∀ e', e ≠ .document e'

theorem planInvoke_follows {f : Function}
    (hR : ∀ node ∈ f.body, ∀ s', Leads { s with callDepth := s.callDepth + 1 } s' →
      s.callDepth < s.settings.calls → s'.interrupted = false → R s' ⟨node, f.scope, s'⟩)
    (hfirst : ∀ y, R { s with callDepth := s.callDepth + 1 } y → R s y) :
    (planInvoke f s).Follows R (fun last o => o.From s ∧ Returns last o) s := by
  unfold planInvoke
  split
  · exact ⟨.refl s, s.callDepth, .inr ⟨_, rfl, by simp⟩⟩
  next hcalls =>
    have hbody : ∀ node ∈ f.body, ∀ s', Leads { s with callDepth := s.callDepth + 1 } s' →
        s'.interrupted = false → R s' ⟨node, f.scope, s'⟩ :=
      fun node hn s' hs' => hR node hn s' hs' (by omega)
    have hall := planAll_follows hbody
    refine Plan.Follows.of_last (hall.bind fun last o ho => ?_) hfirst fun o ho => ?_
    · obtain ⟨hleads, rfl | rfl⟩ := ho
      · exact ⟨leads_invoked hleads, _, .inl rfl⟩
      · exact ⟨leads_invoked hleads, _, .inr ⟨_, rfl, by simp⟩⟩
    · obtain ⟨hfrom, n, hreturn⟩ := ho
      exact ⟨hfrom, n, hreturn⟩

variable [Host σ] {x : Execution σ} {kind : Directive}

theorem planBody_follows (hs : Leads x.session s) {scopes : List (Option NodeId)}
    (hscopes : ∀ scope ∈ scopes,
      scope = x.scope ∨ ∃ id, scope = some id ∧ s.document.isElement id = true) :
    (planBody x.node scopes s).Follows (Asks x) (Ends x kind s) s := by
  induction scopes generalizing s with
  | nil => exact ⟨.refl s, .refl⟩
  | cons scope rest ih =>
    obtain ⟨hscope, hrest⟩ := List.forall_mem_cons.mp hscopes
    refine follows_andThen (Plan.Follows.mono (planAll_follows fun node hn s' hs' hi => ?_)
      fun last o ho => ?_) fun s' hs' => ih (hs.trans hs') fun scope hscope => ?_
    · refine ⟨.refl, hi, .inl ⟨s, hs, hn, hs'⟩, .body ?_ ?_⟩
      · exact hs'.document.isElement (Document.isElement_of_mem_elementChildren hn)
      · exact hscope.imp_right fun ⟨id, heq, hid⟩ => ⟨id, heq, hs'.document.isElement hid⟩
    · obtain ⟨hleads, rfl | rfl⟩ := ho
      · exact ⟨hleads, .refl⟩
      · exact ⟨hleads, .refl, last, .refl, .plain (by simp)⟩
    · exact (hrest scope hscope).imp_right fun ⟨id, heq, hid⟩ =>
        ⟨id, heq, hs'.document.isElement hid⟩

theorem planCall_follows (hs : Leads x.session s) (hnames : s.names = x.session.names) :
    (planCall x.node s).Follows (Asks x) (Ends x kind s) s := by
  have hinvoke : ∀ {name : String} {f : Function}, s.names.lookupFunction name = some f →
      (planInvoke f s).Follows (Asks x) (Ends x kind s) s := by
    intro name f hf
    have hasks : ∀ node ∈ f.body, ∀ s', Leads { s with callDepth := s.callDepth + 1 } s' →
        s.callDepth < s.settings.calls → s'.interrupted = false →
        Asks x s' ⟨node, f.scope, s'⟩ := by
      intro node hn s' hs' hlt hi
      have hd : s'.callDepth = s.callDepth + 1 := hs'.callDepth
      refine ⟨.refl, hi, .inr ⟨?_, ?_, hs'.settings.trans hs.settings⟩, ?_⟩
      · rwa [hs.callDepth, hs.settings] at hlt
      · rw [hd, hs.callDepth]
      · exact .called (hnames ▸ hf) hn rfl (hs.document.trans hs'.document)
    have hdeeper : ∀ y, Asks x { s with callDepth := s.callDepth + 1 } y → Asks x s y :=
      fun y hy => { hy with moves := .head (.depth _) hy.moves }
    refine (planInvoke_follows hasks hdeeper).mono fun last o ho => ?_
    obtain ⟨hfrom, n, rfl | ⟨e, rfl, he⟩⟩ := ho
    · exact ⟨hfrom, .single (.depth n)⟩
    · exact ⟨hfrom, .single (.depth n), last, .refl, .plain he⟩
  unfold planCall
  split
  · exact ⟨.refl s, .refl⟩
  next name _ =>
    split
    · exact ⟨.refl s, .refl⟩
    next f hf =>
      simp only
      split
      · split
        · exact hinvoke hf
        · exact ⟨.refl s, .refl, s, .refl, .plain (by simp)⟩
      · split
        · exact hinvoke hf
        · exact ⟨.refl s, .refl, s, .refl, .plain (by simp)⟩

theorem planWhile_follows {kind' : Directive} {condition : String}
    {pass : Session σ → Plan σ (Outcome σ)}
    (hpass : ∀ s, Leads x.session s → (pass s).Follows (Asks x) (Ends x kind s) s) (left : Nat)
    (hs : Leads x.session s) :
    (planWhile kind' condition pass left s).Follows (Asks x) (Ends x kind s) s := by
  induction left generalizing s with
  | zero =>
    have hc := acts_condition (x := x) s condition
    unfold planWhile
    generalize s.condition condition = tested at hc ⊢
    obtain ⟨_ | _, s₁⟩ := tested
    · exact ⟨hc.leads, hc.moves⟩
    · simp only
      split
      · exact ⟨hc.leads, hc.moves, s₁, hc.moves, .plain (by simp)⟩
      · exact ⟨hc.leads, hc.moves, s₁, hc.moves, .plain (by simp)⟩
  | succ left ih =>
    have hc := acts_condition (x := x) s condition
    unfold planWhile
    generalize s.condition condition = tested at hc ⊢
    obtain ⟨_ | _, s₁⟩ := tested
    · exact ⟨hc.leads, hc.moves⟩
    · simp only
      split
      · exact ⟨hc.leads, hc.moves, s₁, hc.moves, .plain (by simp)⟩
      · refine follows_acts hc (follows_andThen (hpass s₁ (hs.trans hc.leads)) fun s₂ hs₂ => ?_)
        exact ih ((hs.trans hc.leads).trans hs₂)

theorem planCounted_follows (hs : Leads x.session s) :
    (planCounted x.node x.scope s).Follows (Asks x) (Ends x kind s) s := by
  refine follows_andThen (ends_of_does (runStatements_does s _)) fun s₁ hs₁ => ?_
  refine planWhile_follows (fun s₂ hs₂ => ?_) _ (hs.trans hs₁)
  exact follows_andThen (planBody_follows hs₂ (List.forall_mem_singleton.mpr (.inl rfl)))
    fun s₃ _ => ends_of_does (runStatements_does s₃ _)

theorem planSelected_follows (hs : Leads x.session s)
    {select : String → Except DocumentError (List NodeId)}
    (hfound : ∀ src found, select src = .ok found → ∀ id ∈ found, s.document.isElement id = true)
    (herror : ∀ src e, select src = .error e → e.isLost = false) :
    (planSelected x.node select s).Follows (Asks x) (Ends x kind s) s := by
  unfold planSelected
  split
  · exact ⟨.refl s, .refl⟩
  next selector _ =>
    split
    next found hselect =>
      refine planBody_follows hs fun scope hscope => .inr ?_
      obtain ⟨id, hid, rfl⟩ := List.mem_map.mp hscope
      exact ⟨id, rfl, hfound selector found hselect id hid⟩
    next e hselect => exact ⟨.refl s, .refl, s, .refl, .refused (herror selector e hselect)⟩

theorem planCreate_follows (hs : Leads x.session s) :
    (planCreate x.node s).Follows (Asks x) (Ends x kind s) s := by
  unfold planCreate
  split
  · exact ⟨.refl s, .refl⟩
  next tag _ =>
    unfold Document.createElement
    split
    next h =>
      split at h
      · cases h
      · cases h
        exact ⟨.refl s, .refl, s, .refl, .refused rfl⟩
    next created document h =>
      split at h
      · cases h
        have hcreated := s.document.isElement_push (.ofTag tag)
        have hpush : Act x s { s with document := (s.document.push (.element (.ofTag tag))).2 } :=
          .edited (.single (.extend (Document.extends_push _ (by simp)))) fun id hid =>
            .inr (.inl (hid.of_added (Markup.bare_element rfl) (Document.kind?_push _ _)))
        have hnamed := acts_declareNamed (x := x)
          { s with document := (s.document.push (.element (.ofTag tag))).2 } x.node
          (v := .node (s.document.push (.element (.ofTag tag))).1) fun id hid => by
            cases hid
            exact .inr (.inr (.inl hcreated))
        have hacts : Acts x s _ := .head hpush hnamed
        refine follows_acts hacts (planBody_follows (hs.trans hacts.leads)
          (List.forall_mem_singleton.mpr (.inr ⟨_, rfl, ?_⟩)))
        exact hnamed.leads.document.isElement hcreated
      · cases h

/-- A directive asks for executions in its body or one call deeper, and ends. -/
theorem plan_follows (kind : Directive) (hs : Leads x.session s)
    (hnames : s.names = x.session.names) (hflag : s.interrupted = x.session.interrupted) :
    (plan kind x.node x.scope s).Follows (Asks x) (Ends x kind s) s := by
  have hbody : ∀ s, Leads x.session s →
      (planBody x.node [x.scope] s).Follows (Asks x) (Ends x kind s) s := fun s hs =>
    planBody_follows hs (List.forall_mem_singleton.mpr (.inl rfl))
  cases kind with
  | function => exact ends_of_does (declareFunction_does s)
  | «variable» => exact ends_of_does (declareVariable_does s x.node)
  | listen => exact ends_of_does (addListener_does s x.node)
  | call => exact planCall_follows hs hnames
  | branch =>
    have hc := acts_condition (x := x) s ((s.attribute? x.node "condition").getD "")
    simp only [plan]
    generalize s.condition ((s.attribute? x.node "condition").getD "") = tested at hc ⊢
    obtain ⟨_ | _, s₁⟩ := tested
    · exact ⟨hc.leads, hc.moves⟩
    · exact follows_acts hc (hbody s₁ (hs.trans hc.leads))
  | counted => exact planCounted_follows hs
  | repeated => exact planWhile_follows hbody _ hs
  | findById =>
    refine planBody_follows hs fun scope hscope => .inr ?_
    obtain ⟨id, hid, rfl⟩ := List.mem_map.mp hscope
    exact ⟨id, rfl, Document.isElement_of_byId? (Option.mem_toList.mp hid)⟩
  | findFirst =>
    refine planSelected_follows hs (fun src found hfound id hid => ?_) fun src e he => ?_
    · obtain ⟨first, hquery, rfl⟩ := Document.map_eq_ok.mp hfound
      exact Document.isElement_of_query (Option.mem_toList.mp hid ▸ hquery)
    · exact Document.query_error (Document.map_eq_error.mp he)
  | findAll =>
    exact planSelected_follows hs (fun src found hfound id => Document.isElement_of_queryAll hfound)
      fun src e => Document.queryAll_error
  | set => exact ends_of_does (setTarget_does s x.node)
  | get => exact ends_of_does (getTarget_does s x.node)
  | create => exact planCreate_follows hs
  | append => exact ends_of_does (appendTarget_does s)
  | remove => exact ends_of_does (removeTarget_does s)
  | reveal => exact ends_of_does (hideTarget_does s fun _ => false)
  | conceal => exact ends_of_does (hideTarget_does s fun _ => true)
  | toggle => exact ends_of_does (hideTarget_does s fun hidden => !hidden)
  | alert => exact ends_of_does (alert_does s x.node hflag)
  | confirm => exact ends_of_does (confirm_does s x.node hflag)
  | prompt => exact ends_of_does (prompt_does s x.node hflag)
  | log => exact ends_of_does (log_does s x.node hflag)

end

variable [Host σ]

def planDispatch (x : Execution σ) : Plan σ (Session σ) :=
  match kindOf? x.session.document x.node with
  | none => .ended x.session
  | some kind =>
    (plan kind x.node x.scope (x.session.enter kind x.node x.scope)).bind fun
      | .done s => .ended (s.leave x.node)
      | .failed e s => .ended ((s.report kind x.node e).leave x.node)
      | .unfinished => .ended x.session

theorem planDispatch_of_none {x : Execution σ} (h : kindOf? x.session.document x.node = none) :
    planDispatch x = .ended x.session := by
  rw [planDispatch, h]

theorem plan_enter_follows (x : Execution σ) (kind : Directive) :
    (plan kind x.node x.scope (x.session.enter kind x.node x.scope)).Follows (Asks x)
      (Ends x kind (x.session.enter kind x.node x.scope))
      (x.session.enter kind x.node x.scope) := by
  obtain ⟨notices, executed, henter, -⟩ := enter_spec x.session x.node x.scope kind
  refine plan_follows kind (leads_enter x.session x.node x.scope kind) ?_ ?_
  · rw [henter]
  · rw [henter]

theorem planDispatch_follows {x : Execution σ} {kind : Directive}
    (hk : kindOf? x.session.document x.node = some kind) :
    (planDispatch x).Follows (Asks x)
      (fun last s' => Moves x last s' ∧ Leads x.session s' ∧ x.node ∈ s'.executed)
      (x.session.enter kind x.node x.scope) := by
  have henter := leads_enter x.session x.node x.scope kind
  have hmem := mem_executed_enter x.session x.node x.scope kind
  unfold planDispatch
  rw [hk]
  refine (plan_enter_follows x kind).bind fun last o ho => ?_
  cases o with
  | done s =>
    have hacts := acts_leave (x := x) s x.node
    have hleads := ho.leads.trans hacts.leads
    exact ⟨ho.goes.trans hacts.moves, henter.trans hleads, hleads.executed hmem⟩
  | failed e s =>
    have hacts : Acts x s _ := (acts_report s x.node kind e).trans (acts_leave _ x.node)
    have hleads := ho.leads.trans hacts.leads
    exact ⟨ho.goes.1.trans hacts.moves, henter.trans hleads, hleads.executed hmem⟩
  | unfinished => exact ho.leads.elim

/-- An execution makes those inside it, leads to a later state, and leaves a directive executed. -/
theorem planDispatch_along (x : Execution σ) :
    (planDispatch x).Along (Inside x) fun s' => Leads x.session s' ∧
      ((kindOf? x.session.document x.node).isSome → x.node ∈ s'.executed) := by
  cases hk : kindOf? x.session.document x.node with
  | none =>
    rw [planDispatch_of_none hk]
    exact ⟨.refl _, by simp⟩
  | some kind =>
    exact (planDispatch_follows hk).along (fun _ _ hy => hy.inside)
      fun _ _ hs => ⟨hs.2.1, fun _ => hs.2.2⟩

theorem dispatch_eq_of_leads {bound : Nat}
    (hrecur : ∀ node scope (s s' : Session σ), dispatch bound node scope s = some s' → Leads s s')
    (x : Execution σ) :
    dispatch (bound + 1) x.node x.scope x.session = (planDispatch x).run (dispatch bound) := by
  rw [dispatch, planDispatch]
  cases kindOf? x.session.document x.node with
  | none => rfl
  | some kind =>
    have halong := (plan_enter_follows x kind).along (Q := fun _ => True) (fun _ _ _ => trivial)
      fun _ _ ho => ho.leads
    simp only [perform_eq, Plan.outcome, Plan.run_bind]
    cases hr : (plan kind x.node x.scope (x.session.enter kind x.node x.scope)).run
        (dispatch bound) with
    | none => rfl
    | some o =>
      have ho := halong.run hrecur hr
      cases o with
      | done s => rfl
      | failed e s => rfl
      | unfinished => exact ho.elim

theorem leads_dispatch {bound : Nat} {node : NodeId} {scope : Option NodeId} {s s' : Session σ}
    (h : dispatch bound node scope s = some s') : Leads s s' := by
  induction bound generalizing node scope s s' with
  | zero => cases h
  | succ bound ih =>
    have hrecur : ∀ node scope (s s' : Session σ),
        dispatch bound node scope s = some s' → Leads s s' := fun _ _ _ _ => ih
    rw [dispatch_eq_of_leads hrecur ⟨node, scope, s⟩] at h
    exact ((planDispatch_along ⟨node, scope, s⟩).run hrecur h).1

theorem dispatch_succ (bound : Nat) (x : Execution σ) :
    dispatch (bound + 1) x.node x.scope x.session = (planDispatch x).run (dispatch bound) :=
  dispatch_eq_of_leads (fun _ _ _ _ => leads_dispatch) x

theorem mem_executed_dispatch {bound : Nat} {node : NodeId} {scope : Option NodeId}
    {s s' : Session σ} (h : dispatch bound node scope s = some s')
    (hk : (kindOf? s.document node).isSome) : node ∈ s'.executed := by
  cases bound with
  | zero => cases h
  | succ bound =>
    rw [dispatch_succ bound ⟨node, scope, s⟩] at h
    exact ((planDispatch_along ⟨node, scope, s⟩).run (fun _ _ _ _ => leads_dispatch) h).2 hk

end ActiveMarkup.Session
