import ActiveMarkup.Proofs.Session.Requests
import ActiveMarkup.Proofs.Session.Termination
set_option autoImplicit false

/-!
From the moves of a directive to whole requests. A contract has a condition on executions and a
relation between an execution and the states it comes through. If the moves of a directive keep the
relation, if what a directive asks for meets the condition, and if the relation is kept by what was
asked for, then every execution that a request makes meets the condition, and ends in a state that
is related to it, however deep executions nest.

A request itself does little between the executions that it makes at first hand: it leaves a notice,
takes the journal, or counts a call.
-/

namespace ActiveMarkup.Session

variable {σ α β : Type}

section

variable [Host σ] {R : Session σ → Execution σ → Prop} {E : Session σ → α → Prop}
  {p : Plan σ α} {last : Session σ}

/-- What the executions keep that are asked for holds where a plan was left last. -/
theorem Plan.Follows.run {I : Session σ → Prop} {bound : Nat} {a : α} (h : p.Follows R E last)
    (hlast : I last)
    (hask : ∀ last y s', I last → R last y →
      dispatch bound y.node y.scope y.session = some s' → I s')
    (hr : p.run (dispatch bound) = some a) : ∃ last', I last' ∧ E last' a := by
  induction p generalizing last with
  | ended b =>
    cases hr
    exact ⟨last, hlast, h⟩
  | ask node scope s resume ih =>
    obtain ⟨s', hd, hr⟩ := run_ask_eq_some.mp hr
    exact ih s' (h.2 s' (leads_dispatch hd)) (hask last _ s' hlast h.1 hd) hr

theorem Plan.Follows.makes {I : Session σ → Prop} {x : Execution σ} (h : p.Follows R E last)
    (hlast : I last)
    (hask : ∀ bound last y s', I last → R last y →
      dispatch bound y.node y.scope y.session = some s' → I s')
    (hx : p.Makes x) : ∃ last', I last' ∧ R last' x := by
  induction hx generalizing last with
  | here => exact ⟨last, hlast, h.1⟩
  | @later node scope s s' resume bound x hd _ ih =>
    exact ih (h.2 s' (leads_dispatch hd)) (hask bound last _ s' hlast h.1 hd)

end

variable [Host σ]

/-- What executions have to meet when they start, and how their states are related to them. -/
structure Contract (C : Execution σ → Prop) (I : Execution σ → Session σ → Prop) : Prop where
  pass : ∀ {x}, C x → I x x.session
  enter : ∀ {x kind}, C x → kindOf? x.session.document x.node = some kind →
    I x (x.session.enter kind x.node x.scope)
  move : ∀ {x s s'}, C x → I x s → Move x s s' → I x s'
  ask : ∀ {x y}, C x → I x y.session → y.session.interrupted = false → Offered x y → C y
  back : ∀ {x y s'}, C x → I x y.session → Leads y.session s' → I y s' → I x s'

namespace Contract

variable {C : Execution σ → Prop} {I : Execution σ → Session σ → Prop} {x y : Execution σ}
  {kind : Directive} {s s' last : Session σ} {bound : Nat}

theorem moves (c : Contract C I) (hx : C x) (hs : I x s) (h : Moves x s s') : I x s' := by
  induction h with
  | refl => exact hs
  | tail _ hm ih => exact c.move hx ih hm

theorem asks (c : Contract C I) (hx : C x) (hlast : I x last) (hy : Asks x last y) :
    I x y.session ∧ C y := by
  have hs := c.moves hx hlast hy.moves
  exact ⟨hs, c.ask hx hs hy.free hy.offered⟩

theorem dispatch (c : Contract C I) (hx : C x)
    (h : dispatch bound x.node x.scope x.session = some s') : I x s' := by
  induction bound generalizing x s' with
  | zero => cases h
  | succ bound ih =>
    rw [dispatch_succ] at h
    cases hk : kindOf? x.session.document x.node with
    | none =>
      rw [planDispatch_of_none hk] at h
      cases h
      exact c.pass hx
    | some kind =>
      have hask : ∀ last y s'', I x last → Asks x last y →
          Session.dispatch bound y.node y.scope y.session = some s'' → I x s'' := by
        intro last y s'' hlast hy hd
        obtain ⟨hs, hy'⟩ := c.asks hx hlast hy
        exact c.back hx hs (leads_dispatch hd) (ih hy' hd)
      obtain ⟨last, hlast, hmoves, -⟩ := (planDispatch_follows hk).run (c.enter hx hk) hask h
      exact c.moves hx hlast hmoves

theorem back_dispatch (c : Contract C I) (hx : C x) (hlast : I x last) (hy : Asks x last y)
    (hd : Session.dispatch bound y.node y.scope y.session = some s') : I x s' := by
  obtain ⟨hs, hy'⟩ := c.asks hx hlast hy
  exact c.back hx hs (leads_dispatch hd) (c.dispatch hy' hd)

theorem nests (c : Contract C I) (hx : C x) (h : Nests x y) : C y := by
  obtain ⟨kind, hk⟩ := h.exists_kind
  obtain ⟨last, hlast, hy⟩ := (planDispatch_follows hk).makes (I := I x) (c.enter hx hk)
    (fun _ _ _ _ hlast hy hd => c.back_dispatch hx hlast hy hd) h
  exact (c.asks hx hlast hy).2

theorem perform (c : Contract C I) (hx : C x)
    (hk : kindOf? x.session.document x.node = some kind) {o : Outcome σ} (ho : o ≠ .unfinished)
    (h : perform (Session.dispatch bound) kind x.node x.scope
      (x.session.enter kind x.node x.scope) = o) :
    ∃ last, I x last ∧ Goes x kind last o := by
  rw [perform_eq, Plan.outcome] at h
  cases hr : (plan kind x.node x.scope (x.session.enter kind x.node x.scope)).run
      (Session.dispatch bound) with
  | none =>
    rw [hr] at h
    exact (ho h.symm).elim
  | some o' =>
    rw [hr] at h
    cases h
    obtain ⟨last, hlast, hends⟩ := (plan_enter_follows x kind).run (I := I x) (c.enter hx hk)
      (fun _ _ _ hlast hy hd => c.back_dispatch hx hlast hy hd) hr
    exact ⟨last, hlast, hends.goes⟩

end Contract

def planInvokeAll (target : EventTarget) (event : String) :
    List Function → Session σ → Plan σ (Session σ)
  | [], s => .ended s
  | f :: rest, s =>
    (planInvoke f s).bind fun
      | .done s => planInvokeAll target event rest s
      | .failed e s =>
        planInvokeAll target event rest (s.note (.handlerFailed target event f.name e))
      | .unfinished => .ended s

def Request.plan (s : Session σ) : Request → Plan σ (Session σ)
  | run => (planRun s).bind fun r => .ended r.2
  | scan id => (planScanned (s.frontier id) 0 s).bind fun r => .ended r.2
  | flush => (planFlush s.settings.rounds 0 s).bind fun r => .ended r.2
  | fire target event =>
    (planInvokeAll target event (s.handlers target event) s).bind fun s =>
      (planFlush s.settings.rounds 0 s).bind fun r => .ended r.2
  | call name =>
    match s.names.lookupFunction name with
    | none => .ended s
    | some f => (planInvoke f s).bind fun o => .ended ((reached o).getD s)
  | edit op => .ended { s with document := op.after s.document }
  | rewrite id e => .ended { s with document := rewritten s.document id e }
  | exchange d _ => .ended { s with document := d }
  | interrupt raised => .ended { s with interrupted := raised }

/-- A request comes to make an execution, at first hand or inside of another one. -/
inductive Request.Executes (request : Request) (s : Session σ) : Execution σ → Prop where
  | first {x : Execution σ} : (request.plan s).Makes x → Executes request s x
  | nested {x y : Execution σ} : Executes request s x → Nests x y → Executes request s y

section

variable {bound : Nat}

theorem invokeAll_eq (target : EventTarget) (event : String) (fs : List Function)
    (s : Session σ) :
    invokeAll bound target event fs s = (planInvokeAll target event fs s).run (dispatch bound) := by
  induction fs generalizing s with
  | nil => rfl
  | cons f rest ih =>
    rw [invokeAll, planInvokeAll, Plan.run_bind, invoke_eq, Plan.outcome]
    cases hr : (planInvoke f s).run (dispatch bound) with
    | none => rfl
    | some o =>
      cases o with
      | done s₁ => exact ih s₁
      | failed e s₁ => exact ih _
      | unfinished => exact (planInvoke_from hr).elim

theorem flush_eq (s : Session σ) :
    (s.flush bound).map Prod.snd =
      ((planFlush s.settings.rounds 0 s).bind fun r => Plan.ended r.2).run (dispatch bound) := by
  rw [flush, flushRounds_eq, Plan.run_bind]
  cases (planFlush s.settings.rounds 0 s).run (dispatch bound) <;> rfl

theorem Request.after_eq (request : Request) (s : Session σ) :
    request.after bound s = (request.plan s).run (dispatch bound) := by
  cases request with
  | run =>
    rw [after, plan, Plan.run_bind, run_eq]
    cases (planRun s).run (dispatch bound) <;> rfl
  | scan id =>
    rw [after, plan, Plan.run_bind, Session.scan, dispatchCounted_eq]
    cases (planScanned (s.frontier id) 0 s).run (dispatch bound) <;> rfl
  | flush => exact flush_eq s
  | fire target event =>
    rw [after_fire, plan, Plan.run_bind, invokeAll_eq]
    congr 1
    funext s₁
    exact flush_eq s₁
  | call name =>
    rw [after, plan, callFunction]
    cases s.names.lookupFunction name with
    | none => rfl
    | some f =>
      simp only [Option.map_some, Option.elim_some, invoke_eq, Plan.outcome, Plan.run_bind]
      cases hr : (planInvoke f s).run (dispatch bound) with
      | none => rfl
      | some o =>
        cases o with
        | done s₁ => rfl
        | failed e s₁ => rfl
        | unfinished => exact (planInvoke_from hr).elim
  | edit | rewrite | exchange | interrupt => rfl

end

inductive Turn (s : Session σ) : Session σ → Prop where
  | noted (n : Notice) : Turn s (s.note n)
  | taken : Turn s { s with document := s.document.takeInserted.2 }
  | depth (n : Nat) : Turn s { s with callDepth := n }

abbrev Turns : Session σ → Session σ → Prop :=
  Relation.ReflTransGen Turn

inductive Origin (s : Session σ) (y : Execution σ) : Prop where
  | scanned : (kindOf? y.session.document y.node).isSome → y.scope = none → Origin s y
  | called {f : Function} :
      ((∃ name, s.names.lookupFunction name = some f) ∨ ∃ l ∈ s.listeners, l.function = f) →
      y.node ∈ f.body → y.scope = f.scope → s.document.Edited y.session.document → Origin s y

/-- An execution that a request to `s` makes at first hand, after it was left to itself in the state
`last`. -/
structure Starts (s last : Session σ) (y : Execution σ) : Prop where
  turns : Turns last y.session
  free : y.session.interrupted = false
  origin : Origin s y

section

omit [Host σ]

variable {s s₀ s₁ last : Session σ}

theorem Starts.after (h : Turns last s₁) {y : Execution σ} (hy : Starts s₀ s₁ y) :
    Starts s₀ last y :=
  { hy with turns := h.trans hy.turns }

theorem follows_turns {f : α → Session σ} {p : Plan σ α} (h : Turns last s₁)
    (hp : p.Follows (Starts s₀) (fun last a => Turns last (f a)) s₁) :
    p.Follows (Starts s₀) (fun last a => Turns last (f a)) last :=
  hp.of_last (fun _ hy => hy.after h) fun _ ha => h.trans ha

theorem planFrontier_follows (s₀ : Session σ) (id : NodeId) (count : Nat) (s : Session σ) :
    (planScanned (s.frontier id) count s).Follows (Starts s₀) (fun last r => Turns last r.2) s := by
  have hstarts : ∀ node ∈ s.frontier id, ∀ s', Leads s s' → s'.interrupted = false →
      Starts s₀ s' ⟨node, none, s'⟩ := by
    intro node hn s' hs hi
    refine ⟨.refl, hi, .scanned ?_ rfl⟩
    exact isDirective_edited hs.document (pending_of_mem_frontierWithin hn).1
  refine (planScanned_follows hstarts).mono fun last r hr => ?_
  obtain ⟨-, heq | heq⟩ := hr
  · exact heq ▸ .refl
  · exact heq ▸ .single (.noted _)

theorem planScanAll_follows (nodes : List NodeId) (count : Nat) (s : Session σ) :
    (planScanAll nodes count s).Follows (Starts s₀) (fun last r => Turns last r.2) s := by
  induction nodes generalizing count s with
  | nil => exact .refl
  | cons id rest ih =>
    exact (planFrontier_follows s₀ id 0 s).bind fun last r hr =>
      follows_turns hr (ih (count + r.1) r.2)

theorem planFlush_follows (rounds count : Nat) (s : Session σ) :
    (planFlush rounds count s).Follows (Starts s₀) (fun last r => Turns last r.2) s := by
  induction rounds generalizing count s with
  | zero =>
    unfold planFlush
    split
    · exact .single (.noted _)
    · exact .refl
  | succ rounds ih =>
    have htaken : Turns s { s with document := s.document.takeInserted.2 } := .single .taken
    simp only [planFlush]
    split
    · exact htaken
    · exact follows_turns htaken ((planScanAll_follows _ count _).bind fun last r hr =>
        follows_turns hr (ih r.1 r.2))

theorem flush_follows (s : Session σ) :
    ((planFlush s.settings.rounds 0 s).bind fun r => Plan.ended r.2).Follows (Starts s₀) Turns s :=
  (planFlush_follows _ 0 s).bind fun _ _ hr => hr

theorem invoke_follows {f : Function}
    (hf : (∃ name, s₀.names.lookupFunction name = some f) ∨ ∃ l ∈ s₀.listeners, l.function = f)
    (hs : s₀.document.Edited s.document) :
    (planInvoke f s).Follows (Starts s₀) (fun last o => o.From s ∧ Returns last o) s :=
  planInvoke_follows
    (fun _ hn _ hs' _ hi => ⟨.refl, hi, .called hf hn rfl (hs.trans hs'.document)⟩)
    fun _ hy => hy.after (.single (.depth _))

theorem planInvokeAll_follows (target : EventTarget) (event : String) {fs : List Function}
    (hfs : ∀ f ∈ fs, ∃ l ∈ s₀.listeners, l.function = f) (hs : s₀.document.Edited s.document) :
    (planInvokeAll target event fs s).Follows (Starts s₀) Turns s := by
  induction fs generalizing s with
  | nil => exact .refl
  | cons f rest ih =>
    obtain ⟨hf, hrest⟩ := List.forall_mem_cons.mp hfs
    refine (invoke_follows (.inr hf) hs).bind fun last o ho => ?_
    obtain ⟨hfrom, n, rfl | ⟨e, rfl, -⟩⟩ := ho
    · have hturns : Turns last { last with callDepth := n } := .single (.depth n)
      exact follows_turns (f := id) hturns (ih hrest (hs.trans hfrom.document))
    · have hturns : Turns last { last with callDepth := n } := .single (.depth n)
      exact follows_turns (f := id) (hturns.tail (.noted _)) (ih hrest (hs.trans hfrom.document))

/-- A request to execute asks for directives that it scans and for bodies of functions, and does
little else by itself. -/
theorem Request.follows {request : Request} (hrequest : request.executing = true)
    (s : Session σ) : (request.plan s).Follows (Starts s) Turns s := by
  cases request with
  | run =>
    have hrun : (planRun s).Follows (Starts s) (fun last r => Turns last r.2) s :=
      (planFrontier_follows s .root 0 s).bind fun _ r hr =>
        follows_turns hr ((planFlush_follows _ 0 r.2).bind fun _ _ hr' => hr')
    exact hrun.bind fun _ _ hr => hr
  | scan id => exact (planFrontier_follows s id 0 s).bind fun _ _ hr => hr
  | flush => exact flush_follows s
  | fire target event =>
    refine (planInvokeAll_follows target event (fun f hf => ?_) .refl).bind fun last s₁ hs₁ => ?_
    · obtain ⟨l, hl, rfl⟩ := List.mem_map.mp hf
      exact ⟨l, (List.mem_filter.mp hl).1, rfl⟩
    · exact follows_turns (f := id) hs₁ (flush_follows s₁)
  | call name =>
    simp only [Request.plan]
    cases hf : s.names.lookupFunction name with
    | none => exact .refl
    | some f =>
      refine (invoke_follows (.inl ⟨name, hf⟩) .refl).bind fun last o ho => ?_
      obtain ⟨-, n, rfl | ⟨e, rfl, -⟩⟩ := ho
      · exact .single (.depth n)
      · exact .single (.depth n)
  | edit | rewrite | exchange | interrupt => cases hrequest

end

end ActiveMarkup.Session
