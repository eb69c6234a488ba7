import ActiveMarkup.Host.Recorder
import ActiveMarkup.Proofs.Session.Interruption
set_option autoImplicit false

namespace ActiveMarkup.Session

variable {σ α β : Type}

structure SameDepth (s t : Session σ) : Prop where
  callDepth : t.callDepth = s.callDepth
  settings : t.settings = s.settings

namespace SameDepth

variable {s t u : Session σ}

theorem refl (s : Session σ) : SameDepth s s := ⟨rfl, rfl⟩

theorem trans (h : SameDepth s t) (h' : SameDepth t u) : SameDepth s u :=
  ⟨h'.callDepth.trans h.callDepth, h'.settings.trans h.settings⟩

theorem of_leads (h : Leads s t) : SameDepth s t := ⟨h.callDepth, h.settings⟩

theorem of_done {o : Outcome σ} (h : o.From s) (ho : o = .done t) : SameDepth s t := by
  subst ho
  exact of_leads h

theorem condition (s : Session σ) (src : String) : SameDepth s (s.condition src).2 := by
  unfold Session.condition
  split <;> exact ⟨rfl, rfl⟩

end SameDepth

namespace Plan

variable {Q Q' : Execution σ → Prop} {E E' : α → Prop} {F : β → Prop} {p : Plan σ α}

theorem Along.mono (h : p.Along Q E) (hQ : ∀ y, Q y → Q' y) (hE : ∀ a, E a → E' a) :
    p.Along Q' E' := by
  induction p with
  | ended a => exact hE a h
  | ask node scope s resume ih => exact ⟨hQ _ h.1, fun s' hs => ih s' (h.2 s' hs)⟩

theorem Along.bind {next : α → Plan σ β} (h : p.Along Q E)
    (hnext : ∀ a, E a → (next a).Along Q F) : (p.bind next).Along Q F := by
  induction p with
  | ended a => exact hnext a h
  | ask node scope s resume ih => exact ⟨h.1, fun s' hs => ih s' (h.2 s' hs)⟩

theorem Makes.of_bind [Host σ] {next : α → Plan σ β} {x : Execution σ}
    (h : (p.bind next).Makes x) :
    p.Makes x ∨ ∃ bound a, p.run (dispatch bound) = some a ∧ (next a).Makes x := by
  induction p with
  | ended a => exact .inr ⟨0, a, rfl, h⟩
  | ask node scope s resume ih =>
    cases h with
    | here => exact .inl .here
    | @later _ _ _ s' _ bound _ hd hx =>
      rcases ih s' hx with hx | ⟨bound', a, hr, hx⟩
      · exact .inl (.later hd hx)
      · refine .inr ⟨max bound bound', a, ?_, hx⟩
        rw [run, dispatch_mono (Nat.le_max_left _ _) hd]
        exact run_mono (fun _ _ _ _ => dispatch_mono (Nat.le_max_right _ _)) hr

end Plan

def Steady (s : Session σ) (p : Plan σ (Outcome σ)) : Prop :=
  p.Along (fun y => SameDepth s y.session) fun o => ∀ t, o = .done t → SameDepth s t

section

variable {s t : Session σ}

theorem Steady.after {p : Plan σ (Outcome σ)} (h : SameDepth s t) (hp : Steady t p) : Steady s p :=
  Plan.Along.mono hp (fun _ => h.trans) fun _ ho u hu => h.trans (ho u hu)

theorem steady_done (h : SameDepth s t) : Steady s (.ended (.done t)) := by
  rintro _ ⟨⟩
  exact h

theorem steady_failed (e : DirectiveError) : Steady s (.ended (.failed e t)) := nofun

theorem Steady.andThen {p : Plan σ (Outcome σ)} {next : Session σ → Plan σ (Outcome σ)}
    (hp : Steady s p) (hnext : ∀ t, Steady t (next t)) : Steady s (p.andThen next) := by
  refine Plan.Along.bind hp fun o ho => ?_
  cases o with
  | done t => exact (hnext t).after (ho t rfl)
  | failed | unfinished => exact nofun

theorem steady_planAll (scope : Option NodeId) (nodes : List NodeId) (s : Session σ) :
    Steady s (planAll scope nodes s) := by
  induction nodes generalizing s with
  | nil => exact steady_done (.refl s)
  | cons node rest ih =>
    unfold planAll
    split
    · exact steady_failed _
    · exact ⟨.refl s, fun s' hs => (ih s').after (.of_leads hs)⟩

theorem steady_planBody (node : NodeId) (scopes : List (Option NodeId)) (s : Session σ) :
    Steady s (planBody node scopes s) := by
  induction scopes generalizing s with
  | nil => exact steady_done (.refl s)
  | cons scope rest ih => exact (steady_planAll _ _ s).andThen ih

theorem steady_planWhile (kind : Directive) (condition : String)
    {pass : Session σ → Plan σ (Outcome σ)} (hpass : ∀ t, Steady t (pass t)) (left : Nat)
    (s : Session σ) : Steady s (planWhile kind condition pass left s) := by
  induction left generalizing s with
  | zero =>
    have hc := SameDepth.condition s condition
    unfold planWhile
    generalize s.condition condition = tested at hc ⊢
    obtain ⟨_ | _, t⟩ := tested
    · exact steady_done hc
    · simp only
      split <;> exact steady_failed _
  | succ left ih =>
    have hc := SameDepth.condition s condition
    unfold planWhile
    generalize s.condition condition = tested at hc ⊢
    obtain ⟨_ | _, t⟩ := tested
    · exact steady_done hc
    · simp only
      split
      · exact steady_failed _
      · exact ((hpass t).andThen ih).after hc

theorem steady_runStatements (src : Option String) (s : Session σ) :
    Steady s (.ended (runStatements src s)) := by
  unfold runStatements
  split
  · exact steady_done (.refl s)
  · split
    · exact steady_done ⟨rfl, rfl⟩
    · exact steady_failed _

theorem steady_planSelected (node : NodeId)
    (select : String → Except DocumentError (List NodeId)) (s : Session σ) :
    Steady s (planSelected node select s) := by
  unfold planSelected
  split
  · exact steady_done (.refl s)
  · split
    · exact steady_planBody _ _ s
    · exact steady_failed _

theorem steady_planCreate (node : NodeId) (s : Session σ) : Steady s (planCreate node s) := by
  unfold planCreate
  split
  · exact steady_done (.refl s)
  · split
    · exact steady_failed _
    next created document _ =>
      refine (steady_planBody _ _ _).after ?_
      unfold declareNamed
      split <;> exact ⟨rfl, rfl⟩

end

variable [Host σ]

/-- A directive that is no call executes everything at the depth at which it is itself. -/
theorem steady_plan {kind : Directive} (hkind : kind ≠ .call) (node : NodeId)
    (scope : Option NodeId) (s : Session σ) : Steady s (plan kind node scope s) := by
  have hends := plan_follows (x := ⟨node, scope, s⟩) kind (.refl s) rfl rfl
  cases kind with
  | call => exact (hkind rfl).elim
  | branch => exact (steady_planBody _ _ _).after (.condition s _)
  | counted =>
    refine (steady_runStatements _ s).andThen fun t => steady_planWhile _ _ (fun u => ?_) _ t
    exact (steady_planBody _ _ u).andThen (steady_runStatements _)
  | repeated => exact steady_planWhile _ _ (steady_planBody _ _) _ s
  | findById => exact steady_planBody _ _ s
  | findFirst | findAll => exact steady_planSelected _ _ s
  | create => exact steady_planCreate node s
  | _ => exact fun t => .of_done (Ends.leads hends)

omit [Host σ] in
structure Deeper (s t : Session σ) : Prop where
  allowed : s.callDepth < s.settings.calls
  callDepth : t.callDepth = s.callDepth + 1
  settings : t.settings = s.settings

theorem planInvoke_deeper {f : Function} {s : Session σ} {y : Execution σ}
    (h : (planInvoke f s).Makes y) : Deeper s y.session := by
  have hfollows : (planInvoke f s).Follows (fun _ y => Deeper s y.session)
      (fun last o => o.From s ∧ Returns last o) s :=
    planInvoke_follows (fun _ _ _ hs' hlt _ => ⟨hlt, hs'.callDepth, hs'.settings⟩) fun _ hy => hy
  exact (hfollows.along (fun _ _ hy => hy) fun _ _ _ => trivial :
    (planInvoke f s).Along (fun y => Deeper s y.session) fun _ => True).makes h

omit [Host σ] in
def callee? (s : Session σ) (node : NodeId) : Option Function :=
  (s.required? node "function").bind fun name =>
    (s.names.lookupFunction name).filter fun _ =>
      (s.required? node "args").all fun args => (Json.parse? ("[" ++ args ++ "]")).isSome

omit [Host σ] in
def Execution.called? (x : Execution σ) : Option Function :=
  match kindOf? x.session.document x.node with
  | some .call => callee? x.session x.node
  | _ => none

omit [Host σ] in
theorem planCall_callee (node : NodeId) (s : Session σ) :
    (∃ f, callee? s node = some f ∧ planCall node s = planInvoke f s) ∨
      (callee? s node = none ∧ ∃ o, planCall node s = .ended o) := by
  unfold callee? planCall
  cases s.required? node "function" with
  | none => exact .inr ⟨rfl, _, rfl⟩
  | some name =>
    simp only [Option.bind_some]
    cases s.names.lookupFunction name with
    | none => exact .inr ⟨rfl, _, rfl⟩
    | some f =>
      cases s.required? node "args" with
      | none => exact .inl ⟨f, rfl, rfl⟩
      | some args =>
        simp only [Option.all_some, Option.filter_some]
        split
        · exact .inl ⟨f, rfl, rfl⟩
        · exact .inr ⟨rfl, _, rfl⟩

omit [Host σ] in
theorem callee?_enter (x : Execution σ) (kind : Directive) :
    callee? (x.session.enter kind x.node x.scope) x.node = callee? x.session x.node := by
  obtain ⟨notices, executed, henter, -⟩ := enter_spec x.session x.node x.scope kind
  rw [henter]
  rfl

theorem Execution.called?_eq_some {x : Execution σ} {f : Function} (h : x.called? = some f) :
    kindOf? x.session.document x.node = some .call ∧ ∀ recur,
      perform recur .call x.node x.scope (x.session.enter .call x.node x.scope) =
        invoke recur f (x.session.enter .call x.node x.scope) := by
  unfold Execution.called? at h
  split at h
  next hk =>
    refine ⟨hk, fun recur => ?_⟩
    rw [← callee?_enter x .call] at h
    rcases planCall_callee x.node (x.session.enter .call x.node x.scope) with
      ⟨g, hg, hplan⟩ | ⟨hnone, -⟩
    · cases h.symm.trans hg
      rw [perform, call_eq, hplan, Session.invoke_eq]
    · cases h.symm.trans hnone
  next => cases h

theorem Nests.kind {x y : Execution σ} (h : Nests x y) :
    ∃ kind, kindOf? x.session.document x.node = some kind ∧
      (plan kind x.node x.scope (x.session.enter kind x.node x.scope)).Makes y := by
  obtain ⟨kind, hk⟩ := h.exists_kind
  rw [Nests, planDispatch, hk] at h
  refine ⟨kind, hk, ?_⟩
  rcases h.of_bind with hy | ⟨_, o, -, hy⟩
  · exact hy
  · cases o <;> cases hy

/-- What an execution makes is in the call that it makes, or it is at the depth of the execution. -/
theorem Nests.depth {x y : Execution σ} (h : Nests x y) :
    (∃ f, x.called? = some f ∧ Deeper x.session y.session) ∨
      (x.called? = none ∧ SameDepth x.session y.session) := by
  obtain ⟨kind, hk, hy⟩ := h.kind
  have henter := SameDepth.of_leads (leads_enter x.session x.node x.scope kind)
  by_cases hcall : kind = .call
  · subst hcall
    have hcalled : x.called? = callee? (x.session.enter .call x.node x.scope) x.node := by
      rw [Execution.called?, hk, callee?_enter]
    rcases planCall_callee x.node (x.session.enter .call x.node x.scope) with
      ⟨f, hf, hplan⟩ | ⟨-, o, hplan⟩
    · rw [plan, hplan] at hy
      have hdeeper := planInvoke_deeper hy
      refine .inl ⟨f, hcalled.trans hf, ?_, ?_, hdeeper.settings.trans henter.settings⟩
      · rw [← henter.callDepth, ← henter.settings]
        exact hdeeper.allowed
      · rw [← henter.callDepth]
        exact hdeeper.callDepth
    · rw [plan, hplan] at hy
      cases hy
  · refine .inr ⟨?_, henter.trans ((steady_plan hcall _ _ _).makes hy)⟩
    rw [Execution.called?, hk]
    cases kind <;> first | rfl | exact (hcall rfl).elim

omit [Host σ] in
inductive Job where
  | request (request : Request)
  | node (id : NodeId) (scope : Option NodeId)

namespace Job

omit [Host σ] in
def executing : Job → Bool
  | request r => r.executing
  | node .. => true

def after (bound : Nat) (s : Session σ) : Job → Option (Session σ)
  | request r => r.after bound s
  | node id scope => dispatch bound id scope s

def Executes (s : Session σ) (x : Execution σ) : Job → Prop
  | request r => r.Executes s x
  | node id scope => Relation.ReflTransGen Nests ⟨id, scope, s⟩ x

end Job

def Request.scanning (bound : Nat) (s : Session σ) : Request → Option (Plan σ (Nat × Session σ))
  | run => some (planRun s)
  | scan id => some (planScanned (s.frontier id) 0 s)
  | flush => some (planFlush s.settings.rounds 0 s)
  | fire target event =>
    (invokeAll bound target event (s.handlers target event) s).map fun t =>
      planFlush t.settings.rounds 0 t
  | _ => none

inductive Request.Calls (s : Session σ) : Request → Function → Session σ → Prop where
  | called {name : String} {f : Function} :
      s.names.lookupFunction name = some f → Calls s (.call name) f s
  | fired {target : EventTarget} {event : String} {before after : List Function} {f : Function}
      {bound : Nat} {t : Session σ} : s.handlers target event = before ++ f :: after →
      invokeAll bound target event before s = some t → Calls s (.fire target event) f t

/-- A job comes to make an execution while calls of functions are in progress, the latest of them
first: the calls whose bodies have come to make it. -/
inductive Job.Under (s : Session σ) : Job → List Function → Execution σ → Prop where
  | node (id : NodeId) (scope : Option NodeId) : Under s (.node id scope) [] ⟨id, scope, s⟩
  | scanned {request : Request} {bound : Nat} {p : Plan σ (Nat × Session σ)} {x : Execution σ} :
      request.scanning bound s = some p → p.Makes x → Under s (.request request) [] x
  | called {request : Request} {f : Function} {t : Session σ} {x : Execution σ} :
      request.Calls s f t → (planInvoke f t).Makes x → Under s (.request request) [f] x
  | nested {job : Job} {fs : List Function} {x y : Execution σ} :
      Under s job fs x → Nests x y → Under s job (x.called?.toList ++ fs) y

inductive Job.Tries (s : Session σ) : Job → List Function → Function → Session σ → Prop where
  | first {request : Request} {f : Function} {t : Session σ} :
      request.Calls s f t → Tries s (.request request) [] f t
  | nested {job : Job} {fs : List Function} {x : Execution σ} {f : Function} :
      job.Under s fs x → x.called? = some f →
      Tries s job fs f (x.session.enter .call x.node x.scope)

section

variable {s t : Session σ}

omit [Host σ]

structure Depth (s : Session σ) (n : Nat) (t : Session σ) : Prop where
  callDepth : t.callDepth = n
  settings : t.settings = s.settings
  le : n ≤ s.settings.calls

theorem Depth.level {n : Nat} {u : Session σ} (h : Depth s n t) (h' : SameDepth t u) :
    Depth s n u :=
  ⟨h'.callDepth.trans h.callDepth, h'.settings.trans h.settings, h.le⟩

theorem Depth.deeper {n : Nat} {u : Session σ} (h : Depth s n t) (h' : Deeper t u) :
    Depth s (n + 1) u := by
  refine ⟨by rw [h'.callDepth, h.callDepth], h'.settings.trans h.settings, ?_⟩
  have hallowed := h'.allowed
  rwa [h.callDepth, h.settings] at hallowed

def SteadyScan (s : Session σ) (p : Plan σ (Nat × Session σ)) : Prop :=
  p.Along (fun y => SameDepth s y.session) fun r => SameDepth s r.2

theorem SteadyScan.after {p : Plan σ (Nat × Session σ)} (h : SameDepth s t) (hp : SteadyScan t p) :
    SteadyScan s p :=
  hp.mono (fun _ => h.trans) fun _ => h.trans

theorem steady_planScanned (nodes : List NodeId) (count : Nat) (s : Session σ) :
    SteadyScan s (planScanned nodes count s) :=
  (planScanned_along nodes count s).mono (fun _ hy => .of_leads hy.2.2) fun _ => .of_leads

theorem steady_planScanAll (nodes : List NodeId) (count : Nat) (s : Session σ) :
    SteadyScan s (planScanAll nodes count s) := by
  induction nodes generalizing count s with
  | nil => exact .refl s
  | cons id rest ih =>
    exact (steady_planScanned _ 0 s).bind fun r hr => (ih (count + r.1) r.2).after hr

theorem steady_planFlush (rounds count : Nat) (s : Session σ) :
    SteadyScan s (planFlush rounds count s) := by
  induction rounds generalizing count s with
  | zero =>
    unfold planFlush
    split <;> exact ⟨rfl, rfl⟩
  | succ rounds ih =>
    have htaken : SameDepth s { s with document := s.document.takeInserted.2 } := ⟨rfl, rfl⟩
    simp only [planFlush]
    split
    · exact htaken
    · exact SteadyScan.after htaken
        ((steady_planScanAll _ count _).bind fun r hr => (ih r.1 r.2).after hr)

theorem steady_planRun (s : Session σ) : SteadyScan s (planRun s) :=
  (steady_planScanned _ 0 s).bind fun scanned hs =>
    (steady_planFlush _ 0 scanned.2).after hs |>.bind fun _ hr => hr

end

section

variable {job : Job} {request : Request} {s s' t : Session σ} {x : Execution σ} {f : Function}
  {fs : List Function} {bound : Nat}

theorem Request.steady_scanning {p : Plan σ (Nat × Session σ)}
    (h : request.scanning bound s = some p) : SteadyScan s p := by
  cases request with
  | run =>
    cases h
    exact steady_planRun s
  | scan id =>
    cases h
    exact steady_planScanned _ 0 s
  | flush =>
    cases h
    exact steady_planFlush _ 0 s
  | fire target event =>
    obtain ⟨t, ht, rfl⟩ := Option.map_eq_some_iff.mp h
    exact (steady_planFlush _ 0 t).after (.of_leads (leads_invokeAll ht))
  | call | edit | rewrite | exchange | interrupt => cases h

theorem Request.Calls.level (h : request.Calls s f t) : SameDepth s t := by
  cases h with
  | called => exact .refl s
  | fired _ ht => exact .of_leads (leads_invokeAll ht)

namespace Job

theorem Under.settings (h : job.Under s fs x) : x.session.settings = s.settings := by
  induction h with
  | node => rfl
  | scanned hp hx => exact ((Request.steady_scanning hp).makes hx).settings
  | called hf hx => exact (planInvoke_deeper hx).settings.trans hf.level.settings
  | nested _ hy ih =>
    rcases hy.depth with ⟨f, -, hdeeper⟩ | ⟨-, hlevel⟩
    · exact hdeeper.settings.trans ih
    · exact hlevel.settings.trans ih

theorem Under.depth (hs : s.callDepth = 0) (h : job.Under s fs x) :
    Depth s fs.length x.session := by
  have hstart : Depth s 0 s := ⟨hs, rfl, Nat.zero_le _⟩
  induction h with
  | node => exact hstart
  | scanned hp hx => exact hstart.level ((Request.steady_scanning hp).makes hx)
  | called hf hx => exact (hstart.level hf.level).deeper (planInvoke_deeper hx)
  | nested _ hy ih =>
    rcases hy.depth with ⟨f, hf, hdeeper⟩ | ⟨hf, hlevel⟩
    · rw [hf]
      exact ih.deeper hdeeper
    · rw [hf]
      exact ih.level hlevel

theorem Tries.depth (hs : s.callDepth = 0) (h : job.Tries s fs f t) :
    Depth s fs.length t := by
  cases h with
  | first hf => exact Depth.level ⟨hs, rfl, Nat.zero_le _⟩ hf.level
  | nested hx _ => exact (hx.depth hs).level (.of_leads (leads_enter _ _ _ _))

end Job

theorem invokeAll_makes {target : EventTarget} {event : String} {fs : List Function}
    (h : (planInvokeAll target event fs s).Makes x) :
    ∃ before f after bound t, fs = before ++ f :: after ∧
      invokeAll bound target event before s = some t ∧ (planInvoke f t).Makes x := by
  induction fs generalizing s with
  | nil => cases h
  | cons f rest ih =>
    rcases h.of_bind with hx | ⟨bound, o, hr, hx⟩
    · exact ⟨[], f, rest, 0, s, rfl, rfl, hx⟩
    · -- the rest starts where the first of them ends, with a notice if it failed
      have hnext : ∃ s₁, (planInvokeAll target event rest s₁).Makes x ∧
          ∀ bound' before, bound ≤ bound' → invokeAll bound' target event (f :: before) s =
            invokeAll bound' target event before s₁ := by
        have hinvoke : ∀ bound', bound ≤ bound' → invoke (dispatch bound') f s = o := by
          intro bound' hle
          rw [invoke_eq, Plan.outcome, Plan.run_mono (fun _ _ _ _ => dispatch_mono hle) hr]
          rfl
        cases o with
        | done s₁ => exact ⟨s₁, hx, fun bound' _ hle => by rw [invokeAll, hinvoke bound' hle]⟩
        | failed e s₁ => exact ⟨_, hx, fun bound' _ hle => by rw [invokeAll, hinvoke bound' hle]⟩
        | unfinished => cases hx
      obtain ⟨s₁, hx, hcons⟩ := hnext
      obtain ⟨before, g, after, bound', t, rfl, ht, hx⟩ := ih hx
      refine ⟨f :: before, g, after, max bound bound', t, rfl, ?_, hx⟩
      rw [hcons _ _ (Nat.le_max_left _ _)]
      rw [invokeAll_eq] at ht ⊢
      exact Plan.run_mono (fun _ _ _ _ => dispatch_mono (Nat.le_max_right _ _)) ht

theorem Request.under_of_makes (h : (request.plan s).Makes x) :
    ∃ fs, (Job.request request).Under s fs x := by
  have hbind : ∀ {p : Plan σ (Nat × Session σ)},
      (p.bind fun r => Plan.ended r.2).Makes x → p.Makes x := fun hx =>
    hx.of_bind.resolve_right fun ⟨_, _, _, hend⟩ => nomatch hend
  cases request with
  | run | scan | flush => exact ⟨[], .scanned (show scanning 0 s _ = _ from rfl) (hbind h)⟩
  | fire target event =>
    rcases h.of_bind with hx | ⟨bound, t, hr, hx⟩
    · obtain ⟨before, f, after, bound, t, hfs, ht, hx⟩ := invokeAll_makes hx
      exact ⟨[f], .called (.fired hfs ht) hx⟩
    · rw [← invokeAll_eq] at hr
      exact ⟨[], .scanned (Option.map_eq_some_iff.mpr ⟨t, hr, rfl⟩) (hbind hx)⟩
  | call name =>
    simp only [plan] at h
    cases hf : s.names.lookupFunction name with
    | none =>
      rw [hf] at h
      cases h
    | some f =>
      rw [hf] at h
      rcases h.of_bind with hx | ⟨_, _, _, hend⟩
      · exact ⟨[f], .called (.called hf) hx⟩
      · cases hend
  | edit | rewrite | exchange | interrupt => cases h

theorem Job.Executes.under (h : job.Executes s x) : ∃ fs, job.Under s fs x := by
  cases job with
  | request r =>
    induction h with
    | first hx => exact Request.under_of_makes hx
    | nested _ hy ih =>
      obtain ⟨fs, hx⟩ := ih
      exact ⟨_, .nested hx hy⟩
  | node id scope =>
    induction h with
    | refl => exact ⟨[], .node id scope⟩
    | tail _ hy ih =>
      obtain ⟨fs, hx⟩ := ih
      exact ⟨_, .nested hx hy⟩

end

/-- A session as it is used. Jobs are given to it, and in between the owner may change everything
about it but the depth of calls and what was executed. -/
inductive Used : Session σ → Prop where
  | created (document : Document) (host : σ) (settings : Settings) :
      Used (ofDocument document host settings)
  | asked {s s' : Session σ} (job : Job) {bound : Nat} : Used s →
      job.executing = true → job.after bound s = some s' → Used s'
  | changed {s : Session σ} (document : Document) (names : Namespace) (host : σ)
      (settings : Settings) (interrupted : Bool) : Used s →
      Used { s with document, names, host, settings, interrupted }

theorem Job.callDepth_after {job : Job} (hjob : job.executing = true) {bound : Nat}
    {s s' : Session σ} (h : job.after bound s = some s') : s'.callDepth = s.callDepth := by
  cases job with
  | request r => exact Request.callDepth_after hjob h
  | node => exact (leads_dispatch h).callDepth

theorem Used.callDepth {s : Session σ} (h : Used s) : s.callDepth = 0 := by
  induction h with
  | created => rfl
  | asked _ _ hjob hafter ih => exact (Job.callDepth_after hjob hafter).trans ih
  | changed _ _ _ _ _ _ ih => exact ih

theorem Job.Tries.invoke_eq {job : Job} {s t : Session σ} {fs : List Function}
    {f : Function} (hs : s.callDepth = 0) (h : job.Tries s fs f t) (recur : Recur σ) :
    invoke recur f t =
      if fs.length = s.settings.calls then .failed (.callDepth fs.length fs.length) t
      else (dispatchAll recur f.scope f.body { t with callDepth := fs.length + 1 }).mapState
        fun u => { u with callDepth := u.callDepth - 1 } := by
  obtain ⟨hdepth, hsettings, hle⟩ := h.depth hs
  unfold invoke
  rw [hdepth, hsettings]
  by_cases hlimit : fs.length = s.settings.calls
  · rw [if_pos hlimit, if_pos hlimit.ge, ← hlimit]
  · rw [if_neg hlimit, if_neg (by omega)]

/-- The depth of calls is the number of calls in progress. It is zero whenever a job is given, and
after it. Whatever a job executes is executed in calls that the job has come to make, no more than
are allowed; that many are open where the execution starts and where it ends, and what a directive
does by itself opens and closes none. Every call that is tried in between ends at the depth at which
it was tried. At the limit it is refused and nothing is executed or changed; below it, the body is
executed one call deeper. -/
theorem Used.calls_counted {s : Session σ} (h : Used s) :
    s.callDepth = 0 ∧ ∀ job : Job, job.executing = true →
      (∀ bound s', job.after bound s = some s' → s'.callDepth = 0) ∧
      (∀ x, job.Executes s x → ∃ fs, job.Under s fs x) ∧
      (∀ fs x, job.Under s fs x →
        fs.length ≤ s.settings.calls ∧ x.session.callDepth = fs.length ∧
        (∀ t u, Acts x t u → u.callDepth = t.callDepth) ∧
        (∀ f, x.called? = some f → kindOf? x.session.document x.node = some .call ∧ ∀ recur,
          perform recur .call x.node x.scope (x.session.enter .call x.node x.scope) =
            invoke recur f (x.session.enter .call x.node x.scope)) ∧
        ∀ bound t, dispatch bound x.node x.scope x.session = some t → t.callDepth = fs.length) ∧
      ∀ fs f t, job.Tries s fs f t →
        fs.length ≤ s.settings.calls ∧ t.callDepth = fs.length ∧
        (∀ bound u, reached (invoke (dispatch bound) f t) = some u → u.callDepth = fs.length) ∧
        ∀ recur, invoke recur f t =
          if fs.length = s.settings.calls then .failed (.callDepth fs.length fs.length) t
          else (dispatchAll recur f.scope f.body { t with callDepth := fs.length + 1 }).mapState
            fun u => { u with callDepth := u.callDepth - 1 } := by
  have hs := h.callDepth
  refine ⟨hs, fun job hjob => ⟨fun bound s' hafter => ?_, fun x hx => hx.under,
    fun fs x hx => ?_, fun fs f t ht => ?_⟩⟩
  · exact (Job.callDepth_after hjob hafter).trans hs
  · have hdepth := hx.depth hs
    refine ⟨hdepth.le, hdepth.callDepth, fun t u hu => hu.leads.callDepth,
      fun f => Execution.called?_eq_some, fun bound t hd => ?_⟩
    exact (leads_dispatch hd).callDepth.trans hdepth.callDepth
  · have hdepth := ht.depth hs
    refine ⟨hdepth.le, hdepth.callDepth, fun bound u hu => ?_, ht.invoke_eq hs⟩
    exact (leads_reached_invoke hu).callDepth.trans hdepth.callDepth

/-- A function calls itself until the third call is refused. It can be called again after that, and
not any more when the owner allows no calls. -/
theorem Used.calls_counted_recursion :
    let src := "<function name=r><log>in</log><call function=r></call></function>" ++
      "<call function=r></call>"
    ∃ d s f, Document.parse src = .ok d ∧
      Request.run.after 9
        (ofDocument d (Recorder.ofAnswers [] []) { Settings.standard with calls := 2 }) = some s ∧
      s.host.logs = ["in", "in"] ∧
      (s.notices.toList matches [.directiveAborted .call ⟨4⟩ (.callDepth 2 2)]) ∧
      s.callDepth = 0 ∧ s.names.lookupFunction "r" = some f ∧
      (∀ recur, invoke recur f s =
        (dispatchAll recur f.scope f.body { s with callDepth := 1 }).mapState
          fun u => { u with callDepth := u.callDepth - 1 }) ∧
      let t := { s with settings := { Settings.standard with calls := 0 } }
      ∀ recur, invoke recur f t = .failed (.callDepth 0 0) t := by
  intro src
  have heval : (Document.parse src).toOption.bind (fun d =>
      (Request.run.after 9 (ofDocument d (Recorder.ofAnswers [] [])
        { Settings.standard with calls := 2 })).bind fun s =>
          (s.names.lookupFunction "r").map fun f =>
            (s.host.logs, s.notices.toList matches [.directiveAborted .call ⟨4⟩ (.callDepth 2 2)],
              s.settings.calls)) =
      some (["in", "in"], true, 2) := by decide +kernel
  obtain ⟨d, hd, heval⟩ := Option.bind_eq_some_iff.mp heval
  obtain ⟨s, hafter, heval⟩ := Option.bind_eq_some_iff.mp heval
  obtain ⟨f, hf, heval⟩ := Option.map_eq_some_iff.mp heval
  simp only [Prod.mk.injEq] at heval
  obtain ⟨hlogs, hnotices, hcalls⟩ := heval
  have hused : Used s := .asked (.request .run) (.created d _ _) rfl hafter
  obtain ⟨hdepth, hjobs⟩ := Used.calls_counted hused
  obtain ⟨-, -, -, htries⟩ := hjobs (.request (.call "r")) rfl
  have hrefused := (Used.calls_counted (.changed s.document s.names s.host
    { Settings.standard with calls := 0 } s.interrupted hused)).2 (.request (.call "r")) rfl
  refine ⟨d, s, f, Document.parse_of_toOption hd, hafter, hlogs, hnotices, hdepth, hf,
    fun recur => ?_, fun recur => ?_⟩
  · have hcall := (htries [] f s (.first (.called hf))).2.2.2 recur
    rwa [if_neg (by rw [hcalls]; decide)] at hcall
  · exact (hrefused.2.2.2 [] f _ (.first (.called hf))).2.2.2 recur

end ActiveMarkup.Session
