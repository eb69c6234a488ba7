import ActiveMarkup.Host.Recorder
import ActiveMarkup.Proofs.Session.Calls
import Mathlib
set_option autoImplicit false

namespace ActiveMarkup.Session

variable {σ α β : Type}

section

variable {recur : Recur σ} {p : Plan σ (Outcome σ)} {s : Session σ}

theorem asked_bind (recur : Recur σ) (p : Plan σ α) (next : α → Plan σ β) :
    (p.bind next).asked recur =
      p.asked recur ++ (p.run recur).elim [] fun a => (next a).asked recur := by
  induction p with
  | ended a => rfl
  | ask node scope s resume ih =>
    simp only [Plan.bind, Plan.asked, Plan.run]
    cases recur node scope s with
    | none => rfl
    | some s' => exact congrArg (List.cons _) (ih s')

theorem run_of_done (h : p.outcome recur = .done s) : p.run recur = some (.done s) := by
  unfold Plan.outcome at h
  cases hr : p.run recur with
  | none =>
    rw [hr] at h
    cases h
  | some o =>
    rw [hr] at h
    exact congrArg some h

theorem ended_andThen (s : Session σ) (next : Session σ → Plan σ (Outcome σ)) :
    (Plan.ended (.done s)).andThen next = next s := rfl

theorem asked_andThen {next : Session σ → Plan σ (Outcome σ)} (h : p.outcome recur = .done s) :
    (p.andThen next).asked recur = p.asked recur ++ (next s).asked recur := by
  rw [Plan.andThen, asked_bind, run_of_done h]
  rfl

theorem asked_andThen_ended (recur : Recur σ) (p : Plan σ (Outcome σ))
    (next : Session σ → Outcome σ) :
    (p.andThen fun s => .ended (next s)).asked recur = p.asked recur := by
  rw [Plan.andThen, asked_bind]
  cases p.run recur with
  | none => exact List.append_nil _
  | some o => cases o <;> exact List.append_nil _

end

/-- A loop as it is reached. Its texts are not read again while it runs. -/
structure Loop where
  node : NodeId
  scope : Option NodeId
  init : Option String
  condition : String
  increment : Option String

namespace Loop

def read (kind : Directive) (node : NodeId) (scope : Option NodeId) (s : Session σ) : Loop where
  node := node
  scope := scope
  init := match kind with
    | .counted => s.required? node "init"
    | _ => none
  condition := (s.attribute? node "condition").getD ""
  increment := match kind with
    | .counted => s.required? node "increment"
    | _ => none

section

variable (loop : Loop) (recur : Recur σ)

/-- Passes of a loop, with the states in which the body starts: while the condition holds, the body
and then the increment. -/
inductive Passes : List (Session σ) → Session σ → Session σ → Prop where
  | none (s : Session σ) : Passes [] s s
  | pass {starts : List (Session σ)} {s u v w t : Session σ} :
      s.condition loop.condition = (true, u) →
      dispatchBody recur loop.node loop.scope u = .done v →
      runStatements loop.increment v = .done w → Passes starts w t → Passes (u :: starts) s t

/-- The least number of passes after which the condition is false, infinite if there is none. -/
noncomputable def wanted (s : Session σ) : ℕ∞ :=
  sInf {n | ∃ starts t, loop.Passes recur starts s t ∧
    (t.condition loop.condition).1 = false ∧ n = starts.length}

/-- Among the first passes, up to a limit, each body returns without an interruption, and no
increment fails. -/
structure Undisturbed (limit : Nat) (s : Session σ) : Prop where
  body : ∀ starts t u, loop.Passes recur starts s t → starts.length < limit →
    t.condition loop.condition = (true, u) →
    ∃ v, reached (dispatchBody recur loop.node loop.scope u) = some v ∧ v.interrupted = false
  increment : ∀ starts t u v, loop.Passes recur starts s t → starts.length < limit →
    t.condition loop.condition = (true, u) →
    dispatchBody recur loop.node loop.scope u = .done v →
    ∃ w, runStatements loop.increment v = .done w

end

variable {loop : Loop} {recur : Recur σ} {starts starts' : List (Session σ)}
  {s t t' u v w : Session σ} {limit : Nat}

theorem Passes.length_le (h : loop.Passes recur starts s t)
    (hfalse : (t.condition loop.condition).1 = false) (h' : loop.Passes recur starts' s t') :
    starts'.length ≤ starts.length := by
  induction h generalizing starts' with
  | none s =>
    cases h' with
    | none => exact Nat.le_refl _
    | pass hc =>
      rw [hc] at hfalse
      cases hfalse
  | pass hc hv hw _ ih =>
    cases h' with
    | none => exact Nat.zero_le _
    | pass hc' hv' hw' h' =>
      cases hc.symm.trans hc'
      cases hv.symm.trans hv'
      cases hw.symm.trans hw'
      exact Nat.succ_le_succ (ih hfalse h')

theorem Passes.unique (h : loop.Passes recur starts s t) (h' : loop.Passes recur starts' s t')
    (hlength : starts.length = starts'.length) : t = t' := by
  induction h generalizing starts' with
  | none s =>
    cases h' with
    | none => rfl
    | pass => cases hlength
  | pass hc hv hw _ ih =>
    cases h' with
    | none => cases hlength
    | pass hc' hv' hw' h' =>
      cases hc.symm.trans hc'
      cases hv.symm.trans hv'
      cases hw.symm.trans hw'
      exact ih h' (Nat.succ.inj hlength)

theorem wanted_eq (h : loop.Passes recur starts s t)
    (hfalse : (t.condition loop.condition).1 = false) : loop.wanted recur s = starts.length := by
  refine le_antisymm (sInf_le ⟨starts, t, h, hfalse, rfl⟩) (le_sInf ?_)
  rintro _ ⟨starts', t', h', hfalse', rfl⟩
  exact_mod_cast h'.length_le hfalse' h

theorem lt_wanted (h : loop.Passes recur starts s t)
    (htrue : (t.condition loop.condition).1 = true) : starts.length < loop.wanted recur s := by
  refine (ENat.add_one_le_iff (ENat.natCast_ne_top _)).mp (le_sInf ?_)
  rintro _ ⟨starts', t', h', hfalse, rfl⟩
  have hle := h'.length_le hfalse h
  have hne : starts.length ≠ starts'.length := fun heq => by
    rw [h.unique h' heq, hfalse] at htrue
    cases htrue
  exact_mod_cast Nat.lt_of_le_of_ne hle hne

theorem condition_interrupted (h : s.condition loop.condition = (true, u)) :
    u.interrupted = s.interrupted := by
  unfold Session.condition at h
  split at h <;> cases h
  rfl

theorem runStatements_interrupted {src : Option String} (h : runStatements src v = .done w) :
    w.interrupted = v.interrupted := by
  unfold runStatements at h
  split at h
  · cases h
    rfl
  · split at h <;> cases h
    rfl

theorem dispatchAll_of_free {scope : Option NodeId} {nodes : List NodeId}
    (h : reached (dispatchAll recur scope nodes s) = some v) (hv : v.interrupted = false) :
    dispatchAll recur scope nodes s = .done v := by
  -- an interruption is never taken back, so none happened on the way
  induction nodes generalizing s with
  | nil =>
    cases h
    rfl
  | cons node rest ih =>
    unfold dispatchAll at h ⊢
    split at h
    next hi =>
      cases h
      rw [hi] at hv
      cases hv
    next hi =>
      rw [if_neg hi]
      cases hr : recur node scope s with
      | none =>
        rw [hr] at h
        cases h
      | some s' =>
        rw [hr] at h
        exact ih h

theorem Undisturbed.later (h : loop.Undisturbed recur (limit + 1) s)
    (hc : s.condition loop.condition = (true, u))
    (hv : dispatchBody recur loop.node loop.scope u = .done v)
    (hw : runStatements loop.increment v = .done w) : loop.Undisturbed recur limit w where
  body starts t u' hp hlt := h.body (u :: starts) t u' (.pass hc hv hw hp) (Nat.succ_lt_succ hlt)
  increment starts t u' v' hp hlt :=
    h.increment (u :: starts) t u' v' (.pass hc hv hw hp) (Nat.succ_lt_succ hlt)

section

variable {kind : Directive} {condition : String} {pass : Session σ → Plan σ (Outcome σ)}

theorem planWhile_false (h : s.condition condition = (false, u)) (left : Nat) :
    planWhile kind condition pass left s = .ended (.done u) := by
  unfold planWhile
  rw [h]

theorem planWhile_zero (h : s.condition condition = (true, u)) (hu : u.interrupted = false) :
    planWhile kind condition pass 0 s =
      .ended (.failed (.loopBudget kind u.settings.loops) u) := by
  unfold planWhile
  simp only [h, hu, Bool.false_eq_true, if_false]

theorem planWhile_succ (h : s.condition condition = (true, u)) (hu : u.interrupted = false)
    (left : Nat) : planWhile kind condition pass (left + 1) s =
      (pass u).andThen (planWhile kind condition pass left) := by
  rw [planWhile]
  simp only [h, hu, Bool.false_eq_true, if_false]

end

/-- A loop ends when the condition is false, or when it is still true after as many passes as the
limit is. It executes what the bodies of these passes do. -/
theorem Undisturbed.planWhile (kind : Directive) {pass : Session σ → Plan σ (Outcome σ)}
    (hpass : ∀ u, (pass u).outcome recur =
      (dispatchBody recur loop.node loop.scope u).andThen (runStatements loop.increment))
    (hasked : ∀ u, (pass u).asked recur = (planBody loop.node [loop.scope] u).asked recur)
    (hs : s.interrupted = false) (h : loop.Undisturbed recur limit s) :
    ∃ starts t, loop.Passes recur starts s t ∧ starts.length ≤ limit ∧
      (planWhile kind loop.condition pass limit s).asked recur =
        starts.flatMap (fun u => (planBody loop.node [loop.scope] u).asked recur) ∧
      ((∃ u, t.condition loop.condition = (false, u) ∧
          (planWhile kind loop.condition pass limit s).outcome recur = .done u) ∨
        starts.length = limit ∧ ∃ u, t.condition loop.condition = (true, u) ∧
          (planWhile kind loop.condition pass limit s).outcome recur =
            .failed (.loopBudget kind u.settings.loops) u) := by
  induction limit generalizing s with
  | zero =>
    rcases hc : s.condition loop.condition with ⟨_ | _, u⟩
    · rw [planWhile_false hc]
      exact ⟨[], s, .none s, Nat.le_refl _, rfl, .inl ⟨u, hc, rfl⟩⟩
    · rw [planWhile_zero hc ((condition_interrupted hc).trans hs)]
      exact ⟨[], s, .none s, Nat.le_refl _, rfl, .inr ⟨rfl, u, hc, rfl⟩⟩
  | succ limit ih =>
    rcases hc : s.condition loop.condition with ⟨_ | _, u⟩
    · rw [planWhile_false hc]
      exact ⟨[], s, .none s, Nat.zero_le _, rfl, .inl ⟨u, hc, rfl⟩⟩
    · obtain ⟨v, hreached, hfree⟩ := h.body [] s u (.none s) (Nat.succ_pos _) hc
      have hv : dispatchBody recur loop.node loop.scope u = .done v :=
        dispatchAll_of_free hreached hfree
      obtain ⟨w, hw⟩ := h.increment [] s u v (.none s) (Nat.succ_pos _) hc hv
      have hdone : (pass u).outcome recur = .done w := by
        rw [hpass, hv]
        exact hw
      obtain ⟨starts, t, hpasses, hlength, hrest, hend⟩ :=
        ih ((runStatements_interrupted hw).trans hfree) (h.later hc hv hw)
      rw [planWhile_succ hc ((condition_interrupted hc).trans hs), asked_andThen hdone, hasked,
        hrest, Plan.outcome_andThen, hdone]
      simp only [Outcome.andThen]
      refine ⟨u :: starts, t, .pass hc hv hw hpasses, Nat.succ_le_succ hlength, rfl, ?_⟩
      exact hend.imp_right fun ⟨hlimit, hbudget⟩ => ⟨congrArg Nat.succ hlimit, hbudget⟩

theorem Undisturbed.exact (kind : Directive) {pass : Session σ → Plan σ (Outcome σ)}
    (hpass : ∀ u, (pass u).outcome recur =
      (dispatchBody recur loop.node loop.scope u).andThen (runStatements loop.increment))
    (hasked : ∀ u, (pass u).asked recur = (planBody loop.node [loop.scope] u).asked recur)
    (hs : s.interrupted = false) (h : loop.Undisturbed recur limit s) :
    ∃ starts t, loop.Passes recur starts s t ∧ starts.length = min (loop.wanted recur s) limit ∧
      (Session.planWhile kind loop.condition pass limit s).asked recur =
        starts.flatMap (fun u => (planBody loop.node [loop.scope] u).asked recur) ∧
      (loop.wanted recur s ≤ limit →
        (Session.planWhile kind loop.condition pass limit s).outcome recur =
          .done (t.condition loop.condition).2) ∧
      (limit < loop.wanted recur s →
        (Session.planWhile kind loop.condition pass limit s).outcome recur =
          .failed (.loopBudget kind (t.condition loop.condition).2.settings.loops)
            (t.condition loop.condition).2) := by
  obtain ⟨starts, t, hpasses, hlength, hexecuted, hend⟩ := h.planWhile kind hpass hasked hs
  rcases hend with ⟨u, hc, ho⟩ | ⟨hfull, u, hc, ho⟩
  · have hwanted : loop.wanted recur s = starts.length := wanted_eq hpasses (by rw [hc])
    have hle : (starts.length : ℕ∞) ≤ limit := by exact_mod_cast hlength
    refine ⟨starts, t, hpasses, ?_, hexecuted, fun _ => ?_, fun hlt => ?_⟩
    · rw [hwanted, min_eq_left hle]
    · rw [ho, hc]
    · exact (hlt.not_ge (hwanted.trans_le hle)).elim
  · have hlt : (limit : ℕ∞) < loop.wanted recur s := by
      rw [← hfull]
      exact lt_wanted hpasses (by rw [hc])
    refine ⟨starts, t, hpasses, ?_, hexecuted, fun hle => (hlt.not_ge hle).elim, fun _ => ?_⟩
    · rw [min_eq_right hlt.le, hfull]
    · rw [ho, hc]

theorem plan_read {kind : Directive} (hkind : kind = .repeated ∨ kind = .counted) [Host σ]
    (node : NodeId) (scope : Option NodeId) (s : Session σ) :
    ∃ pass : Session σ → Plan σ (Outcome σ),
      (∀ (recur : Recur σ) u, (pass u).outcome recur = (dispatchBody recur node scope u).andThen
        (runStatements (read kind node scope s).increment)) ∧
      (∀ (recur : Recur σ) u, (pass u).asked recur = (planBody node [scope] u).asked recur) ∧
      plan kind node scope s =
        (Plan.ended (runStatements (read kind node scope s).init s)).andThen fun t =>
          planWhile kind (read kind node scope s).condition pass t.settings.loops t := by
  obtain rfl | rfl := hkind
  · refine ⟨planBody node [scope], fun recur u => ?_, fun _ _ => rfl, ?_⟩
    · rw [← dispatchBody_eq]
      exact (Outcome.andThen_done _).symm
    · rw [show runStatements (read .repeated node scope s).init s = .done s from rfl, ended_andThen]
      rfl
  · refine ⟨fun u => (planBody node [scope] u).andThen fun v =>
      .ended (runStatements (s.required? node "increment") v), fun recur u => ?_,
      fun recur u => asked_andThen_ended recur _ _, ?_⟩
    · rw [Plan.outcome_andThen, ← dispatchBody_eq]
      rfl
    · rfl

section

variable [Host σ] {bound : Nat}

theorem sameDepth_of_outcome {p : Plan σ (Outcome σ)} (hp : Steady s p)
    (h : p.outcome (dispatch bound) = .done t) : SameDepth s t :=
  hp.run (fun _ _ _ _ => leads_dispatch) (run_of_done h) t rfl

theorem Passes.sameDepth (h : loop.Passes (dispatch bound) starts s t) : SameDepth s t := by
  induction h with
  | none s => exact .refl s
  | @pass _ s u v w _ hc hv hw _ ih =>
    have htested := SameDepth.condition s loop.condition
    rw [hc] at htested
    rw [dispatchBody_eq] at hv
    have hbody := sameDepth_of_outcome (steady_planBody _ _ u) hv
    exact ((htested.trans hbody).trans (steady_runStatements _ v w hw)).trans ih

end

end Loop

variable [Host σ]

/-- A loop makes the passes that it takes until the condition is false, but no more than the limit,
and it executes what their bodies do. It is done if the limit allows them all. Otherwise it fails
after as many passes as the limit is, the increment of the last one included. If the initial
statements fail, there is no pass. Every loop that a job comes to has the whole limit for itself,
wherever it stands and whatever ran before. -/
theorem Execution.loop_exact {x : Execution σ} (hx : x.session.interrupted = false)
    {kind : Directive} (hkind : kind = .repeated ∨ kind = .counted) (bound : Nat) :
    let recur : Recur σ := dispatch bound
    let entered := x.session.enter kind x.node x.scope
    let loop := Loop.read kind x.node x.scope entered
    let limit := x.session.settings.loops
    (∀ e t, runStatements loop.init entered = .failed e t →
      perform recur kind x.node x.scope entered = .failed e t ∧
      (Session.plan kind x.node x.scope entered).asked recur = []) ∧
    (∀ first, runStatements loop.init entered = .done first →
      loop.Undisturbed recur limit first →
      ∃ starts last, loop.Passes recur starts first last ∧
        starts.length = min (loop.wanted recur first) limit ∧
        (Session.plan kind x.node x.scope entered).asked recur =
          starts.flatMap (fun u => (planBody x.node [x.scope] u).asked recur) ∧
        (loop.wanted recur first ≤ limit →
          perform recur kind x.node x.scope entered = .done (last.condition loop.condition).2) ∧
        (limit < loop.wanted recur first →
          perform recur kind x.node x.scope entered =
            .failed (.loopBudget kind limit) (last.condition loop.condition).2)) ∧
    ∀ (job : Job) s, job.Executes s x → limit = s.settings.loops := by
  intro recur entered loop limit
  obtain ⟨pass, hpass, hasked, hplan⟩ := Loop.plan_read hkind x.node x.scope entered
  rw [perform_eq, hplan]
  refine ⟨fun e t hinit => ?_, fun first hinit hundisturbed => ?_, fun job s hexecutes => ?_⟩
  · rw [show runStatements (Loop.read kind x.node x.scope entered).init entered = _ from hinit]
    exact ⟨rfl, rfl⟩
  · have hfirst : SameDepth entered first := steady_runStatements loop.init entered first hinit
    have hlimit : first.settings.loops = limit := by
      rw [hfirst.settings, (leads_enter x.session x.node x.scope kind).settings]
    have hfree : first.interrupted = false := by
      obtain ⟨notices, executed, henter, -⟩ := enter_spec x.session x.node x.scope kind
      rw [Loop.runStatements_interrupted hinit, show entered = _ from henter]
      exact hx
    obtain ⟨starts, last, hpasses, hlength, hexecuted, hok, hbudget⟩ :=
      hundisturbed.exact kind (hpass recur) (hasked recur) hfree
    have htested := hpasses.sameDepth.trans (.condition last loop.condition)
    rw [htested.settings, hlimit] at hbudget
    rw [show runStatements (Loop.read kind x.node x.scope entered).init entered = _ from hinit,
      ended_andThen, hlimit]
    exact ⟨starts, last, hpasses, hlength, hexecuted, hok, hbudget⟩
  · obtain ⟨fs, hunder⟩ := hexecutes.under
    exact congrArg Settings.loops hunder.settings

/-- The body takes away what the condition looks at. A limit of one pass is enough for this, and
with a limit of none the loop fails before the body. -/
theorem Execution.loop_exact_limit :
    let src := "<while condition=k><variable name=k value=''></variable></while>"
    let start (d : Document) (limit : Nat) : Session Recorder :=
      { ofDocument d (Recorder.ofAnswers [] []) { Settings.standard with loops := limit } with
        names := ⟨[("k", .text "a")], [], 0, 0⟩ }
    ∃ d, Document.parse src = .ok d ∧ ∀ limit ≤ 1, ∃ t,
      Request.run.Executes (start d limit) ⟨⟨1⟩, none, start d limit⟩ ∧
      perform (dispatch 1) .repeated ⟨1⟩ none ((start d limit).enter .repeated ⟨1⟩ none) =
        if limit = 0 then .failed (.loopBudget .repeated 0) t else .done t := by
  intro src start
  have heval : (Document.parse src).toOption.map (fun d => [0, 1].map fun limit =>
      let entered := (start d limit).enter .repeated ⟨1⟩ none
      ((start d limit).frontier .root, entered.attribute? ⟨1⟩ "condition",
        (reached (dispatchBody (dispatch 1) ⟨1⟩ none entered)).map fun v =>
          (v.interrupted, (v.names.lookup "k").any (!·.isTruthy)))) =
      some [([⟨1⟩], some "k", some (false, true)), ([⟨1⟩], some "k", some (false, true))] := by
    decide +kernel
  have hcondition : ∀ (s : Session Recorder) (value : Value),
      s.names.lookup "k" = some value → s.condition "k" = (value.isTruthy, s) := by
    intro s value hk
    have hparse : Expr.parse "k" = .ok (.variable "k") := by cbv
    have hvalue : valueOf s.names.vars "k" = .ok value := by
      rw [valueOf, show Table.find? s.names.vars "k" = some _ from hk]
    have hevaluate : s.names.evaluate "k" = .ok (value, s.names) := by
      refine Parser.bind_eq_ok.mpr ⟨_, hparse, ?_⟩
      rw [Expr.eval, hvalue]
      rfl
    rw [condition, Namespace.holds, hevaluate, if_neg (by decide)]
    rfl
  obtain ⟨d, hd, heval⟩ := Option.map_eq_some_iff.mp heval
  refine ⟨d, Document.parse_of_toOption hd, fun limit hlimit => ?_⟩
  let entered := (start d limit).enter .repeated ⟨1⟩ none
  let loop := Loop.read .repeated ⟨1⟩ none entered
  have hfacts : ((start d limit).frontier .root, entered.attribute? ⟨1⟩ "condition",
        (reached (dispatchBody (dispatch 1) ⟨1⟩ none entered)).map fun v =>
          (v.interrupted, (v.names.lookup "k").any (!·.isTruthy))) =
      ([⟨1⟩], some "k", some (false, true)) := by
    simp only [List.map_cons, List.map_nil, List.cons.injEq, and_true] at heval
    obtain rfl | rfl : limit = 0 ∨ limit = 1 := by omega
    · exact heval.1
    · exact heval.2
  simp only [Prod.mk.injEq, Option.map_eq_some_iff, Option.any_eq_true, Bool.not_eq_true'] at hfacts
  obtain ⟨hfrontier, hattribute, v, hreached, hfree, value, hlookup, hfalsy⟩ := hfacts
  have htexts : loop.condition = "k" := by
    change (entered.attribute? ⟨1⟩ "condition").getD "" = "k"
    rw [hattribute, Option.getD_some]
  have htrue : entered.condition loop.condition = (true, entered) := by
    rw [htexts]
    exact hcondition entered (.text "a") rfl
  have hv : dispatchBody (dispatch 1) loop.node loop.scope entered = .done v :=
    Loop.dispatchAll_of_free hreached hfree
  have hfalse : (v.condition loop.condition).1 = false := by
    rw [htexts, hcondition v value hlookup, hfalsy]
  have hwanted : loop.wanted (dispatch 1) entered = 1 :=
    Loop.wanted_eq (.pass htrue hv rfl (.none v)) hfalse
  have hundisturbed : loop.Undisturbed (dispatch 1) limit entered := by
    refine ⟨fun starts t u hpasses hlt hc => ?_, fun _ _ _ v _ _ _ _ => ⟨v, rfl⟩⟩
    cases hpasses with
    | none =>
      cases hc.symm.trans htrue
      exact ⟨v, hreached, hfree⟩
    | pass =>
      rw [List.length_cons] at hlt
      omega
  have hx : Request.run.Executes (start d limit) ⟨⟨1⟩, none, start d limit⟩ := by
    have hscanned : (planScanned ((start d limit).frontier .root) 0 (start d limit)).Makes
        ⟨⟨1⟩, none, start d limit⟩ := by
      rw [hfrontier]
      exact .here
    exact .first ((hscanned.bind _).bind _)
  obtain ⟨-, hdone, -⟩ :=
    @Execution.loop_exact _ _ ⟨⟨1⟩, none, start d limit⟩ rfl .repeated (.inl rfl) 1
  obtain ⟨starts, last, -, -, -, hok, hbudget⟩ := hdone entered rfl hundisturbed
  rw [show (start d limit).settings.loops = limit from rfl, hwanted] at hok hbudget
  refine ⟨(last.condition loop.condition).2, hx, ?_⟩
  split
  next hzero =>
    subst hzero
    exact hbudget (by decide)
  next hpositive => exact hok (by exact_mod_cast Nat.one_le_iff_ne_zero.mpr hpositive)

end ActiveMarkup.Session
