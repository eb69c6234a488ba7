import ActiveMarkup.Session.Scan
set_option autoImplicit false

/-!
What a directive does, with the executions of other directives left open. A plan comes to an end,
or it asks for a node to be executed and goes on from the state that this leaves. Plans are finite
along every answer, however the tree changes in between: loops, calls and rounds of insertions
stay within their limits in the plan itself, and only the asked executions are not part of it.

Every step of a session is the plan of that step under the given execution of nodes.
-/

namespace ActiveMarkup.Session

variable {σ α β : Type}

/-- A step with the executions of nodes that it asks for. -/
inductive Plan (σ α : Type) where
  | ended (a : α)
  | ask (node : NodeId) (scope : Option NodeId) (s : Session σ) (resume : Session σ → Plan σ α)

namespace Plan

def run (recur : Recur σ) : Plan σ α → Option α
  | ended a => some a
  | ask node scope s resume =>
    match recur node scope s with
    | some s => (resume s).run recur
    | none => none

def bind (p : Plan σ α) (next : α → Plan σ β) : Plan σ β :=
  match p with
  | ended a => next a
  | ask node scope s resume => ask node scope s fun s => (resume s).bind next

def andThen (p : Plan σ (Outcome σ)) (next : Session σ → Plan σ (Outcome σ)) :
    Plan σ (Outcome σ) :=
  p.bind fun o =>
    match o with
    | .done s => next s
    | o => ended o

def outcome (recur : Recur σ) (p : Plan σ (Outcome σ)) : Outcome σ :=
  (p.run recur).getD .unfinished

theorem run_ask_eq_some {recur : Recur σ} {node : NodeId} {scope : Option NodeId} {s : Session σ}
    {resume : Session σ → Plan σ α} {a : α} :
    (ask node scope s resume).run recur = some a ↔
      ∃ s', recur node scope s = some s' ∧ (resume s').run recur = some a := by
  rw [run]
  cases recur node scope s <;> simp

theorem run_bind (recur : Recur σ) (p : Plan σ α) (next : α → Plan σ β) :
    (p.bind next).run recur = (p.run recur).bind fun a => (next a).run recur := by
  induction p with
  | ended a => rfl
  | ask node scope s resume ih =>
    simp only [bind, run]
    cases recur node scope s with
    | none => rfl
    | some s => exact ih s

theorem outcome_andThen (recur : Recur σ) (p : Plan σ (Outcome σ))
    (next : Session σ → Plan σ (Outcome σ)) :
    (p.andThen next).outcome recur =
      (p.outcome recur).andThen fun s => (next s).outcome recur := by
  simp only [outcome, andThen, run_bind]
  cases p.run recur with
  | none => rfl
  | some o => cases o <;> rfl

end Plan

def planAll (scope : Option NodeId) : List NodeId → Session σ → Plan σ (Outcome σ)
  | [], s => .ended (.done s)
  | node :: rest, s =>
    if s.interrupted then .ended (.failed .interrupted s)
    else .ask node scope s (planAll scope rest)

def planBody (node : NodeId) : List (Option NodeId) → Session σ → Plan σ (Outcome σ)
  | [], s => .ended (.done s)
  | scope :: rest, s =>
    (planAll scope (s.document.elementChildren node) s).andThen (planBody node rest)

def planInvoke (f : Function) (s : Session σ) : Plan σ (Outcome σ) :=
  if s.callDepth ≥ s.settings.calls then
    .ended (.failed (.callDepth s.callDepth s.settings.calls) s)
  else
    (planAll f.scope f.body { s with callDepth := s.callDepth + 1 }).bind fun o =>
      .ended (o.mapState fun s => { s with callDepth := s.callDepth - 1 })

def planCall (node : NodeId) (s : Session σ) : Plan σ (Outcome σ) :=
  match s.required? node "function" with
  | none => .ended (.done s)
  | some name =>
    match s.names.lookupFunction name with
    | none => .ended (.done s)
    | some f =>
      let readable :=
        match s.required? node "args" with
        | none => true
        | some args => (Json.parse? ("[" ++ args ++ "]")).isSome
      if readable then planInvoke f s else .ended (.failed (.invalidArguments name) s)

def planWhile (kind : Directive) (condition : String) (pass : Session σ → Plan σ (Outcome σ))
    (left : Nat) (s : Session σ) : Plan σ (Outcome σ) :=
  match s.condition condition with
  | (false, s) => .ended (.done s)
  | (true, s) =>
    if s.interrupted then .ended (.failed .interrupted s)
    else
      match left with
      | 0 => .ended (.failed (.loopBudget kind s.settings.loops) s)
      | left + 1 => (pass s).andThen (planWhile kind condition pass left)

def planCounted (node : NodeId) (scope : Option NodeId) (s : Session σ) : Plan σ (Outcome σ) :=
  let condition := (s.attribute? node "condition").getD ""
  let increment := s.required? node "increment"
  (Plan.ended (runStatements (s.required? node "init") s)).andThen fun s =>
    planWhile .counted condition
      (fun s => (planBody node [scope] s).andThen fun s => .ended (runStatements increment s))
      s.settings.loops s

def planSelected (node : NodeId) (select : String → Except DocumentError (List NodeId))
    (s : Session σ) : Plan σ (Outcome σ) :=
  match s.required? node "selector" with
  | none => .ended (.done s)
  | some selector =>
    match select selector with
    | .ok found => planBody node (found.map some) s
    | .error e => .ended (.failed (.document e) s)

def planCreate (node : NodeId) (s : Session σ) : Plan σ (Outcome σ) :=
  match s.required? node "tag" with
  | none => .ended (.done s)
  | some tag =>
    match s.document.createElement tag with
    | .error e => .ended (.failed (.document e) s)
    | .ok (created, document) =>
      let s := { s with document }
      planBody node [some created] (s.declareNamed node (.node created))

variable [Host σ]

def plan (kind : Directive) (node : NodeId) (scope : Option NodeId) (s : Session σ) :
    Plan σ (Outcome σ) :=
  match kind with
  | .call => planCall node s
  | .branch =>
    let (holds, s) := s.condition ((s.attribute? node "condition").getD "")
    planBody node (if holds then [scope] else []) s
  | .counted => planCounted node scope s
  | .repeated =>
    planWhile .repeated ((s.attribute? node "condition").getD "") (planBody node [scope])
      s.settings.loops s
  | .findById =>
    planBody node ((s.document.byId? ((s.attribute? node "target").getD "")).toList.map some) s
  | .findFirst => planSelected node (fun selector => (s.document.query selector).map (·.toList)) s
  | .findAll => planSelected node s.document.queryAll s
  | .create => planCreate node s
  | kind => .ended (perform (fun _ _ _ => none) kind node scope s)

section

variable (recur : Recur σ)

omit [Host σ]

theorem dispatchAll_eq (scope : Option NodeId) (nodes : List NodeId) (s : Session σ) :
    dispatchAll recur scope nodes s = (planAll scope nodes s).outcome recur := by
  induction nodes generalizing s with
  | nil => rfl
  | cons node rest ih =>
    simp only [dispatchAll, planAll]
    split
    · rfl
    · simp only [Plan.outcome, Plan.run]
      cases recur node scope s with
      | none => rfl
      | some s => exact ih s

theorem Outcome.andThen_done (o : Outcome σ) : o.andThen .done = o := by
  cases o <;> rfl

theorem planBody_cons (node : NodeId) (scope : Option NodeId) (rest : List (Option NodeId))
    (s : Session σ) :
    (planBody node (scope :: rest) s).outcome recur =
      (dispatchBody recur node scope s).andThen fun s => (planBody node rest s).outcome recur := by
  rw [planBody, Plan.outcome_andThen, ← dispatchAll_eq]
  rfl

theorem dispatchBody_eq (node : NodeId) (scope : Option NodeId) (s : Session σ) :
    dispatchBody recur node scope s = (planBody node [scope] s).outcome recur := by
  rw [planBody_cons]
  exact (Outcome.andThen_done _).symm

theorem dispatchEach_eq (node : NodeId) (found : List NodeId) (s : Session σ) :
    dispatchEach recur node found s = (planBody node (found.map some) s).outcome recur := by
  induction found generalizing s with
  | nil => rfl
  | cons id rest ih =>
    rw [dispatchEach, List.map_cons, planBody_cons]
    congr 1
    funext s
    exact ih s

theorem invoke_eq (f : Function) (s : Session σ) :
    invoke recur f s = (planInvoke f s).outcome recur := by
  unfold invoke planInvoke
  split
  · rfl
  · rw [dispatchAll_eq, Plan.outcome, Plan.outcome, Plan.run_bind]
    cases (planAll f.scope f.body { s with callDepth := s.callDepth + 1 }).run recur <;> rfl

theorem call_eq (node : NodeId) (s : Session σ) :
    call recur node s = (planCall node s).outcome recur := by
  unfold call planCall
  cases s.required? node "function" with
  | none => rfl
  | some name =>
    simp only
    cases s.names.lookupFunction name with
    | none => rfl
    | some f =>
      cases s.required? node "args" with
      | none => exact invoke_eq recur f s
      | some args =>
        simp only
        split
        · exact invoke_eq recur f s
        · rfl

theorem repeatWhile_eq (kind : Directive) (condition : String)
    {pass : Session σ → Outcome σ} {passPlan : Session σ → Plan σ (Outcome σ)}
    (hpass : ∀ s, pass s = (passPlan s).outcome recur) (left : Nat) (s : Session σ) :
    repeatWhile kind condition pass left s =
      (planWhile kind condition passPlan left s).outcome recur := by
  induction left generalizing s with
  | zero =>
    unfold repeatWhile planWhile
    rcases s.condition condition with ⟨_ | _, s⟩
    · rfl
    · simp only
      split <;> rfl
  | succ left ih =>
    unfold repeatWhile planWhile
    rcases s.condition condition with ⟨_ | _, s⟩
    · rfl
    · simp only
      split
      · rfl
      · rw [Plan.outcome_andThen, hpass]
        congr 1
        funext s
        exact ih s

theorem counted_eq (node : NodeId) (scope : Option NodeId) (s : Session σ) :
    counted recur node scope s = (planCounted node scope s).outcome recur := by
  simp only [counted, planCounted, Plan.outcome_andThen]
  congr 1
  funext s
  refine repeatWhile_eq recur _ _ (fun s => ?_) _ s
  rw [Plan.outcome_andThen, dispatchBody_eq]
  rfl

theorem findFirst_eq (node : NodeId) (s : Session σ) :
    findFirst recur node s = (planSelected node
      (fun selector => (s.document.query selector).map (·.toList)) s).outcome recur := by
  unfold findFirst planSelected
  cases s.required? node "selector" with
  | none => rfl
  | some selector =>
    simp only
    cases hq : s.document.query selector with
    | error e => rfl
    | ok found =>
      cases found with
      | none => rfl
      | some id => exact dispatchBody_eq recur node (some id) s

theorem findAll_eq (node : NodeId) (s : Session σ) :
    findAll recur node s = (planSelected node s.document.queryAll s).outcome recur := by
  unfold findAll planSelected
  cases s.required? node "selector" with
  | none => rfl
  | some selector =>
    simp only
    cases hq : s.document.queryAll selector with
    | error e => rfl
    | ok found => exact dispatchEach_eq recur node found s

theorem create_eq (node : NodeId) (s : Session σ) :
    create recur node s = (planCreate node s).outcome recur := by
  unfold create planCreate
  cases s.required? node "tag" with
  | none => rfl
  | some tag =>
    simp only
    cases s.document.createElement tag with
    | error e => rfl
    | ok made => exact dispatchBody_eq recur node (some made.1) _

end

theorem perform_eq (recur : Recur σ) (kind : Directive) (node : NodeId) (scope : Option NodeId)
    (s : Session σ) : perform recur kind node scope s = (plan kind node scope s).outcome recur := by
  cases kind with
  | call => exact call_eq recur node s
  | branch =>
    simp only [perform, plan, branch]
    rcases s.condition ((s.attribute? node "condition").getD "") with ⟨_ | _, s⟩
    · rfl
    · exact dispatchBody_eq recur node scope s
  | counted => exact counted_eq recur node scope s
  | repeated => exact repeatWhile_eq recur _ _ (dispatchBody_eq recur node scope) _ s
  | findById =>
    simp only [perform, plan, findById]
    cases s.document.byId? ((s.attribute? node "target").getD "") with
    | none => rfl
    | some id => exact dispatchBody_eq recur node (some id) s
  | findFirst => exact findFirst_eq recur node s
  | findAll => exact findAll_eq recur node s
  | create => exact create_eq recur node s
  | _ => rfl

omit [Host σ]

def planScanned : List NodeId → Nat → Session σ → Plan σ (Nat × Session σ)
  | [], count, s => .ended (count, s)
  | node :: rest, count, s =>
    if s.interrupted then .ended (count, s.note .scanInterrupted)
    else .ask node none s (planScanned rest (count + 1))

def planScanAll : List NodeId → Nat → Session σ → Plan σ (Nat × Session σ)
  | [], count, s => .ended (count, s)
  | id :: rest, count, s =>
    (planScanned (s.frontier id) 0 s).bind fun r => planScanAll rest (count + r.1) r.2

def planFlush : Nat → Nat → Session σ → Plan σ (Nat × Session σ)
  | 0, count, s =>
    .ended (count,
      if s.document.hasInsertions then s.note (.insertionsPending s.settings.rounds) else s)
  | rounds + 1, count, s =>
    let (batch, document) := s.document.takeInserted
    let s := { s with document }
    if batch.isEmpty then .ended (count, s)
    else (planScanAll (batchRoots document batch) count s).bind fun r => planFlush rounds r.1 r.2

def planRun (s : Session σ) : Plan σ (Nat × Session σ) :=
  (planScanned (s.frontier .root) 0 s).bind fun scanned =>
    (planFlush scanned.2.settings.rounds 0 scanned.2).bind fun flushed =>
      .ended (scanned.1 + flushed.1, flushed.2)

variable [Host σ] (bound : Nat)

theorem dispatchCounted_eq (nodes : List NodeId) (count : Nat) (s : Session σ) :
    dispatchCounted bound nodes count s = (planScanned nodes count s).run (dispatch bound) := by
  induction nodes generalizing count s with
  | nil => rfl
  | cons node rest ih =>
    simp only [dispatchCounted, planScanned]
    split
    · rfl
    · simp only [Plan.run]
      cases dispatch bound node none s with
      | none => rfl
      | some s => exact ih (count + 1) s

theorem scanAll_eq (nodes : List NodeId) (count : Nat) (s : Session σ) :
    scanAll bound nodes count s = (planScanAll nodes count s).run (dispatch bound) := by
  induction nodes generalizing count s with
  | nil => rfl
  | cons id rest ih =>
    rw [scanAll, scan, dispatchCounted_eq, planScanAll, Plan.run_bind]
    congr 1
    funext r
    exact ih (count + r.1) r.2

theorem flushRounds_eq (rounds count : Nat) (s : Session σ) :
    flushRounds bound rounds count s = (planFlush rounds count s).run (dispatch bound) := by
  induction rounds generalizing count s with
  | zero => rfl
  | succ rounds ih =>
    simp only [flushRounds, planFlush]
    split
    · rfl
    · rw [scanAll_eq, Plan.run_bind]
      congr 1
      funext r
      exact ih r.1 r.2

theorem run_eq (s : Session σ) : run bound s = (planRun s).run (dispatch bound) := by
  rw [run, scan, dispatchCounted_eq, planRun, Plan.run_bind]
  congr 1
  funext scanned
  rw [Plan.run_bind, ← flushRounds_eq]
  rfl

end ActiveMarkup.Session
