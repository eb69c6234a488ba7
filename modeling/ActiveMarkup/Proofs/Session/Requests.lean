import ActiveMarkup.Proofs.Document.History
import ActiveMarkup.Proofs.Session.Exposure
import ActiveMarkup.Proofs.Session.Nesting
set_option autoImplicit false

namespace ActiveMarkup.Session

variable {σ α : Type}

def Plan.asked (recur : Recur σ) : Plan σ α → List (Execution σ)
  | ended _ => []
  | ask node scope s resume =>
    ⟨node, scope, s⟩ ::
      match recur node scope s with
      | some s => (resume s).asked recur
      | none => []

theorem Plan.Along.asked {Q : Execution σ → Prop} {E : α → Prop} {p : Plan σ α} {recur : Recur σ}
    (h : p.Along Q E) (hrecur : ∀ node scope s s', recur node scope s = some s' → Leads s s') :
    ∀ x ∈ p.asked recur, Q x := by
  induction p with
  | ended a => nofun
  | ask node scope s resume ih =>
    intro x hx
    rw [Plan.asked, List.mem_cons] at hx
    rcases hx with rfl | hx
    · exact h.1
    · cases hr : recur node scope s with
      | none =>
        rw [hr] at hx
        cases hx
      | some s' =>
        rw [hr] at hx
        exact ih s' (h.2 s' (hrecur node scope s s' hr)) x hx

theorem planScanned_follows {R : Session σ → Execution σ → Prop} {nodes : List NodeId} {count : Nat}
    {s : Session σ}
    (hR : ∀ node ∈ nodes, ∀ s', Leads s s' → s'.interrupted = false → R s' ⟨node, none, s'⟩) :
    (planScanned nodes count s).Follows R
      (fun last r => Leads s last ∧ (r.2 = last ∨ r.2 = last.note .scanInterrupted)) s := by
  induction nodes generalizing count s with
  | nil => exact ⟨.refl s, .inl rfl⟩
  | cons node rest ih =>
    unfold planScanned
    split
    · exact ⟨.refl s, .inr rfl⟩
    next hi =>
      refine ⟨hR node List.mem_cons_self s (.refl s) (by simpa using hi), fun s' hs => ?_⟩
      refine (ih fun n hn s'' hs' => ?_).mono fun _ _ hr => ⟨hs.trans hr.1, hr.2⟩
      exact hR n (List.mem_cons_of_mem _ hn) s'' (hs.trans hs')

theorem planScanned_along (nodes : List NodeId) (count : Nat) (s : Session σ) :
    (planScanned nodes count s).Along
      (fun x => x.node ∈ nodes ∧ x.scope = none ∧ Leads s x.session) fun r => Leads s r.2 := by
  refine (planScanned_follows (R := fun _ x => x.node ∈ nodes ∧ x.scope = none ∧ Leads s x.session)
    fun node hn s' hs _ => ⟨hn, rfl, hs⟩).along (fun _ _ hy => hy) fun last r hr => ?_
  obtain ⟨hleads, heq | heq⟩ := hr
  · exact heq ▸ hleads
  · exact heq ▸ hleads.trans (leads_note last _)

structure Scan (σ : Type) where
  node : NodeId
  session : Session σ

inductive Request where
  | run
  | scan (id : NodeId)
  | flush
  | fire (target : EventTarget) (event : String)
  | call (name : String)
  | edit (op : Document.Operation)
  | rewrite (id : NodeId) (e : Element)
  | exchange (d : Document) (reachable : d.Reachable)
  | interrupt (raised : Bool)

def Request.executing : Request → Bool
  | run | scan _ | flush | fire .. | call _ => true
  | _ => false

def rewritten (d : Document) (id : NodeId) (e : Element) : Document :=
  match d.element? id with
  | some _ => d.modify id fun n => { n with kind := .element e }
  | none => d

def reached : Outcome σ → Option (Session σ)
  | .done s => some s
  | .failed _ s => some s
  | .unfinished => none

variable [Host σ] (bound : Nat)

def Request.after (s : Session σ) : Request → Option (Session σ)
  | run => (s.run bound).map Prod.snd
  | scan id => (s.scan bound id).map Prod.snd
  | flush => (s.flush bound).map Prod.snd
  | fire target event => (s.fire bound target event).map Prod.snd
  | call name => (s.callFunction bound name).elim (some s) reached
  | edit op => some { s with document := op.after s.document }
  | rewrite id e => some { s with document := rewritten s.document id e }
  | exchange d _ => some { s with document := d }
  | interrupt raised => some { s with interrupted := raised }

def Scan.executions (q : Scan σ) : List (Execution σ) :=
  (planScanned (q.session.frontier q.node) 0 q.session).asked (dispatch bound)

def scansAll : List NodeId → Session σ → List (Scan σ)
  | [], _ => []
  | id :: rest, s => ⟨id, s⟩ :: (scan bound id s).elim [] fun r => scansAll rest r.2

def scansRounds : Nat → Session σ → List (Scan σ)
  | 0, _ => []
  | rounds + 1, s =>
    let (batch, document) := s.document.takeInserted
    let s := { s with document }
    if batch.isEmpty then []
    else
      scansAll bound (batchRoots document batch) s ++
        (scanAll bound (batchRoots document batch) 0 s).elim [] fun r => scansRounds rounds r.2

def scansFlush (s : Session σ) : List (Scan σ) :=
  scansRounds bound s.settings.rounds s

def Request.scans (s : Session σ) : Request → List (Scan σ)
  | run => ⟨.root, s⟩ :: (s.scan bound .root).elim [] fun r => scansFlush bound r.2
  | scan id => [⟨id, s⟩]
  | flush => scansFlush bound s
  | fire target event =>
    (invokeAll bound target event (s.handlers target event) s).elim [] (scansFlush bound)
  | _ => []

def scansOf : List Request → Session σ → List (Scan σ)
  | [], _ => []
  | request :: rest, s => request.scans bound s ++ (request.after bound s).elim [] (scansOf rest)

theorem Request.after_run (s : Session σ) :
    run.after bound s =
      (s.scan bound .root).bind fun scanned => flush.after bound scanned.2 := by
  simp only [after, Session.run, bind]
  cases s.scan bound .root with
  | none => rfl
  | some scanned =>
    simp only [Option.bind_some]
    cases scanned.2.flush bound <;> rfl

theorem Request.after_fire (target : EventTarget) (event : String) (s : Session σ) :
    (fire target event).after bound s =
      (invokeAll bound target event (s.handlers target event) s).bind fun s =>
        flush.after bound s := by
  simp only [after, Session.fire, bind]
  cases invokeAll bound target event (s.handlers target event) s with
  | none => rfl
  | some s₁ =>
    simp only [Option.bind_some]
    cases s₁.flush bound <;> rfl

theorem Scan.mem_executions {q : Scan σ} {x : Execution σ} (h : x ∈ q.executions bound) :
    x.node ∈ q.session.frontier q.node ∧ x.scope = none ∧ Leads q.session x.session :=
  (planScanned_along _ 0 q.session).asked (fun _ _ _ _ => leads_dispatch) x h

variable {bound} {s : Session σ} {r : Nat × Session σ}

theorem leads_scan {id : NodeId} (h : scan bound id s = some r) : Leads s r.2 := by
  rw [scan, dispatchCounted_eq] at h
  exact (planScanned_along _ 0 s).run (fun _ _ _ _ => leads_dispatch) h

theorem leads_scanAll {nodes : List NodeId} {count : Nat}
    (h : scanAll bound nodes count s = some r) : Leads s r.2 := by
  induction nodes generalizing count s with
  | nil =>
    cases h
    exact .refl s
  | cons id rest ih =>
    obtain ⟨scanned, hs, hr⟩ := Option.bind_eq_some_iff.mp h
    exact (leads_scan hs).trans (ih hr)

theorem scanAll_add (nodes : List NodeId) (count more : Nat) (s : Session σ) :
    scanAll bound nodes (count + more) s =
      (scanAll bound nodes more s).map fun r => (count + r.1, r.2) := by
  induction nodes generalizing more s with
  | nil => rfl
  | cons id rest ih =>
    simp only [scanAll, bind, Option.map_bind]
    congr 1
    funext scanned
    rw [Nat.add_assoc]
    exact ih _ _

/-- What is kept along executions, and when the journal is taken, is kept by rounds. -/
theorem flushRounds_induction {P : Session σ → Prop} (hlead : ∀ s s', Leads s s' → P s → P s')
    (htake : ∀ s, P s → P { s with document := s.document.takeInserted.2 }) {rounds count : Nat}
    (hs : P s) (h : flushRounds bound rounds count s = some r) : P r.2 := by
  induction rounds generalizing count s with
  | zero =>
    cases h
    simp only
    split
    · exact hlead s _ (leads_note s _) hs
    · exact hs
  | succ rounds ih =>
    have hs' := htake s hs
    simp only [flushRounds] at h
    split at h
    · cases h
      exact hs'
    · obtain ⟨scanned, hscan, hr⟩ := Option.bind_eq_some_iff.mp h
      exact ih (hlead _ _ (leads_scanAll hscan) hs') hr

theorem planInvoke_from {f : Function} {s : Session σ} {o : Outcome σ}
    (h : (planInvoke f s).run (dispatch bound) = some o) : o.From s := by
  have halong : (planInvoke f s).Along (fun _ => True) (Outcome.From s) :=
    (planInvoke_follows (R := fun _ _ => True) (fun _ _ _ _ _ _ => trivial) fun _ h => h).along
      (fun _ _ h => h) fun _ _ ho => ho.1
  exact halong.run (fun _ _ _ _ => leads_dispatch) h

theorem leads_reached_invoke {f : Function} {s s' : Session σ}
    (h : reached (invoke (dispatch bound) f s) = some s') : Leads s s' := by
  rw [invoke_eq, Plan.outcome] at h
  cases hr : (planInvoke f s).run (dispatch bound) with
  | none =>
    rw [hr] at h
    cases h
  | some o =>
    have hfrom := planInvoke_from hr
    rw [hr] at h
    cases o with
    | done s₁ =>
      cases h
      exact hfrom
    | failed e s₁ =>
      cases h
      exact hfrom
    | unfinished => cases h

theorem leads_invokeAll {target : EventTarget} {event : String} {fs : List Function}
    {s s' : Session σ} (h : invokeAll bound target event fs s = some s') : Leads s s' := by
  induction fs generalizing s with
  | nil =>
    cases h
    exact .refl _
  | cons f rest ih =>
    unfold invokeAll at h
    split at h
    next s₁ ho => exact (leads_reached_invoke (by rw [ho]; rfl)).trans (ih h)
    next e s₁ ho =>
      exact ((leads_reached_invoke (by rw [ho]; rfl)).trans (leads_note s₁ _)).trans (ih h)
    next => cases h

theorem leads_after_call {name : String} {s s' : Session σ}
    (h : (Request.call name).after bound s = some s') : Leads s s' := by
  rw [Request.after, callFunction] at h
  cases hf : s.names.lookupFunction name with
  | none =>
    rw [hf] at h
    cases h
    exact .refl _
  | some f =>
    rw [hf] at h
    exact leads_reached_invoke h

theorem rewritten_isTree {d : Document} (ht : d.IsTree) (id : NodeId) (e : Element) :
    (rewritten d id e).IsTree := by
  unfold rewritten
  split
  next e' he =>
    rw [Document.element?_eq] at he
    split at he
    next e' hk => exact ht.modify_element hk e
    next => cases he
  next => exact ht

theorem Request.after_induction {P : Session σ → Prop} (hlead : ∀ s s', Leads s s' → P s → P s')
    (htake : ∀ s, P s → P { s with document := s.document.takeInserted.2 }) {request : Request}
    (hrequest : request.executing = true) {s' : Session σ} (hs : P s)
    (h : request.after bound s = some s') : P s' := by
  cases request with
  | run =>
    rw [after_run] at h
    obtain ⟨scanned, hscan, hflush⟩ := Option.bind_eq_some_iff.mp h
    obtain ⟨r, hr, rfl⟩ := Option.map_eq_some_iff.mp hflush
    exact flushRounds_induction hlead htake (hlead _ _ (leads_scan hscan) hs) hr
  | scan id =>
    obtain ⟨r, hr, rfl⟩ := Option.map_eq_some_iff.mp h
    exact hlead _ _ (leads_scan hr) hs
  | flush =>
    obtain ⟨r, hr, rfl⟩ := Option.map_eq_some_iff.mp h
    exact flushRounds_induction hlead htake hs hr
  | fire target event =>
    rw [after_fire] at h
    obtain ⟨s₁, hcalls, hflush⟩ := Option.bind_eq_some_iff.mp h
    obtain ⟨r, hr, rfl⟩ := Option.map_eq_some_iff.mp hflush
    exact flushRounds_induction hlead htake (hlead _ _ (leads_invokeAll hcalls) hs) hr
  | call name => exact hlead _ _ (leads_after_call h) hs
  | edit | rewrite | exchange | interrupt => cases hrequest

theorem Request.isTree_after (request : Request) {s' : Session σ} (ht : s.document.IsTree)
    (h : request.after bound s = some s') : s'.document.IsTree := by
  have hexecuting : request.executing = true → s'.document.IsTree := fun hrequest =>
    after_induction (P := fun s => s.document.IsTree) (fun _ _ hs => hs.document.isTree)
      (fun _ ht => ht.of_nodes rfl) hrequest ht h
  cases request with
  | run | scan | flush | fire | call => exact hexecuting rfl
  | edit op =>
    cases h
    exact op.isTree_after ht
  | rewrite id e =>
    cases h
    exact rewritten_isTree ht id e
  | exchange d reachable =>
    cases h
    exact reachable.isTree
  | interrupt raised =>
    cases h
    exact ht

theorem mem_elim_nil {α β : Type} {o : Option α} {f : α → List β} {b : β}
    (h : b ∈ o.elim [] f) : ∃ a, o = some a ∧ b ∈ f a := by
  cases o with
  | none => cases h
  | some a => exact ⟨a, rfl, h⟩

theorem mem_scansAll {nodes : List NodeId} {q : Scan σ} (hq : q ∈ scansAll bound nodes s) :
    q.node ∈ nodes ∧ Leads s q.session := by
  induction nodes generalizing s with
  | nil => cases hq
  | cons id rest ih =>
    rw [scansAll] at hq
    rcases List.mem_cons.mp hq with rfl | hq
    · exact ⟨List.mem_cons_self, .refl s⟩
    · obtain ⟨r, hr, hq⟩ := mem_elim_nil hq
      obtain ⟨hnode, hleads⟩ := ih hq
      exact ⟨List.mem_cons_of_mem _ hnode, (leads_scan hr).trans hleads⟩

theorem isTree_scansRounds {rounds : Nat} (ht : s.document.IsTree) :
    ∀ q ∈ scansRounds bound rounds s, q.session.document.IsTree := by
  induction rounds generalizing s with
  | zero => nofun
  | succ rounds ih =>
    intro q hq
    have ht' : s.document.takeInserted.2.IsTree := ht.of_nodes rfl
    simp only [scansRounds] at hq
    split at hq
    · cases hq
    · rcases List.mem_append.mp hq with hq | hq
      · exact (mem_scansAll hq).2.document.isTree ht'
      · obtain ⟨r, hr, hq⟩ := mem_elim_nil hq
        exact ih ((leads_scanAll hr).document.isTree ht') q hq

theorem Request.isTree_scans (request : Request) (ht : s.document.IsTree) :
    ∀ q ∈ request.scans bound s, q.session.document.IsTree := by
  intro q hq
  cases request with
  | run =>
    rw [scans] at hq
    rcases List.mem_cons.mp hq with rfl | hq
    · exact ht
    · obtain ⟨r, hr, hq⟩ := mem_elim_nil hq
      exact isTree_scansRounds ((leads_scan hr).document.isTree ht) q hq
  | scan id =>
    cases List.mem_singleton.mp hq
    exact ht
  | flush => exact isTree_scansRounds ht q hq
  | fire target event =>
    obtain ⟨s₁, hcalls, hq⟩ := mem_elim_nil hq
    exact isTree_scansRounds ((leads_invokeAll hcalls).document.isTree ht) q hq
  | call | edit | rewrite | exchange | interrupt => cases hq

theorem isTree_scansOf {requests : List Request} (ht : s.document.IsTree) :
    ∀ q ∈ scansOf bound requests s, q.session.document.IsTree := by
  induction requests generalizing s with
  | nil => nofun
  | cons request rest ih =>
    intro q hq
    rcases List.mem_append.mp hq with hq | hq
    · exact request.isTree_scans ht q hq
    · obtain ⟨s', hs, hq⟩ := mem_elim_nil hq
      exact ih (request.isTree_after ht hs) q hq

theorem dispatchCounted_count {nodes : List NodeId} {count : Nat}
    (h : dispatchCounted bound nodes count s = some r) :
    r.1 = count + ((planScanned nodes count s).asked (dispatch bound)).length := by
  rw [dispatchCounted_eq] at h
  induction nodes generalizing count s with
  | nil =>
    cases h
    rfl
  | cons node rest ih =>
    unfold planScanned at h ⊢
    split at h
    next hi =>
      cases h
      rw [if_pos hi]
      rfl
    next hi =>
      obtain ⟨s', hd, h⟩ := Plan.run_ask_eq_some.mp h
      have hrest := ih h
      rw [if_neg hi, Plan.asked, hd]
      simp only [List.length_cons]
      omega

theorem scanAll_count {nodes : List NodeId} {count : Nat}
    (h : scanAll bound nodes count s = some r) :
    r.1 = count + ((scansAll bound nodes s).flatMap (Scan.executions bound)).length := by
  induction nodes generalizing count s with
  | nil =>
    cases h
    rfl
  | cons id rest ih =>
    obtain ⟨scanned, hs, hr⟩ := Option.bind_eq_some_iff.mp h
    have hfirst := dispatchCounted_count hs
    have hrest := ih hr
    rw [scansAll, hs, Option.elim_some, List.flatMap_cons, List.length_append, Scan.executions]
    simp only at hfirst hrest ⊢
    omega

theorem flushRounds_count {rounds count : Nat} (h : flushRounds bound rounds count s = some r) :
    r.1 = count + ((scansRounds bound rounds s).flatMap (Scan.executions bound)).length := by
  induction rounds generalizing count s with
  | zero =>
    cases h
    rfl
  | succ rounds ih =>
    simp only [flushRounds] at h
    simp only [scansRounds]
    split at h
    next hempty =>
      cases h
      rw [if_pos hempty]
      rfl
    next hempty =>
      obtain ⟨scanned, hs, hr⟩ := Option.bind_eq_some_iff.mp h
      have hround := scanAll_count hs
      have hrest := ih hr
      rw [← Nat.add_zero count, scanAll_add] at hs
      obtain ⟨r₀, hs₀, rfl⟩ := Option.map_eq_some_iff.mp hs
      rw [if_neg hempty, hs₀, Option.elim_some, List.flatMap_append, List.length_append]
      simp only at hround hrest ⊢
      omega

theorem run_count {count : Nat} {s' : Session σ} (h : run bound s = some (count, s')) :
    count = ((Request.run.scans bound s).flatMap (Scan.executions bound)).length := by
  obtain ⟨scanned, hs, hr⟩ := Option.bind_eq_some_iff.mp h
  obtain ⟨flushed, hf, hr⟩ := Option.bind_eq_some_iff.mp hr
  cases hr
  have hfirst := dispatchCounted_count hs
  have hrest := flushRounds_count hf
  rw [Request.scans, hs, Option.elim_some, List.flatMap_cons, List.length_append, Scan.executions,
    scansFlush]
  simp only at hfirst hrest ⊢
  omega

end ActiveMarkup.Session
