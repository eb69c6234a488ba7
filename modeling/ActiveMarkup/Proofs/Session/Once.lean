import ActiveMarkup.Host.Recorder
import ActiveMarkup.Proofs.Document.Order
import ActiveMarkup.Proofs.Session.Requests
import Mathlib.Data.List.Nodup
set_option autoImplicit false

namespace ActiveMarkup.Session

variable {σ : Type}

theorem frontierWithin_nodup {d : Document} (ht : d.IsTree) (executed : List NodeId) (depth : Nat)
    (a : NodeId) : (frontierWithin d executed depth a).Nodup :=
  (ht.subtreeWithin_nodup depth a).sublist (frontierWithin_sublist d executed depth a)

variable [Host σ] {bound : Nat}

/-- From one session to a later one, or to none, the scans made executions: of no node twice, of
none that was executed before, and all of them are executed afterwards. -/
structure Fresh (bound : Nat) (s : Session σ) (scans : List (Scan σ)) (later : Option (Session σ)) :
    Prop where
  once : ((scans.flatMap (Scan.executions bound)).map Execution.node).Nodup
  unseen : ∀ x ∈ scans.flatMap (Scan.executions bound), x.node ∉ s.executed
  seen : ∀ s', later = some s' → s.executed ⊆ s'.executed ∧
    ∀ x ∈ scans.flatMap (Scan.executions bound), x.node ∈ s'.executed

namespace Fresh

variable {s s' : Session σ} {scans more : List (Scan σ)} {later : Option (Session σ)}

theorem of_subset (h : ∀ s', later = some s' → s.executed ⊆ s'.executed) :
    Fresh bound s [] later where
  once := List.nodup_nil
  unseen := nofun
  seen s' hs := ⟨h s' hs, nofun⟩

theorem same (h : s'.executed = s.executed) : Fresh bound s [] (some s') :=
  .of_subset fun t ht => by
    cases ht
    rw [h]
    exact fun _ hx => hx

theorem append (h : Fresh bound s scans (some s')) (h' : Fresh bound s' more later) :
    Fresh bound s (scans ++ more) later where
  once := by
    rw [List.flatMap_append, List.map_append]
    refine h.once.append h'.once fun node hfirst hsecond => ?_
    obtain ⟨x, hx, rfl⟩ := List.mem_map.mp hfirst
    obtain ⟨y, hy, heq⟩ := List.mem_map.mp hsecond
    refine h'.unseen y hy ?_
    rw [heq]
    exact (h.seen s' rfl).2 x hx
  unseen x hx hex := by
    rw [List.flatMap_append, List.mem_append] at hx
    rcases hx with hx | hx
    · exact h.unseen x hx hex
    · exact h'.unseen x hx ((h.seen s' rfl).1 hex)
  seen s'' hs := by
    obtain ⟨hsub, hfirst⟩ := h.seen s' rfl
    obtain ⟨hsub', hsecond⟩ := h'.seen s'' hs
    refine ⟨fun node hnode => hsub' (hsub hnode), fun x hx => ?_⟩
    rw [List.flatMap_append, List.mem_append] at hx
    rcases hx with hx | hx
    · exact hsub' (hfirst x hx)
    · exact hsecond x hx

theorem after (h : Fresh bound s' scans later) (hsub : s.executed ⊆ s'.executed) :
    Fresh bound s scans later :=
  append (of_subset fun _ ht => Option.some.inj ht ▸ hsub) h

theorem bind {α : Type} {o : Option α} {state : α → Session σ} {next : α → List (Scan σ)}
    {rest : α → Option (Session σ)} (h : Fresh bound s scans (o.map state))
    (hnext : ∀ a, o = some a → Fresh bound (state a) (next a) (rest a)) :
    Fresh bound s (scans ++ o.elim [] next) (o.bind rest) := by
  cases o with
  | none =>
    rw [Option.elim_none, List.append_nil]
    exact h
  | some a => exact h.append (hnext a rfl)

end Fresh

theorem asked_planScanned (bound : Nat) (nodes : List NodeId) (count : Nat) (s : Session σ) :
    ((planScanned nodes count s).asked (dispatch bound)).map Execution.node <+: nodes := by
  induction nodes generalizing count s with
  | nil => exact List.prefix_rfl
  | cons node rest ih =>
    unfold planScanned
    split
    · exact List.nil_prefix
    · simp only [Plan.asked, List.map_cons, List.prefix_cons_inj]
      cases dispatch bound node none s with
      | none => exact List.nil_prefix
      | some s' => exact ih (count + 1) s'

theorem seen_planScanned {nodes : List NodeId} {count : Nat} {s : Session σ} {r : Nat × Session σ}
    (hnodes : ∀ x ∈ nodes, (kindOf? s.document x).isSome)
    (hr : (planScanned nodes count s).run (dispatch bound) = some r) :
    s.executed ⊆ r.2.executed ∧
      ∀ x ∈ (planScanned nodes count s).asked (dispatch bound), x.node ∈ r.2.executed := by
  induction nodes generalizing count s with
  | nil =>
    cases hr
    exact ⟨fun _ hx => hx, List.forall_mem_nil _⟩
  | cons node rest ih =>
    unfold planScanned at hr ⊢
    split at hr
    next hi =>
      cases hr
      rw [if_pos hi]
      exact ⟨fun _ hx => hx, List.forall_mem_nil _⟩
    next hi =>
      rw [if_neg hi]
      obtain ⟨s', hd, hr⟩ := Plan.run_ask_eq_some.mp hr
      have hlead := leads_dispatch hd
      have hnode := mem_executed_dispatch hd (hnodes node List.mem_cons_self)
      obtain ⟨hsub, hrest⟩ := ih (fun x hx =>
        isDirective_edited hlead.document (hnodes x (List.mem_cons_of_mem _ hx))) hr
      refine ⟨fun x hx => hsub (hlead.executed hx), fun x hx => ?_⟩
      simp only [Plan.asked, hd] at hx
      rcases List.mem_cons.mp hx with rfl | hx
      · exact hsub hnode
      · exact hrest x hx

theorem fresh_scan (id : NodeId) {s : Session σ} (ht : s.document.IsTree) :
    Fresh bound s [⟨id, s⟩] ((scan bound id s).map Prod.snd) where
  once := by
    rw [List.flatMap_singleton]
    exact (frontierWithin_nodup ht _ _ id).sublist (asked_planScanned bound _ 0 s).sublist
  unseen x hx := by
    rw [List.flatMap_singleton] at hx
    have hmem := (Scan.mem_executions bound hx).1
    exact (pending_of_mem_frontierWithin hmem).2
  seen s' hs := by
    rw [scan, dispatchCounted_eq] at hs
    obtain ⟨r, hr, rfl⟩ := Option.map_eq_some_iff.mp hs
    rw [List.flatMap_singleton]
    exact seen_planScanned (fun x hx => (pending_of_mem_frontierWithin hx).1) hr

/-- The nodes of a batch may stand in each other, since every scan is fresh for itself. -/
theorem fresh_scanAll (nodes : List NodeId) (count : Nat) {s : Session σ} (ht : s.document.IsTree) :
    Fresh bound s (scansAll bound nodes s) ((scanAll bound nodes count s).map Prod.snd) := by
  induction nodes generalizing count s with
  | nil => exact .same rfl
  | cons id rest ih =>
    rw [scanAll, Option.bind_eq_bind, Option.map_bind]
    exact (fresh_scan id ht).bind fun r hr => ih _ ((leads_scan hr).document.isTree ht)

theorem fresh_flush (rounds count : Nat) {s : Session σ} (ht : s.document.IsTree) :
    Fresh bound s (scansRounds bound rounds s)
      ((flushRounds bound rounds count s).map Prod.snd) := by
  induction rounds generalizing count s with
  | zero =>
    refine .same ?_
    simp only
    split <;> rfl
  | succ rounds ih =>
    have ht' : s.document.takeInserted.2.IsTree := ht.of_nodes rfl
    simp only [scansRounds, flushRounds]
    split
    · exact .same rfl
    · -- taking the journal executes nothing
      suffices h : Fresh bound { s with document := s.document.takeInserted.2 } _ _ from
        h.after fun _ hx => hx
      rw [← Nat.add_zero count, scanAll_add, Option.bind_eq_bind, Option.map_bind, Option.bind_map]
      refine (fresh_scanAll _ 0 ht').bind fun r hr => ?_
      exact ih _ ((leads_scanAll hr).document.isTree ht')

theorem Request.fresh (request : Request) {s : Session σ} (ht : s.document.IsTree) :
    Fresh bound s (request.scans bound s) (request.after bound s) := by
  cases request with
  | run =>
    rw [after_run]
    refine (fresh_scan .root ht).bind fun scanned hs => ?_
    exact fresh_flush _ 0 ((leads_scan hs).document.isTree ht)
  | scan id => exact fresh_scan id ht
  | flush => exact fresh_flush _ 0 ht
  | fire target event =>
    rw [after_fire]
    have hcalls : Fresh bound s []
        ((invokeAll bound target event (s.handlers target event) s).map id) :=
      .of_subset fun t h => (leads_invokeAll (by rwa [Option.map_id] at h)).executed
    refine hcalls.bind fun s₁ h => ?_
    exact fresh_flush _ 0 ((leads_invokeAll h).document.isTree ht)
  | call name => exact .of_subset fun t h => (leads_after_call h).executed
  | edit | rewrite | exchange | interrupt => exact .same rfl

theorem fresh_scansOf (requests : List Request) {s : Session σ} (ht : s.document.IsTree) :
    Fresh bound s (scansOf bound requests s) none := by
  induction requests generalizing s with
  | nil => exact .of_subset nofun
  | cons request rest ih =>
    have hfirst : Fresh bound s (request.scans bound s) ((request.after bound s).map id) := by
      rw [Option.map_id]
      exact request.fresh ht
    have hall : Fresh bound s (scansOf bound (request :: rest) s)
        ((request.after bound s).bind fun _ => none) :=
      hfirst.bind fun s' hs => ih (request.isTree_after ht hs)
    rwa [Option.bind_fun_none] at hall

/-- However a session is used, its scans execute no directive twice, and none that was executed
before. -/
theorem scans_once {s : Session σ} (h : s.document.Reachable) (bound : Nat)
    (requests : List Request) :
    let made := (scansOf bound requests s).flatMap (Scan.executions bound)
    (made.map Execution.node).Nodup ∧ ∀ x ∈ made, x.node ∉ s.executed := by
  have hfresh : Fresh bound s (scansOf bound requests s) none := fresh_scansOf requests h.isTree
  exact ⟨hfresh.once, hfresh.unseen⟩

/-- A message is shown, moved by a directive and then by the owner of the session, and entered in
the journal again each time; a later message is left to the run after an interruption. -/
theorem scans_once_moved :
    let src := "<p id=a><log>hi</log></p><p id=b></p><append target=b source=a></append>"
    let requests : List Request :=
      [.run, .edit (.appendChild .root ⟨1⟩), .edit (.appendMarkup ⟨4⟩ "<log>late</log>"),
        .interrupt true, .run, .interrupt false, .edit (.appendChild ⟨4⟩ ⟨1⟩), .run, .scan ⟨2⟩]
    ∃ d, Document.parse src = .ok d ∧
      let made := (scansOf 3 requests (ofDocument d (Recorder.ofAnswers [] []) .standard)).flatMap
        (Scan.executions 3)
      made.map Execution.node = [⟨2⟩, ⟨5⟩, ⟨7⟩] ∧ (made.map Execution.node).Nodup := by
  intro src requests
  have heval : ((Document.parse src).toOption.map fun d =>
      ((scansOf 3 requests (ofDocument d (Recorder.ofAnswers [] []) .standard)).flatMap
        (Scan.executions 3)).map Execution.node) = some [⟨2⟩, ⟨5⟩, ⟨7⟩] := by decide +kernel
  obtain ⟨d, hd, hnodes⟩ := Option.map_eq_some_iff.mp heval
  have hparse := Document.parse_of_toOption hd
  exact ⟨d, hparse, hnodes, (scans_once (.parse hparse) 3 requests).1⟩

end ActiveMarkup.Session
