import ActiveMarkup.Host.Tripwire
import ActiveMarkup.Proofs.Session.Contracts
set_option autoImplicit false

namespace ActiveMarkup.Session

variable {σ α : Type} [Host σ]

/-- The requests that take a host from one state to another, with whether there is an interruption
before and after. Each is put while there is none. -/
inductive Serves : σ × Bool → List HostEvent → σ × Bool → Prop where
  | none (a : σ × Bool) : Serves a [] a
  | call {host : σ} (event : HostEvent) {events : List HostEvent} {b : σ × Bool} :
      Serves ((event.request host).host, (event.request host).interrupts) events b →
      Serves (host, false) (event :: events) b

theorem Serves.append {a b c : σ × Bool} {events more : List HostEvent} (h : Serves a events b)
    (h' : Serves b more c) : Serves a (events ++ more) c := by
  induction h with
  | none => exact h'
  | call event _ ih => exact .call event (ih h')

def Consulted (s s' : Session σ) : Prop :=
  ∃ events, Serves (s.host, s.interrupted) events (s'.host, s'.interrupted)

namespace Consulted

variable {s s' s'' : Session σ}

theorem same (hhost : s'.host = s.host) (hflag : s'.interrupted = s.interrupted) :
    Consulted s s' :=
  ⟨[], by rw [hhost, hflag]; exact .none _⟩

theorem trans (h : Consulted s s') (h' : Consulted s' s'') : Consulted s s'' := by
  obtain ⟨events, h⟩ := h
  obtain ⟨more, h'⟩ := h'
  exact ⟨events ++ more, h.append h'⟩

end Consulted

section

variable {x : Execution σ} {s s' : Session σ}

theorem Move.consulted (h : Move x s s') (hx : x.session.interrupted = false) : Consulted s s' := by
  cases h with
  | depth => exact .same rfl rfl
  | act ha =>
    cases ha with
    | noted | evaluated | declared | defined | listened | edited => exact .same rfl rfl
    | served event hs =>
      rw [hx] at hs
      refine ⟨[event], ?_⟩
      change Serves _ _ ((event.request s.host).host,
        s.interrupted || (event.request s.host).interrupts)
      rw [hs, Bool.false_or]
      exact .call event (.none _)

theorem contract_consulted :
    Contract (fun x : Execution σ => x.session.interrupted = false)
      fun x s => Consulted x.session s where
  pass _ := .same rfl rfl
  enter := by
    intro x kind _ _
    obtain ⟨notices, executed, henter, -⟩ := enter_spec x.session x.node x.scope kind
    rw [henter]
    exact .same rfl rfl
  move hx hs hm := hs.trans (hm.consulted hx)
  ask _ _ hfree _ := hfree
  back _ hs _ hs' := hs.trans hs'

structure Halted (s s' : Session σ) : Prop where
  interrupted : s'.interrupted = true
  host : s'.host = s.host
  executed : s'.executed = s.executed

omit [Host σ] in
theorem Halted.trans {s'' : Session σ} (h : Halted s s') (h' : Halted s' s'') : Halted s s'' :=
  ⟨h'.interrupted, h'.host.trans h.host, h'.executed.trans h.executed⟩

theorem Move.halted (h : Move x s s') (hx : x.session.interrupted = false)
    (hs : s.interrupted = true) : Halted s s' := by
  cases h with
  | depth => exact ⟨hs, rfl, rfl⟩
  | act ha =>
    cases ha with
    | noted | evaluated | declared | defined | listened | edited => exact ⟨hs, rfl, rfl⟩
    | served event heq =>
      rw [hx, hs] at heq
      cases heq

theorem Moves.halted (h : Moves x s s') (hx : x.session.interrupted = false)
    (hs : s.interrupted = true) : Halted s s' := by
  induction h with
  | refl => exact ⟨hs, rfl, rfl⟩
  | tail _ hm ih => exact ih.trans (hm.halted hx ih.interrupted)

theorem Moves.interrupted (h : Moves x s s') (hs : s.interrupted = true) :
    s'.interrupted = true := by
  induction h with
  | refl => exact hs
  | tail _ hm ih =>
    cases hm with
    | act ha => exact ha.leads.interrupted ih
    | depth => exact ih

omit [Host σ] in
theorem Turns.spec (h : Turns s s') :
    s'.interrupted = s.interrupted ∧ s'.host = s.host ∧ s'.executed = s.executed := by
  induction h with
  | refl => exact ⟨rfl, rfl, rfl⟩
  | tail _ ht ih => cases ht <;> exact ih

end

section

variable {R : Session σ → Execution σ → Prop} {E : Session σ → α → Prop} {p : Plan σ α}
  {last t : Session σ} {x : Execution σ} {bound : Nat}

omit [Host σ] in
theorem Plan.Follows.ended (h : p.Follows R E last)
    (hR : ∀ last y, R last y → last.interrupted = false) (hlast : last.interrupted = true) :
    ∃ a, p = .ended a ∧ E last a := by
  cases p with
  | ended a => exact ⟨a, rfl, h⟩
  | ask node scope s resume =>
    have hfalse := hR last _ h.1
    rw [hlast] at hfalse
    cases hfalse

theorem Plan.Follows.unwinds (h : p.Follows R E last)
    (hR : ∀ last y, R last y → last.interrupted = false) (hx : p.Makes x)
    (hd : dispatch bound x.node x.scope x.session = some t) (ht : t.interrupted = true) :
    ∃ bound' a, p.run (dispatch bound') = some a ∧ E t a := by
  induction hx generalizing last with
  | @here node scope s resume =>
    obtain ⟨a, ha, hE⟩ := (h.2 t (leads_dispatch hd)).ended hR ht
    refine ⟨bound, a, ?_, hE⟩
    rw [Plan.run, hd]
    simp only
    rw [ha]
    rfl
  | @later node scope s s' resume bound₁ x hd₁ _ ih =>
    obtain ⟨bound₂, a, hr, hE⟩ := ih (h.2 s' (leads_dispatch hd₁)) hd
    refine ⟨max bound₁ bound₂, a, ?_, hE⟩
    rw [Plan.run, dispatch_mono (Nat.le_max_left _ _) hd₁]
    exact Plan.run_mono (fun _ _ _ _ => dispatch_mono (Nat.le_max_right _ _)) hr

theorem Asks.last_free {y : Execution σ} (h : Asks x last y) : last.interrupted = false := by
  by_contra hi
  have hkept := h.moves.interrupted (by simpa using hi)
  rw [h.free] at hkept
  cases hkept

omit [Host σ] in
theorem Starts.last_free {s : Session σ} {y : Execution σ} (h : Starts s last y) :
    last.interrupted = false :=
  h.turns.spec.1.symm.trans h.free

/-- An execution ends when one inside of it ends with an interruption, and does nothing more. -/
theorem Nests.unwinds {y : Execution σ} (h : Nests x y) (hx : x.session.interrupted = false)
    (hd : dispatch bound y.node y.scope y.session = some t) (ht : t.interrupted = true) :
    ∃ bound' s', dispatch bound' x.node x.scope x.session = some s' ∧ Halted t s' := by
  obtain ⟨kind, hk⟩ := h.exists_kind
  obtain ⟨bound', s', hr, hmoves, -⟩ :=
    (planDispatch_follows hk).unwinds (fun _ _ hy => hy.last_free) h hd ht
  exact ⟨bound' + 1, s', (dispatch_succ bound' x).trans hr, hmoves.halted hx ht⟩

end

namespace Request

variable {request : Request} {s s' t : Session σ} {x : Execution σ} {bound : Nat}

theorem Executes.free (hrequest : request.executing = true) (h : request.Executes s x) :
    x.session.interrupted = false := by
  induction h with
  | first hx =>
    exact ((request.follows hrequest s).along (fun _ _ hy => hy.free) fun _ _ _ => trivial :
      (request.plan s).Along (fun y => y.session.interrupted = false) fun _ => True).makes hx
  | nested _ hy ih => exact contract_consulted.nests ih hy

theorem Executes.unwinds (hrequest : request.executing = true) (h : request.Executes s x)
    (hd : dispatch bound x.node x.scope x.session = some t) (ht : t.interrupted = true) :
    ∃ bound' s', request.after bound' s = some s' ∧ Halted t s' := by
  induction h generalizing bound t with
  | first hx =>
    obtain ⟨bound', s', hr, hturns⟩ :=
      (request.follows hrequest s).unwinds (fun _ _ hy => hy.last_free) hx hd ht
    obtain ⟨hflag, hhost, hexecuted⟩ := hturns.spec
    exact ⟨bound', s', (after_eq request s).trans hr, hflag.trans ht, hhost, hexecuted⟩
  | nested hx hy ih =>
    obtain ⟨bound₁, t₁, hd₁, hhalted⟩ := hy.unwinds (hx.free hrequest) hd ht
    obtain ⟨bound', s', hs', hhalted'⟩ := ih hd₁ hhalted.interrupted
    exact ⟨bound', s', hs', hhalted.trans hhalted'⟩

theorem after_interrupted (hrequest : request.executing = true) (hs : s.interrupted = true)
    (bound : Nat) : ∃ s', request.after bound s = some s' ∧ Halted s s' := by
  obtain ⟨s', hplan, hturns⟩ :=
    (request.follows hrequest s).ended (fun _ _ hy => hy.last_free) hs
  obtain ⟨hflag, hhost, hexecuted⟩ := hturns.spec
  refine ⟨s', ?_, hflag.trans hs, hhost, hexecuted⟩
  rw [after_eq, hplan]
  rfl

theorem after_consulted (hrequest : request.executing = true)
    (h : request.after bound s = some s') : Consulted s s' := by
  rw [after_eq] at h
  have hturns : ∀ {a b : Session σ}, Turns a b → Consulted a b := fun hab =>
    .same hab.spec.2.1 hab.spec.1
  obtain ⟨last, hlast, hend⟩ := (request.follows hrequest s).run (I := Consulted s)
    (.same rfl rfl) (fun last y s'' hlast hy hd => (hlast.trans (hturns hy.turns)).trans
      (contract_consulted.dispatch hy.free hd)) h
  exact hlast.trans (hturns hend)

theorem callDepth_after (hrequest : request.executing = true)
    (h : request.after bound s = some s') : s'.callDepth = s.callDepth :=
  after_induction (P := fun t => t.callDepth = s.callDepth)
    (fun _ _ hlead ht => hlead.callDepth.trans ht) (fun _ ht => ht) hrequest rfl h

/-- A request executes nothing and asks nothing of the host while the session is interrupted. If it
is interrupted when the request is put, the request comes to its end under any bound without doing
anything; if it is at the end of an execution that the request makes, however deep inside of loops,
selectors and calls, the request comes to its end from there without doing anything more. Calls are
not left open. -/
theorem interruption_final (hrequest : request.executing = true) (s : Session σ) :
    (∀ x, request.Executes s x → x.session.interrupted = false) ∧
    (∀ x bound t, request.Executes s x → dispatch bound x.node x.scope x.session = some t →
      t.interrupted = true → ∃ bound' s', request.after bound' s = some s' ∧
        s'.interrupted = true ∧ s'.host = t.host ∧ s'.executed = t.executed) ∧
    (s.interrupted = true → ∀ bound, ∃ s', request.after bound s = some s' ∧
      s'.interrupted = true ∧ s'.host = s.host ∧ s'.executed = s.executed) ∧
    ∀ bound s', request.after bound s = some s' → s'.callDepth = s.callDepth ∧
      ∃ events, Serves (s.host, s.interrupted) events (s'.host, s'.interrupted) := by
  refine ⟨fun x hx => hx.free hrequest, fun x bound t hx hd ht => ?_, fun hs bound => ?_,
    fun bound s' h => ⟨callDepth_after hrequest h, after_consulted hrequest h⟩⟩
  · obtain ⟨bound', s', hafter, hhalted⟩ := hx.unwinds hrequest hd ht
    exact ⟨bound', s', hafter, hhalted.interrupted, hhalted.host, hhalted.executed⟩
  · obtain ⟨s', hafter, hhalted⟩ := after_interrupted hrequest hs bound
    exact ⟨s', hafter, hhalted.interrupted, hhalted.host, hhalted.executed⟩

/-- The host interrupts in a function that another function calls: what comes next in either of
them and after the call is left out. -/
theorem interruption_final_nested :
    let src := "<function name=f><log>stop</log><log>on</log></function>" ++
      "<function name=g><call function=f></call><log>on</log></function>" ++
      "<call function=g></call><log>on</log>"
    ∃ d s', Document.parse src = .ok d ∧
      run.after 9 (ofDocument d (⟨.ofAnswers [] [], some "stop"⟩ : Tripwire Recorder) .standard) =
        some s' ∧
      s'.interrupted = true ∧ s'.host.host.logs = ["stop"] ∧ s'.callDepth = 0 ∧
      ∃ events, Serves ((⟨.ofAnswers [] [], some "stop"⟩ : Tripwire Recorder), false) events
        (s'.host, s'.interrupted) := by
  intro src
  have heval : (Document.parse src).toOption.bind (fun d =>
      (run.after 9 (ofDocument d (⟨.ofAnswers [] [], some "stop"⟩ : Tripwire Recorder)
        .standard)).map fun s' => (s'.interrupted, s'.host.host.logs)) =
      some (true, ["stop"]) := by decide +kernel
  obtain ⟨d, hd, heval⟩ := Option.bind_eq_some_iff.mp heval
  obtain ⟨s', hafter, heval⟩ := Option.map_eq_some_iff.mp heval
  obtain ⟨hflag, hlogs⟩ := Prod.mk.inj heval
  obtain ⟨hdepth, events, hserves⟩ := (interruption_final rfl _).2.2.2 9 s' hafter
  exact ⟨d, s', Document.parse_of_toOption hd, hafter, hflag, hlogs, hdepth, events, hserves⟩

end Request

end ActiveMarkup.Session
