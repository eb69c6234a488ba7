import ActiveMarkup.Proofs.Session.Nesting
import Mathlib.Order.WellFounded
set_option autoImplicit false

/-!
When a run ends. Loops, calls and rounds of insertions stay within their limits, and each step of a
run is over when the executions that it asks for are. So a run that does not end comes to execute
a directive in the body of a directive in the body of a directive, and so on without an end; the
limit on calls does not count these bodies.
-/

namespace ActiveMarkup.Session

variable {σ α β : Type} [Host σ]

/-- An execution ends under some bound. -/
def Finishes (x : Execution σ) : Prop :=
  ∃ bound s', dispatch bound x.node x.scope x.session = some s'

/-- The executions that a plan comes to ask for, each after those before it have ended. -/
inductive Plan.Makes : Plan σ α → Execution σ → Prop where
  | here {node : NodeId} {scope : Option NodeId} {s : Session σ}
      {resume : Session σ → Plan σ α} : Makes (.ask node scope s resume) ⟨node, scope, s⟩
  | later {node : NodeId} {scope : Option NodeId} {s s' : Session σ}
      {resume : Session σ → Plan σ α} {bound : Nat} {x : Execution σ} :
      dispatch bound node scope s = some s' → Makes (resume s') x →
      Makes (.ask node scope s resume) x

def Nests (x y : Execution σ) : Prop :=
  (planDispatch x).Makes y

theorem Nests.exists_kind {x y : Execution σ} (h : Nests x y) :
    ∃ kind, kindOf? x.session.document x.node = some kind := by
  refine Option.ne_none_iff_exists'.mp fun hk => ?_
  rw [Nests, planDispatch_of_none hk] at h
  cases h

inductive Executes (s : Session σ) : Execution σ → Prop where
  | scanned {x : Execution σ} : (planRun s).Makes x → Executes s x
  | nested {x y : Execution σ} : Executes s x → Nests x y → Executes s y

theorem Plan.Makes.bind {p : Plan σ α} {x : Execution σ} (h : p.Makes x)
    (next : α → Plan σ β) : (p.bind next).Makes x := by
  induction h with
  | here => exact .here
  | later hd _ ih => exact .later hd ih

omit [Host σ] in
theorem Plan.run_mono {recur recur' : Recur σ} {p : Plan σ α} {a : α}
    (h : ∀ node scope s s', recur node scope s = some s' → recur' node scope s = some s')
    (hr : p.run recur = some a) : p.run recur' = some a := by
  induction p with
  | ended b => exact hr
  | ask node scope s resume ih =>
    obtain ⟨s', hd, hr⟩ := run_ask_eq_some.mp hr
    exact run_ask_eq_some.mpr ⟨s', h node scope s s' hd, ih s' hr⟩

theorem dispatch_mono {bound bound' : Nat} (hle : bound ≤ bound') {node : NodeId}
    {scope : Option NodeId} {s s' : Session σ} (h : dispatch bound node scope s = some s') :
    dispatch bound' node scope s = some s' := by
  induction bound generalizing bound' node scope s s' with
  | zero => cases h
  | succ bound ih =>
    cases bound' with
    | zero => omega
    | succ bound' =>
      rw [dispatch_succ bound ⟨node, scope, s⟩] at h
      rw [dispatch_succ bound' ⟨node, scope, s⟩]
      exact Plan.run_mono (fun _ _ _ _ hd => ih (by omega) hd) h

theorem dispatch_unique {bound bound' : Nat} {node : NodeId} {scope : Option NodeId}
    {s s₁ s₂ : Session σ} (h₁ : dispatch bound node scope s = some s₁)
    (h₂ : dispatch bound' node scope s = some s₂) : s₁ = s₂ := by
  have h₁ := dispatch_mono (Nat.le_max_left bound bound') h₁
  have h₂ := dispatch_mono (Nat.le_max_right bound bound') h₂
  rw [h₁] at h₂
  exact Option.some.inj h₂

theorem Plan.exists_run {p : Plan σ α} (h : ∀ x, p.Makes x → Finishes x) :
    ∃ bound a, p.run (dispatch bound) = some a := by
  induction p with
  | ended a => exact ⟨0, a, rfl⟩
  | ask node scope s resume ih =>
    obtain ⟨bound, s', hd⟩ := h _ .here
    obtain ⟨bound', a, hr⟩ := ih s' fun x hx => h x (.later hd hx)
    exact ⟨max bound bound', a, run_ask_eq_some.mpr ⟨s', dispatch_mono (Nat.le_max_left _ _) hd,
      Plan.run_mono (fun _ _ _ _ => dispatch_mono (Nat.le_max_right _ _)) hr⟩⟩

theorem Plan.Makes.finishes {p : Plan σ α} {bound : Nat} {a : α} {x : Execution σ}
    (hx : p.Makes x) (hr : p.run (dispatch bound) = some a) :
    ∃ s', dispatch bound x.node x.scope x.session = some s' := by
  induction hx with
  | @here node scope s resume =>
    obtain ⟨s', hd, -⟩ := run_ask_eq_some.mp hr
    exact ⟨s', hd⟩
  | @later node scope s s' resume bound' x hd _ ih =>
    obtain ⟨s'', hd', hr⟩ := run_ask_eq_some.mp hr
    rw [dispatch_unique hd' hd] at hr
    exact ih hr

theorem finishes_of_nests {x : Execution σ} (h : ∀ y, Nests x y → Finishes y) : Finishes x := by
  obtain ⟨bound, s', hr⟩ := Plan.exists_run h
  exact ⟨bound + 1, s', (dispatch_succ bound x).trans hr⟩

/-- An execution ends exactly if the executions inside of it form a well-founded tree. -/
theorem finishes_iff_acc (x : Execution σ) : Finishes x ↔ Acc (fun y x => Nests x y) x := by
  constructor
  · rintro ⟨bound, s', h⟩
    induction bound generalizing x s' with
    | zero => cases h
    | succ bound ih =>
      rw [dispatch_succ] at h
      refine ⟨x, fun y hy => ?_⟩
      obtain ⟨s'', hd⟩ := Plan.Makes.finishes hy h
      exact ih y s'' hd
  · intro h
    induction h with
    | intro x _ ih => exact finishes_of_nests ih

theorem not_finishes_of_nests {P : Execution σ → Prop} (h : ∀ x, P x → ∃ y, Nests x y ∧ P y)
    {x : Execution σ} (hx : P x) : ¬ Finishes x := by
  rw [finishes_iff_acc]
  intro hacc
  induction hacc with
  | intro x _ ih =>
    obtain ⟨y, hxy, hy⟩ := h x hx
    exact ih y hxy hy

theorem Plan.Along.makes {Q : Execution σ → Prop} {E : α → Prop} {p : Plan σ α}
    {x : Execution σ} (h : p.Along Q E) (hx : p.Makes x) : Q x := by
  induction hx with
  | here => exact h.1
  | later hd _ ih => exact ih (h.2 _ (leads_dispatch hd))

theorem Nests.inside {x y : Execution σ} (h : Nests x y) : Inside x y :=
  (planDispatch_along x).makes h

def callsLeft (x : Execution σ) : Nat :=
  x.session.settings.calls - x.session.callDepth

omit [Host σ] in
theorem BodyOf.callsLeft_eq {x y : Execution σ} (h : BodyOf x y) : callsLeft y = callsLeft x := by
  obtain ⟨t, hxt, _, hty⟩ := h
  have hlead := hxt.trans hty
  rw [callsLeft, callsLeft, hlead.settings, hlead.callDepth]

omit [Host σ] in
theorem CallOf.callsLeft_lt {x y : Execution σ} (h : CallOf x y) : callsLeft y < callsLeft x := by
  obtain ⟨hlt, hdepth, hsettings⟩ := h
  rw [callsLeft, callsLeft, hsettings, hdepth]
  omega

/-- From some place on, executions that nest without an end are in bodies only. -/
theorem eventually_bodies {chain : Nat → Execution σ}
    (h : ∀ n, Nests (chain n) (chain (n + 1))) :
    ∃ m, ∀ n, m ≤ n → BodyOf (chain n) (chain (n + 1)) := by
  have hanti : Antitone fun n => callsLeft (chain n) := by
    refine antitone_nat_of_succ_le fun n => ?_
    rcases (h n).inside with hbody | hcall
    · exact hbody.callsLeft_eq.le
    · exact hcall.callsLeft_lt.le
  -- past a place with the fewest calls left there is no further call
  let m := Function.argmin fun n => callsLeft (chain n)
  refine ⟨m, fun n hmn => ?_⟩
  rcases (h n).inside with hbody | hcall
  · exact hbody
  · have hmin : callsLeft (chain m) ≤ callsLeft (chain (n + 1)) :=
      Function.argmin_le (fun n => callsLeft (chain n)) (n + 1)
    have hle : callsLeft (chain n) ≤ callsLeft (chain m) := hanti hmn
    have hlt := hcall.callsLeft_lt
    omega

theorem Executes.chain {s : Session σ} {chain : Nat → Execution σ} (h₀ : Executes s (chain 0))
    (h : ∀ n, Nests (chain n) (chain (n + 1))) (n : Nat) : Executes s (chain n) := by
  induction n with
  | zero => exact h₀
  | succ n ih => exact .nested ih (h n)

theorem Executes.finishes {s : Session σ} {bound : Nat} {r : Nat × Session σ}
    (hr : run bound s = some r) {x : Execution σ} (hx : Executes s x) : Finishes x := by
  rw [run_eq] at hr
  induction hx with
  | scanned hx => exact ⟨bound, hx.finishes hr⟩
  | nested _ hy ih => exact (finishes_iff_acc _).mpr (((finishes_iff_acc _).mp ih).inv hy)

/-- A run ends under some bound exactly if it does not come to execute directives each in the body
of the one before, without an end. -/
theorem run_finishes_iff (s : Session σ) :
    (∃ bound r, run bound s = some r) ↔
      ¬ ∃ chain : Nat → Execution σ, Executes s (chain 0) ∧
        ∀ n, Nests (chain n) (chain (n + 1)) ∧ BodyOf (chain n) (chain (n + 1)) := by
  constructor
  · rintro ⟨bound, r, hr⟩ ⟨chain, h₀, h⟩
    have hacc := (finishes_iff_acc _).mp (h₀.finishes hr)
    exact not_acc_iff_exists_descending_chain.mpr ⟨chain, rfl, fun n => (h n).1⟩ hacc
  · intro hno
    simp only [run_eq]
    refine Plan.exists_run fun x hx => ?_
    rw [finishes_iff_acc]
    by_contra hacc
    obtain ⟨chain, rfl, h⟩ := not_acc_iff_exists_descending_chain.mp hacc
    obtain ⟨m, hm⟩ := eventually_bodies h
    refine hno ⟨fun n => chain (m + n), (Executes.scanned hx).chain h m, fun n => ?_⟩
    exact ⟨h (m + n), hm (m + n) (Nat.le_add_right m n)⟩

end ActiveMarkup.Session
