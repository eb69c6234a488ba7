import ActiveMarkup.Proofs.Document.Operations
import ActiveMarkup.Session.Scan
set_option autoImplicit false

namespace ActiveMarkup

variable {σ : Type}

/-- A session can be reached from another by executing directives. -/
structure Session.Leads (s s' : Session σ) : Prop where
  document : Document.Edited s.document s'.document
  executed : s.executed ⊆ s'.executed
  interrupted : s.interrupted = true → s'.interrupted = true
  settings : s'.settings = s.settings
  callDepth : s'.callDepth = s.callDepth

namespace Session.Leads

variable {s s' s'' : Session σ}

theorem same (hd : s'.document = s.document) (he : s'.executed = s.executed)
    (hi : s'.interrupted = s.interrupted) (hs : s'.settings = s.settings)
    (hc : s'.callDepth = s.callDepth) : Leads s s' where
  document := hd ▸ .refl
  executed := he ▸ fun _ hx => hx
  interrupted := hi ▸ id
  settings := hs
  callDepth := hc

theorem refl (s : Session σ) : Leads s s :=
  same rfl rfl rfl rfl rfl

theorem trans (h : Leads s s') (h' : Leads s' s'') : Leads s s'' where
  document := h.document.trans h'.document
  executed _ hx := h'.executed (h.executed hx)
  interrupted hi := h'.interrupted (h.interrupted hi)
  settings := h'.settings.trans h.settings
  callDepth := h'.callDepth.trans h.callDepth

theorem edited {d : Document} (h : Document.Edited s.document d) :
    Leads s { s with document := d } where
  document := h
  executed _ hx := hx
  interrupted := id
  settings := rfl
  callDepth := rfl

end Session.Leads

def Outcome.From (s : Session σ) : Outcome σ → Prop
  | .done s' => s.Leads s'
  | .failed _ s' => s.Leads s'
  | .unfinished => False

namespace Outcome.From

variable {s s' : Session σ} {o : Outcome σ}

theorem after (h : s.Leads s') (ho : o.From s') : o.From s := by
  cases o with
  | done t => exact h.trans ho
  | failed e t => exact h.trans ho
  | unfinished => exact ho

end Outcome.From

namespace Session

variable (s : Session σ) (node : NodeId) (scope : Option NodeId)

theorem leads_note (n : Notice) : Leads s (s.note n) :=
  .same rfl rfl rfl rfl rfl

theorem enter_spec (kind : Directive) :
    ∃ notices executed, s.enter kind node scope = { s with notices, executed } ∧
      node ∈ executed ∧ s.executed ⊆ executed ∧ executed ⊆ node :: s.executed := by
  obtain ⟨notices, hn⟩ : ∃ notices,
      (if s.settings.trace then s.note (.dispatched kind node scope) else s) =
        { s with notices } := by
    split
    · exact ⟨_, rfl⟩
    · exact ⟨s.notices, rfl⟩
  unfold enter
  rw [hn]
  simp only
  split
  next h =>
    exact ⟨notices, s.executed, rfl, by simpa using h, fun _ hx => hx, List.subset_cons_self _ _⟩
  next =>
    exact ⟨notices, node :: s.executed, rfl, List.mem_cons_self, List.subset_cons_self _ _,
      fun _ hx => hx⟩

theorem leads_enter (kind : Directive) : Leads s (s.enter kind node scope) := by
  obtain ⟨notices, executed, henter, -, hsub, -⟩ := enter_spec s node scope kind
  rw [henter]
  exact ⟨.refl, hsub, id, rfl, rfl⟩

theorem mem_executed_enter (kind : Directive) : node ∈ (s.enter kind node scope).executed := by
  obtain ⟨notices, executed, henter, hmem, -⟩ := enter_spec s node scope kind
  rw [henter]
  exact hmem

end Session

end ActiveMarkup
