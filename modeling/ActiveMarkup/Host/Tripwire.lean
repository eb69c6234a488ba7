import ActiveMarkup.Host.Basic
set_option autoImplicit false

namespace ActiveMarkup

/-- A host with the log line that trips it, if there is one. -/
structure Tripwire (σ : Type) where
  host : σ
  trigger : Option String

namespace Tripwire

variable {σ : Type}

def around {α : Type} (trigger : Option String) (served : Served σ α) : Served (Tripwire σ) α :=
  { served with host := ⟨served.host, trigger⟩ }

instance [Host σ] : Host (Tripwire σ) where
  alert message t := around t.trigger (Host.alert message t.host)
  confirm message t := around t.trigger (Host.confirm message t.host)
  prompt message default t := around t.trigger (Host.prompt message default t.host)
  log message t :=
    let served := around t.trigger (Host.log message t.host)
    { served with interrupts := served.interrupts || t.trigger == some message }

end Tripwire

end ActiveMarkup
