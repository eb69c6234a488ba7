set_option autoImplicit false

namespace ActiveMarkup

inductive HostFailure where
  | output (cause : String)
  | input (cause : String)
deriving DecidableEq, Repr

/-- What a host made of a request: the answer, its state afterwards, the failures it met, and
whether it asks for an interruption. -/
structure Served (σ α : Type) where
  answer : α
  host : σ
  failures : List HostFailure
  interrupts : Bool

/-- The services of a host, over its state. A cancelled prompt has no answer. -/
class Host (σ : Type) where
  alert : String → σ → Served σ Unit
  confirm : String → σ → Served σ Bool
  prompt : String → String → σ → Served σ (Option String)
  log : String → σ → Served σ Unit

end ActiveMarkup
