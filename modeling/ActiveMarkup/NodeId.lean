set_option autoImplicit false

namespace ActiveMarkup

structure NodeId where
  index : Nat
deriving DecidableEq, Repr, Inhabited

namespace NodeId

def root : NodeId := ⟨0⟩

def label (id : NodeId) : String :=
  "#" ++ toString id.index

end NodeId

end ActiveMarkup
