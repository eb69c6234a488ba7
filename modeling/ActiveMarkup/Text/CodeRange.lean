set_option autoImplicit false

namespace ActiveMarkup.Text

def inRanges (ranges : Array (Nat × Nat)) (code : Nat) : Bool :=
  ranges.any fun range => range.1 ≤ code && code ≤ range.2

end ActiveMarkup.Text
