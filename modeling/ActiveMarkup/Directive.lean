set_option autoImplicit false

namespace ActiveMarkup

inductive Directive where
  | function | variable | listen | call
  | branch | counted | repeated
  | findById | findFirst | findAll
  | set | get | create | append | remove | reveal | conceal | toggle
  | alert | confirm | prompt | log
deriving DecidableEq, Repr

namespace Directive

def tag : Directive → String
  | function => "function"
  | .variable => "variable"
  | listen => "addEventListener"
  | call => "call"
  | branch => "if"
  | counted => "for"
  | repeated => "while"
  | findById => "getElementById"
  | findFirst => "querySelector"
  | findAll => "querySelectorAll"
  | set => "set"
  | get => "get"
  | create => "create"
  | append => "append"
  | remove => "remove"
  | reveal => "show"
  | conceal => "hide"
  | toggle => "toggle"
  | alert => "alert"
  | confirm => "confirm"
  | prompt => "prompt"
  | log => "log"

def all : List Directive :=
  [function, .variable, listen, call, branch, counted, repeated, findById, findFirst, findAll,
    set, get, create, append, remove, reveal, conceal, toggle, alert, confirm, prompt, log]

def ofTag? (tag : String) : Option Directive :=
  all.find? fun kind => kind.tag.toLower == tag.toLower

def label (kind : Directive) : String :=
  "<" ++ kind.tag ++ ">"

theorem mem_all (kind : Directive) : kind ∈ all := by
  cases kind <;> decide

theorem isSome_ofTag?_iff {tag : String} :
    (ofTag? tag).isSome ↔ ∃ kind : Directive, kind.tag.toLower = tag.toLower := by
  rw [ofTag?, List.find?_isSome]
  constructor
  · rintro ⟨kind, -, hkind⟩
    exact ⟨kind, beq_iff_eq.mp hkind⟩
  · rintro ⟨kind, hkind⟩
    exact ⟨kind, mem_all kind, beq_iff_eq.mpr hkind⟩

end Directive

end ActiveMarkup
