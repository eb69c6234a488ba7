import ActiveMarkup.Value.Basic
set_option autoImplicit false

namespace ActiveMarkup

/-- A declared function: its name, the nodes of its body, the node its directives act on, and the
running number of the declaration. -/
structure Function where
  name : String
  body : List NodeId
  scope : Option NodeId
  serial : Nat
deriving DecidableEq, Repr

structure Namespace where
  vars : Table Value
  functions : Table Function
  nextRef : Ref
  nextSerial : Nat
deriving Inhabited

namespace Namespace

def empty : Namespace := ⟨[], [], 0, 0⟩

def declare (ns : Namespace) (name : String) (value : Value) : Namespace :=
  { ns with vars := Table.insert ns.vars name value }

def lookup (ns : Namespace) (name : String) : Option Value :=
  Table.find? ns.vars name

def declareFunction (ns : Namespace) (name : String) (body : List NodeId)
    (scope : Option NodeId) : Namespace :=
  { ns with
    functions := Table.insert ns.functions name ⟨name, body, scope, ns.nextSerial⟩
    nextSerial := ns.nextSerial + 1 }

def lookupFunction (ns : Namespace) (name : String) : Option Function :=
  Table.find? ns.functions name

def size (ns : Namespace) : Nat :=
  ns.vars.length + ns.functions.length

def clear (ns : Namespace) : Namespace :=
  { ns with vars := [], functions := [] }

theorem lookup_declare_same (ns : Namespace) (name : String) (value : Value) :
    (ns.declare name value).lookup name = some value :=
  Table.find?_insert_same ns.vars name value

end Namespace

end ActiveMarkup
