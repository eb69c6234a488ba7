import ActiveMarkup.Session.Dispatch
set_option autoImplicit false

/-!
Running a document. A scan collects the directives that stand in no other directive and were not
executed yet, and executes them in document order. What they insert is left in the journal of the
document and scanned in rounds, until nothing is inserted any more or the rounds are used up.

Every step is bounded as the execution of directives is, and gives nothing if the bound was used
up.
-/

namespace ActiveMarkup.Session

variable {σ : Type}

/-- The directives from a node down that stand in no other directive on the way and were not
executed, in document order. At most `depth` levels are followed. -/
def frontierWithin (d : Document) (executed : List NodeId) : Nat → NodeId → List NodeId
  | 0, _ => []
  | depth + 1, id =>
    match d.tag? id with
    | none =>
      if id = .root then (d.children id).flatMap (frontierWithin d executed depth) else []
    | some tag =>
      match Directive.ofTag? tag with
      -- nothing under a directive is looked at, also once it was executed
      | some _ => if executed.contains id then [] else [id]
      | none => (d.children id).flatMap (frontierWithin d executed depth)

def frontier (s : Session σ) (id : NodeId) : List NodeId :=
  frontierWithin s.document s.executed (s.document.nodes.size + 1) id

/-- The nodes of a batch of insertions that are scanned: each once, if it stands under the root and
under no other node of the batch. -/
def batchRoots (d : Document) (batch : List NodeId) : List NodeId :=
  batch.eraseDups.filter fun id =>
    d.isConnected id && !(d.ancestors id).tail.any fun above => above ≠ id && batch.contains above

def handlers (s : Session σ) (target : EventTarget) (event : String) : List Function :=
  (s.listeners.filter fun l => l.target = target && l.event == event).map Listener.function

def ampleBound : Nat := 1000000

variable [Host σ]

/-- Execute directives in order without a scope, counting on from `count`. An interruption is
noticed and ends the scan. -/
def dispatchCounted (bound : Nat) : List NodeId → Nat → Session σ → Option (Nat × Session σ)
  | [], count, s => some (count, s)
  | node :: rest, count, s =>
    if s.interrupted then some (count, s.note .scanInterrupted)
    else do
      let s ← dispatch bound node none s
      dispatchCounted bound rest (count + 1) s

def scan (bound : Nat) (id : NodeId) (s : Session σ) : Option (Nat × Session σ) :=
  dispatchCounted bound (s.frontier id) 0 s

def scanAll (bound : Nat) : List NodeId → Nat → Session σ → Option (Nat × Session σ)
  | [], count, s => some (count, s)
  | id :: rest, count, s => do
    let (more, s) ← scan bound id s
    scanAll bound rest (count + more) s

def flushRounds (bound : Nat) : Nat → Nat → Session σ → Option (Nat × Session σ)
  | 0, count, s =>
    some (count,
      -- what the last round inserted stays in the journal
      if s.document.hasInsertions then s.note (.insertionsPending s.settings.rounds) else s)
  | rounds + 1, count, s => do
    let (batch, document) := s.document.takeInserted
    let s := { s with document }
    if batch.isEmpty then some (count, s)
    else
      let (count, s) ← scanAll bound (batchRoots document batch) count s
      flushRounds bound rounds count s

def flush (bound : Nat) (s : Session σ) : Option (Nat × Session σ) :=
  flushRounds bound s.settings.rounds 0 s

def run (bound : Nat) (s : Session σ) : Option (Nat × Session σ) := do
  let (count, s) ← scan bound .root s
  let (more, s) ← flush bound s
  some (count + more, s)

def callFunction (bound : Nat) (name : String) (s : Session σ) : Option (Outcome σ) :=
  (s.names.lookupFunction name).map fun f => invoke (dispatch bound) f s

def invokeAll (bound : Nat) (target : EventTarget) (event : String) :
    List Function → Session σ → Option (Session σ)
  | [], s => some s
  | f :: rest, s =>
    match invoke (dispatch bound) f s with
    | .done s => invokeAll bound target event rest s
    | .failed e s =>
      invokeAll bound target event rest (s.note (.handlerFailed target event f.name e))
    | .unfinished => none

/-- Fire an event: run the functions that listen to it, scan what they inserted, and count the
functions. -/
def fire (bound : Nat) (target : EventTarget) (event : String) (s : Session σ) :
    Option (Nat × Session σ) := do
  let found := s.handlers target event
  let s ← invokeAll bound target event found s
  let (_, s) ← flush bound s
  some (found.length, s)

end ActiveMarkup.Session
