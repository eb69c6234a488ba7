import ActiveMarkup.Host.Basic
set_option autoImplicit false

namespace ActiveMarkup

inductive HostEvent where
  | alert (message : String)
  | confirm (message : String)
  | prompt (message default : String)
  | log (message : String)
deriving DecidableEq, Repr

structure Recorder where
  events : Array HostEvent
  confirms : List Bool
  prompts : List (Option String)
deriving Inhabited

namespace Recorder

def ofAnswers (confirms : List Bool) (prompts : List (Option String)) : Recorder :=
  ⟨#[], confirms, prompts⟩

def record (r : Recorder) (event : HostEvent) : Recorder :=
  { r with events := r.events.push event }

def logs (r : Recorder) : List String :=
  r.events.toList.filterMap fun
    | .log m => some m
    | _ => none

def alerts (r : Recorder) : List String :=
  r.events.toList.filterMap fun
    | .alert m => some m
    | _ => none

instance : Host Recorder where
  alert message r := ⟨(), r.record (.alert message), [], false⟩
  confirm message r :=
    let r := r.record (.confirm message)
    ⟨r.confirms.headD false, { r with confirms := r.confirms.tail }, [], false⟩
  prompt message default r :=
    let r := r.record (.prompt message default)
    ⟨r.prompts.headD (some default), { r with prompts := r.prompts.tail }, [], false⟩
  log message r := ⟨(), r.record (.log message), [], false⟩

end Recorder

end ActiveMarkup
