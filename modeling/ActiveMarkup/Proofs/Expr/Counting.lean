import ActiveMarkup.Proofs.Expr.Statements
import Mathlib
set_option autoImplicit false

/-!
The parser with a counter of its depth. It keeps one counter for a whole text, counts it up before
it goes deeper, and counts it down or puts back what it was on the way out, in each production in a
way of its own. It is written here as it counts, with a record of every call and every decrement,
and shown to read what the readers with room read. So the room that a reader is handed is what the
counter leaves, at every call: no path through a production leaves the counter changed. Fuel keeps
the calls from going on without an end; an amount in proportion to the tokens is enough.
-/

namespace ActiveMarkup.Parser.Counting

/-- A production, or the loop of one with what it has read so far. -/
inductive Part where
  | level (l : Nat)
  | chain (l : Nat) (left : Expr)
  | prefixed
  | postfixed
  | access (e : Expr)
  | primary
  | items (done : List Expr)

/-- What is recorded: a part called at a depth, the counter lowered from a depth, and a statement
started at a depth. -/
inductive Event where
  | call (p : Part) (depth : Nat)
  | lower (depth : Nat)
  | statement (depth : Nat)

structure State where
  rest : List Token
  depth : Nat
  events : List Event

/-- A program over the state. It may fail, which leaves the state as it is at that point, and it may
run out of fuel, which leaves nothing. -/
abbrev Run := ExceptT ExprError (StateT State Option)

def outOfFuel {α : Type} : Run α := ExceptT.mk fun _ => none

def tokens : Run (List Token) := do return (← get).rest

def advance : Run Unit := modify fun s => { s with rest := s.rest.tail }

def depth : Run Nat := do return (← get).depth

def record (e : Event) : Run Unit := modify fun s => { s with events := e :: s.events }

def descend : Run Unit := do
  modify fun s => { s with depth := s.depth + 1 }
  if maxDepth < (← depth) then throw (.tooDeep maxDepth)

def lower : Run Unit := do
  record (.lower (← depth))
  modify fun s => { s with depth := s.depth - 1 }

def restore (entry : Nat) : Run Unit := modify fun s => { s with depth := entry }

def require (s : Symbol) : Run Unit := do
  if symbol? (← tokens) = some s then advance else throw (unexpected (.symbol s) (← tokens))

section

variable (call : Part → Run Expr)

def level : Nat → Run Expr
  | 0 => call .prefixed
  | l + 1 => do
    let entry ← depth
    let left ← call (.level l)
    let e ← call (.chain l left)
    restore entry
    return e

def chain (l : Nat) (left : Expr) : Run Expr := do
  match (symbol? (← tokens)).bind (operatorAt l) with
  | none => return left
  | some op => do
    advance
    descend
    let right ← call (.level l)
    call (.chain l (.binary op left right))

def prefixed : Run Expr := do
  match (symbol? (← tokens)).bind prefixAt with
  | none => call .postfixed
  | some op => do
    advance
    descend
    let operand ← call .prefixed
    lower
    return .unary op operand

def postfixed : Run Expr := do
  let entry ← depth
  let first ← call .primary
  let e ← call (.access first)
  restore entry
  return e

def access (e : Expr) : Run Expr := do
  match symbol? (← tokens) with
  | some .dot => do
    advance
    descend
    match ← tokens with
    | ⟨.name name, _⟩ :: _ => do
      advance
      call (.access (.member e name))
    | ts => throw (unexpected .propertyName ts)
  | some .openBracket => do
    advance
    descend
    let i ← call (.level topLevel)
    require .closeBracket
    call (.access (.index e i))
  | _ => return e

def primary : Run Expr := do
  match ← tokens with
  | ⟨.number x, _⟩ :: _ => do
    advance
    return .literal (.number x)
  | ⟨.text s, _⟩ :: _ => do
    advance
    return .literal (.text s)
  | ⟨.name name, _⟩ :: _ => do
    advance
    return ofName name
  | ⟨.symbol .openParen, _⟩ :: _ => do
    advance
    descend
    let e ← call (.level topLevel)
    require .closeParen
    lower
    return e
  | ⟨.symbol .openBracket, _⟩ :: _ => do
    advance
    descend
    if symbol? (← tokens) = some .closeBracket then do
      advance
      lower
      return .array []
    else do
      let e ← call (.items [])
      lower
      return e
  | ts => throw (unexpected .expression ts)

def items (done : List Expr) : Run Expr := do
  let e ← call (.level topLevel)
  if symbol? (← tokens) = some .closeBracket then do
    advance
    return .array (e :: done).reverse
  else do
    require .comma
    call (.items (e :: done))

def Part.body : Part → Run Expr
  | .level l => Counting.level call l
  | .chain l left => Counting.chain call l left
  | .prefixed => Counting.prefixed call
  | .postfixed => Counting.postfixed call
  | .access e => Counting.access call e
  | .primary => Counting.primary call
  | .items done => Counting.items call done

end

def run : Nat → Part → Run Expr
  | 0, _ => outOfFuel
  | fuel + 1, p => do
    record (.call p (← depth))
    p.body (run fuel)

def outcome {α : Type} (x : Run α) (s : State) : Option (Except ExprError α × State) :=
  x.run.run s

section

variable {α β : Type} (f : α → Run β) (s : State)

theorem outcome_bind (x : Run α) : outcome (x >>= f) s =
    (outcome x s).bind fun
      | (.ok a, s') => outcome (f a) s'
      | (.error e, s') => some (.error e, s') := by
  change (outcome x s).bind _ = _
  congr 1
  funext r
  obtain ⟨a | a, s'⟩ := r <;> rfl

@[simp] theorem outcome_tokens_bind (f : List Token → Run β) :
    outcome (tokens >>= f) s = outcome (f s.rest) s := rfl

@[simp] theorem outcome_depth_bind (f : Nat → Run β) :
    outcome (depth >>= f) s = outcome (f s.depth) s := rfl

@[simp] theorem outcome_advance_bind (f : Unit → Run β) :
    outcome (advance >>= f) s = outcome (f ()) { s with rest := s.rest.tail } := rfl

@[simp] theorem outcome_record_bind (e : Event) (f : Unit → Run β) :
    outcome (record e >>= f) s = outcome (f ()) { s with events := e :: s.events } := rfl

@[simp] theorem outcome_restore_bind (entry : Nat) (f : Unit → Run β) :
    outcome (restore entry >>= f) s = outcome (f ()) { s with depth := entry } := rfl

@[simp] theorem outcome_lower_bind (f : Unit → Run β) :
    outcome (lower >>= f) s = outcome (f ())
      { s with depth := s.depth - 1, events := .lower s.depth :: s.events } := rfl

theorem outcome_descend : outcome descend s =
    some (if maxDepth < s.depth + 1 then .error (.tooDeep maxDepth) else .ok (),
      { s with depth := s.depth + 1 }) := by
  change outcome (if maxDepth < s.depth + 1 then throw (.tooDeep maxDepth) else pure () : Run Unit)
    { s with depth := s.depth + 1 } = _
  split <;> rfl

theorem outcome_require (y : Symbol) : outcome (require y) s =
    match expect y s.rest with
    | .ok rest => some (.ok (), { s with rest := rest })
    | .error e => some (.error e, s) := by
  rw [require, outcome_tokens_bind, expect]
  split <;> rfl

end

/-- No call is made beyond the limit, the counter is not lowered from zero, and a statement starts
with the counter at zero. -/
def Event.Sound : Event → Prop
  | .call _ d => d ≤ maxDepth
  | .lower d => 0 < d
  | .statement d => d = 0

def State.Clean (s : State) : Prop := ∀ e ∈ s.events, e.Sound

theorem clean_cons {s : State} {e : Event} (he : e.Sound) (rest : List Token) (d : Nat)
    (h : s.Clean) : State.Clean ⟨rest, d, e :: s.events⟩ :=
  List.forall_mem_cons.mpr ⟨he, h⟩

/-- From a state a program ends as a reader does, and keeps the record clean; if it succeeds it ends
in a state of the given kind. -/
inductive Ends {α : Type} (s : State) (after : State → Prop) :
    Option (Except ExprError α × State) → Except ExprError (α × List Token) → Prop where
  | ok {a : α} {s' : State} : (s.Clean → s'.Clean) → after s' →
      Ends s after (some (.ok a, s')) (.ok (a, s'.rest))
  | error {e : ExprError} {s' : State} : (s.Clean → s'.Clean) →
      Ends s after (some (.error e, s')) (.error e)

section

variable {α β : Type} {s t : State} {after after' : State → Prop}
  {o : Option (Except ExprError α × State)} {r : Except ExprError (α × List Token)}

theorem Ends.from (h : Ends t after o r) (hclean : s.Clean → t.Clean) : Ends s after o r := by
  cases h with
  | ok hc ha => exact .ok (hc ∘ hclean) ha
  | error hc => exact .error (hc ∘ hclean)

theorem Ends.imp (h : Ends s after o r) (himp : ∀ s', after s' → after' s') :
    Ends s after' o r := by
  cases h with
  | ok hc ha => exact .ok hc (himp _ ha)
  | error hc => exact .error hc

theorem Ends.bind {x : Run α} {f : α → Run β}
    {g : α × List Token → Except ExprError (β × List Token)}
    (h : Ends s after (outcome x s) r)
    (hf : ∀ a s', after s' → Ends s' after' (outcome (f a) s') (g (a, s'.rest))) :
    Ends s after' (outcome (x >>= f) s) (r >>= g) := by
  rw [outcome_bind]
  generalize outcome x s = o at h
  cases h with
  | ok hc ha => exact (hf _ _ ha).from hc
  | error hc => exact .error hc

theorem Ends.finish {x : Run α} {f : α → Run α} (h : Ends s after (outcome x s) r)
    (hf : ∀ a s', after s' → Ends s' after' (outcome (f a) s') (.ok (a, s'.rest))) :
    Ends s after' (outcome (x >>= f) s) r := by
  have hbind := h.bind (g := pure) hf
  rwa [bind_pure] at hbind

theorem ends_tooDeep {f : Unit → Run α} (hd : s.depth + 0 = maxDepth) :
    Ends s after (outcome (descend >>= f) s) tooDeep := by
  rw [outcome_bind, outcome_descend, if_pos (by omega)]
  exact .error id

theorem ends_descend {f : Unit → Run α} {room : Nat} (hd : s.depth + (room + 1) = maxDepth)
    (h : Ends { s with depth := s.depth + 1 } after
      (outcome (f ()) { s with depth := s.depth + 1 }) r) :
    Ends s after (outcome (descend >>= f) s) r := by
  rw [outcome_bind, outcome_descend, if_neg (by omega)]
  exact h.from id

theorem ends_advance {f : Unit → Run α} {ts : List Token} {d : Nat} {events : List Event}
    (h : Ends ⟨ts.tail, d, events⟩ after (outcome (f ()) ⟨ts.tail, d, events⟩) r) :
    Ends ⟨ts, d, events⟩ after (outcome (advance >>= f) ⟨ts, d, events⟩) r :=
  h.from id

theorem ends_require {y : Symbol} {f : Unit → Run α}
    {g : List Token → Except ExprError (α × List Token)}
    (hf : ∀ rest, expect y s.rest = .ok rest →
      Ends { s with rest := rest } after (outcome (f ()) { s with rest := rest }) (g rest)) :
    Ends s after (outcome (require y >>= f) s) (expect y s.rest >>= g) := by
  rw [outcome_bind, outcome_require]
  cases hy : expect y s.rest with
  | ok rest => exact (hf rest hy).from id
  | error e => exact .error id

theorem ends_lower {f : Unit → Run α} {rest : List Token} {d : Nat} {events : List Event}
    (h : Ends ⟨rest, d, .lower (d + 1) :: events⟩ after
      (outcome (f ()) ⟨rest, d, .lower (d + 1) :: events⟩) r) :
    Ends ⟨rest, d + 1, events⟩ after (outcome (lower >>= f) ⟨rest, d + 1, events⟩) r := by
  rw [outcome_lower_bind]
  refine h.from (clean_cons (s := ⟨rest, d + 1, events⟩) (e := .lower (d + 1)) ?_ rest d)
  exact Nat.succ_pos d

end

def Consumes (ts rest : List Token) : Prop :=
  ∃ us, us ≠ [] ∧ ts = us ++ rest

theorem consumes_tail {ts : List Token} {s : Symbol} (h : symbol? ts = some s) :
    Consumes ts ts.tail := by
  obtain ⟨offset, hts⟩ := symbol?_eq_some.mp h
  exact ⟨[⟨.symbol s, offset⟩], by simp, hts⟩

theorem Consumes.suffix {ts rest : List Token} (h : Consumes ts rest) : rest <:+ ts := by
  obtain ⟨us, -, rfl⟩ := h
  exact List.suffix_append us rest

theorem Consumes.trans {ts mid rest : List Token} (h : Consumes ts mid) (hrest : rest <:+ mid) :
    Consumes ts rest := by
  obtain ⟨us, hus, rfl⟩ := h
  obtain ⟨vs, rfl⟩ := hrest
  exact ⟨us ++ vs, by simp [hus], by simp⟩

theorem Consumes.of_suffix {us ts rest : List Token} (h : Consumes us rest) (hsuffix : us <:+ ts) :
    Consumes ts rest := by
  obtain ⟨vs, hvs, rfl⟩ := h
  obtain ⟨ws, rfl⟩ := hsuffix
  exact ⟨ws ++ vs, by simp [hvs], by simp⟩

theorem Consumes.length_lt {ts rest : List Token} (h : Consumes ts rest) :
    rest.length < ts.length := by
  obtain ⟨us, hus, rfl⟩ := h
  have hpos := List.length_pos_iff.mpr hus
  rw [List.length_append]
  omega

theorem consumes_cons (t : Token) (rest : List Token) : Consumes (t :: rest) rest :=
  ⟨[t], by simp, rfl⟩

theorem suffix_of_expect {s : Symbol} {ts rest : List Token} (h : expect s ts = .ok rest) :
    rest <:+ ts := by
  obtain ⟨offset, rfl⟩ := expect_eq_ok.mp h
  exact List.suffix_cons _ rest

def Part.read : Part → Nat → List Token → Read
  | level l, room, ts => readLevel l room ts
  | chain l left, room, ts => readChain l room left ts
  | prefixed, room, ts => readPrefixed room ts
  | postfixed, room, ts => do
    let (first, rest) ← readPrimary room ts
    readAccess room first rest
  | access e, room, ts => readAccess room e ts
  | primary, room, ts => readPrimary room ts
  | items done, room, ts => readItems room done ts

/-- The parts that put the counter back: all but the two loops that go deeper from one pass to the
next and leave it to their production. -/
def Part.restores : Part → Bool
  | chain .. | access _ => false
  | _ => true

def Part.After (p : Part) (d : Nat) (ts : List Token) (s : State) : Prop :=
  s.rest <:+ ts ∧ (p.restores = true → s.depth = d ∧ Consumes ts s.rest)

theorem Part.After.of_consumes {p : Part} {d : Nat} {ts rest : List Token} {events : List Event}
    (h : Consumes ts rest) : p.After d ts ⟨rest, d, events⟩ :=
  ⟨h.suffix, fun _ => ⟨rfl, h⟩⟩

theorem Part.After.of_loop {p : Part} {d : Nat} {ts : List Token} {s : State}
    (hp : p.restores = false) (h : s.rest <:+ ts) : p.After d ts s :=
  ⟨h, fun hrestores => by rw [hp] at hrestores; cases hrestores⟩

/-- How many calls without a token in between a part may come to. -/
def Part.rank : Part → Nat
  | chain l _ => l + 4
  | access _ | primary => 0
  | postfixed => 1
  | prefixed => 2
  | level l => l + 3
  | items _ => topLevel + 4

def Part.need (p : Part) (ts : List Token) : Nat := 12 * ts.length + p.rank

theorem need_lt {p q : Part} {ts : List Token} {fuel : Nat} (h : q.rank < p.rank)
    (hfuel : p.need ts ≤ fuel) : q.need ts < fuel :=
  Nat.lt_of_lt_of_le (Nat.add_lt_add_left h _) hfuel

theorem need_lt_of_consumes {p q : Part} {ts rest : List Token} {fuel : Nat}
    (hfuel : p.need ts ≤ fuel) (hrest : Consumes ts rest) (h : q.rank < p.rank + 12) :
    q.need rest < fuel := by
  have hlt := hrest.length_lt
  simp only [Part.need] at hfuel ⊢
  omega

/-- A part that is called with enough fuel where the counter leaves that much room does what the
reader does. -/
def Part.Agrees (p : Part) (room : Nat) (ts : List Token) : Prop :=
  ∀ fuel d events, p.need ts < fuel → d + room = maxDepth →
    Ends ⟨ts, d, events⟩ (p.After d ts) (outcome (run fuel p) ⟨ts, d, events⟩) (p.read room ts)

section

variable {p : Part} {room d fuel : Nat} {ts : List Token} {events : List Event}
  {after : State → Prop}

theorem Part.agrees_of (h : ∀ fuel d events, p.need ts ≤ fuel → d + room = maxDepth →
    Ends ⟨ts, d, events⟩ (p.After d ts) (outcome (p.body (run fuel)) ⟨ts, d, events⟩)
      (p.read room ts)) : p.Agrees room ts := by
  intro fuel d events hfuel hd
  obtain ⟨fuel, rfl⟩ := Nat.exists_eq_succ_of_ne_zero (Nat.ne_zero_of_lt hfuel)
  refine (h fuel d (.call p d :: events) (Nat.le_of_lt_succ hfuel) hd).from
    (clean_cons (s := ⟨ts, d, events⟩) (e := .call p d) ?_ ts d)
  exact Nat.le.intro hd

theorem Part.Agrees.bind {α : Type} {f : Expr → Run α}
    {g : Expr × List Token → Except ExprError (α × List Token)}
    (h : p.Agrees room ts) (hp : p.restores = true) (hfuel : p.need ts < fuel)
    (hd : d + room = maxDepth)
    (hf : ∀ e rest events, Consumes ts rest →
      Ends ⟨rest, d, events⟩ after (outcome (f e) ⟨rest, d, events⟩) (g (e, rest))) :
    Ends ⟨ts, d, events⟩ after (outcome (run fuel p >>= f) ⟨ts, d, events⟩)
      (p.read room ts >>= g) := by
  refine Ends.bind (h fuel d events hfuel hd) fun e s hs => ?_
  obtain ⟨rest, d', events⟩ := s
  obtain ⟨rfl, hconsumes⟩ := hs.2 hp
  exact hf e rest events hconsumes

theorem Part.Agrees.finish {f : Expr → Run Expr} (h : p.Agrees room ts) (hp : p.restores = true)
    (hfuel : p.need ts < fuel) (hd : d + room = maxDepth)
    (hf : ∀ e rest events, Consumes ts rest →
      Ends ⟨rest, d, events⟩ after (outcome (f e) ⟨rest, d, events⟩) (.ok (e, rest))) :
    Ends ⟨ts, d, events⟩ after (outcome (run fuel p >>= f) ⟨ts, d, events⟩) (p.read room ts) := by
  have hbind : Ends ⟨ts, d, events⟩ after (outcome (run fuel p >>= f) ⟨ts, d, events⟩)
      (p.read room ts >>= pure) := h.bind hp hfuel hd hf
  rwa [bind_pure] at hbind

end

def AgreeBelow (room : Nat) : Prop :=
  ∀ room' < room, ∀ (p : Part) (ts : List Token), p.Agrees room' ts

section

variable {room d fuel : Nat} {ts : List Token} {events : List Event}

theorem AgreeBelow.descend {α : Type} {after : State → Prop} {f : Unit → Run α}
    {r : Except ExprError (α × List Token)} (h : AgreeBelow room) (hd : d + room = maxDepth)
    (hzero : room = 0 → r = tooDeep)
    (hsucc : ∀ room', room = room' + 1 → d + 1 + room' = maxDepth →
      (∀ (p : Part) (ts : List Token), p.Agrees room' ts) →
      Ends ⟨ts, d + 1, events⟩ after (outcome (f ()) ⟨ts, d + 1, events⟩) r) :
    Ends ⟨ts, d, events⟩ after (outcome (descend >>= f) ⟨ts, d, events⟩) r := by
  cases room with
  | zero =>
    rw [hzero rfl]
    exact ends_tooDeep hd
  | succ room =>
    refine ends_descend hd (hsucc room rfl ?_ (h room (Nat.lt_succ_self room)))
    rw [← hd, Nat.add_assoc, Nat.add_comm 1 room]

theorem Part.Agrees.loop {p q : Part} {rest : List Token} (h : q.Agrees room rest)
    (hp : p.restores = false) (hfuel : q.need rest < fuel) (hd : d + room = maxDepth)
    (hrest : rest <:+ ts) (d' : Nat) :
    Ends ⟨rest, d, events⟩ (p.After d' ts) (outcome (run fuel q) ⟨rest, d, events⟩)
      (q.read room rest) :=
  (h fuel d events hfuel hd).imp fun _ hs => .of_loop hp (hs.1.trans hrest)

theorem agrees_chain (h : AgreeBelow room) (l : Nat) (left : Expr) (ts : List Token) :
    (Part.chain l left).Agrees room ts := by
  refine Part.agrees_of fun fuel d events hfuel hd => ?_
  change Ends _ _ (outcome (chain _ l left) _) (readChain l room left ts)
  rw [chain, readChain.eq_def]
  simp only [outcome_tokens_bind]
  cases hop : (symbol? ts).bind (operatorAt l) with
  | none => exact .ok id (.of_loop rfl List.suffix_rfl)
  | some op =>
    obtain ⟨s, hs, -⟩ := Option.bind_eq_some_iff.mp hop
    have htail := consumes_tail hs
    refine ends_advance (h.descend hd (by rintro rfl; rfl) ?_)
    rintro room rfl hdeeper hbelow
    have hright : (Part.level l).need ts.tail < fuel :=
      need_lt_of_consumes hfuel htail (by simp only [Part.rank]; omega)
    refine (hbelow (.level l) ts.tail).bind rfl hright hdeeper fun right mid events hmid => ?_
    have hrest := htail.trans hmid.suffix
    have hmore : (Part.chain l (.binary op left right)).need mid < fuel :=
      need_lt_of_consumes hfuel hrest (by simp only [Part.rank]; omega)
    exact (hbelow (.chain l (.binary op left right)) mid).loop rfl hmore hdeeper hrest.suffix d

theorem ends_member (h : AgreeBelow room) (first : Expr) (hdot : symbol? ts = some .dot)
    (hfuel : (Part.access first).need ts ≤ fuel) (hd : d + room = maxDepth) :
    Ends ⟨ts, d, events⟩ ((Part.access first).After d ts)
      (outcome (access (run fuel) first) ⟨ts, d, events⟩) (readAccess room first ts) := by
  have htail := consumes_tail hdot
  rw [access, readAccess.eq_def]
  simp only [outcome_tokens_bind, hdot]
  refine ends_advance (h.descend hd (by rintro rfl; rfl) ?_)
  rintro room rfl hdeeper hbelow
  simp only [outcome_tokens_bind]
  generalize ts.tail = us at htail
  rcases us with _ | ⟨⟨number | text | name | symbol, offset⟩, rest⟩
  case cons.name =>
    have hrest := htail.trans (List.suffix_cons _ rest)
    have hmore : (Part.access (.member first name)).need rest < fuel :=
      need_lt_of_consumes hfuel hrest (by simp [Part.rank])
    exact ends_advance
      ((hbelow (.access (.member first name)) rest).loop rfl hmore hdeeper hrest.suffix d)
  all_goals exact .error id

theorem ends_index (h : AgreeBelow room) (first : Expr) (hopen : symbol? ts = some .openBracket)
    (hfuel : (Part.access first).need ts ≤ fuel) (hd : d + room = maxDepth) :
    Ends ⟨ts, d, events⟩ ((Part.access first).After d ts)
      (outcome (access (run fuel) first) ⟨ts, d, events⟩) (readAccess room first ts) := by
  have htail := consumes_tail hopen
  rw [access, readAccess.eq_def]
  simp only [outcome_tokens_bind, hopen]
  refine ends_advance (h.descend hd (by rintro rfl; rfl) ?_)
  rintro room rfl hdeeper hbelow
  have hindex : (Part.level topLevel).need ts.tail < fuel :=
    need_lt_of_consumes hfuel htail (by simp [Part.rank, topLevel])
  refine (hbelow (.level topLevel) ts.tail).bind rfl hindex hdeeper
    fun i mid events hmid => ends_require fun rest hclose => ?_
  have hrest := htail.trans ((suffix_of_expect hclose).trans hmid.suffix)
  have hmore : (Part.access (.index first i)).need rest < fuel :=
    need_lt_of_consumes hfuel hrest (by simp [Part.rank])
  exact (hbelow (.access (.index first i)) rest).loop rfl hmore hdeeper hrest.suffix d

theorem agrees_access (h : AgreeBelow room) (first : Expr) (ts : List Token) :
    (Part.access first).Agrees room ts := by
  refine Part.agrees_of fun fuel d events hfuel hd => ?_
  by_cases hdot : symbol? ts = some .dot
  · exact ends_member h first hdot hfuel hd
  by_cases hopen : symbol? ts = some .openBracket
  · exact ends_index h first hopen hfuel hd
  change Ends _ _ (outcome (access _ first) _) (readAccess room first ts)
  rw [access, readAccess_other hdot hopen]
  simp only [outcome_tokens_bind]
  exact .ok id (.of_loop rfl List.suffix_rfl)

theorem ends_parens (h : AgreeBelow room) {offset : Nat} {rest : List Token}
    (hfuel : Part.primary.need (⟨.symbol .openParen, offset⟩ :: rest) ≤ fuel)
    (hd : d + room = maxDepth) :
    Ends ⟨⟨.symbol .openParen, offset⟩ :: rest, d, events⟩
      (Part.primary.After d (⟨.symbol .openParen, offset⟩ :: rest))
      (outcome (primary (run fuel)) ⟨⟨.symbol .openParen, offset⟩ :: rest, d, events⟩)
      (readPrimary room (⟨.symbol .openParen, offset⟩ :: rest)) := by
  rw [primary, readPrimary.eq_def]
  simp only [outcome_tokens_bind]
  refine ends_advance (h.descend hd (by rintro rfl; rfl) ?_)
  rintro room rfl hdeeper hbelow
  have hinner : (Part.level topLevel).need rest < fuel :=
    need_lt_of_consumes hfuel (consumes_cons _ rest) (by decide)
  refine (hbelow (.level topLevel) rest).bind rfl hinner hdeeper
    fun e mid events hmid => ends_require fun after hclose => ends_lower ?_
  have hafter : after <:+ rest := (suffix_of_expect hclose).trans hmid.suffix
  exact .ok id (.of_consumes ((consumes_cons _ rest).trans hafter))

theorem ends_brackets (h : AgreeBelow room) {offset : Nat} {rest : List Token}
    (hfuel : Part.primary.need (⟨.symbol .openBracket, offset⟩ :: rest) ≤ fuel)
    (hd : d + room = maxDepth) :
    Ends ⟨⟨.symbol .openBracket, offset⟩ :: rest, d, events⟩
      (Part.primary.After d (⟨.symbol .openBracket, offset⟩ :: rest))
      (outcome (primary (run fuel)) ⟨⟨.symbol .openBracket, offset⟩ :: rest, d, events⟩)
      (readPrimary room (⟨.symbol .openBracket, offset⟩ :: rest)) := by
  have hconsumes := consumes_cons ⟨.symbol .openBracket, offset⟩ rest
  rw [primary, readPrimary.eq_def]
  simp only [outcome_tokens_bind]
  refine ends_advance (h.descend hd (by rintro rfl; rfl) ?_)
  rintro room rfl hdeeper hbelow
  simp only [outcome_tokens_bind, List.tail_cons]
  split
  next =>
    have hafter := hconsumes.trans (List.tail_suffix rest)
    exact ends_advance (ends_lower (.ok id (.of_consumes hafter)))
  next =>
    have hitems : (Part.items []).need rest < fuel :=
      need_lt_of_consumes hfuel hconsumes (by decide)
    refine (hbelow (.items []) rest).finish rfl hitems hdeeper
      fun e after events hafter => ends_lower ?_
    exact .ok id (.of_consumes (hconsumes.trans hafter.suffix))

theorem agrees_primary (h : AgreeBelow room) (ts : List Token) :
    Part.primary.Agrees room ts := by
  refine Part.agrees_of fun fuel d events hfuel hd => ?_
  change Ends _ _ (outcome (primary _) _) (readPrimary room ts)
  rw [primary]
  simp only [outcome_tokens_bind]
  split
  next x offset rest =>
    rw [readPrimary]
    exact .ok id (.of_consumes (consumes_cons _ rest))
  next s offset rest =>
    rw [readPrimary]
    exact .ok id (.of_consumes (consumes_cons _ rest))
  next name offset rest =>
    rw [readPrimary]
    exact .ok id (.of_consumes (consumes_cons _ rest))
  next => exact ends_parens h hfuel hd
  next => exact ends_brackets h hfuel hd
  next hnumber htext hname hparen hbracket =>
    rw [readPrimary]
    · exact .error id
    all_goals assumption

theorem agrees_postfixed (h : AgreeBelow room) (ts : List Token) :
    Part.postfixed.Agrees room ts := by
  refine Part.agrees_of fun fuel d events hfuel hd => ?_
  change Ends _ _ (outcome (postfixed _) _) (readPrimary room ts >>= _)
  rw [postfixed]
  simp only [outcome_depth_bind]
  refine (agrees_primary h ts).bind rfl (need_lt (by decide) hfuel) hd
    fun first mid events hmid => ?_
  have hmore : (Part.access first).need mid < fuel :=
    need_lt_of_consumes hfuel hmid (by simp [Part.rank])
  refine Ends.finish (agrees_access h first mid fuel d events hmore hd) fun e s hs => ?_
  simp only [outcome_restore_bind]
  exact .ok id (.of_consumes (hmid.trans hs.1))

theorem agrees_prefixed (h : AgreeBelow room) (ts : List Token) :
    Part.prefixed.Agrees room ts := by
  refine Part.agrees_of fun fuel d events hfuel hd => ?_
  change Ends _ _ (outcome (prefixed _) _) (readPrefixed room ts)
  rw [prefixed, readPrefixed.eq_def]
  simp only [outcome_tokens_bind]
  cases hop : (symbol? ts).bind prefixAt with
  | none => exact agrees_postfixed h ts fuel d _ (need_lt (by decide) hfuel) hd
  | some op =>
    obtain ⟨s, hs, -⟩ := Option.bind_eq_some_iff.mp hop
    have htail := consumes_tail hs
    refine ends_advance (h.descend hd (by rintro rfl; rfl) ?_)
    rintro room rfl hdeeper hbelow
    have hmore : Part.prefixed.need ts.tail < fuel :=
      need_lt_of_consumes hfuel htail (by decide)
    refine (hbelow .prefixed ts.tail).bind rfl hmore hdeeper
      fun operand rest events hrest => ends_lower ?_
    exact .ok id (.of_consumes (htail.trans hrest.suffix))

theorem agrees_level (h : AgreeBelow room) (l : Nat) (ts : List Token) :
    (Part.level l).Agrees room ts := by
  induction l with
  | zero =>
    refine Part.agrees_of fun fuel d events hfuel hd => ?_
    change Ends _ _ (outcome (run fuel .prefixed) _) (readLevel 0 room ts)
    rw [readLevel]
    exact agrees_prefixed h ts fuel d _ (need_lt (by decide) hfuel) hd
  | succ l ih =>
    refine Part.agrees_of fun fuel d events hfuel hd => ?_
    change Ends _ _ (outcome (level _ (l + 1)) _) (readLevel (l + 1) room ts)
    rw [level, readLevel]
    simp only [outcome_depth_bind]
    have hleft : (Part.level l).need ts < fuel :=
      need_lt (by simp only [Part.rank]; omega) hfuel
    refine ih.bind rfl hleft hd fun left mid events hmid => ?_
    have hmore : (Part.chain l left).need mid < fuel :=
      need_lt_of_consumes hfuel hmid (by simp only [Part.rank]; omega)
    refine Ends.finish (agrees_chain h l left mid fuel d events hmore hd) fun e s hs => ?_
    simp only [outcome_restore_bind]
    exact .ok id (.of_consumes (hmid.trans hs.1))

theorem agrees_items (h : AgreeBelow room) (done : List Expr) (ts : List Token) :
    (Part.items done).Agrees room ts := by
  refine Part.agrees_of fun fuel d events hfuel hd => ?_
  change Ends _ _ (outcome (items _ done) _) (readItems room done ts)
  rw [items, readItems]
  refine (agrees_level h topLevel ts).bind rfl (need_lt (by simp [Part.rank]) hfuel) hd
    fun e mid events hmid => ?_
  simp only [outcome_tokens_bind]
  split
  · simp only [outcome_advance_bind]
    exact .ok id (.of_consumes (hmid.trans (List.tail_suffix mid)))
  · refine ends_require fun rest hcomma => ?_
    have hrest := hmid.trans (suffix_of_expect hcomma)
    have hlt := hrest.length_lt
    have hmore : (Part.items (e :: done)).need rest < fuel :=
      need_lt_of_consumes hfuel hrest (by simp [Part.rank, topLevel])
    rw [if_pos hlt]
    refine (agrees_items h (e :: done) rest fuel d events hmore hd).imp fun s hs => ?_
    obtain ⟨hdepth, hconsumes⟩ := hs.2 rfl
    exact ⟨hs.1.trans hrest.suffix, fun _ => ⟨hdepth, hrest.trans hs.1⟩⟩
termination_by ts.length

/-- The room of the readers is what the counter leaves. -/
theorem Part.agrees (p : Part) (room : Nat) (ts : List Token) : p.Agrees room ts := by
  induction room using Nat.strongRecOn generalizing p ts with
  | ind room ih =>
    cases p with
    | level l => exact agrees_level ih l ts
    | chain l left => exact agrees_chain ih l left ts
    | prefixed => exact agrees_prefixed ih ts
    | postfixed => exact agrees_postfixed ih ts
    | access e => exact agrees_access ih e ts
    | primary => exact agrees_primary ih ts
    | items done => exact agrees_items ih done ts

end

def bare (fuel : Nat) : Run Stmt := do
  let e ← run fuel (.level topLevel)
  if symbol? (← tokens) = some .assign then throw (.invalidTarget e) else return .expr e

def passDeclarator : Run Unit := modify fun s => { s with rest := dropDeclarator s.rest }

def statement (fuel : Nat) : Run Stmt := do
  record (.statement (← depth))
  passDeclarator
  match ← tokens with
  | ⟨.symbol s, _⟩ :: ⟨.name name, _⟩ :: _ =>
    match stepAt s with
    | some up => do
      advance
      advance
      return .step name up
    | none => bare fuel
  | ⟨.name name, _⟩ :: rest =>
    match (symbol? rest).bind stepAt, (symbol? rest).bind assignAt with
    | some up, _ => do
      advance
      advance
      return .step name up
    | none, some op => do
      advance
      advance
      let value ← run fuel (.level topLevel)
      return .assign name op value
    | none, none => bare fuel
  | _ => bare fuel

def statements : Nat → Run (List Stmt)
  | 0 => outOfFuel
  | fuel + 1 => do
    match ← tokens with
    | [] => return []
    | t :: _ =>
      if t.lexeme.isSymbol .semicolon then do
        advance
        statements fuel
      else do
        let s ← statement fuel
        let rest ← tokens
        if rest.isEmpty then return [s]
        else if symbol? rest = some .semicolon then do
          advance
          let more ← statements fuel
          return s :: more
        else throw (unexpected .statementEnd rest)

def Fresh (ts : List Token) (s : State) : Prop :=
  s.depth = 0 ∧ Consumes ts s.rest

theorem ends_expression {α : Type} {after : State → Prop} {ts : List Token} {fuel : Nat}
    {events : List Event} {f : Expr → Run α}
    {g : Expr × List Token → Except ExprError (α × List Token)}
    (hfuel : (Part.level topLevel).need ts < fuel)
    (hf : ∀ e rest events, Consumes ts rest →
      Ends ⟨rest, 0, events⟩ after (outcome (f e) ⟨rest, 0, events⟩) (g (e, rest))) :
    Ends ⟨ts, 0, events⟩ after (outcome (run fuel (.level topLevel) >>= f) ⟨ts, 0, events⟩)
      (readLevel topLevel maxDepth ts >>= g) :=
  ((Part.level topLevel).agrees maxDepth ts).bind rfl hfuel (Nat.zero_add maxDepth) hf

theorem ends_bare {ts : List Token} {fuel : Nat} (hfuel : (Part.level topLevel).need ts < fuel)
    (events : List Event) :
    Ends ⟨ts, 0, events⟩ (Fresh ts) (outcome (bare fuel) ⟨ts, 0, events⟩) (readBare ts) := by
  refine ends_expression hfuel fun e rest events hrest => ?_
  simp only [outcome_tokens_bind]
  split
  · exact .error id
  · exact .ok id ⟨rfl, hrest⟩

theorem outcome_passDeclarator_bind {α : Type} (s : State) (f : Unit → Run α) :
    outcome (passDeclarator >>= f) s = outcome (f ()) { s with rest := dropDeclarator s.rest } :=
  rfl

theorem need_le_of_suffix {p : Part} {us ts : List Token} (h : us <:+ ts) : p.need us ≤ p.need ts :=
  Nat.add_le_add_right (Nat.mul_le_mul_left 12 h.length_le) p.rank

theorem ends_statement {ts : List Token} {fuel : Nat} (events : List Event)
    (hfuel : (Part.level topLevel).need ts < fuel) :
    Ends ⟨ts, 0, events⟩ (Fresh ts) (outcome (statement fuel) ⟨ts, 0, events⟩)
      (readStatement ts) := by
  have hclean : State.Clean ⟨ts, 0, events⟩ →
      State.Clean ⟨dropDeclarator ts, 0, .statement 0 :: events⟩ :=
    clean_cons (s := ⟨ts, 0, events⟩) (e := .statement 0) rfl _ 0
  have hdrop := dropDeclarator_suffix ts
  rw [statement, readStatement]
  simp only [outcome_depth_bind, outcome_record_bind, outcome_passDeclarator_bind,
    outcome_tokens_bind]
  generalize dropDeclarator ts = us at hclean hdrop
  refine Ends.imp (?_ : Ends _ (Fresh us) _ _) fun s hs => ⟨hs.1, hs.2.of_suffix hdrop⟩
  refine Ends.from ?_ hclean
  have hneed : ∀ rest, rest <:+ us → (Part.level topLevel).need rest < fuel := fun rest hrest =>
    Nat.lt_of_le_of_lt (need_le_of_suffix (hrest.trans hdrop)) hfuel
  have hbare := ends_bare (hneed us List.suffix_rfl) (.statement 0 :: events)
  cases us with
  | nil => exact hbare
  | cons t rest =>
    obtain ⟨x, offset⟩ := t
    cases x with
    | number x => exact hbare
    | text s => exact hbare
    | symbol s =>
      rcases rest with _ | ⟨⟨y, offset'⟩, rest⟩
      · exact hbare
      cases y with
      | number x => exact hbare
      | text s => exact hbare
      | symbol s => exact hbare
      | name name =>
        dsimp only
        cases hup : stepAt s with
        | none => exact hbare
        | some up =>
          simp only [outcome_advance_bind, List.tail_cons]
          exact .ok id ⟨rfl, (consumes_cons _ _).trans (List.suffix_cons _ rest)⟩
    | name name =>
      change Ends _ _ _ (readNamed name rest _)
      unfold readNamed
      dsimp only
      cases hup : (symbol? rest).bind stepAt with
      | some up =>
        simp only [outcome_advance_bind, List.tail_cons]
        exact .ok id ⟨rfl, (consumes_cons _ _).trans (List.tail_suffix rest)⟩
      | none =>
        cases hop : (symbol? rest).bind assignAt with
        | none => exact hbare
        | some op =>
          have htail := List.tail_suffix rest
          simp only [outcome_advance_bind, List.tail_cons]
          refine (ends_expression (hneed _ (htail.trans (List.suffix_cons _ rest)))
            fun value after events hafter => ?_).from id
          exact .ok id ⟨rfl, (consumes_cons _ rest).trans (hafter.suffix.trans htail)⟩

theorem exists_fuel {ts : List Token} {fuel : Nat} (h : (Part.level topLevel).need ts < fuel) :
    ∃ fuel', fuel = fuel' + 1 ∧
      ∀ rest, Consumes ts rest → (Part.level topLevel).need rest < fuel' := by
  obtain ⟨fuel, rfl⟩ := Nat.exists_eq_succ_of_ne_zero (Nat.ne_zero_of_lt h)
  exact ⟨fuel, rfl, fun rest hrest =>
    need_lt_of_consumes (Nat.le_of_lt_succ h) hrest (by simp [Part.rank])⟩

theorem ends_statements {ts : List Token} {fuel : Nat} (events : List Event)
    (hfuel : (Part.level topLevel).need ts < fuel) :
    Ends ⟨ts, 0, events⟩ (fun s => s.depth = 0) (outcome (statements (fuel + 1)) ⟨ts, 0, events⟩)
      (readStatements ts >>= fun stmts => .ok (stmts, [])) := by
  fun_induction readStatements ts generalizing events fuel with
  | case1 => exact .ok id rfl
  | case2 t rest hsemicolon ih =>
    obtain ⟨fuel, rfl, hless⟩ := exists_fuel hfuel
    rw [statements]
    simp only [outcome_tokens_bind]
    rw [if_pos hsemicolon]
    simp only [outcome_advance_bind]
    exact (ih events (hless rest (consumes_cons t rest))).from id
  | case3 t rest hsemicolon ih =>
    obtain ⟨fuel, rfl, hless⟩ := exists_fuel hfuel
    rw [statements]
    simp only [outcome_tokens_bind]
    rw [if_neg hsemicolon, bind_assoc]
    refine Ends.bind (ends_statement events hfuel) fun s' a hs => ?_
    obtain ⟨after, d, events⟩ := a
    obtain ⟨rfl, hafter⟩ := hs
    simp only [outcome_tokens_bind]
    by_cases hend : after.isEmpty = true
    · obtain rfl := List.isEmpty_iff.mp hend
      exact .ok id rfl
    · rw [if_neg hend, if_neg hend]
      by_cases hnext : symbol? after = some .semicolon
      · have htail := hafter.trans (List.tail_suffix after)
        rw [if_pos hnext, if_pos hnext, if_pos htail.length_lt, bind_assoc]
        simp only [outcome_advance_bind]
        have hmore := (ih after htail.length_lt events (hless after.tail htail)).bind
          (f := fun more => pure (s' :: more)) (g := fun r => .ok (s' :: r.1, r.2))
          fun more s hs => .ok id hs
        rw [bind_assoc] at hmore
        exact hmore.from id
      · rw [if_neg hnext, if_neg hnext]
        exact .error id

theorem Ends.exists {α : Type} {ts : List Token} {d : Nat} {after : State → Prop}
    {o : Option (Except ExprError α × State)} {r : Except ExprError (α × List Token)}
    (h : Ends ⟨ts, d, []⟩ after o r) : ∃ result s, o = some (result, s) ∧
      result.map (·, s.rest) = r ∧ (∀ e ∈ s.events, e.Sound) ∧ ∀ a, result = .ok a → after s := by
  have hnil : State.Clean ⟨ts, d, []⟩ := nofun
  cases h with
  | ok hclean hafter => exact ⟨_, _, rfl, rfl, hclean hnil, fun _ _ => hafter⟩
  | error hclean => exact ⟨_, _, rfl, rfl, hclean hnil, nofun⟩

/-- The counter is balanced. With fuel in proportion to the tokens every part comes to an end from
every depth within the limit, as the reader does to which the counter leaves the room; all its
calls, however deep, are made within the limit, and the counter is lowered from above zero only. A
production that succeeds has read a token and leaves the counter as it was, and so do the items of
an array. Statements start with the counter at zero, each of them. -/
theorem run_balanced (ts : List Token) :
    (∀ (p : Part) (d fuel : Nat), d ≤ maxDepth → p.need ts < fuel → ∃ result s,
      outcome (run fuel p) ⟨ts, d, []⟩ = some (result, s) ∧
      result.map (·, s.rest) = p.read (maxDepth - d) ts ∧
      (∀ e ∈ s.events, e.Sound) ∧
      ∀ e, result = .ok e → p.restores = true →
        s.depth = d ∧ ∃ us, us ≠ [] ∧ ts = us ++ s.rest) ∧
    ∀ fuel, (Part.level topLevel).need ts < fuel → ∃ result s,
      outcome (statements (fuel + 1)) ⟨ts, 0, []⟩ = some (result, s) ∧
      result = readStatements ts ∧
      (∀ e ∈ s.events, e.Sound) ∧ ∀ stmts, result = .ok stmts → s.depth = 0 ∧ s.rest = [] := by
  constructor
  · intro p d fuel hd hfuel
    obtain ⟨result, s, ho, hr, hsound, hafter⟩ :=
      (p.agrees (maxDepth - d) ts fuel d [] hfuel (Nat.add_sub_of_le hd)).exists
    exact ⟨result, s, ho, hr, hsound, fun e he hp => (hafter e he).2 hp⟩
  · intro fuel hfuel
    obtain ⟨result, ⟨rest, d, events⟩, ho, hr, hsound, hafter⟩ := (ends_statements [] hfuel).exists
    have hsame : result = readStatements ts ∧ ∀ stmts, result = .ok stmts → rest = [] := by
      generalize readStatements ts = read at hr
      cases read <;> cases result <;> cases hr <;> simp
    exact ⟨result, _, ho, hsame.1, hsound, fun stmts he => ⟨hafter stmts he, hsame.2 stmts he⟩⟩

/-- The sign, the bracket and the sum take the last three levels, and give them back. -/
theorem run_balanced_last_levels : 125 ≤ maxDepth ∧
    (Part.level topLevel).need [⟨.symbol .minus, 0⟩, ⟨.symbol .openParen, 1⟩, ⟨.name "a", 2⟩,
      ⟨.symbol .plus, 3⟩, ⟨.name "b", 4⟩, ⟨.symbol .closeParen, 5⟩] < 100 ∧ ∃ s,
    outcome (run 100 (.level topLevel)) ⟨[⟨.symbol .minus, 0⟩, ⟨.symbol .openParen, 1⟩,
      ⟨.name "a", 2⟩, ⟨.symbol .plus, 3⟩, ⟨.name "b", 4⟩, ⟨.symbol .closeParen, 5⟩], 125, []⟩ =
      some (.ok (.unary .neg (.binary .add (.variable "a") (.variable "b"))), s) ∧
    s.depth = 125 ∧ s.rest = [] ∧ ∀ e ∈ s.events, e.Sound := by
  have hread : (Part.level topLevel).read (maxDepth - 125) [⟨.symbol .minus, 0⟩,
      ⟨.symbol .openParen, 1⟩, ⟨.name "a", 2⟩, ⟨.symbol .plus, 3⟩, ⟨.name "b", 4⟩,
      ⟨.symbol .closeParen, 5⟩] =
      .ok (.unary .neg (.binary .add (.variable "a") (.variable "b")), []) := by cbv
  have hfuel : (Part.level topLevel).need [⟨.symbol .minus, 0⟩, ⟨.symbol .openParen, 1⟩,
      ⟨.name "a", 2⟩, ⟨.symbol .plus, 3⟩, ⟨.name "b", 4⟩, ⟨.symbol .closeParen, 5⟩] < 100 := by
    decide
  obtain ⟨result, ⟨rest, d, events⟩, ho, hr, hsound, hafter⟩ :=
    (run_balanced _).1 (.level topLevel) 125 100 (by decide) hfuel
  rw [hread] at hr
  cases result with
  | error e => cases hr
  | ok e =>
    cases hr
    exact ⟨by decide, hfuel, _, ho, (hafter _ rfl rfl).1, rfl, hsound⟩

end ActiveMarkup.Parser.Counting
