import ActiveMarkup.Proofs.Expr.Grammar
set_option autoImplicit false

namespace ActiveMarkup.Parser

/-- A reader, with the operand or the items that it goes on from. -/
inductive Task where
  | level (level : Nat)
  | chain (level : Nat) (left : Expr)
  | prefixed
  | access (e : Expr)
  | primary
  | items (items : List Expr)

def Task.read : Task → Nat → List Token → Read
  | level l, room, ts => readLevel l room ts
  | chain l left, room, ts => readChain l room left ts
  | prefixed, room, ts => readPrefixed room ts
  | access e, room, ts => readAccess room e ts
  | primary, room, ts => readPrimary room ts
  | items done, room, ts => readItems room done ts

/-- With the given room the task reads the expression off the tokens and leaves the rest. -/
inductive Reads : Task → Nat → List Token → Expr → List Token → Prop where
  | operand {room : Nat} {ts rest : List Token} {e : Expr} :
      Reads .prefixed room ts e rest → Reads (.level 0) room ts e rest
  | level {l room : Nat} {ts mid rest : List Token} {left e : Expr} :
      Reads (.level l) room ts left mid → Reads (.chain l left) room mid e rest →
      Reads (.level (l + 1)) room ts e rest
  | chained {l room : Nat} {ts : List Token} {left : Expr} :
      Reads (.chain l left) room ts left ts
  | link (op : BinaryOp) {room offset : Nat} {ts mid rest : List Token} {left right e : Expr} :
      Reads (.level op.level) room ts right mid →
      Reads (.chain op.level (.binary op left right)) room mid e rest →
      Reads (.chain op.level left) (room + 1) (⟨.symbol op.symbol, offset⟩ :: ts) e rest
  | accesses {room : Nat} {ts mid rest : List Token} {first e : Expr} :
      Reads .primary room ts first mid → Reads (.access first) room mid e rest →
      Reads .prefixed room ts e rest
  | unary (op : UnaryOp) {room offset : Nat} {ts rest : List Token} {e : Expr} :
      Reads .prefixed room ts e rest →
      Reads .prefixed (room + 1) (⟨.symbol op.symbol, offset⟩ :: ts) (.unary op e) rest
  | accessed {room : Nat} {ts : List Token} {e : Expr} : Reads (.access e) room ts e ts
  | member {room offset offset' : Nat} {name : String} {ts rest : List Token} {first e : Expr} :
      Reads (.access (.member first name)) room ts e rest →
      Reads (.access first) (room + 1) (⟨.symbol .dot, offset⟩ :: ⟨.name name, offset'⟩ :: ts) e
        rest
  | index {room offset offset' : Nat} {ts mid rest : List Token} {first i e : Expr} :
      Reads (.level topLevel) room ts i (⟨.symbol .closeBracket, offset'⟩ :: mid) →
      Reads (.access (.index first i)) room mid e rest →
      Reads (.access first) (room + 1) (⟨.symbol .openBracket, offset⟩ :: ts) e rest
  | number {room offset : Nat} {x : Float} {rest : List Token} :
      Reads .primary room (⟨.number x, offset⟩ :: rest) (.literal (.number x)) rest
  | text {room offset : Nat} {s : String} {rest : List Token} :
      Reads .primary room (⟨.text s, offset⟩ :: rest) (.literal (.text s)) rest
  | name {room offset : Nat} {name : String} {rest : List Token} :
      Reads .primary room (⟨.name name, offset⟩ :: rest) (ofName name) rest
  | parens {room offset offset' : Nat} {ts rest : List Token} {e : Expr} :
      Reads (.level topLevel) room ts e (⟨.symbol .closeParen, offset'⟩ :: rest) →
      Reads .primary (room + 1) (⟨.symbol .openParen, offset⟩ :: ts) e rest
  | noItems {room offset offset' : Nat} {rest : List Token} :
      Reads .primary (room + 1)
        (⟨.symbol .openBracket, offset⟩ :: ⟨.symbol .closeBracket, offset'⟩ :: rest) (.array [])
        rest
  | array {room offset : Nat} {ts rest : List Token} {e : Expr} :
      Reads (.items []) room ts e rest →
      Reads .primary (room + 1) (⟨.symbol .openBracket, offset⟩ :: ts) e rest
  | lastItem {room offset : Nat} {done : List Expr} {ts rest : List Token} {e : Expr} :
      Reads (.level topLevel) room ts e (⟨.symbol .closeBracket, offset⟩ :: rest) →
      Reads (.items done) room ts (.array (e :: done).reverse) rest
  | item {room offset : Nat} {done : List Expr} {ts mid rest : List Token} {first e : Expr} :
      Reads (.level topLevel) room ts first (⟨.symbol .comma, offset⟩ :: mid) →
      Reads (.items (first :: done)) room mid e rest → Reads (.items done) room ts e rest

theorem bind_eq_ok {ε α β : Type} {x : Except ε α} {f : α → Except ε β} {b : β} :
    x >>= f = .ok b ↔ ∃ a, x = .ok a ∧ f a = .ok b := by
  cases x with
  | error e => exact ⟨nofun, nofun⟩
  | ok a => exact ⟨fun h => ⟨a, rfl, h⟩, fun ⟨_, ha, h⟩ => by cases ha; exact h⟩

theorem symbol?_eq_some {ts : List Token} {s : Symbol} :
    symbol? ts = some s ↔ ∃ offset, ts = ⟨.symbol s, offset⟩ :: ts.tail := by
  constructor
  · intro h
    unfold symbol? at h
    split at h
    next s' offset rest =>
      cases h
      exact ⟨offset, rfl⟩
    next => cases h
  · rintro ⟨offset, h⟩
    rw [h]
    rfl

theorem symbol?_bind_eq_some {α : Type} {ts : List Token} {f : Symbol → Option α} {a : α} :
    (symbol? ts).bind f = some a ↔
      ∃ s offset, ts = ⟨.symbol s, offset⟩ :: ts.tail ∧ f s = some a := by
  rw [Option.bind_eq_some_iff]
  constructor
  · rintro ⟨s, hs, ha⟩
    obtain ⟨offset, hts⟩ := symbol?_eq_some.mp hs
    exact ⟨s, offset, hts, ha⟩
  · rintro ⟨s, offset, hts, ha⟩
    exact ⟨s, symbol?_eq_some.mpr ⟨offset, hts⟩, ha⟩

theorem expect_eq_ok {s : Symbol} {ts rest : List Token} :
    expect s ts = .ok rest ↔ ∃ offset, ts = ⟨.symbol s, offset⟩ :: rest := by
  unfold expect
  split
  next h =>
    obtain ⟨offset, hts⟩ := symbol?_eq_some.mp h
    constructor
    · rintro ⟨⟩
      exact ⟨offset, hts⟩
    · rintro ⟨_, rfl⟩
      rfl
  next h =>
    refine ⟨nofun, ?_⟩
    rintro ⟨_, rfl⟩
    exact (h rfl).elim

def Task.Recorded (t : Task) (room : Nat) (ts : List Token) : Prop :=
  ∀ e rest, t.read room ts = .ok (e, rest) → Reads t room ts e rest

section

variable {l room offset : Nat} {ts : List Token} {left first : Expr} {done : List Expr}

theorem recorded_of_error {t : Task} {x : ExprError} (h : t.read room ts = .error x) :
    t.Recorded room ts := by
  intro e rest hread
  rw [h] at hread
  cases hread

theorem recorded_operand (hp : Task.prefixed.Recorded room ts) :
    (Task.level 0).Recorded room ts := by
  intro e rest h
  rw [Task.read, readLevel] at h
  exact .operand (hp e rest h)

theorem recorded_level (hl : (Task.level l).Recorded room ts)
    (hc : ∀ left mid, (Task.chain l left).Recorded room mid) :
    (Task.level (l + 1)).Recorded room ts := by
  intro e rest h
  rw [Task.read, readLevel] at h
  obtain ⟨⟨left, mid⟩, hleft, hchain⟩ := bind_eq_ok.mp h
  exact .level (hl left mid hleft) (hc left mid e rest hchain)

theorem recorded_chained (hop : (symbol? ts).bind (operatorAt l) = none) :
    (Task.chain l left).Recorded room ts := by
  intro e rest h
  rw [Task.read, readChain, hop] at h
  cases h
  exact .chained

theorem recorded_link {op : BinaryOp} (hop : (symbol? ts).bind (operatorAt l) = some op)
    (hl : (Task.level l).Recorded room ts.tail)
    (hc : ∀ right mid, (Task.chain l (.binary op left right)).Recorded room mid) :
    (Task.chain l left).Recorded (room + 1) ts := by
  intro e rest h
  rw [Task.read, readChain, hop] at h
  obtain ⟨⟨right, mid⟩, hright, hchain⟩ := bind_eq_ok.mp h
  obtain ⟨s, offset, hts, hs⟩ := symbol?_bind_eq_some.mp hop
  obtain ⟨rfl, rfl⟩ := operatorAt_eq_some.mp hs
  rw [hts]
  exact .link op (hl right mid hright) (hc right mid e rest hchain)

theorem recorded_accesses (hop : (symbol? ts).bind prefixAt = none)
    (hp : Task.primary.Recorded room ts)
    (ha : ∀ first mid, (Task.access first).Recorded room mid) :
    Task.prefixed.Recorded room ts := by
  intro e rest h
  rw [Task.read, readPrefixed, hop] at h
  obtain ⟨⟨first, mid⟩, hfirst, haccess⟩ := bind_eq_ok.mp h
  exact .accesses (hp first mid hfirst) (ha first mid e rest haccess)

theorem recorded_unary {op : UnaryOp} (hop : (symbol? ts).bind prefixAt = some op)
    (hp : Task.prefixed.Recorded room ts.tail) : Task.prefixed.Recorded (room + 1) ts := by
  intro e rest h
  rw [Task.read, readPrefixed, hop] at h
  obtain ⟨⟨operand, mid⟩, hoperand, hpure⟩ := bind_eq_ok.mp h
  cases hpure
  obtain ⟨s, offset, hts, hs⟩ := symbol?_bind_eq_some.mp hop
  obtain rfl := prefixAt_eq_some.mp hs
  rw [hts]
  exact .unary op (hp operand rest hoperand)

theorem recorded_member {name : String} {after : List Token} (hdot : symbol? ts = some .dot)
    (htail : ts.tail = ⟨.name name, offset⟩ :: after)
    (ha : (Task.access (.member first name)).Recorded room after) :
    (Task.access first).Recorded (room + 1) ts := by
  intro e rest h
  rw [Task.read, readAccess, hdot] at h
  simp only [htail] at h
  obtain ⟨offset, hts⟩ := symbol?_eq_some.mp hdot
  rw [hts, htail]
  exact .member (ha e rest h)

theorem recorded_index (hopen : symbol? ts = some .openBracket)
    (hl : (Task.level topLevel).Recorded room ts.tail)
    (ha : ∀ i after, (Task.access (.index first i)).Recorded room after) :
    (Task.access first).Recorded (room + 1) ts := by
  intro e rest h
  rw [Task.read, readAccess, hopen] at h
  obtain ⟨⟨i, mid⟩, hi, h⟩ := bind_eq_ok.mp h
  obtain ⟨after, hclose, haccess⟩ := bind_eq_ok.mp h
  obtain ⟨offset', rfl⟩ := expect_eq_ok.mp hclose
  obtain ⟨offset, hts⟩ := symbol?_eq_some.mp hopen
  rw [hts]
  exact .index (hl i _ hi) (ha i after e rest haccess)

theorem readAccess_other (hdot : symbol? ts ≠ some .dot) (hopen : symbol? ts ≠ some .openBracket)
    (room : Nat) (e : Expr) : readAccess room e ts = .ok (e, ts) := by
  unfold readAccess
  split
  next hs => exact (hdot hs).elim
  next hs => exact (hopen hs).elim
  next => rfl

theorem recorded_accessed (hdot : symbol? ts ≠ some .dot)
    (hopen : symbol? ts ≠ some .openBracket) : (Task.access first).Recorded room ts := by
  intro e rest h
  rw [Task.read, readAccess_other hdot hopen] at h
  cases h
  exact .accessed

theorem recorded_leaf {e : Expr} {rest : List Token} (hreads : Reads .primary room ts e rest)
    (hread : readPrimary room ts = .ok (e, rest)) : Task.primary.Recorded room ts := by
  intro e' rest' h
  cases hread.symm.trans h
  exact hreads

theorem recorded_parens (hl : (Task.level topLevel).Recorded room ts) :
    Task.primary.Recorded (room + 1) (⟨.symbol .openParen, offset⟩ :: ts) := by
  intro e rest h
  rw [Task.read, readPrimary] at h
  obtain ⟨⟨inner, mid⟩, hinner, h⟩ := bind_eq_ok.mp h
  obtain ⟨after, hclose, hpure⟩ := bind_eq_ok.mp h
  cases hpure
  obtain ⟨offset', rfl⟩ := expect_eq_ok.mp hclose
  exact .parens (hl e _ hinner)

theorem recorded_noItems (hclose : symbol? ts = some .closeBracket) :
    Task.primary.Recorded (room + 1) (⟨.symbol .openBracket, offset⟩ :: ts) := by
  intro e rest h
  rw [Task.read, readPrimary] at h
  simp only [hclose, if_true] at h
  cases h
  obtain ⟨offset', hts⟩ := symbol?_eq_some.mp hclose
  rw [hts]
  exact .noItems

theorem recorded_array (hclose : symbol? ts ≠ some .closeBracket)
    (hi : (Task.items []).Recorded room ts) :
    Task.primary.Recorded (room + 1) (⟨.symbol .openBracket, offset⟩ :: ts) := by
  intro e rest h
  rw [Task.read, readPrimary] at h
  simp only [hclose, if_false] at h
  exact .array (hi e rest h)

theorem recorded_items (hl : (Task.level topLevel).Recorded room ts)
    (hi : ∀ first after, after.length < ts.length →
      (Task.items (first :: done)).Recorded room after) :
    (Task.items done).Recorded room ts := by
  intro e rest h
  rw [Task.read, readItems] at h
  obtain ⟨⟨first, mid⟩, hfirst, h⟩ := bind_eq_ok.mp h
  simp only at h
  split at h
  next hclose =>
    obtain ⟨offset, hmid⟩ := symbol?_eq_some.mp hclose
    cases h
    rw [hmid] at hfirst
    exact .lastItem (hl first _ hfirst)
  next =>
    obtain ⟨after, hcomma, hmore⟩ := bind_eq_ok.mp h
    obtain ⟨offset, rfl⟩ := expect_eq_ok.mp hcomma
    split at hmore
    next hlt => exact .item (hl first _ hfirst) (hi first after hlt e rest hmore)
    next => cases hmore

end

theorem recorded_all :
    (∀ l room ts, (Task.level l).Recorded room ts) ∧
    (∀ l room left ts, (Task.chain l left).Recorded room ts) ∧
    (∀ room ts, Task.prefixed.Recorded room ts) ∧
    (∀ room e ts, (Task.access e).Recorded room ts) ∧
    (∀ room ts, Task.primary.Recorded room ts) ∧
    (∀ room done ts, (Task.items done).Recorded room ts) := by
  apply readLevel.mutual_induct (fun l room ts => (Task.level l).Recorded room ts)
    (fun l room left ts => (Task.chain l left).Recorded room ts)
    (fun room ts => Task.prefixed.Recorded room ts)
    (fun room e ts => (Task.access e).Recorded room ts)
    (fun room ts => Task.primary.Recorded room ts)
    (fun room done ts => (Task.items done).Recorded room ts)
  case case1 => exact fun _ _ => recorded_operand
  case case2 => exact fun _ _ _ => recorded_level
  case case3 => exact fun _ _ _ _ => recorded_chained
  case case4 =>
    intro l left ts op hop
    exact recorded_of_error (by rw [Task.read, readChain, hop]; rfl)
  case case5 => exact fun _ _ _ _ hop _ => recorded_link hop
  case case6 => exact fun _ _ => recorded_accesses
  case case7 =>
    intro ts op hop
    exact recorded_of_error (by rw [Task.read, readPrefixed, hop]; rfl)
  case case8 => exact fun _ _ hop _ => recorded_unary hop
  case case9 =>
    intro first ts hdot
    exact recorded_of_error (by rw [Task.read, readAccess, hdot]; rfl)
  case case10 => exact fun _ _ hdot _ _ _ _ htail => recorded_member hdot htail
  case case11 =>
    intro first ts hdot room hname
    refine recorded_of_error (x := unexpected .propertyName ts.tail) ?_
    rw [Task.read, readAccess, hdot]
    simp only
  case case12 =>
    intro first ts hopen
    exact recorded_of_error (by rw [Task.read, readAccess, hopen]; rfl)
  case case13 => exact fun _ _ hopen _ => recorded_index hopen
  case case14 => exact fun _ _ _ hdot hopen => recorded_accessed hdot hopen
  case case15 => exact fun _ _ _ _ => recorded_leaf .number (by rw [readPrimary])
  case case16 => exact fun _ _ _ _ => recorded_leaf .text (by rw [readPrimary])
  case case17 => exact fun _ _ _ _ => recorded_leaf .name (by rw [readPrimary])
  case case18 => exact fun _ _ => recorded_of_error (by rw [Task.read, readPrimary]; rfl)
  case case19 => exact fun _ _ _ => recorded_parens
  case case20 => exact fun _ _ => recorded_of_error (by rw [Task.read, readPrimary]; rfl)
  case case21 => exact fun _ _ _ => recorded_noItems
  case case22 => exact fun _ _ _ => recorded_array
  case case23 =>
    intro room ts hnumber htext hname hparen hbracket
    refine recorded_of_error (x := unexpected .expression ts) ?_
    rw [Task.read, readPrimary] <;> assumption
  case case24 => exact fun _ _ _ => recorded_items

theorem Task.recorded (t : Task) (room : Nat) (ts : List Token) : t.Recorded room ts := by
  obtain ⟨hlevel, hchain, hprefixed, haccess, hprimary, hitems⟩ := recorded_all
  cases t with
  | level l => exact hlevel l room ts
  | chain l left => exact hchain l room left ts
  | prefixed => exact hprefixed room ts
  | access e => exact haccess room e ts
  | primary => exact hprimary room ts
  | items done => exact hitems room done ts

end ActiveMarkup.Parser
