import ActiveMarkup.Proofs.Expr.Reading
set_option autoImplicit false

/-!
The parser decides the grammar. Whatever it reads is derived by the grammar, and whatever the
grammar derives is read as that expression unless the room runs out; the room runs out only if
there are more nesting tokens than room.
-/

namespace ActiveMarkup.Parser

open Grammar

def lexemes (ts : List Token) : List Lexeme := ts.map Token.lexeme

theorem lexemes_append (us vs : List Token) : lexemes (us ++ vs) = lexemes us ++ lexemes vs :=
  List.map_append

theorem exists_of_lexemes_append {us : List Token} {u v : List Lexeme} (h : lexemes us = u ++ v) :
    ∃ us₁ us₂, us = us₁ ++ us₂ ∧ lexemes us₁ = u ∧ lexemes us₂ = v := by
  obtain ⟨us₁, us₂, rfl, h₁, h₂⟩ := List.map_eq_append_iff.mp h
  exact ⟨us₁, us₂, rfl, h₁, h₂⟩

theorem exists_of_lexemes_cons {us : List Token} {x : Lexeme} {v : List Lexeme}
    (h : lexemes us = x :: v) : ∃ offset us₂, us = ⟨x, offset⟩ :: us₂ ∧ lexemes us₂ = v := by
  obtain ⟨⟨_, offset⟩, us₂, rfl, rfl, h₂⟩ := List.map_eq_cons_iff.mp h
  exact ⟨offset, us₂, rfl, h₂⟩

theorem exists_of_lexemes_singleton {us : List Token} {x : Lexeme} (h : lexemes us = [x]) :
    ∃ offset, us = [⟨x, offset⟩] := by
  obtain ⟨offset, vs, rfl, hnil⟩ := exists_of_lexemes_cons h
  exact ⟨offset, by rw [List.map_eq_nil_iff.mp hnil]⟩

def Task.Spells (u : List Lexeme) (e : Expr) : Task → Prop
  | .level l => Derives (.operand l) u e
  | .chain l left =>
    ∀ v, Derives (.operand (l + 1)) v left → Derives (.operand (l + 1)) (v ++ u) e
  | .prefixed => Derives (.operand 0) u e
  | .access first => ∀ v, Derives .access v first → Derives .access (v ++ u) e
  | .primary => Derives .primary u e
  | .items done => ∃ items : List (List Lexeme × Expr),
      (∀ item ∈ items, Derives expression item.1 item.2) ∧ items ≠ [] ∧
      u = [.symbol .comma].intercalate (items.map Prod.fst) ++ [.symbol .closeBracket] ∧
      e = .array (done.reverse ++ items.map Prod.snd)

theorem Reads.spells {t : Task} {room : Nat} {ts rest : List Token} {e : Expr}
    (h : Reads t room ts e rest) : ∃ us, ts = us ++ rest ∧ t.Spells (lexemes us) e := by
  induction h with
  | operand _ ih => exact ih
  | level _ _ ihl ihc =>
    obtain ⟨us, rfl, hl⟩ := ihl
    obtain ⟨vs, rfl, hc⟩ := ihc
    refine ⟨us ++ vs, (List.append_assoc us vs _).symm, ?_⟩
    rw [lexemes_append]
    exact hc _ (.tighter hl)
  | chained => exact ⟨[], rfl, fun v hv => by rwa [lexemes, List.map_nil, List.append_nil]⟩
  | @link op room offset ts mid rest left right e _ _ ihl ihc =>
    obtain ⟨us, rfl, hl⟩ := ihl
    obtain ⟨vs, rfl, hc⟩ := ihc
    refine ⟨⟨.symbol op.symbol, offset⟩ :: (us ++ vs), by simp, fun v hv => ?_⟩
    have hbinary := hc _ (.binary op hv hl)
    rwa [List.append_assoc, List.cons_append, ← lexemes_append] at hbinary
  | accesses _ _ ihp iha =>
    obtain ⟨us, rfl, hp⟩ := ihp
    obtain ⟨vs, rfl, ha⟩ := iha
    refine ⟨us ++ vs, (List.append_assoc us vs _).symm, ?_⟩
    rw [lexemes_append]
    exact .access (ha _ (.primary hp))
  | @unary op room offset ts rest e _ ih =>
    obtain ⟨us, rfl, hp⟩ := ih
    exact ⟨⟨.symbol op.symbol, offset⟩ :: us, rfl, .unary op hp⟩
  | accessed => exact ⟨[], rfl, fun v hv => by rwa [lexemes, List.map_nil, List.append_nil]⟩
  | @member room offset offset' name ts rest first e _ ih =>
    obtain ⟨us, rfl, ha⟩ := ih
    refine ⟨⟨.symbol .dot, offset⟩ :: ⟨.name name, offset'⟩ :: us, rfl, fun v hv => ?_⟩
    have hmember := ha _ (.member name hv)
    rwa [List.append_assoc] at hmember
  | @index room offset offset' ts mid rest first i e _ _ ihl iha =>
    obtain ⟨us, rfl, hl⟩ := ihl
    obtain ⟨vs, rfl, ha⟩ := iha
    refine ⟨⟨.symbol .openBracket, offset⟩ :: (us ++ ⟨.symbol .closeBracket, offset'⟩ :: vs),
      by simp, fun v hv => ?_⟩
    have hindex := ha _ (.index hv hl)
    simpa [lexemes] using hindex
  | @number room offset x rest => exact ⟨[⟨.number x, offset⟩], rfl, .number x⟩
  | @text room offset s rest => exact ⟨[⟨.text s, offset⟩], rfl, .text s⟩
  | @name room offset name rest => exact ⟨[⟨.name name, offset⟩], rfl, derives_ofName name⟩
  | @parens room offset offset' ts rest e _ ih =>
    obtain ⟨us, rfl, hl⟩ := ih
    refine ⟨⟨.symbol .openParen, offset⟩ :: (us ++ [⟨.symbol .closeParen, offset'⟩]), by simp, ?_⟩
    have hparens := Derives.parens hl
    rwa [Task.Spells, lexemes, List.map_cons, List.map_append]
  | @noItems room offset offset' rest =>
    exact ⟨[⟨.symbol .openBracket, offset⟩, ⟨.symbol .closeBracket, offset'⟩], rfl, .array [] nofun⟩
  | @array room offset ts rest e _ ih =>
    obtain ⟨us, rfl, items, hitems, -, hus, rfl⟩ := ih
    refine ⟨⟨.symbol .openBracket, offset⟩ :: us, rfl, ?_⟩
    have harray := Derives.array items hitems
    rwa [← hus] at harray
  | @lastItem room offset done ts rest e _ ih =>
    obtain ⟨us, rfl, hl⟩ := ih
    refine ⟨us ++ [⟨.symbol .closeBracket, offset⟩], by simp, [(lexemes us, e)], ?_, by simp,
      ?_, ?_⟩
    · exact List.forall_mem_singleton.mpr hl
    · simp [lexemes]
    · simp
  | @item room offset done ts mid rest first e _ _ ihl ihi =>
    obtain ⟨us, rfl, hl⟩ := ihl
    obtain ⟨vs, rfl, items, hitems, hne, hvs, rfl⟩ := ihi
    refine ⟨us ++ ⟨.symbol .comma, offset⟩ :: vs, by simp, (lexemes us, first) :: items, ?_,
      by simp, ?_, by simp⟩
    · rintro item hitem
      rcases List.mem_cons.mp hitem with rfl | hitem
      · exact hl
      · exact hitems item hitem
    · obtain ⟨next, items, rfl⟩ := List.exists_cons_of_ne_nil hne
      rw [lexemes_append]
      change lexemes us ++ .symbol .comma :: lexemes vs = _
      rw [hvs]
      simp [List.intercalate]

/-- How many tokens take the expression one level deeper. -/
def nesting (us : List Token) : Nat := us.countP fun t => nests t.lexeme

theorem nesting_append (us vs : List Token) : nesting (us ++ vs) = nesting us + nesting vs :=
  List.countP_append

theorem nesting_cons {x : Lexeme} (hx : nests x = true) (offset : Nat) (us : List Token) :
    nesting (⟨x, offset⟩ :: us) = nesting us + 1 :=
  List.countP_cons_of_pos hx

/-- The reading comes to the result with some of the room, of which every nesting token takes one
unit, or there is less room than nesting. -/
def Comes (us : List Token) (room : Nat) (r : Read) (result : Nat → Read) : Prop :=
  (∃ room', room ≤ room' + nesting us ∧ r = result room') ∨ room < nesting us ∧ r = tooDeep

section

variable {us vs : List Token} {room : Nat} {r next : Read} {result : Nat → Read}

theorem comes_all (us : List Token) (h : r = result room) : Comes us room r result :=
  .inl ⟨room, Nat.le_add_right room _, h⟩

theorem Comes.mono (h : Comes us room r result) (hle : nesting us ≤ nesting vs) :
    Comes vs room r result := by
  rcases h with ⟨room', hroom, hr⟩ | ⟨hlt, hr⟩
  · exact .inl ⟨room', by omega, hr⟩
  · exact .inr ⟨by omega, hr⟩

theorem Comes.trans {result' : Nat → Read} (h : Comes us room r result)
    (hnext : ∀ room', Comes vs room' (result room') result') : Comes (us ++ vs) room r result' := by
  have happend := nesting_append us vs
  rcases h with ⟨room₁, hroom₁, rfl⟩ | ⟨hlt, hr⟩
  · rcases hnext room₁ with ⟨room₂, hroom₂, hr⟩ | ⟨hlt, hr⟩
    · exact .inl ⟨room₂, by omega, hr⟩
    · exact .inr ⟨by omega, hr⟩
  · exact .inr ⟨by omega, hr⟩

theorem Comes.share (h : Comes us room r fun _ => next) (hnext : Comes vs room next result) :
    Comes (us ++ vs) room r result := by
  have happend := nesting_append us vs
  rcases h with ⟨-, -, rfl⟩ | ⟨hlt, hr⟩
  · exact hnext.mono (by omega)
  · exact .inr ⟨by omega, hr⟩

theorem Comes.bind {a : Expr × List Token} {f : Expr × List Token → Read}
    (h : Comes us room r fun _ => .ok a) (hf : f a = result room) :
    Comes us room (r >>= f) result := by
  rcases h with ⟨-, -, rfl⟩ | ⟨hlt, rfl⟩
  · exact comes_all us hf
  · exact .inr ⟨hlt, rfl⟩

theorem comes_cons {x : Lexeme} (hx : nests x = true) (offset : Nat)
    (hzero : room = 0 → r = tooDeep)
    (hsucc : ∀ room', room = room' + 1 → Comes us room' r result) :
    Comes (⟨x, offset⟩ :: us) room r result := by
  have hcons := nesting_cons hx offset us
  cases room with
  | zero => exact .inr ⟨by omega, hzero rfl⟩
  | succ room =>
    rcases hsucc room rfl with ⟨room', hroom, hr⟩ | ⟨hlt, hr⟩
    · exact .inl ⟨room', by omega, hr⟩
    · exact .inr ⟨by omega, hr⟩

end

/-- The tokens do not go on with an access or with an operator of the tightest levels. -/
def Stops (levels : Nat) (rest : List Token) : Prop :=
  ∀ s, symbol? rest = some s →
    s ≠ .dot ∧ s ≠ .openBracket ∧ ∀ op : BinaryOp, op.symbol = s → levels ≤ op.level

theorem stops_nil (levels : Nat) : Stops levels [] := nofun

theorem stops_mark (s : Symbol) (hs : nests (.symbol s) = false) (levels offset : Nat)
    (rest : List Token) : Stops levels (⟨.symbol s, offset⟩ :: rest) := by
  rintro _ ⟨⟩
  refine ⟨?_, ?_, ?_⟩
  · rintro rfl
    cases hs
  · rintro rfl
    cases hs
  · rintro op rfl
    rw [nests_binary] at hs
    cases hs

theorem symbol_injective {op op' : BinaryOp} (h : op.symbol = op'.symbol) : op = op' := by
  cases op <;> cases op' <;> first | rfl | cases h

theorem stops_operator (op : BinaryOp) (offset : Nat) (rest : List Token) :
    Stops op.level (⟨.symbol op.symbol, offset⟩ :: rest) := by
  rintro _ ⟨⟩
  refine ⟨by cases op <;> nofun, by cases op <;> nofun, fun op' h => ?_⟩
  obtain rfl := symbol_injective h
  exact Nat.le_refl _

theorem Stops.mono {levels levels' : Nat} {rest : List Token} (h : Stops levels' rest)
    (hle : levels ≤ levels') : Stops levels rest := by
  intro s hs
  obtain ⟨hdot, hopen, hop⟩ := h s hs
  exact ⟨hdot, hopen, fun op heq => Nat.le_trans hle (hop op heq)⟩

theorem expect_self (s : Symbol) (offset : Nat) (rest : List Token) :
    expect s (⟨.symbol s, offset⟩ :: rest) = .ok rest :=
  expect_eq_ok.mpr ⟨offset, rfl⟩

theorem readChain_stops {levels : Nat} {rest : List Token} (h : Stops (levels + 1) rest)
    (room : Nat) (left : Expr) : readChain levels room left rest = .ok (left, rest) := by
  have hnone : (symbol? rest).bind (operatorAt levels) = none := by
    rw [Option.eq_none_iff_forall_ne_some]
    intro op hop
    obtain ⟨s, hs, hat⟩ := Option.bind_eq_some_iff.mp hop
    obtain ⟨hlevel, hsymbol⟩ := operatorAt_eq_some.mp hat
    have hle := (h s hs).2.2 op hsymbol
    omega
  rw [readChain, hnone]

theorem readAccess_stops {rest : List Token} (h : Stops 0 rest) (room : Nat) (e : Expr) :
    readAccess room e rest = .ok (e, rest) :=
  readAccess_other (fun hs => (h _ hs).1 rfl) (fun hs => (h _ hs).2.1 rfl) room e

/-- No phrase starts with a closing bracket, and one that may follow a prefix operator as its whole
operand does not start with another. -/
theorem exists_head_of_derives {phrase : Phrase} {u : List Lexeme} {e : Expr}
    (h : Derives phrase u e) :
    ∃ x v, u = x :: v ∧ x ≠ .symbol .closeBracket ∧
      ((∀ levels, phrase ≠ .operand levels) → ∀ op : UnaryOp, x ≠ .symbol op.symbol) := by
  have hsymbol : ∀ s : Symbol, prefixAt s = none → ∀ op : UnaryOp,
      Lexeme.symbol s ≠ .symbol op.symbol := by
    rintro s hs op ⟨⟩
    rw [prefixAt_eq_some.mpr rfl] at hs
    cases hs
  induction h with
  | number | text | literal | «variable» => exact ⟨_, _, rfl, nofun, fun _ => nofun⟩
  | parens | array => exact ⟨_, _, rfl, nofun, fun _ => hsymbol _ rfl⟩
  | primary _ ih =>
    obtain ⟨x, v, rfl, hclose, hx⟩ := ih
    exact ⟨x, v, rfl, hclose, fun _ => hx nofun⟩
  | member _ _ ih | index _ _ ih =>
    obtain ⟨x, v, rfl, hclose, hx⟩ := ih
    exact ⟨x, _, rfl, hclose, fun _ => hx nofun⟩
  | unary op => exact ⟨_, _, rfl, by cases op <;> nofun, fun h => (h _ rfl).elim⟩
  | access _ ih | tighter _ ih | binary _ _ _ ih =>
    obtain ⟨x, v, rfl, hclose, -⟩ := ih
    exact ⟨x, _, rfl, hclose, fun h => (h _ rfl).elim⟩

theorem not_closed {phrase : Phrase} {u w : List Lexeme} {e : Expr} (h : Derives phrase u e)
    {us : List Token} (hus : lexemes us = u ++ w) (rest : List Token) :
    symbol? (us ++ rest) ≠ some .closeBracket := by
  obtain ⟨x, v, rfl, hclose, -⟩ := exists_head_of_derives h
  obtain ⟨offset, us, rfl, -⟩ := exists_of_lexemes_cons hus
  intro hsymbol
  obtain ⟨_, heq⟩ := symbol?_eq_some.mp hsymbol
  cases heq
  exact hclose rfl

/-- How the readers take the tokens of a phrase. Those of a level and of accesses come to the loop
that goes on from the expression, with the room that is left there. -/
def Accepted (us : List Token) (e : Expr) : Phrase → Prop
  | .operand 0 => ∀ room rest, Stops 0 rest →
      Comes us room (readPrefixed room (us ++ rest)) fun _ => .ok (e, rest)
  | .operand (levels + 1) => ∀ room rest, Stops levels rest →
      Comes us room (readLevel (levels + 1) room (us ++ rest)) fun room' =>
        readChain levels room' e rest
  | .access => ∀ room rest,
      Comes us room
        (readPrimary room (us ++ rest) >>= fun (first, mid) => readAccess room first mid)
        fun room' => readAccess room' e rest
  | .primary => ∀ room rest,
      Comes us room (readPrimary room (us ++ rest)) fun _ => .ok (e, rest)

theorem Accepted.level {us : List Token} {e : Expr} {levels : Nat}
    (h : Accepted us e (.operand levels)) (room : Nat) {rest : List Token}
    (hrest : Stops levels rest) :
    Comes us room (readLevel levels room (us ++ rest)) fun _ => .ok (e, rest) := by
  cases levels with
  | zero =>
    rw [readLevel]
    exact h room rest hrest
  | succ levels =>
    have hcomes := h room rest (hrest.mono (Nat.le_succ levels))
    simpa only [readChain_stops hrest] using hcomes

theorem accepted_leaf {x : Lexeme} {e : Expr} {us : List Token} (hus : lexemes us = [x])
    (hread : ∀ room offset rest, readPrimary room (⟨x, offset⟩ :: rest) = .ok (e, rest)) :
    Accepted us e .primary := by
  obtain ⟨offset, rfl⟩ := exists_of_lexemes_singleton hus
  intro room rest
  exact comes_all _ (hread room offset rest)

theorem readChain_operator (op : BinaryOp) (room offset : Nat) (left : Expr) (ts : List Token) :
    readChain op.level room left (⟨.symbol op.symbol, offset⟩ :: ts) =
      (match room with
      | 0 => tooDeep
      | room + 1 => do
        let (right, rest) ← readLevel op.level room ts
        readChain op.level room (.binary op left right) rest) := by
  have hop : (symbol? (⟨.symbol op.symbol, offset⟩ :: ts)).bind (operatorAt op.level) = some op :=
    operatorAt_eq_some.mpr ⟨rfl, rfl⟩
  rw [readChain, hop]
  rfl

theorem readPrefixed_operator (op : UnaryOp) (room offset : Nat) (ts : List Token) :
    readPrefixed room (⟨.symbol op.symbol, offset⟩ :: ts) =
      (match room with
      | 0 => tooDeep
      | room + 1 => do
        let (operand, rest) ← readPrefixed room ts
        pure (.unary op operand, rest)) := by
  have hop : (symbol? (⟨.symbol op.symbol, offset⟩ :: ts)).bind prefixAt = some op :=
    prefixAt_eq_some.mpr rfl
  rw [readPrefixed, hop]
  rfl

theorem readPrefixed_bare {ts : List Token} (h : ∀ op : UnaryOp, symbol? ts ≠ some op.symbol)
    (room : Nat) :
    readPrefixed room ts =
      (readPrimary room ts >>= fun (first, mid) => readAccess room first mid) := by
  have hnone : (symbol? ts).bind prefixAt = none := by
    rw [Option.eq_none_iff_forall_ne_some]
    intro op hop
    obtain ⟨s, hs, hat⟩ := Option.bind_eq_some_iff.mp hop
    rw [← prefixAt_eq_some.mp hat] at hs
    exact h op hs
  rw [readPrefixed, hnone]

theorem comes_items {items : List (List Lexeme × Expr)} (hne : items ≠ [])
    (hitems : ∀ item ∈ items, ∀ us, lexemes us = item.1 → Accepted us item.2 expression)
    {us : List Token} (hus : lexemes us = [.symbol .comma].intercalate (items.map Prod.fst))
    (room offset : Nat) (done : List Expr) (rest : List Token) :
    Comes us room (readItems room done (us ++ ⟨.symbol .closeBracket, offset⟩ :: rest)) fun _ =>
      .ok (.array (done.reverse ++ items.map Prod.snd), rest) := by
  induction items generalizing us done with
  | nil => exact (hne rfl).elim
  | cons item items ih =>
    have hitem := hitems item List.mem_cons_self
    have hmore := fun other h => hitems other (List.mem_cons_of_mem _ h)
    cases items with
    | nil =>
      have haccepted := hitem us (by simpa [List.intercalate] using hus)
      rw [readItems]
      refine (haccepted.level room (stops_mark .closeBracket rfl _ offset rest)).bind ?_
      simp [symbol?]
    | cons next items =>
      have hsplit : lexemes us = item.1 ++ .symbol .comma ::
          [.symbol .comma].intercalate ((next :: items).map Prod.fst) := by
        simpa [List.intercalate] using hus
      obtain ⟨us₁, vs, rfl, hus₁, hvs⟩ := exists_of_lexemes_append hsplit
      obtain ⟨offset', us₂, rfl, hus₂⟩ := exists_of_lexemes_cons hvs
      have hlater := ih (by simp) hmore hus₂ (item.2 :: done)
      have hfirst : Comes us₁ room
          (readItems room done (us₁ ++ ⟨.symbol .comma, offset'⟩ ::
            (us₂ ++ ⟨.symbol .closeBracket, offset⟩ :: rest)))
          fun _ => readItems room (item.2 :: done)
            (us₂ ++ ⟨.symbol .closeBracket, offset⟩ :: rest) := by
        rw [readItems]
        refine ((hitem us₁ hus₁).level room (stops_mark .comma rfl _ offset' _)).bind ?_
        simp only [symbol?, expect_self, Option.some.injEq, reduceCtorEq, if_false]
        exact if_pos (by simp; omega)
      have hnesting : nesting (us₁ ++ us₂) ≤ nesting (us₁ ++ ⟨.symbol .comma, offset'⟩ :: us₂) :=
        ((List.sublist_cons_self _ us₂).append_left us₁).countP_le
      have hshared := (hfirst.share hlater).mono hnesting
      simpa using hshared

section

variable {us vs : List Token} {e first i : Expr}

theorem accepted_parens (he : Accepted us e expression) (offset offset' : Nat) :
    Accepted (⟨.symbol .openParen, offset⟩ :: (us ++ [⟨.symbol .closeParen, offset'⟩])) e
      .primary := by
  intro room rest
  rw [List.cons_append, List.append_assoc]
  refine comes_cons rfl offset (by rintro rfl; rw [readPrimary]) ?_
  rintro room rfl
  rw [readPrimary]
  have hinner := he.level room (stops_mark .closeParen rfl _ offset' rest)
  refine (hinner.bind ?_).mono (by rw [nesting_append]; omega)
  simp only [expect_self]
  rfl

theorem accepted_noItems (offset offset' : Nat) :
    Accepted [⟨.symbol .openBracket, offset⟩, ⟨.symbol .closeBracket, offset'⟩] (.array [])
      .primary := by
  intro room rest
  refine comes_cons rfl offset (by rintro rfl; rw [List.cons_append, readPrimary]) ?_
  rintro room rfl
  rw [List.cons_append, readPrimary]
  exact comes_all _ rfl

theorem accepted_array {items : List (List Lexeme × Expr)} (hne : items ≠ [])
    (hderives : ∀ item ∈ items, Derives expression item.1 item.2)
    (hitems : ∀ item ∈ items, ∀ us, lexemes us = item.1 → Accepted us item.2 expression)
    (hus : lexemes us = [.symbol .comma].intercalate (items.map Prod.fst)) (offset offset' : Nat) :
    Accepted (⟨.symbol .openBracket, offset⟩ :: (us ++ [⟨.symbol .closeBracket, offset'⟩]))
      (.array (items.map Prod.snd)) .primary := by
  intro room rest
  rw [List.cons_append, List.append_assoc]
  refine comes_cons rfl offset (by rintro rfl; rw [readPrimary]) ?_
  rintro room rfl
  rw [readPrimary]
  have hopen : symbol? (us ++ ([⟨.symbol .closeBracket, offset'⟩] ++ rest)) ≠
      some .closeBracket := by
    obtain ⟨item, items, rfl⟩ := List.exists_cons_of_ne_nil hne
    cases items with
    | nil =>
      exact not_closed (w := []) (hderives item List.mem_cons_self)
        (by simpa [List.intercalate] using hus) _
    | cons next items =>
      exact not_closed (hderives item List.mem_cons_self)
        (by simpa [List.intercalate] using hus) _
  rw [if_neg hopen]
  have hlist := comes_items hne hitems hus room offset' [] rest
  exact hlist.mono (by rw [nesting_append]; omega)

theorem accepted_member (he : Accepted us e .access) (name : String) (offset offset' : Nat) :
    Accepted (us ++ [⟨.symbol .dot, offset⟩, ⟨.name name, offset'⟩]) (.member e name) .access := by
  intro room rest
  rw [List.append_assoc]
  refine (he room _).trans fun room' => ?_
  refine comes_cons rfl offset (by rintro rfl; rw [readAccess]; rfl) ?_
  rintro room rfl
  rw [readAccess]
  exact comes_all _ rfl

theorem accepted_index (hfirst : Accepted us first .access) (hi : Accepted vs i expression)
    (offset offset' : Nat) :
    Accepted (us ++ ⟨.symbol .openBracket, offset⟩ :: (vs ++ [⟨.symbol .closeBracket, offset'⟩]))
      (.index first i) .access := by
  intro room rest
  rw [List.append_assoc]
  refine (hfirst room _).trans fun room' => ?_
  rw [List.cons_append, List.append_assoc]
  refine comes_cons rfl offset (by rintro rfl; rw [readAccess]; rfl) ?_
  rintro room rfl
  rw [readAccess]
  have hindex := hi.level room (stops_mark .closeBracket rfl _ offset' rest)
  refine (hindex.bind ?_).mono (by rw [nesting_append]; omega)
  simp only [expect_self]
  rfl

theorem accepted_access {u : List Lexeme} (h : Derives .access u e) (hus : lexemes us = u)
    (he : Accepted us e .access) : Accepted us e (.operand 0) := by
  intro room rest hrest
  obtain ⟨x, v, rfl, -, hx⟩ := exists_head_of_derives h
  have hbare : ∀ op : UnaryOp, symbol? (us ++ rest) ≠ some op.symbol := by
    obtain ⟨offset, vs, rfl, -⟩ := exists_of_lexemes_cons hus
    intro op hop
    obtain ⟨offset', heq⟩ := symbol?_eq_some.mp hop
    cases heq
    exact hx (fun levels h => by cases h) op rfl
  rw [readPrefixed_bare hbare]
  have hcomes := he room rest
  simpa only [readAccess_stops hrest] using hcomes

theorem accepted_unary (op : UnaryOp) (he : Accepted us e (.operand 0)) (offset : Nat) :
    Accepted (⟨.symbol op.symbol, offset⟩ :: us) (.unary op e) (.operand 0) := by
  intro room rest hrest
  rw [List.cons_append, readPrefixed_operator]
  refine comes_cons (nests_unary op) offset (by rintro rfl; rfl) ?_
  rintro room rfl
  exact (he room rest hrest).bind rfl

theorem accepted_tighter {levels : Nat} (he : Accepted us e (.operand levels)) :
    Accepted us e (.operand (levels + 1)) := by
  intro room rest hrest
  rw [readLevel]
  exact (he.level room hrest).bind rfl

theorem accepted_binary (op : BinaryOp) {left right : Expr}
    (hleft : Accepted us left (.operand (op.level + 1)))
    (hright : Accepted vs right (.operand op.level)) (offset : Nat) :
    Accepted (us ++ ⟨.symbol op.symbol, offset⟩ :: vs) (.binary op left right)
      (.operand (op.level + 1)) := by
  intro room rest hrest
  rw [List.append_assoc]
  refine (hleft room _ (stops_operator op offset _)).trans fun room' => ?_
  rw [readChain_operator]
  refine comes_cons (nests_binary op) offset (by rintro rfl; rfl) ?_
  rintro room rfl
  exact (hright.level room hrest).bind rfl

end

theorem accepted_of_derives {phrase : Phrase} {u : List Lexeme} {e : Expr}
    (h : Derives phrase u e) : ∀ us, lexemes us = u → Accepted us e phrase := by
  induction h with
  | number x =>
    intro us hus
    exact accepted_leaf hus fun room offset rest => by rw [readPrimary]
  | text s =>
    intro us hus
    exact accepted_leaf hus fun room offset rest => by rw [readPrimary]
  | literal hname =>
    intro us hus
    exact accepted_leaf hus fun room offset rest => by rw [readPrimary, ofName_literal hname]
  | «variable» hname =>
    intro us hus
    exact accepted_leaf hus fun room offset rest => by rw [readPrimary, ofName_variable hname]
  | parens _ ih =>
    intro us h
    obtain ⟨offset, vs, rfl, hvs⟩ := exists_of_lexemes_cons h
    obtain ⟨us, ws, rfl, hus, hws⟩ := exists_of_lexemes_append hvs
    obtain ⟨offset', rfl⟩ := exists_of_lexemes_singleton hws
    exact accepted_parens (ih us hus) offset offset'
  | array items hitems ih =>
    intro us h
    obtain ⟨offset, vs, rfl, hvs⟩ := exists_of_lexemes_cons h
    obtain ⟨us, ws, rfl, hus, hws⟩ := exists_of_lexemes_append hvs
    obtain ⟨offset', rfl⟩ := exists_of_lexemes_singleton hws
    cases items with
    | nil =>
      obtain rfl := List.map_eq_nil_iff.mp hus
      exact accepted_noItems offset offset'
    | cons item items => exact accepted_array (by simp) hitems ih hus offset offset'
  | primary _ ih =>
    intro us hus room rest
    exact (ih us hus room rest).bind rfl
  | member name _ ih =>
    intro us h
    obtain ⟨us, vs, rfl, hus, hvs⟩ := exists_of_lexemes_append h
    obtain ⟨offset, ws, rfl, hws⟩ := exists_of_lexemes_cons hvs
    obtain ⟨offset', rfl⟩ := exists_of_lexemes_singleton hws
    exact accepted_member (ih us hus) name offset offset'
  | index _ _ ihfirst ihindex =>
    intro us h
    obtain ⟨us, xs, rfl, hus, hxs⟩ := exists_of_lexemes_append h
    obtain ⟨offset, ys, rfl, hys⟩ := exists_of_lexemes_cons hxs
    obtain ⟨vs, ws, rfl, hvs, hws⟩ := exists_of_lexemes_append hys
    obtain ⟨offset', rfl⟩ := exists_of_lexemes_singleton hws
    exact accepted_index (ihfirst us hus) (ihindex vs hvs) offset offset'
  | access h ih =>
    intro us hus
    exact accepted_access h hus (ih us hus)
  | unary op _ ih =>
    intro us h
    obtain ⟨offset, us, rfl, hus⟩ := exists_of_lexemes_cons h
    exact accepted_unary op (ih us hus) offset
  | tighter _ ih =>
    intro us hus
    exact accepted_tighter (ih us hus)
  | binary op _ _ ihl ihr =>
    intro us h
    obtain ⟨us, ws, rfl, hus, hws⟩ := exists_of_lexemes_append h
    obtain ⟨offset, vs, rfl, hvs⟩ := exists_of_lexemes_cons hws
    exact accepted_binary op (ihl us hus) (ihr vs hvs) offset

theorem readLevel_of_ofTokens {ts : List Token} {e : Expr} (h : ofTokens ts = .ok e) :
    readLevel topLevel maxDepth ts = .ok (e, []) := by
  unfold ofTokens at h
  split at h
  next => cases h
  next =>
    obtain ⟨⟨e, rest⟩, hread, h⟩ := bind_eq_ok.mp h
    simp only at h
    split at h
    next hrest =>
      cases h
      rwa [← List.isEmpty_iff.mp hrest]
    next => cases h

theorem ofTokens_sound {ts : List Token} {e : Expr} (h : ofTokens ts = .ok e) :
    Derives expression (lexemes ts) e := by
  have hread := readLevel_of_ofTokens h
  obtain ⟨us, hts, hderives⟩ := (Task.recorded (.level topLevel) maxDepth ts e [] hread).spells
  rwa [hts, List.append_nil]

theorem ofTokens_complete {ts : List Token} {e : Expr} (h : Derives expression (lexemes ts) e) :
    ofTokens ts = .ok e ∨ maxDepth < nesting ts ∧ ofTokens ts = .error (.tooDeep maxDepth) := by
  have hne : ts.isEmpty = false := by
    obtain ⟨x, v, hx, -⟩ := exists_head_of_derives h
    obtain ⟨offset, us, rfl, -⟩ := exists_of_lexemes_cons hx
    rfl
  have hcomes : Comes ts maxDepth (readLevel topLevel maxDepth (ts ++ [])) fun _ => .ok (e, []) :=
    (accepted_of_derives h ts rfl).level maxDepth (stops_nil _)
  rw [List.append_nil] at hcomes
  rcases hcomes with ⟨_, _, hread⟩ | ⟨hdeep, hread⟩
  · left
    rw [ofTokens, hne, hread]
    rfl
  · right
    refine ⟨hdeep, ?_⟩
    rw [ofTokens, hne, hread]
    rfl

/-- The parser decides the grammar: what it accepts is derived, and what is derived it accepts as
that expression unless it is nested too deep, which needs more nesting tokens than the limit. -/
theorem ofTokens_decides (ts : List Token) (e : Expr) :
    (ofTokens ts = .ok e → Derives expression (lexemes ts) e) ∧
    (Derives expression (lexemes ts) e →
      ofTokens ts = .ok e ∨ ofTokens ts = .error (.tooDeep maxDepth)) ∧
    (Derives expression (lexemes ts) e → nesting ts ≤ maxDepth → ofTokens ts = .ok e) := by
  refine ⟨ofTokens_sound, fun h => ?_, fun h hnesting => ?_⟩
  · exact (ofTokens_complete h).imp_right And.right
  · rcases ofTokens_complete h with hok | ⟨hdeep, -⟩
    · exact hok
    · omega

/-- The product of `a+b*c` is the right operand of its sum. -/
theorem ofTokens_decides_product :
    ofTokens [⟨.name "a", 0⟩, ⟨.symbol .plus, 1⟩, ⟨.name "b", 2⟩, ⟨.symbol .star, 3⟩,
        ⟨.name "c", 4⟩] =
      .ok (.binary .add (.variable "a") (.binary .mul (.variable "b") (.variable "c"))) := by
  have hname : ∀ name, name ∉ literalNames.map Prod.fst →
      Derives (.operand 0) [.name name] (.variable name) :=
    fun name h => .access (.primary (.variable h))
  have hproduct : Derives (.operand 1) [.name "b", .symbol .star, .name "c"]
      (.binary .mul (.variable "b") (.variable "c")) :=
    .binary .mul (.tighter (hname "b" (by decide))) (hname "c" (by decide))
  have hsum : Derives (.operand 2)
      [.name "a", .symbol .plus, .name "b", .symbol .star, .name "c"]
      (.binary .add (.variable "a") (.binary .mul (.variable "b") (.variable "c"))) :=
    .binary .add (.tighter (.tighter (hname "a" (by decide)))) hproduct
  exact (ofTokens_decides _ _).2.2 (.tighter (.tighter (.tighter (.tighter hsum)))) (by decide)

end ActiveMarkup.Parser
