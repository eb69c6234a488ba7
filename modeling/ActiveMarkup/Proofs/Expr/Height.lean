import ActiveMarkup.Proofs.Expr.Statements
import Mathlib
set_option autoImplicit false

/-!
How high the tree of a parsed expression can be. The room is given back when a chain of operators
ends, and the operand read before the next chain ends up below it. So what one unit of room
contributes is one level for the accesses, one for the prefix operators or the chain on each of the
levels of binary operators, and one for a bracket around all of it, and the height is bounded by the
sum of these over all the room, not by the room. It is bounded by the number of nesting tokens, too,
since every level of the tree has a token of its own.
-/

namespace ActiveMarkup

namespace Expr

mutual

def height : Expr → Nat
  | literal _ => 0
  | .variable _ => 0
  | array items => heightAll items + 1
  | unary _ operand => operand.height + 1
  | binary _ left right => max left.height right.height + 1
  | member target _ => target.height + 1
  | index target i => max target.height i.height + 1

def heightAll : List Expr → Nat
  | [] => 0
  | e :: rest => max e.height (heightAll rest)

end

theorem heightAll_le_iff {es : List Expr} {n : Nat} :
    heightAll es ≤ n ↔ ∀ e ∈ es, e.height ≤ n := by
  induction es with
  | nil => simp [heightAll]
  | cons e es ih => rw [heightAll, Nat.max_le, ih, List.forall_mem_cons]

theorem heightAll_reverse_le (es : List Expr) : heightAll es.reverse ≤ heightAll es := by
  rw [heightAll_le_iff]
  intro e he
  exact heightAll_le_iff.mp (Nat.le_refl _) e (List.mem_reverse.mp he)

end Expr

namespace Parser

open Grammar

/-- The height of the highest primary that the room is enough for: a bracket takes one unit of it,
and leaves the rest to the accesses and the six levels of operators inside. -/
def primaryHeight : Nat → Nat
  | 0 => 0
  | room + 1 => primaryHeight room + 7 * room + 1

def expressionHeight (room : Nat) : Nat := primaryHeight room + 7 * room

def Task.tallest (room : Nat) : Task → Nat
  | level l => primaryHeight room + (l + 1) * room
  | chain l left => max left.height (primaryHeight room + (l + 1) * room) + room
  | prefixed => primaryHeight room + room
  | access e => max e.height (primaryHeight room) + room
  | primary => primaryHeight room
  | items done => max (Expr.heightAll done) (expressionHeight room) + 1

theorem height_ofName (name : String) : (ofName name).height = 0 := by
  unfold ofName
  repeat' split
  all_goals rfl

theorem Reads.height_le {t : Task} {room : Nat} {ts rest : List Token} {e : Expr}
    (h : Reads t room ts e rest) : e.height ≤ t.tallest room := by
  -- each task states its own bound; a level or a link spends one unit of room or one level
  induction h with
  | operand _ ih =>
    simp only [Task.tallest] at ih ⊢
    omega
  | @level l room ts mid rest left e _ _ ihl ihc =>
    simp only [Task.tallest] at ihl ihc ⊢
    have hmul := Nat.add_one_mul (l + 1) room
    omega
  | chained =>
    simp only [Task.tallest]
    omega
  | @link op room offset ts mid rest left right e _ _ ihl ihc =>
    simp only [Task.tallest, Expr.height, primaryHeight] at ihl ihc ⊢
    have hmul := Nat.mul_add_one (op.level + 1) room
    omega
  | accesses _ _ ihp iha =>
    simp only [Task.tallest] at ihp iha ⊢
    omega
  | unary op _ ih =>
    simp only [Task.tallest, Expr.height, primaryHeight] at ih ⊢
    omega
  | accessed =>
    simp only [Task.tallest]
    omega
  | member _ ih =>
    simp only [Task.tallest, Expr.height, primaryHeight] at ih ⊢
    omega
  | index _ _ ihl iha =>
    simp only [Task.tallest, Expr.height, primaryHeight, topLevel] at ihl iha ⊢
    omega
  | number | text => exact Nat.zero_le _
  | name =>
    rw [height_ofName]
    exact Nat.zero_le _
  | parens _ ih =>
    simp only [Task.tallest, primaryHeight, topLevel] at ih ⊢
    omega
  | noItems =>
    simp only [Task.tallest, Expr.height, Expr.heightAll, primaryHeight]
    omega
  | array _ ih =>
    simp only [Task.tallest, Expr.heightAll, primaryHeight, expressionHeight] at ih ⊢
    omega
  | @lastItem room offset done ts rest e _ ih =>
    have hreverse := Expr.heightAll_reverse_le (e :: done)
    simp only [Task.tallest, Expr.height, Expr.heightAll, expressionHeight, topLevel]
      at ih hreverse ⊢
    omega
  | item _ _ ihl ihi =>
    simp only [Task.tallest, Expr.heightAll, expressionHeight, topLevel] at ihl ihi ⊢
    omega

theorem nesting_eq (us : List Token) : nesting us = (lexemes us).countP nests := by
  rw [lexemes, List.countP_map]
  rfl

theorem heightAll_le_countP {items : List (List Lexeme × Expr)}
    (h : ∀ item ∈ items, item.2.height ≤ item.1.countP nests) :
    Expr.heightAll (items.map Prod.snd) ≤
      ([.symbol .comma].intercalate (items.map Prod.fst)).countP nests := by
  induction items with
  | nil => exact Nat.zero_le _
  | cons item items ih =>
    have hitem := h item List.mem_cons_self
    have hmore := ih fun other hother => h other (List.mem_cons_of_mem _ hother)
    cases items with
    | nil =>
      simp only [List.map_cons, List.map_nil, Expr.heightAll, List.intercalate,
        List.intersperse_singleton, List.flatten_singleton]
      omega
    | cons next items =>
      have hcomma : nests (.symbol .comma) = false := rfl
      simp only [List.map_cons, Expr.heightAll, List.intercalate, List.intersperse_cons_cons,
        List.flatten_cons, List.countP_append, List.countP_cons, List.countP_nil, hcomma] at hmore ⊢
      omega

/-- Every level of an expression has a token of its own. -/
theorem height_le_of_derives {phrase : Phrase} {u : List Lexeme} {e : Expr}
    (h : Derives phrase u e) : e.height ≤ u.countP nests := by
  induction h with
  | number | text | literal | «variable» => exact Nat.zero_le _
  | parens _ ih =>
    simp only [List.countP_cons, List.countP_append]
    omega
  | array items _ ih =>
    have hitems := heightAll_le_countP ih
    have hopen : nests (.symbol .openBracket) = true := rfl
    simp only [Expr.height, List.countP_cons, List.countP_append, hopen, if_true]
    omega
  | primary _ ih | access _ ih | tighter _ ih => exact ih
  | member name _ ih =>
    have hdot : nests (.symbol .dot) = true := rfl
    simp only [Expr.height, List.countP_cons, List.countP_append, hdot, if_true]
    omega
  | index _ _ ihe ihi =>
    have hopen : nests (.symbol .openBracket) = true := rfl
    simp only [Expr.height, List.countP_cons, List.countP_append, hopen, if_true]
    omega
  | unary op _ ih =>
    simp only [Expr.height, List.countP_cons, nests_unary op, if_true]
    omega
  | binary op _ _ ihl ihr =>
    simp only [Expr.height, List.countP_cons, List.countP_append, nests_binary op, if_true]
    omega

def Within (ts : List Token) (e : Expr) : Prop :=
  e.height ≤ expressionHeight maxDepth ∧ e.height ≤ nesting ts

theorem Within.mono {us ts : List Token} {e : Expr} (h : Within us e) (hsuffix : us <:+ ts) :
    Within ts e :=
  ⟨h.1, Nat.le_trans h.2 hsuffix.sublist.countP_le⟩

theorem ReadIn.within {ts : List Token} {e : Expr} (h : ReadIn ts e) : Within ts e := by
  obtain ⟨us, rest, hsuffix, hread⟩ := h
  have hroom := (Task.recorded (.level topLevel) maxDepth us e rest hread).height_le
  obtain ⟨vs, rfl, hderives⟩ := exists_of_readLevel hread
  have htokens := height_le_of_derives hderives
  rw [← nesting_eq] at htokens
  simp only [Task.tallest, topLevel] at hroom
  refine Within.mono ⟨?_, ?_⟩ hsuffix
  · rw [expressionHeight]
    omega
  · rw [nesting_append]
    omega

def links (op : BinaryOp) : Nat → List Token
  | 0 => []
  | n + 1 => ⟨.symbol op.symbol, 0⟩ :: ⟨.name "a", 0⟩ :: links op n

def linked (op : BinaryOp) : Nat → Expr → Expr
  | 0, e => e
  | n + 1, e => linked op n (.binary op e (.variable "a"))

def dots : Nat → List Token
  | 0 => []
  | n + 1 => ⟨.symbol .dot, 0⟩ :: ⟨.name "a", 0⟩ :: dots n

def dotted : Nat → Expr → Expr
  | 0, e => e
  | n + 1, e => dotted n (.member e "a")

theorem height_linked (op : BinaryOp) (n : Nat) (e : Expr) :
    (linked op n e).height = e.height + n := by
  induction n generalizing e with
  | zero => rfl
  | succ n ih =>
    rw [linked, ih]
    simp only [Expr.height]
    omega

theorem height_dotted (n : Nat) (e : Expr) : (dotted n e).height = e.height + n := by
  induction n generalizing e with
  | zero => rfl
  | succ n ih =>
    rw [dotted, ih]
    simp only [Expr.height]
    omega

theorem stops_links {op : BinaryOp} {rest : List Token} (n : Nat) (h : Stops (op.level + 1) rest) :
    Stops op.level (links op n ++ rest) := by
  cases n with
  | zero => exact h.mono (Nat.le_succ _)
  | succ n => exact stops_operator op 0 _

theorem readLevel_name {levels : Nat} {rest : List Token} (room : Nat) (h : Stops levels rest) :
    readLevel levels room (⟨.name "a", 0⟩ :: rest) = .ok (.variable "a", rest) := by
  have hderives : Derives (.operand levels) [.name "a"] (.variable "a") := by
    induction levels with
    | zero => exact .access (.primary (.variable (by decide)))
    | succ levels ih => exact .tighter (ih (h.mono (Nat.le_succ _)))
  have hcomes := (accepted_of_derives hderives [⟨.name "a", 0⟩] rfl).level room h
  rcases hcomes with ⟨_, _, hread⟩ | ⟨hdeep, _⟩
  · exact hread
  · cases hdeep

theorem readChain_links {op : BinaryOp} {rest : List Token} (hrest : Stops (op.level + 1) rest)
    {n room : Nat} (hle : n ≤ room) (e : Expr) :
    readChain op.level room e (links op n ++ rest) = .ok (linked op n e, rest) := by
  induction n generalizing room e with
  | zero => exact readChain_stops hrest room e
  | succ n ih =>
    obtain ⟨room, rfl⟩ := Nat.exists_eq_add_one_of_ne_zero (Nat.ne_zero_of_lt hle)
    rw [links, List.cons_append, readChain_operator]
    simp only [List.cons_append, readLevel_name room (stops_links n hrest)]
    exact ih (by omega) _

theorem readAccess_dots {rest : List Token} (hrest : Stops 0 rest) {n room : Nat} (hle : n ≤ room)
    (e : Expr) : readAccess room e (dots n ++ rest) = .ok (dotted n e, rest) := by
  induction n generalizing room e with
  | zero => exact readAccess_stops hrest room e
  | succ n ih =>
    obtain ⟨room, rfl⟩ := Nat.exists_eq_add_one_of_ne_zero (Nat.ne_zero_of_lt hle)
    rw [dots, List.cons_append, readAccess]
    exact ih (by omega) _

def someOperator : Nat → BinaryOp
  | 0 => .mul
  | 1 => .add
  | 2 => .lt
  | 3 => .looseEq
  | 4 => .and
  | _ => .or

theorem level_someOperator {levels : Nat} (h : levels < topLevel) :
    (someOperator levels).level = levels := by
  match levels, h with
  | 0, _ | 1, _ | 2, _ | 3, _ | 4, _ | 5, _ => rfl

def chains (room : Nat) : Nat → List Token
  | 0 => []
  | levels + 1 => chains room levels ++ links (someOperator levels) room

def joined (room : Nat) : Nat → Expr → Expr
  | 0, e => e
  | levels + 1, e => linked (someOperator levels) room (joined room levels e)

theorem height_joined (room levels : Nat) (e : Expr) :
    (joined room levels e).height = e.height + levels * room := by
  induction levels with
  | zero => simp [joined]
  | succ levels ih =>
    rw [joined, height_linked, ih, Nat.add_one_mul]
    omega

theorem readLevel_chains {room : Nat} {us : List Token} {e : Expr}
    (hfirst : ∀ rest, Stops 0 rest → readPrefixed room (us ++ rest) = .ok (e, rest))
    {levels : Nat} (hlevels : levels ≤ topLevel) {rest : List Token} (hrest : Stops levels rest) :
    readLevel levels room (us ++ (chains room levels ++ rest)) =
      .ok (joined room levels e, rest) := by
  induction levels generalizing rest with
  | zero =>
    rw [readLevel]
    exact hfirst rest hrest
  | succ levels ih =>
    have hlevel := level_someOperator hlevels
    have hstops : Stops ((someOperator levels).level + 1) rest := by rwa [hlevel]
    have hchain := readChain_links hstops (Nat.le_refl room) (joined room levels e)
    have hoperand := ih (by omega) (hlevel ▸ stops_links room hstops)
    rw [readLevel, chains, List.append_assoc, hoperand]
    rw [hlevel] at hchain
    exact hchain

/-- The highest expression for the room: an array with the highest one for one unit less, with
accesses and the operators of every level piled on it. -/
def tower : Nat → Expr
  | 0 => .variable "a"
  | room + 1 => joined (room + 1) topLevel (dotted (room + 1) (.array [tower room]))

def towerTokens : Nat → List Token
  | 0 => [⟨.name "a", 0⟩]
  | room + 1 => ⟨.symbol .openBracket, 0⟩ :: (towerTokens room ++ ⟨.symbol .closeBracket, 0⟩ ::
      dots (room + 1)) ++ chains (room + 1) topLevel

theorem height_tower (room : Nat) : (tower room).height = expressionHeight room := by
  induction room with
  | zero => rfl
  | succ room ih =>
    rw [tower, height_joined, height_dotted]
    simp only [Expr.height, Expr.heightAll, ih, expressionHeight, primaryHeight, topLevel]
    omega

theorem symbol?_towerTokens (room : Nat) (rest : List Token) :
    symbol? (towerTokens room ++ rest) ≠ some .closeBracket := by
  cases room with
  | zero => nofun
  | succ room => nofun

theorem readLevel_tower (room : Nat) {rest : List Token} (hrest : Stops topLevel rest) :
    readLevel topLevel room (towerTokens room ++ rest) = .ok (tower room, rest) := by
  induction room generalizing rest with
  | zero => exact readLevel_name 0 hrest
  | succ room ih =>
    rw [towerTokens, List.append_assoc, tower]
    refine readLevel_chains (fun after hafter => ?_) (Nat.le_refl topLevel) hrest
    have hclose : Stops topLevel
        (⟨.symbol .closeBracket, 0⟩ :: (dots (room + 1) ++ after)) :=
      stops_mark .closeBracket rfl topLevel 0 _
    have hitems : readItems room [] (towerTokens room ++ ⟨.symbol .closeBracket, 0⟩ ::
        (dots (room + 1) ++ after)) = .ok (.array [tower room], dots (room + 1) ++ after) := by
      rw [readItems, ih hclose]
      rfl
    have hbare : ∀ op : UnaryOp, symbol? (⟨.symbol .openBracket, 0⟩ :: (towerTokens room ++
        ⟨.symbol .closeBracket, 0⟩ :: dots (room + 1)) ++ after) ≠ some op.symbol := by
      rintro ⟨⟩
      all_goals
        intro h
        cases h
    rw [readPrefixed_bare hbare, List.cons_append, List.append_assoc, List.cons_append, readPrimary,
      if_neg (symbol?_towerTokens room _), hitems]
    exact readAccess_dots hafter (Nat.le_refl _) _

theorem ofTokens_tower : ofTokens (towerTokens maxDepth) = .ok (tower maxDepth) := by
  have hread := readLevel_tower maxDepth (stops_nil topLevel)
  rw [List.append_nil] at hread
  have hne : (towerTokens maxDepth).isEmpty = false := rfl
  rw [ofTokens, hne, hread]
  rfl

end Parser

theorem Parser.expressionHeight_maxDepth :
    Parser.expressionHeight Parser.maxDepth = 57920 := by
  decide +kernel

theorem Parser.exists_height_eq : ∃ ts e, Parser.ofTokens ts = .ok e ∧ e.height = 57920 :=
  ⟨_, _, Parser.ofTokens_tower,
    (Parser.height_tower Parser.maxDepth).trans Parser.expressionHeight_maxDepth⟩

/-- A parsed expression, or one of a parsed statement, has no more levels below its top than there
are nesting tokens, so up to the limit of the depth it is no higher than the limit; with more tokens
it has at most 57920 levels. -/
theorem Expr.parse_height_le {src : String} {ts : List Token} (hts : tokenize src = .ok ts) :
    (∀ e, Expr.parse src = .ok e → e.height ≤ Parser.nesting ts ∧ e.height ≤ 57920) ∧
    (∀ stmts, Stmt.parseAll src = .ok stmts → ∀ s ∈ stmts, ∀ e ∈ s.value?,
      e.height ≤ Parser.nesting ts ∧ e.height ≤ 57920) := by
  rw [← Parser.expressionHeight_maxDepth]
  constructor
  · intro e h
    obtain ⟨us, hus, h⟩ := Parser.bind_eq_ok.mp h
    cases hts.symm.trans hus
    exact (Parser.readIn_of_ofTokens h).within.symm
  · intro stmts h s hs e he
    obtain ⟨us, hus, h⟩ := Parser.bind_eq_ok.mp h
    cases hts.symm.trans hus
    split at h
    · cases h
    · exact (Parser.readIn_of_readStatements h s hs e he).within.symm

/-- The sum of two names has one nesting token, and one level. -/
theorem Expr.parse_height_sum : ∃ e, Expr.parse "a+a" = .ok e ∧ e.height ≤ 1 := by
  have hts : tokenize "a+a" = .ok [⟨.name "a", 0⟩, ⟨.symbol .plus, 1⟩, ⟨.name "a", 2⟩] := by cbv
  have hparse : Expr.parse "a+a" = .ok (.binary .add (.variable "a") (.variable "a")) := by cbv
  exact ⟨_, hparse, ((Expr.parse_height_le hts).1 _ hparse).1⟩

def Expr.signs : String := String.ofList (List.replicate 128 '!' ++ ['a', '+', 'a'])

set_option maxRecDepth 16384 in
/-- The signs take all the room, and give it back before the sum is put above them. -/
theorem Expr.parse_signs_higher :
    ∃ e, Expr.parse Expr.signs = .ok e ∧ Parser.maxDepth < e.height := by
  have hheight : (Expr.parse Expr.signs).toOption.map Expr.height = some 129 := by cbv
  cases hparse : Expr.parse Expr.signs with
  | error err =>
    rw [hparse] at hheight
    cases hheight
  | ok e =>
    rw [hparse] at hheight
    have heq : e.height = 129 := Option.some.inj hheight
    exact ⟨e, rfl, heq ▸ by decide⟩

end ActiveMarkup
