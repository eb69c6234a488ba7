import ActiveMarkup.Expr.Parser
set_option autoImplicit false

namespace ActiveMarkup

def BinaryOp.level : BinaryOp → Nat
  | mul | div | rem => 0
  | add | sub => 1
  | lt | le | gt | ge => 2
  | looseEq | looseNe | strictEq | strictNe => 3
  | and => 4
  | or => 5

namespace Grammar

def literalNames : List (String × Value) :=
  [("true", .bool true), ("false", .bool false), ("null", .null), ("undefined", .undefined),
    ("NaN", .number Decimal.notANumber), ("Infinity", .number Decimal.infinity)]

/-- What lexemes can be read as: an operand of the tightest `levels` levels of binary operators, of
which there are six, or what stands in such an operand without any operator. -/
inductive Phrase where
  | operand (levels : Nat)
  | access
  | primary

def expression : Phrase := .operand 6

/-- The lexemes are a phrase and spell an expression. -/
inductive Derives : Phrase → List Lexeme → Expr → Prop where
  | number (x : Float) : Derives .primary [.number x] (.literal (.number x))
  | text (s : String) : Derives .primary [.text s] (.literal (.text s))
  | literal {name : String} {v : Value} :
      (name, v) ∈ literalNames → Derives .primary [.name name] (.literal v)
  | «variable» {name : String} :
      name ∉ literalNames.map Prod.fst → Derives .primary [.name name] (.variable name)
  | parens {u : List Lexeme} {e : Expr} : Derives expression u e →
      Derives .primary (.symbol .openParen :: (u ++ [.symbol .closeParen])) e
  | array (items : List (List Lexeme × Expr)) :
      (∀ item ∈ items, Derives expression item.1 item.2) →
      Derives .primary
        (.symbol .openBracket ::
          ([.symbol .comma].intercalate (items.map Prod.fst) ++ [.symbol .closeBracket]))
        (.array (items.map Prod.snd))
  | primary {u : List Lexeme} {e : Expr} : Derives .primary u e → Derives .access u e
  | member {u : List Lexeme} {e : Expr} (name : String) : Derives .access u e →
      Derives .access (u ++ [.symbol .dot, .name name]) (.member e name)
  | index {u v : List Lexeme} {e i : Expr} : Derives .access u e → Derives expression v i →
      Derives .access (u ++ .symbol .openBracket :: (v ++ [.symbol .closeBracket])) (.index e i)
  | access {u : List Lexeme} {e : Expr} : Derives .access u e → Derives (.operand 0) u e
  | unary (op : UnaryOp) {u : List Lexeme} {e : Expr} : Derives (.operand 0) u e →
      Derives (.operand 0) (.symbol op.symbol :: u) (.unary op e)
  | tighter {levels : Nat} {u : List Lexeme} {e : Expr} : Derives (.operand levels) u e →
      Derives (.operand (levels + 1)) u e
  | binary (op : BinaryOp) {u v : List Lexeme} {l r : Expr} :
      Derives (.operand (op.level + 1)) u l → Derives (.operand op.level) v r →
      Derives (.operand (op.level + 1)) (u ++ .symbol op.symbol :: v) (.binary op l r)

/-- The symbols that take the expression one level deeper: operators, opening brackets and the dot
of an access. -/
def nestingSymbols : List Symbol :=
  [.plus, .minus, .star, .slash, .percent, .bang, .less, .lessEqual, .greater, .greaterEqual,
    .looseEqual, .looseUnequal, .strictEqual, .strictUnequal, .both, .either,
    .openParen, .openBracket, .dot]

def nests : Lexeme → Bool
  | .symbol s => nestingSymbols.contains s
  | _ => false

theorem nests_unary (op : UnaryOp) : nests (.symbol op.symbol) = true := by
  cases op <;> rfl

theorem nests_binary (op : BinaryOp) : nests (.symbol op.symbol) = true := by
  cases op <;> rfl

end Grammar

namespace Parser

open Grammar

theorem operatorAt_eq_some {level : Nat} {s : Symbol} {op : BinaryOp} :
    operatorAt level s = some op ↔ op.level = level ∧ op.symbol = s := by
  constructor
  · intro h
    unfold operatorAt at h
    split at h <;> cases h <;> exact ⟨rfl, rfl⟩
  · rintro ⟨rfl, rfl⟩
    cases op <;> rfl

theorem prefixAt_eq_some {s : Symbol} {op : UnaryOp} : prefixAt s = some op ↔ op.symbol = s := by
  constructor
  · intro h
    unfold prefixAt at h
    split at h <;> cases h <;> rfl
  · rintro rfl
    cases op <;> rfl

theorem ofName_literal {name : String} {v : Value} (h : (name, v) ∈ literalNames) :
    ofName name = .literal v := by
  simp only [literalNames, List.mem_cons, Prod.mk.injEq, List.not_mem_nil, or_false] at h
  rcases h with ⟨rfl, rfl⟩ | ⟨rfl, rfl⟩ | ⟨rfl, rfl⟩ | ⟨rfl, rfl⟩ | ⟨rfl, rfl⟩ | ⟨rfl, rfl⟩
  all_goals rfl

theorem ofName_variable {name : String} (h : name ∉ literalNames.map Prod.fst) :
    ofName name = .variable name := by
  simp only [literalNames, List.map_cons, List.map_nil, List.mem_cons, List.not_mem_nil, or_false,
    not_or] at h
  simp only [ofName, beq_iff_eq, h, if_false]

theorem derives_ofName (name : String) : Derives .primary [.name name] (ofName name) := by
  by_cases h : name ∈ literalNames.map Prod.fst
  · obtain ⟨⟨_, v⟩, hmem, rfl⟩ := List.mem_map.mp h
    rw [ofName_literal hmem]
    exact .literal hmem
  · rw [ofName_variable h]
    exact .variable h

end Parser

end ActiveMarkup
