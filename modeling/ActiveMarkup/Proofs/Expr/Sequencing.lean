import ActiveMarkup.Expr.Statement
import ActiveMarkup.Proofs.Expr.Lexing
import ActiveMarkup.Proofs.Expr.Locality
set_option autoImplicit false

namespace ActiveMarkup

namespace Stmt

theorem parseAll_semicolon {a b : String} {as bs : List Stmt} (ha : parseAll a = .ok as)
    (hb : parseAll b = .ok bs) : parseAll (a ++ ";" ++ b) = .ok (as ++ bs) := by
  have htokens : ∀ {src : String} {stmts : List Stmt}, parseAll src = .ok stmts →
      ∃ ts, tokenize src = .ok ts ∧ Parser.readStatements ts = .ok stmts := by
    intro src stmts h
    obtain ⟨ts, hts, h⟩ := Parser.bind_eq_ok.mp h
    split at h
    next => cases h
    next => exact ⟨ts, hts, h⟩
  obtain ⟨ts, hts, hread⟩ := htokens ha
  obtain ⟨us, hus, hread'⟩ := htokens hb
  obtain ⟨ts', offset, us', hjoined, hts', hus'⟩ := tokenize_semicolon hts hus
  refine Parser.bind_eq_ok.mpr ⟨_, hjoined, ?_⟩
  have hends := Parser.ends_semicolon offset us'
  rw [if_neg (by simp), Parser.readStatements_append hread hts' hends,
    Parser.readStatements_ends hends, List.tail_cons, Parser.readStatements_of_lexemes hread' hus']
  rfl

/-- The effect of statements none of which fails: each is run where the one before it left off. -/
def effect (stmts : List Stmt) (ns : Namespace) : Except ExprError Namespace :=
  stmts.foldlM (fun ns s => s.execute ns) ns

theorem effect_cons (s : Stmt) (stmts : List Stmt) (ns : Namespace) :
    effect (s :: stmts) ns = s.execute ns >>= effect stmts :=
  List.foldlM_cons

theorem executeAll_append (as bs : List Stmt) (ns : Namespace) :
    executeAll (as ++ bs) ns =
      match executeAll as ns with
      | (none, ns') => executeAll bs ns'
      | (some e, ns') => (some e, ns') := by
  induction as generalizing ns with
  | nil => rfl
  | cons s as ih =>
    rw [List.cons_append, executeAll, executeAll]
    cases s.execute ns with
    | ok ns' => exact ih ns'
    | error e => rfl

theorem executeAll_eq_none (stmts : List Stmt) (ns ns' : Namespace) :
    executeAll stmts ns = (none, ns') ↔ effect stmts ns = .ok ns' := by
  induction stmts generalizing ns with
  | nil =>
    rw [executeAll, Prod.mk.injEq, effect, List.foldlM_nil]
    exact ⟨fun h => congrArg Except.ok h.2, fun h => ⟨rfl, Except.ok.inj h⟩⟩
  | cons s stmts ih =>
    rw [executeAll, effect_cons]
    cases s.execute ns with
    | ok ns₁ => exact ih ns₁
    | error e => exact ⟨nofun, nofun⟩

theorem executeAll_eq_some (stmts : List Stmt) (ns ns' : Namespace) (e : ExprError) :
    executeAll stmts ns = (some e, ns') ↔
      ∃ k s, stmts[k]? = some s ∧ effect (stmts.take k) ns = .ok ns' ∧
        s.execute ns' = .error e := by
  induction stmts generalizing ns with
  | nil => simp [executeAll]
  | cons first stmts ih =>
    rw [executeAll]
    cases hfirst : first.execute ns with
    | error e' =>
      constructor
      · rintro ⟨⟩
        exact ⟨0, first, rfl, rfl, hfirst⟩
      · rintro ⟨k, s, hs, heffect, hfails⟩
        cases k with
        | zero =>
          cases hs
          cases heffect
          rw [hfirst] at hfails
          cases hfails
          rfl
        | succ k =>
          rw [List.take_succ_cons, effect_cons, hfirst] at heffect
          cases heffect
    | ok ns₁ =>
      rw [ih]
      constructor
      · rintro ⟨k, s, hs, heffect, hfails⟩
        refine ⟨k + 1, s, hs, ?_, hfails⟩
        rw [List.take_succ_cons, effect_cons, hfirst]
        exact heffect
      · rintro ⟨k, s, hs, heffect, hfails⟩
        cases k with
        | zero =>
          cases hs
          cases heffect
          rw [hfirst] at hfails
          cases hfails
        | succ k =>
          rw [List.take_succ_cons, effect_cons, hfirst] at heffect
          exact ⟨k, s, hs, heffect, hfails⟩

end Stmt

namespace Namespace

theorem execute_of_parseAll {src : String} {stmts : List Stmt} (h : Stmt.parseAll src = .ok stmts)
    (ns : Namespace) : ns.execute src = Stmt.executeAll stmts ns := by
  rw [execute, h]

theorem execute_of_error {src : String} {e : ExprError} (h : Stmt.parseAll src = .error e)
    (ns : Namespace) : ns.execute src = (some e, ns) := by
  rw [execute, h]

/-- Statements in sequence. Two accepted texts joined by a semicolon are read as the statements of
both, and run as the one and then, if that succeeded, the other. A text that is not accepted has no
effect. An accepted text succeeds with the effect of all its statements, or fails at one of them
with exactly the effect of those before it. -/
theorem execute_sequence (ns : Namespace) :
    (∀ a b as bs, Stmt.parseAll a = .ok as → Stmt.parseAll b = .ok bs →
      Stmt.parseAll (a ++ ";" ++ b) = .ok (as ++ bs) ∧
      ns.execute (a ++ ";" ++ b) =
        match ns.execute a with
        | (none, ns') => ns'.execute b
        | (some e, ns') => (some e, ns')) ∧
    (∀ src e, Stmt.parseAll src = .error e → ns.execute src = (some e, ns)) ∧
    ∀ src stmts, Stmt.parseAll src = .ok stmts →
      (∀ ns', ns.execute src = (none, ns') ↔ Stmt.effect stmts ns = .ok ns') ∧
      ∀ e ns', ns.execute src = (some e, ns') ↔ ∃ k s, stmts[k]? = some s ∧
        Stmt.effect (stmts.take k) ns = .ok ns' ∧ s.execute ns' = .error e := by
  refine ⟨fun a b as bs ha hb => ?_, fun src e h => execute_of_error h ns, fun src stmts h => ?_⟩
  · have hjoined := Stmt.parseAll_semicolon ha hb
    refine ⟨hjoined, ?_⟩
    rw [execute_of_parseAll hjoined, execute_of_parseAll ha, Stmt.executeAll_append]
    cases Stmt.executeAll as ns with
    | mk error ns' =>
      cases error with
      | none => exact (execute_of_parseAll hb ns').symm
      | some e => rfl
  · rw [execute_of_parseAll h]
    exact ⟨Stmt.executeAll_eq_none stmts ns, fun e ns' => Stmt.executeAll_eq_some stmts ns ns' e⟩

/-- A semicolon in a string, and a failure behind the joint that leaves the assignments before it.
-/
theorem execute_sequence_failure :
    ∃ as bs ns ns', Stmt.parseAll "let x = 'a;b'" = .ok as ∧
      Stmt.parseAll "x += 'c'; y; x = ''" = .ok bs ∧
      empty.execute "let x = 'a;b'" = (none, ns) ∧ ns.lookup "x" = some (.text "a;b") ∧
      empty.execute ("let x = 'a;b'" ++ ";" ++ "x += 'c'; y; x = ''") =
        (some (.undefinedVariable "y"), ns') ∧ ns'.lookup "x" = some (.text "a;bc") ∧
      empty.execute ")" =
        (some (.unexpectedToken ⟨.symbol .closeParen, 0⟩ .expression), empty) := by
  have ha : Stmt.parseAll "let x = 'a;b'" = .ok [.assign "x" none (.literal (.text "a;b"))] := by
    cbv
  have hb : Stmt.parseAll "x += 'c'; y; x = ''" =
      .ok [.assign "x" (some .add) (.literal (.text "c")), .expr (.variable "y"),
        .assign "x" none (.literal (.text ""))] := by cbv
  have hc : Stmt.parseAll ")" =
      .error (.unexpectedToken ⟨.symbol .closeParen, 0⟩ .expression) := by cbv
  obtain ⟨hjoined, hstop, -⟩ := execute_sequence empty
  have hfirst : empty.execute "let x = 'a;b'" = (none, ⟨[("x", .text "a;b")], [], 0, 0⟩) :=
    ((execute_sequence empty).2.2 _ _ ha).1 _ |>.mpr rfl
  have hsecond : execute ⟨[("x", .text "a;b")], [], 0, 0⟩ "x += 'c'; y; x = ''" =
      (some (.undefinedVariable "y"), ⟨[("x", .text "a;bc")], [], 0, 0⟩) :=
    (((execute_sequence _).2.2 _ _ hb).2 _ _).mpr ⟨1, _, rfl, by cbv, rfl⟩
  refine ⟨_, _, _, ⟨[("x", .text "a;bc")], [], 0, 0⟩, ha, hb, hfirst, rfl, ?_, rfl, hstop _ _ hc⟩
  rw [(hjoined _ _ _ _ ha hb).2, hfirst]
  exact hsecond

end Namespace

end ActiveMarkup
