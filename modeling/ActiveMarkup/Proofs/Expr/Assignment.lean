import ActiveMarkup.Proofs.Expr.Sequencing
set_option autoImplicit false

namespace ActiveMarkup

open Lexer (IsName)
open ActiveMarkup.Parser (lexemes)

theorem tokenize_name {n : String} (hn : IsName n) : tokenize n = .ok [⟨.name n, 0⟩] := by
  have hend : ∀ x ∈ ([] : List Char).head?, Lexer.inName x = false := nofun
  obtain ⟨offset, hscan⟩ := Lexer.scan_name hn hend 0
  rw [List.append_nil, Lexer.scan] at hscan
  exact hscan

theorem Expr.parse_name {n : String} (hn : IsName n) : Expr.parse n = .ok (Parser.ofName n) := by
  have hderives : Grammar.Derives Grammar.expression (lexemes [⟨.name n, 0⟩]) (Parser.ofName n) :=
    .tighter (.tighter (.tighter (.tighter (.tighter (.tighter
      (.access (.primary (Parser.derives_ofName n))))))))
  rw [Expr.parse, tokenize_name hn]
  rcases Parser.ofTokens_complete hderives with hread | ⟨hdeep, -⟩
  · exact hread
  · exact (Nat.not_lt_zero _ hdeep).elim

theorem tokenize_assignment {n src : String} {ts : List Token} (hn : IsName n)
    (hsrc : tokenize src = .ok ts) :
    ∃ offset us, tokenize (n ++ " = " ++ src) =
        .ok (⟨.name n, 0⟩ :: ⟨.symbol .assign, offset⟩ :: us) ∧ lexemes us = lexemes ts := by
  have hblank : ∀ x ∈ (' ' :: '=' :: ' ' :: src.toList).head?, Lexer.inName x = false := by
    rintro _ ⟨⟩
    decide
  obtain ⟨offset, hscan⟩ := Lexer.scan_name hn hblank 0
  obtain ⟨us, hus, hlexemes⟩ := Lexer.scan_elsewhere hsrc (offset + 1 + 1 + 1)
  refine ⟨offset + 1, us, ?_, hlexemes⟩
  have htext : (n ++ " = " ++ src).toList = n.toList ++ ' ' :: '=' :: ' ' :: src.toList := by simp
  have hnext : Lexer.next (offset + 1) '=' (' ' :: src.toList) = .ok (.symbol .assign, 0) := rfl
  have hassign : Lexer.scan (offset + 1) ('=' :: ' ' :: src.toList) =
      (Lexer.scan (offset + 1 + 1) (' ' :: src.toList)).map (⟨.symbol .assign, offset + 1⟩ :: ·) :=
    Lexer.scan_cons (by decide) hnext
  have hskip : ∀ offset cs, Lexer.scan offset (' ' :: cs) = Lexer.scan (offset + 1) cs := by
    intro offset cs
    rw [Lexer.scan, if_pos (by decide)]
    rfl
  rw [tokenize, htext, hscan, hskip, hassign, hskip, hus]
  rfl

theorem Stmt.parseAll_assignment {n src : String} {e : Expr} (hn : IsName n)
    (hsrc : Expr.parse src = .ok e) :
    Stmt.parseAll (n ++ " = " ++ src) = .ok [.assign n none e] := by
  obtain ⟨ts, hts, hread⟩ := Parser.bind_eq_ok.mp hsrc
  obtain ⟨offset, us, htokens, hus⟩ := tokenize_assignment hn hts
  have hvalue : Parser.readLevel Parser.topLevel Parser.maxDepth us = .ok (e, []) := by
    obtain ⟨rest', hread', hrest⟩ :=
      Parser.readLevel_append (Parser.readLevel_of_ofTokens hread) hus Parser.ends_nil
    obtain rfl := List.map_eq_nil_iff.mp hrest
    rwa [List.append_nil] at hread'
  have hstatement : Parser.readStatement (⟨.name n, 0⟩ :: ⟨.symbol .assign, offset⟩ :: us) =
      .ok (.assign n none e, []) := by
    change Parser.readLevel Parser.topLevel Parser.maxDepth us >>= _ = _
    rw [hvalue]
    rfl
  refine Parser.bind_eq_ok.mpr ⟨_, htokens, ?_⟩
  rw [if_neg (by simp)]
  exact Parser.readStatements_last (by simp [Lexeme.isSymbol]) hstatement

namespace Namespace

/-- Reading back an assignment. Every name of a text may be assigned to, and stands for the value of
the expression from then on, which is the very value that the expression has on its own before the
assignment. As a value text the name always gives it, and as an expression unless it is one of the
names that are literals, which keep giving the literal. -/
theorem execute_assignment {text n src : String} {ts : List Token} {e : Expr}
    {ns ns' : Namespace} (hts : tokenize text = .ok ts) (hn : .name n ∈ lexemes ts)
    (hsrc : Expr.parse src = .ok e) (h : ns.execute (n ++ " = " ++ src) = (none, ns')) :
    ∃ v ns₁, ns.evaluate src = .ok (v, ns₁) ∧ ns' = ns₁.declare n v ∧ ns'.resolve n = (v, ns') ∧
      (n ∉ Grammar.literalNames.map Prod.fst → ns'.evaluate n = .ok (v, ns')) ∧
      ∀ w, (n, w) ∈ Grammar.literalNames → ns'.evaluate n = .ok (w, ns') := by
  have hname : IsName n := Lexer.isName_of_scan hts hn
  rw [execute_of_parseAll (Stmt.parseAll_assignment hname hsrc), Stmt.executeAll_eq_none,
    Stmt.effect_cons] at h
  obtain ⟨ns₁, hassign, h⟩ := Parser.bind_eq_ok.mp h
  cases h
  obtain ⟨⟨v, next⟩, heval, h⟩ := Parser.bind_eq_ok.mp hassign
  cases h
  have hlookup : ({ ns with nextRef := next }.declare n v).lookup n = some v :=
    lookup_declare_same _ n v
  refine ⟨v, { ns with nextRef := next }, ?_, rfl, ?_, fun hvariable => ?_, fun w hw => ?_⟩
  · exact Parser.bind_eq_ok.mpr ⟨e, hsrc, Parser.bind_eq_ok.mpr ⟨_, heval, rfl⟩⟩
  · rw [resolve, hlookup]
  · have hvalue : valueOf ({ ns with nextRef := next }.declare n v).vars n = .ok v := by
      rw [valueOf, show Table.find? _ n = some v from hlookup]
    refine Parser.bind_eq_ok.mpr ⟨_, Expr.parse_name hname, ?_⟩
    rw [Parser.ofName_variable hvariable, Expr.eval, hvalue]
    rfl
  · refine Parser.bind_eq_ok.mpr ⟨_, Expr.parse_name hname, ?_⟩
    rw [Parser.ofName_literal hw, Expr.eval]
    rfl

/-- A declaration word is a name like any other, and an array keeps its identity. -/
theorem execute_assignment_array :
    ∃ ns', empty.execute ("let" ++ " = " ++ "['a']") = (none, ns') ∧
      ns'.resolve "let" = (.array 0 [.text "a"], ns') ∧
      ns'.evaluate "let" = .ok (.array 0 [.text "a"], ns') := by
  have hts : tokenize "let" = .ok [⟨.name "let", 0⟩] := by cbv
  have hn : .name "let" ∈ lexemes [⟨.name "let", 0⟩] := List.mem_singleton_self _
  have hsrc : Expr.parse "['a']" = .ok (.array [.literal (.text "a")]) := by cbv
  have heval : empty.evaluate "['a']" = .ok (.array 0 [.text "a"], ⟨[], [], 1, 0⟩) := by cbv
  have hrun : empty.execute ("let" ++ " = " ++ "['a']") =
      (none, ⟨[("let", .array 0 [.text "a"])], [], 1, 0⟩) := by
    rw [execute_of_parseAll (Stmt.parseAll_assignment (Lexer.isName_of_scan hts hn) hsrc)]
    rfl
  obtain ⟨v, ns₁, hv, -, hresolve, hevaluate, -⟩ := execute_assignment hts hn hsrc hrun
  rw [heval] at hv
  cases hv
  exact ⟨_, hrun, hresolve, hevaluate (by decide)⟩

/-- A literal may be assigned to, but the expression that is its name does not give what was. -/
theorem execute_assignment_literal :
    tokenize "true" = .ok [⟨.name "true", 0⟩] ∧ Expr.parse "'x'" = .ok (.literal (.text "x")) ∧
      empty.evaluate "'x'" = .ok (.text "x", empty) ∧
      ∃ ns', empty.execute "true = 'x'" = (none, ns') ∧ ns'.resolve "true" = (.text "x", ns') ∧
        ns'.evaluate "true" = .ok (.bool true, ns') :=
  ⟨by cbv, by cbv, by cbv, ⟨[("true", .text "x")], [], 0, 0⟩, by cbv, by cbv, by cbv⟩

end Namespace

end ActiveMarkup
