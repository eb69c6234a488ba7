import ActiveMarkup.Proofs.Expr.Parsing
set_option autoImplicit false

namespace ActiveMarkup

def Stmt.value? : Stmt → Option Expr
  | .assign _ _ e => some e
  | .step _ _ => none
  | .expr e => some e

namespace Parser

open Grammar

def ReadIn (ts : List Token) (e : Expr) : Prop :=
  ∃ us rest, us <:+ ts ∧ readLevel topLevel maxDepth us = .ok (e, rest)

theorem ReadIn.mono {us ts : List Token} {e : Expr} (h : ReadIn us e) (hsuffix : us <:+ ts) :
    ReadIn ts e := by
  obtain ⟨vs, rest, hvs, hread⟩ := h
  exact ⟨vs, rest, hvs.trans hsuffix, hread⟩

theorem exists_of_readLevel {ts rest : List Token} {e : Expr}
    (h : readLevel topLevel maxDepth ts = .ok (e, rest)) :
    ∃ us, ts = us ++ rest ∧ Derives expression (lexemes us) e :=
  (Task.recorded (.level topLevel) maxDepth ts e rest h).spells

theorem ReadIn.derives {ts : List Token} {e : Expr} (h : ReadIn ts e) :
    ∃ u, Derives expression u e := by
  obtain ⟨us, rest, -, hread⟩ := h
  obtain ⟨vs, -, hderives⟩ := exists_of_readLevel hread
  exact ⟨_, hderives⟩

theorem readIn_of_readLevel {ts rest : List Token} {e : Expr}
    (h : readLevel topLevel maxDepth ts = .ok (e, rest)) : ReadIn ts e ∧ rest <:+ ts := by
  obtain ⟨us, hts, -⟩ := exists_of_readLevel h
  exact ⟨⟨ts, rest, List.suffix_rfl, h⟩, hts ▸ List.suffix_append us rest⟩

theorem readIn_of_ofTokens {ts : List Token} {e : Expr} (h : ofTokens ts = .ok e) :
    ReadIn ts e :=
  (readIn_of_readLevel (readLevel_of_ofTokens h)).1

def ReadStmt (ts : List Token) (s : Stmt) (rest : List Token) : Prop :=
  (∀ e ∈ s.value?, ReadIn ts e) ∧ rest <:+ ts

theorem ReadStmt.mono {us ts rest : List Token} {s : Stmt} (h : ReadStmt us s rest)
    (hsuffix : us <:+ ts) : ReadStmt ts s rest :=
  ⟨fun e he => (h.1 e he).mono hsuffix, h.2.trans hsuffix⟩

theorem readStmt_of_readBare {ts rest : List Token} {s : Stmt} (h : readBare ts = .ok (s, rest)) :
    ReadStmt ts s rest := by
  obtain ⟨⟨e, mid⟩, hread, h⟩ := bind_eq_ok.mp h
  obtain ⟨hin, hrest⟩ := readIn_of_readLevel hread
  simp only at h
  split at h
  · cases h
  · cases h
    refine ⟨?_, hrest⟩
    rintro _ ⟨⟩
    exact hin

theorem readStmt_of_readNamed {name : String} {after all rest : List Token} {s : Stmt}
    (hafter : after <:+ all) (h : readNamed name after all = .ok (s, rest)) :
    ReadStmt all s rest := by
  have htail : after.tail <:+ all := (List.tail_suffix after).trans hafter
  unfold readNamed at h
  split at h
  next =>
    cases h
    exact ⟨nofun, htail⟩
  next =>
    obtain ⟨⟨value, mid⟩, hread, h⟩ := bind_eq_ok.mp h
    cases h
    obtain ⟨hin, hrest⟩ := readIn_of_readLevel hread
    refine ⟨?_, hrest.trans htail⟩
    rintro _ ⟨⟩
    exact hin.mono htail
  next => exact readStmt_of_readBare h

theorem dropDeclarator_suffix (ts : List Token) : dropDeclarator ts <:+ ts := by
  unfold dropDeclarator
  split
  next =>
    split
    · exact List.suffix_cons _ _
    · exact List.suffix_rfl
  next => exact List.suffix_rfl

theorem readStmt_of_readStatement {ts rest : List Token} {s : Stmt}
    (h : readStatement ts = .ok (s, rest)) : ReadStmt ts s rest := by
  have hdrop := dropDeclarator_suffix ts
  unfold readStatement at h
  generalize dropDeclarator ts = us at h hdrop
  refine ReadStmt.mono ?_ hdrop
  split at h
  next o name p after =>
    split at h
    next =>
      cases h
      exact ⟨nofun, (List.suffix_cons _ _).trans (List.suffix_cons _ _)⟩
    next => exact readStmt_of_readBare h
  next => exact readStmt_of_readNamed (List.suffix_cons _ _) h
  next => exact readStmt_of_readBare h

theorem readIn_of_readStatements {ts : List Token} {stmts : List Stmt}
    (h : readStatements ts = .ok stmts) : ∀ s ∈ stmts, ∀ e ∈ s.value?, ReadIn ts e := by
  fun_induction readStatements ts generalizing stmts with
  | case1 =>
    cases h
    nofun
  | case2 t rest _ ih => exact fun s hs e he => (ih h s hs e he).mono (List.suffix_cons t rest)
  | case3 t rest _ ih =>
    obtain ⟨⟨first, after⟩, hread, h⟩ := bind_eq_ok.mp h
    obtain ⟨hfirst, hafter⟩ := readStmt_of_readStatement hread
    simp only at h
    split at h
    next =>
      cases h
      exact List.forall_mem_singleton.mpr hfirst
    next =>
      split at h
      next =>
        split at h
        next hlt =>
          obtain ⟨more, hmore, h⟩ := bind_eq_ok.mp h
          cases h
          refine List.forall_mem_cons.mpr ⟨hfirst, fun s hs e he => ?_⟩
          exact (ih after hlt hmore s hs e he).mono ((List.tail_suffix after).trans hafter)
        next => cases h
      next => cases h

end Parser

theorem Expr.derives_of_parse {src : String} {e : Expr} (h : Expr.parse src = .ok e) :
    ∃ u, Grammar.Derives Grammar.expression u e := by
  obtain ⟨ts, -, h⟩ := Parser.bind_eq_ok.mp h
  exact (Parser.readIn_of_ofTokens h).derives

theorem Stmt.derives_of_parseAll {src : String} {stmts : List Stmt}
    (h : Stmt.parseAll src = .ok stmts) {s : Stmt} (hs : s ∈ stmts) {e : Expr}
    (he : e ∈ s.value?) : ∃ u, Grammar.Derives Grammar.expression u e := by
  obtain ⟨ts, -, h⟩ := Parser.bind_eq_ok.mp h
  split at h
  · cases h
  · exact (Parser.readIn_of_readStatements h s hs e he).derives

end ActiveMarkup
