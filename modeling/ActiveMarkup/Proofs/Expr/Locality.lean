import ActiveMarkup.Proofs.Expr.Statements
set_option autoImplicit false

namespace ActiveMarkup.Parser

variable {ts us ws rest : List Token} {s : Symbol}

def Ends (ws : List Token) : Prop :=
  ∀ t ∈ ws.head?, t.lexeme = .symbol .semicolon

theorem ends_nil : Ends [] := nofun

theorem ends_semicolon (offset : Nat) (ws : List Token) :
    Ends (⟨.symbol .semicolon, offset⟩ :: ws) := by
  rintro _ ⟨⟩
  rfl

theorem symbol?_of_lexemes (h : lexemes us = lexemes ts) : symbol? us = symbol? ts := by
  cases ts with
  | nil => rw [List.map_eq_nil_iff.mp h]
  | cons t ts =>
    obtain ⟨offset, us, rfl, -⟩ := exists_of_lexemes_cons h
    obtain ⟨x, offset'⟩ := t
    cases x <;> rfl

theorem symbol?_append (h : lexemes us = lexemes ts) (hw : Ends ws) :
    symbol? (us ++ ws) = symbol? ts ∨
      symbol? ts = none ∧ symbol? (us ++ ws) = some .semicolon := by
  rw [← symbol?_of_lexemes h]
  cases us with
  | cons u us =>
    obtain ⟨x, offset⟩ := u
    cases x <;> exact .inl rfl
  | nil =>
    cases ws with
    | nil => exact .inl rfl
    | cons w ws =>
      obtain ⟨x, offset⟩ := w
      obtain rfl : x = .symbol .semicolon := hw _ rfl
      exact .inr ⟨rfl, rfl⟩

theorem bind_symbol?_append {α : Type} {f : Symbol → Option α} (hf : f .semicolon = none)
    (h : lexemes us = lexemes ts) (hw : Ends ws) :
    (symbol? (us ++ ws)).bind f = (symbol? ts).bind f := by
  rcases symbol?_append h hw with happend | ⟨hnone, happend⟩
  · rw [happend]
  · rw [happend, hnone]
    exact hf

theorem symbol?_append_iff (hs : s ≠ .semicolon) (h : lexemes us = lexemes ts) (hw : Ends ws) :
    symbol? (us ++ ws) = some s ↔ symbol? ts = some s := by
  rcases symbol?_append h hw with happend | ⟨hnone, happend⟩
  · rw [happend]
  · rw [happend, hnone]
    exact ⟨fun he => (hs (Option.some.inj he).symm).elim, nofun⟩

theorem tail_append (hs : symbol? ts = some s) (h : lexemes us = lexemes ts) (ws : List Token) :
    (us ++ ws).tail = us.tail ++ ws ∧ lexemes us.tail = lexemes ts.tail := by
  obtain ⟨offset, hts⟩ := symbol?_eq_some.mp hs
  rw [hts] at h
  obtain ⟨offset', us, rfl, hus⟩ := exists_of_lexemes_cons h
  exact ⟨rfl, hus⟩

theorem expect_append (he : expect s ts = .ok rest) (h : lexemes us = lexemes ts)
    (ws : List Token) :
    ∃ rest', expect s (us ++ ws) = .ok (rest' ++ ws) ∧ lexemes rest' = lexemes rest := by
  obtain ⟨offset, rfl⟩ := expect_eq_ok.mp he
  obtain ⟨offset', rest', rfl, hrest⟩ := exists_of_lexemes_cons h
  exact ⟨rest', expect_self s offset' _, hrest⟩

theorem operatorAt_semicolon (level : Nat) : operatorAt level .semicolon = none := by
  refine Option.eq_none_iff_forall_ne_some.mpr fun op hop => ?_
  have hsymbol := (operatorAt_eq_some.mp hop).2
  cases op <;> cases hsymbol

theorem length_of_lexemes (h : lexemes us = lexemes ts) : us.length = ts.length := by
  simpa [lexemes] using congrArg List.length h

/-- What a task reads, it reads of tokens elsewhere in a text and before tokens that end it. -/
def Task.Local (t : Task) (room : Nat) (ts : List Token) : Prop :=
  ∀ e rest, t.read room ts = .ok (e, rest) → ∀ us ws, lexemes us = lexemes ts → Ends ws →
    ∃ rest', t.read room (us ++ ws) = .ok (e, rest' ++ ws) ∧ lexemes rest' = lexemes rest

section

variable {l room offset : Nat} {left first : Expr} {done : List Expr}

theorem local_of_error {t : Task} {x : ExprError} (h : t.read room ts = .error x) :
    t.Local room ts := by
  intro e rest hread
  rw [h] at hread
  cases hread

theorem local_operand (hp : Task.prefixed.Local room ts) : (Task.level 0).Local room ts := by
  intro e rest h us ws hus hw
  rw [Task.read, readLevel] at h ⊢
  exact hp e rest h us ws hus hw

theorem local_level (hl : (Task.level l).Local room ts)
    (hc : ∀ left mid, (Task.chain l left).Local room mid) : (Task.level (l + 1)).Local room ts := by
  intro e rest h us ws hus hw
  rw [Task.read, readLevel] at h ⊢
  obtain ⟨⟨left, mid⟩, hleft, hchain⟩ := bind_eq_ok.mp h
  obtain ⟨mid', hleft', hmid⟩ := hl left mid hleft us ws hus hw
  obtain ⟨rest', hchain', hrest⟩ := hc left mid e rest hchain mid' ws hmid hw
  exact ⟨rest', bind_eq_ok.mpr ⟨_, hleft', hchain'⟩, hrest⟩

theorem local_chained (hop : (symbol? ts).bind (operatorAt l) = none) :
    (Task.chain l left).Local room ts := by
  intro e rest h us ws hus hw
  rw [Task.read, readChain, hop] at h
  cases h
  rw [Task.read, readChain, bind_symbol?_append (operatorAt_semicolon l) hus hw, hop]
  exact ⟨us, rfl, hus⟩

theorem local_link {op : BinaryOp} (hop : (symbol? ts).bind (operatorAt l) = some op)
    (hl : (Task.level l).Local room ts.tail)
    (hc : ∀ right mid, (Task.chain l (.binary op left right)).Local room mid) :
    (Task.chain l left).Local (room + 1) ts := by
  intro e rest h us ws hus hw
  rw [Task.read, readChain, hop] at h
  obtain ⟨⟨right, mid⟩, hright, hchain⟩ := bind_eq_ok.mp h
  obtain ⟨s, hs, -⟩ := Option.bind_eq_some_iff.mp hop
  obtain ⟨htail, hlexemes⟩ := tail_append hs hus ws
  obtain ⟨mid', hright', hmid⟩ := hl right mid hright _ ws hlexemes hw
  obtain ⟨rest', hchain', hrest⟩ := hc right mid e rest hchain mid' ws hmid hw
  rw [Task.read, readChain, bind_symbol?_append (operatorAt_semicolon l) hus hw, hop, htail]
  exact ⟨rest', bind_eq_ok.mpr ⟨_, hright', hchain'⟩, hrest⟩

theorem local_accesses (hop : (symbol? ts).bind prefixAt = none) (hp : Task.primary.Local room ts)
    (ha : ∀ first mid, (Task.access first).Local room mid) : Task.prefixed.Local room ts := by
  intro e rest h us ws hus hw
  rw [Task.read, readPrefixed, hop] at h
  obtain ⟨⟨first, mid⟩, hfirst, haccess⟩ := bind_eq_ok.mp h
  obtain ⟨mid', hfirst', hmid⟩ := hp first mid hfirst us ws hus hw
  obtain ⟨rest', haccess', hrest⟩ := ha first mid e rest haccess mid' ws hmid hw
  rw [Task.read, readPrefixed, bind_symbol?_append rfl hus hw, hop]
  exact ⟨rest', bind_eq_ok.mpr ⟨_, hfirst', haccess'⟩, hrest⟩

theorem local_unary {op : UnaryOp} (hop : (symbol? ts).bind prefixAt = some op)
    (hp : Task.prefixed.Local room ts.tail) : Task.prefixed.Local (room + 1) ts := by
  intro e rest h us ws hus hw
  rw [Task.read, readPrefixed, hop] at h
  obtain ⟨⟨operand, mid⟩, hoperand, hpure⟩ := bind_eq_ok.mp h
  cases hpure
  obtain ⟨s, hs, -⟩ := Option.bind_eq_some_iff.mp hop
  obtain ⟨htail, hlexemes⟩ := tail_append hs hus ws
  obtain ⟨rest', hoperand', hrest⟩ := hp operand rest hoperand _ ws hlexemes hw
  rw [Task.read, readPrefixed, bind_symbol?_append rfl hus hw, hop, htail]
  exact ⟨rest', bind_eq_ok.mpr ⟨_, hoperand', rfl⟩, hrest⟩

theorem local_member {name : String} {after : List Token} (hdot : symbol? ts = some .dot)
    (htail : ts.tail = ⟨.name name, offset⟩ :: after)
    (ha : (Task.access (.member first name)).Local room after) :
    (Task.access first).Local (room + 1) ts := by
  intro e rest h us ws hus hw
  rw [Task.read, readAccess, hdot] at h
  simp only [htail] at h
  obtain ⟨htail', hlexemes⟩ := tail_append hdot hus ws
  rw [htail] at hlexemes
  obtain ⟨offset', after', hafter, hlexemes⟩ := exists_of_lexemes_cons hlexemes
  rw [Task.read, readAccess, (symbol?_append_iff (by decide) hus hw).mpr hdot]
  simp only [htail', hafter, List.cons_append]
  exact ha e rest h after' ws hlexemes hw

theorem local_index (hopen : symbol? ts = some .openBracket)
    (hl : (Task.level topLevel).Local room ts.tail)
    (ha : ∀ i after, (Task.access (.index first i)).Local room after) :
    (Task.access first).Local (room + 1) ts := by
  intro e rest h us ws hus hw
  rw [Task.read, readAccess, hopen] at h
  obtain ⟨⟨i, mid⟩, hi, h⟩ := bind_eq_ok.mp h
  obtain ⟨after, hclose, haccess⟩ := bind_eq_ok.mp h
  obtain ⟨htail, hlexemes⟩ := tail_append hopen hus ws
  obtain ⟨mid', hi', hmid⟩ := hl i mid hi _ ws hlexemes hw
  obtain ⟨after', hclose', hafter⟩ := expect_append hclose hmid ws
  obtain ⟨rest', haccess', hrest⟩ := ha i after e rest haccess after' ws hafter hw
  rw [Task.read, readAccess, (symbol?_append_iff (by decide) hus hw).mpr hopen]
  simp only [htail]
  exact ⟨rest', bind_eq_ok.mpr ⟨_, hi', bind_eq_ok.mpr ⟨_, hclose', haccess'⟩⟩, hrest⟩

theorem local_accessed (hdot : symbol? ts ≠ some .dot) (hopen : symbol? ts ≠ some .openBracket) :
    (Task.access first).Local room ts := by
  intro e rest h us ws hus hw
  rw [Task.read, readAccess_other hdot hopen] at h
  cases h
  refine ⟨us, readAccess_other ?_ ?_ room first, hus⟩
  · rwa [Ne, symbol?_append_iff (by decide) hus hw]
  · rwa [Ne, symbol?_append_iff (by decide) hus hw]

theorem local_leaf {x : Lexeme} {e : Expr}
    (hread : ∀ room offset rest, readPrimary room (⟨x, offset⟩ :: rest) = .ok (e, rest))
    (room offset : Nat) (rest : List Token) : Task.primary.Local room (⟨x, offset⟩ :: rest) := by
  intro e' rest' h us ws hus hw
  obtain ⟨offset', us, rfl, hlexemes⟩ := exists_of_lexemes_cons hus
  cases (hread room offset rest).symm.trans h
  exact ⟨us, hread room offset' (us ++ ws), hlexemes⟩

theorem local_parens (hl : (Task.level topLevel).Local room ts) :
    Task.primary.Local (room + 1) (⟨.symbol .openParen, offset⟩ :: ts) := by
  intro e rest h us ws hus hw
  rw [Task.read, readPrimary] at h
  obtain ⟨⟨inner, mid⟩, hinner, h⟩ := bind_eq_ok.mp h
  obtain ⟨after, hclose, hpure⟩ := bind_eq_ok.mp h
  cases hpure
  obtain ⟨offset', us, rfl, hlexemes⟩ := exists_of_lexemes_cons hus
  obtain ⟨mid', hinner', hmid⟩ := hl e mid hinner us ws hlexemes hw
  obtain ⟨rest', hclose', hrest⟩ := expect_append hclose hmid ws
  rw [List.cons_append, Task.read, readPrimary]
  exact ⟨rest', bind_eq_ok.mpr ⟨_, hinner', bind_eq_ok.mpr ⟨_, hclose', rfl⟩⟩, hrest⟩

theorem local_noItems (hclose : symbol? ts = some .closeBracket) :
    Task.primary.Local (room + 1) (⟨.symbol .openBracket, offset⟩ :: ts) := by
  intro e rest h us ws hus hw
  rw [Task.read, readPrimary] at h
  simp only [hclose, if_true] at h
  cases h
  obtain ⟨offset', us, rfl, hlexemes⟩ := exists_of_lexemes_cons hus
  obtain ⟨htail, hrest⟩ := tail_append hclose hlexemes ws
  rw [List.cons_append, Task.read, readPrimary]
  simp only [(symbol?_append_iff (by decide) hlexemes hw).mpr hclose, if_true, htail]
  exact ⟨_, rfl, hrest⟩

theorem local_array (hclose : symbol? ts ≠ some .closeBracket)
    (hi : (Task.items []).Local room ts) :
    Task.primary.Local (room + 1) (⟨.symbol .openBracket, offset⟩ :: ts) := by
  intro e rest h us ws hus hw
  rw [Task.read, readPrimary] at h
  simp only [hclose, if_false] at h
  obtain ⟨offset', us, rfl, hlexemes⟩ := exists_of_lexemes_cons hus
  rw [List.cons_append, Task.read, readPrimary]
  simp only [mt (symbol?_append_iff (by decide) hlexemes hw).mp hclose, if_false]
  exact hi e rest h us ws hlexemes hw

theorem local_items (hl : (Task.level topLevel).Local room ts)
    (hi : ∀ first after, after.length < ts.length →
      (Task.items (first :: done)).Local room after) :
    (Task.items done).Local room ts := by
  intro e rest h us ws hus hw
  rw [Task.read, readItems] at h
  obtain ⟨⟨first, mid⟩, hfirst, h⟩ := bind_eq_ok.mp h
  obtain ⟨mid', hfirst', hmid⟩ := hl first mid hfirst us ws hus hw
  have hclosed := symbol?_append_iff (s := .closeBracket) (by decide) hmid hw
  simp only at h
  rw [Task.read, readItems]
  split at h
  next hclose =>
    cases h
    obtain ⟨htail, hlexemes⟩ := tail_append hclose hmid ws
    refine ⟨mid'.tail, bind_eq_ok.mpr ⟨_, hfirst', ?_⟩, hlexemes⟩
    simp only [hclosed.mpr hclose, if_true, htail]
  next hclose =>
    obtain ⟨after, hcomma, hmore⟩ := bind_eq_ok.mp h
    obtain ⟨after', hcomma', hafter⟩ := expect_append hcomma hmid ws
    split at hmore
    next hlt =>
      obtain ⟨rest', hmore', hrest⟩ := hi first after hlt e rest hmore after' ws hafter hw
      refine ⟨rest', bind_eq_ok.mpr ⟨_, hfirst', ?_⟩, hrest⟩
      have hlt' : (after' ++ ws).length < (us ++ ws).length := by
        rw [List.length_append, List.length_append, length_of_lexemes hafter,
          length_of_lexemes hus]
        omega
      simp only [mt hclosed.mp hclose, if_false]
      refine bind_eq_ok.mpr ⟨_, hcomma', ?_⟩
      rwa [if_pos hlt']
    next => cases hmore

end

theorem local_all :
    (∀ l room ts, (Task.level l).Local room ts) ∧
    (∀ l room left ts, (Task.chain l left).Local room ts) ∧
    (∀ room ts, Task.prefixed.Local room ts) ∧
    (∀ room e ts, (Task.access e).Local room ts) ∧
    (∀ room ts, Task.primary.Local room ts) ∧
    (∀ room done ts, (Task.items done).Local room ts) := by
  apply readLevel.mutual_induct (fun l room ts => (Task.level l).Local room ts)
    (fun l room left ts => (Task.chain l left).Local room ts)
    (fun room ts => Task.prefixed.Local room ts)
    (fun room e ts => (Task.access e).Local room ts)
    (fun room ts => Task.primary.Local room ts)
    (fun room done ts => (Task.items done).Local room ts)
  case case1 => exact fun _ _ => local_operand
  case case2 => exact fun _ _ _ => local_level
  case case3 => exact fun _ _ _ _ => local_chained
  case case4 =>
    intro l left ts op hop
    exact local_of_error (by rw [Task.read, readChain, hop]; rfl)
  case case5 => exact fun _ _ _ _ hop _ => local_link hop
  case case6 => exact fun _ _ => local_accesses
  case case7 =>
    intro ts op hop
    exact local_of_error (by rw [Task.read, readPrefixed, hop]; rfl)
  case case8 => exact fun _ _ hop _ => local_unary hop
  case case9 =>
    intro first ts hdot
    exact local_of_error (by rw [Task.read, readAccess, hdot]; rfl)
  case case10 => exact fun _ _ hdot _ _ _ _ htail => local_member hdot htail
  case case11 =>
    intro first ts hdot room hname
    refine local_of_error (x := unexpected .propertyName ts.tail) ?_
    rw [Task.read, readAccess, hdot]
    simp only
  case case12 =>
    intro first ts hopen
    exact local_of_error (by rw [Task.read, readAccess, hopen]; rfl)
  case case13 => exact fun _ _ hopen _ => local_index hopen
  case case14 => exact fun _ _ _ hdot hopen => local_accessed hdot hopen
  case case15 => exact fun room _ => local_leaf (fun _ _ _ => by rw [readPrimary]) room
  case case16 => exact fun room _ => local_leaf (fun _ _ _ => by rw [readPrimary]) room
  case case17 => exact fun room _ => local_leaf (fun _ _ _ => by rw [readPrimary]) room
  case case18 => exact fun _ _ => local_of_error (by rw [Task.read, readPrimary]; rfl)
  case case19 => exact fun _ _ _ => local_parens
  case case20 => exact fun _ _ => local_of_error (by rw [Task.read, readPrimary]; rfl)
  case case21 => exact fun _ _ _ => local_noItems
  case case22 => exact fun _ _ _ => local_array
  case case23 =>
    intro room ts hnumber htext hname hparen hbracket
    refine local_of_error (x := unexpected .expression ts) ?_
    rw [Task.read, readPrimary] <;> assumption
  case case24 => exact fun _ _ _ => local_items

theorem readLevel_append {level room : Nat} {e : Expr}
    (h : readLevel level room ts = .ok (e, rest)) (hus : lexemes us = lexemes ts) (hw : Ends ws) :
    ∃ rest', readLevel level room (us ++ ws) = .ok (e, rest' ++ ws) ∧
      lexemes rest' = lexemes rest :=
  local_all.1 level room ts e rest h us ws hus hw

theorem exists_of_append_cons {x : Lexeme} {offset : Nat} (h : us ++ ws = ⟨x, offset⟩ :: rest)
    (hus : lexemes us = lexemes ts) (hw : Ends ws) (hx : x ≠ .symbol .semicolon) :
    ∃ offset' rest', ts = ⟨x, offset'⟩ :: rest' := by
  cases us with
  | nil => exact (hx (hw ⟨x, offset⟩ (by rw [List.nil_append] at h; rw [h]; rfl))).elim
  | cons u us =>
    rw [List.cons_append, List.cons.injEq] at h
    obtain ⟨rfl, -⟩ := h
    obtain ⟨offset', rest', rfl, -⟩ := exists_of_lexemes_cons hus.symm
    exact ⟨offset', rest', rfl⟩

theorem exists_of_append_name {x : Lexeme} {name : String} {offset offset' : Nat}
    (h : us ++ ws = ⟨x, offset⟩ :: ⟨.name name, offset'⟩ :: rest) (hne : us ≠ [])
    (hus : lexemes us = lexemes ts) (hw : Ends ws) :
    ∃ offset offset' rest', ts = ⟨x, offset⟩ :: ⟨.name name, offset'⟩ :: rest' := by
  obtain ⟨u, us, rfl⟩ := List.exists_cons_of_ne_nil hne
  rw [List.cons_append, List.cons.injEq] at h
  obtain ⟨rfl, h⟩ := h
  obtain ⟨offset, ts, rfl, hts⟩ := exists_of_lexemes_cons hus.symm
  obtain ⟨offset', rest', rfl⟩ := exists_of_append_cons h hts.symm hw nofun
  exact ⟨offset, offset', rest', rfl⟩

theorem dropDeclarator_append (hus : lexemes us = lexemes ts) (hw : Ends ws) :
    ∃ us', dropDeclarator (us ++ ws) = us' ++ ws ∧ lexemes us' = lexemes (dropDeclarator ts) := by
  unfold dropDeclarator
  split
  next word o name p rest heq =>
    have hne : us ≠ [] := by
      rintro rfl
      rw [List.nil_append] at heq
      cases hw ⟨.name word, o⟩ (by rw [heq]; rfl)
    obtain ⟨o', p', rest', rfl⟩ := exists_of_append_name heq hne hus hw
    obtain ⟨o₁, us₁, rfl, hus₁⟩ := exists_of_lexemes_cons hus
    obtain ⟨p₁, us₂, rfl, hus₂⟩ := exists_of_lexemes_cons hus₁
    cases heq
    simp only
    split
    · exact ⟨_, rfl, hus₁⟩
    · exact ⟨_, rfl, hus⟩
  next hother =>
    refine ⟨us, rfl, ?_⟩
    split
    next word o name p rest =>
      obtain ⟨o₁, us₁, rfl, hus₁⟩ := exists_of_lexemes_cons hus
      obtain ⟨p₁, us₂, rfl, -⟩ := exists_of_lexemes_cons hus₁
      exact (hother _ _ _ _ _ rfl).elim
    next => exact hus

theorem readBare_nil (read : Stmt × List Token) : readBare [] ≠ .ok read := by
  intro h
  obtain ⟨⟨e, mid⟩, hread, -⟩ := bind_eq_ok.mp h
  obtain ⟨us, hus, hderives⟩ := (Task.recorded (.level topLevel) maxDepth [] e mid hread).spells
  obtain ⟨x, v, hx, -⟩ := exists_head_of_derives hderives
  obtain ⟨rfl, -⟩ := List.append_eq_nil_iff.mp hus.symm
  cases hx

theorem readBare_append {s : Stmt} (h : readBare ts = .ok (s, rest))
    (hus : lexemes us = lexemes ts) (hw : Ends ws) :
    ∃ rest', readBare (us ++ ws) = .ok (s, rest' ++ ws) ∧ lexemes rest' = lexemes rest := by
  obtain ⟨⟨e, mid⟩, hread, h⟩ := bind_eq_ok.mp h
  obtain ⟨mid', hread', hmid⟩ := readLevel_append hread hus hw
  simp only at h
  split at h
  next => cases h
  next hassign =>
    cases h
    refine ⟨mid', bind_eq_ok.mpr ⟨_, hread', ?_⟩, hmid⟩
    simp only [mt (symbol?_append_iff (by decide) hmid hw).mp hassign, if_false]
    rfl

theorem readNamed_append {name : String} {all all' : List Token} {s : Stmt}
    (h : readNamed name ts all = .ok (s, rest)) (hus : lexemes us = lexemes ts)
    (hall : lexemes all' = lexemes all) (hw : Ends ws) :
    ∃ rest', readNamed name (us ++ ws) (all' ++ ws) = .ok (s, rest' ++ ws) ∧
      lexemes rest' = lexemes rest := by
  rw [readNamed, bind_symbol?_append rfl hus hw, bind_symbol?_append rfl hus hw]
  unfold readNamed at h
  split at h
  next hstep =>
    cases h
    obtain ⟨s, hs, -⟩ := Option.bind_eq_some_iff.mp hstep
    obtain ⟨htail, hlexemes⟩ := tail_append hs hus ws
    exact ⟨us.tail, by rw [htail], hlexemes⟩
  next hassign =>
    obtain ⟨⟨value, mid⟩, hread, h⟩ := bind_eq_ok.mp h
    cases h
    obtain ⟨s, hs, -⟩ := Option.bind_eq_some_iff.mp hassign
    obtain ⟨htail, hlexemes⟩ := tail_append hs hus ws
    obtain ⟨mid', hread', hmid⟩ := readLevel_append hread hlexemes hw
    exact ⟨mid', bind_eq_ok.mpr ⟨_, by rwa [htail], rfl⟩, hmid⟩
  next => exact readBare_append h hall hw

theorem readStatement_append {s : Stmt} (h : readStatement ts = .ok (s, rest))
    (hus : lexemes us = lexemes ts) (hw : Ends ws) :
    ∃ rest', readStatement (us ++ ws) = .ok (s, rest' ++ ws) ∧ lexemes rest' = lexemes rest := by
  obtain ⟨us', hdrop, hus'⟩ := dropDeclarator_append hus hw
  unfold readStatement at h ⊢
  rw [hdrop]
  generalize dropDeclarator ts = ts at h hus'
  split at h
  next s' o name p after =>
    obtain ⟨o', us', rfl, hafter⟩ := exists_of_lexemes_cons hus'
    obtain ⟨p', us', rfl, hrest⟩ := exists_of_lexemes_cons hafter
    simp only [List.cons_append]
    split at h
    next hstep =>
      cases h
      exact ⟨us', rfl, hrest⟩
    next => exact readBare_append h hus' hw
  next name o after =>
    obtain ⟨o', us', rfl, hafter⟩ := exists_of_lexemes_cons hus'
    exact readNamed_append h hafter hus' hw
  next hstep hname =>
    have hne : us' ≠ [] := by
      rintro rfl
      obtain rfl := List.map_eq_nil_iff.mp hus'.symm
      exact readBare_nil _ h
    split
    next heq =>
      obtain ⟨_, _, _, rfl⟩ := exists_of_append_name heq hne hus' hw
      exact (hstep _ _ _ _ _ rfl).elim
    next heq =>
      obtain ⟨_, _, rfl⟩ := exists_of_append_cons heq hus' hw nofun
      exact (hname _ _ _ rfl).elim
    next => exact readBare_append h hus' hw

theorem readStatements_ends (hw : Ends ws) : readStatements ws = readStatements ws.tail := by
  cases ws with
  | nil => rfl
  | cons w ws =>
    obtain ⟨x, offset⟩ := w
    obtain rfl : x = .symbol .semicolon := hw _ rfl
    rw [readStatements]
    rfl

theorem readStatements_last {t : Token} {s : Stmt} (ht : ¬ t.lexeme.isSymbol .semicolon)
    (h : readStatement (t :: ts) = .ok (s, [])) : readStatements (t :: ts) = .ok [s] := by
  rw [readStatements, if_neg ht, h]
  rfl

theorem readStatements_next {t : Token} {s : Stmt} {offset : Nat}
    (ht : ¬ t.lexeme.isSymbol .semicolon)
    (h : readStatement (t :: ts) = .ok (s, ⟨.symbol .semicolon, offset⟩ :: rest)) :
    readStatements (t :: ts) = (readStatements rest).map (s :: ·) := by
  have hshorter : rest.length < (t :: ts).length := (readStmt_of_readStatement h).2.length_le
  rw [readStatements, if_neg ht, h]
  simp only [bind, Except.bind]
  refine (if_neg Bool.false_ne_true).trans ((if_pos rfl).trans ((if_pos hshorter).trans ?_))
  rw [List.tail_cons]
  cases readStatements rest <;> rfl

/-- Statements are read in the same way before a semicolon, and what is behind it is read on its
own. -/
theorem readStatements_append {stmts : List Stmt} (h : readStatements ts = .ok stmts)
    (hus : lexemes us = lexemes ts) (hw : Ends ws) :
    readStatements (us ++ ws) = (readStatements ws).map (stmts ++ ·) := by
  fun_induction readStatements ts generalizing stmts us with
  | case1 =>
    cases h
    obtain rfl := List.map_eq_nil_iff.mp hus
    rw [List.nil_append]
    cases readStatements ws <;> rfl
  | case2 t rest ht ih =>
    obtain ⟨offset, us, rfl, hrest⟩ := exists_of_lexemes_cons hus
    rw [List.cons_append, readStatements, if_pos ht]
    exact ih h hrest
  | case3 t rest ht ih =>
    obtain ⟨⟨first, after⟩, hread, h⟩ := bind_eq_ok.mp h
    obtain ⟨after', hread', hafter⟩ := readStatement_append hread hus hw
    obtain ⟨offset, us, rfl, -⟩ := exists_of_lexemes_cons hus
    rw [List.cons_append] at hread' ⊢
    simp only at h
    split at h
    next hnone =>
      cases h
      obtain rfl := List.isEmpty_iff.mp hnone
      obtain rfl := List.map_eq_nil_iff.mp hafter
      cases ws with
      | nil =>
        rw [readStatements_last (t := ⟨t.lexeme, offset⟩) ht hread', readStatements]
        rfl
      | cons w ws =>
        obtain ⟨x, offset'⟩ := w
        obtain rfl : x = .symbol .semicolon := hw _ rfl
        rw [readStatements_ends hw]
        exact readStatements_next (t := ⟨t.lexeme, offset⟩) ht hread'
    next =>
      split at h
      next hsemicolon =>
        obtain ⟨offset', hhead⟩ := symbol?_eq_some.mp hsemicolon
        rw [hhead] at hafter
        obtain ⟨offset'', after', rfl, hlexemes⟩ := exists_of_lexemes_cons hafter
        rw [List.cons_append] at hread'
        split at h
        next hlt =>
          obtain ⟨more, hmore, h⟩ := bind_eq_ok.mp h
          cases h
          rw [readStatements_next (t := ⟨t.lexeme, offset⟩) ht hread', ih after hlt hmore hlexemes]
          cases readStatements ws <;> rfl
        next => cases h
      next => cases h

theorem readStatements_of_lexemes {stmts : List Stmt} (h : readStatements ts = .ok stmts)
    (hus : lexemes us = lexemes ts) : readStatements us = .ok stmts := by
  have happend := readStatements_append h hus ends_nil
  rw [List.append_nil, readStatements] at happend
  rw [happend]
  exact congrArg Except.ok (List.append_nil stmts)

end ActiveMarkup.Parser
