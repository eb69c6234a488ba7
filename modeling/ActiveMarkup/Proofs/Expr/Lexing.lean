import ActiveMarkup.Expr.Lexer
import ActiveMarkup.Proofs.Expr.Parsing
import ActiveMarkup.Proofs.Text.Lowercase
set_option autoImplicit false

namespace ActiveMarkup.Lexer

open ActiveMarkup.Parser (lexemes)

variable {cs rest : List Char}

/-- A text that is cut off there: nothing, or a semicolon first. -/
def Cut (rest : List Char) : Prop :=
  ∀ c ∈ rest.head?, c = ';'

theorem cut_nil : Cut [] := nofun

theorem cut_semicolon (rest : List Char) : Cut (';' :: rest) := by
  rintro _ ⟨⟩
  rfl

theorem Cut.cases (h : Cut rest) : rest = [] ∨ ∃ rest', rest = ';' :: rest' := by
  cases rest with
  | nil => exact .inl rfl
  | cons c rest =>
    obtain rfl := h c rfl
    exact .inr ⟨rest, rfl⟩

theorem Cut.takeWhile_append {p : Char → Bool} (h : Cut rest) (hp : p ';' = false)
    (cs : List Char) : (cs ++ rest).takeWhile p = cs.takeWhile p := by
  induction cs with
  | nil =>
    obtain rfl | ⟨rest, rfl⟩ := h.cases
    · rfl
    · rw [List.nil_append, List.takeWhile_cons_of_neg (by simp [hp]), List.takeWhile_nil]
  | cons c cs ih => rw [List.cons_append, List.takeWhile_cons, List.takeWhile_cons, ih]

theorem Cut.dropWhile_append {p : Char → Bool} (h : Cut rest) (hp : p ';' = false)
    (cs : List Char) : (cs ++ rest).dropWhile p = cs.dropWhile p ++ rest := by
  induction cs with
  | nil =>
    obtain rfl | ⟨rest, rfl⟩ := h.cases
    · rfl
    · rw [List.nil_append, List.dropWhile_cons_of_neg (by simp [hp]), List.dropWhile_nil,
        List.nil_append]
  | cons c cs ih =>
    rw [List.cons_append, List.dropWhile_cons, List.dropWhile_cons, ih]
    split <;> rfl

theorem Cut.takeSign_append (h : Cut rest) (cs : List Char) :
    Decimal.takeSign (cs ++ rest) = ((Decimal.takeSign cs).1, (Decimal.takeSign cs).2 ++ rest) := by
  cases cs with
  | nil => obtain rfl | ⟨rest, rfl⟩ := h.cases <;> rfl
  | cons c cs =>
    by_cases hplus : c = '+'
    · subst hplus
      rfl
    · by_cases hminus : c = '-'
      · subst hminus
        rfl
      · simp [Decimal.takeSign, hplus, hminus]

theorem Cut.takeDigits_append (h : Cut rest) (cs : List Char) :
    Decimal.takeDigits (cs ++ rest) =
      ((Decimal.takeDigits cs).1, (Decimal.takeDigits cs).2 ++ rest) := by
  rw [Decimal.takeDigits, h.takeWhile_append rfl, h.dropWhile_append rfl, Decimal.takeDigits]

theorem Cut.takeExponent_append (h : Cut rest) (cs : List Char) :
    (Decimal.takeExponent (cs ++ rest)).2 = (Decimal.takeExponent cs).2 ++ rest := by
  cases cs with
  | nil => obtain rfl | ⟨rest, rfl⟩ := h.cases <;> rfl
  | cons c cs =>
    simp only [List.cons_append, Decimal.takeExponent, h.takeSign_append, h.takeDigits_append]
    split
    · split <;> rfl
    · rfl

theorem Cut.numberLength_append (h : Cut rest) (cs : List Char) :
    numberLength (cs ++ rest) = numberLength cs := by
  have hrun := h.takeWhile_append (p := fun c => c.isDigit || c == '.') rfl cs
  have hle : (cs.takeWhile fun c => c.isDigit || c == '.').length ≤ cs.length :=
    (List.takeWhile_sublist _).length_le
  rw [numberLength, numberLength, hrun, exponentLength, exponentLength,
    List.drop_append_of_le_length hle, h.takeExponent_append, List.length_append,
    List.length_append, Nat.add_sub_add_right]

theorem Cut.startsNumber_append (h : Cut rest) (c : Char) (cs : List Char) :
    startsNumber (c :: cs ++ rest) = startsNumber (c :: cs) := by
  cases cs with
  | cons d cs =>
    by_cases hpoint : c = '.'
    · subst hpoint
      rfl
    · simp [startsNumber, hpoint]
  | nil =>
    obtain rfl | ⟨rest, rfl⟩ := h.cases
    · rfl
    · by_cases hpoint : c = '.'
      · subst hpoint
        rfl
      · simp [startsNumber, hpoint]

theorem numberLength_le (cs : List Char) : numberLength cs ≤ cs.length := by
  have hle : (cs.takeWhile fun c => c.isDigit || c == '.').length ≤ cs.length :=
    (List.takeWhile_sublist _).length_le
  rw [numberLength, exponentLength, List.length_drop]
  omega

theorem readString?_parts {quote : Char} {out : List Char} {count : Nat} {s : String} {size : Nat}
    (h : readString? quote out count cs = some (s, size)) :
    ∃ taken after, cs = taken ++ after ∧ size = count + taken.length ∧
      ∀ more, readString? quote out count (taken ++ more) = some (s, size) := by
  fun_induction readString? quote out count cs with
  | case1 => cases h
  | case2 out count c cs hc =>
    cases h
    refine ⟨[c], cs, rfl, rfl, fun more => ?_⟩
    rw [List.cons_append]
    unfold readString?
    rw [if_pos hc]
  | case3 => cases h
  | case4 out count c hc hescape d ds ih =>
    obtain ⟨taken, after, rfl, rfl, hread⟩ := ih h
    refine ⟨c :: d :: taken, after, rfl, by simp only [List.length_cons]; omega, fun more => ?_⟩
    rw [List.cons_append]
    unfold readString?
    rw [if_neg hc, if_pos hescape]
    exact hread more
  | case5 out count c cs hc hescape ih =>
    obtain ⟨taken, after, rfl, rfl, hread⟩ := ih h
    refine ⟨c :: taken, after, rfl, by rw [List.length_cons]; omega, fun more => ?_⟩
    rw [List.cons_append]
    unfold readString?
    rw [if_neg hc, if_neg hescape]
    exact hread more

theorem Cut.isPrefixOf_append {word : List Char} (h : Cut rest) (hword : ';' ∉ word.tail) (c : Char)
    (cs : List Char) : word.isPrefixOf (c :: cs ++ rest) = word.isPrefixOf (c :: cs) := by
  have htail : ∀ word : List Char, ';' ∉ word → ∀ cs,
      word.isPrefixOf (cs ++ rest) = word.isPrefixOf cs := by
    intro word
    induction word with
    | nil => exact fun _ _ => rfl
    | cons w word ih =>
      intro hmem cs
      rw [List.mem_cons, not_or] at hmem
      cases cs with
      | nil =>
        obtain rfl | ⟨rest, rfl⟩ := h.cases
        · rfl
        · simp [List.isPrefixOf, Ne.symm hmem.1]
      | cons c cs => simp only [List.cons_append, List.isPrefixOf, ih hmem.2]
  cases word with
  | nil => rfl
  | cons w word => simp only [List.cons_append, List.isPrefixOf, htail word hword]

theorem semicolon_not_mem_spelling (s : Symbol) : ';' ∉ s.spelling.toList.tail := by
  cases s <;> decide

theorem Cut.symbolAt?_append (h : Cut rest) (c : Char) (cs : List Char) :
    symbolAt? (c :: cs ++ rest) = symbolAt? (c :: cs) := by
  simp only [symbolAt?, h.isPrefixOf_append (semicolon_not_mem_spelling _)]

theorem symbolAt?_length {s : Symbol} (h : symbolAt? cs = some s) :
    s.spelling.length ≤ cs.length := by
  have hprefix : s.spelling.toList.isPrefixOf cs = true :=
    List.find?_some (p := fun s : Symbol => s.spelling.toList.isPrefixOf cs) h
  exact (List.isPrefixOf_iff_prefix.mp hprefix).length_le

theorem isDigit_of_startsName {c : Char} (h : startsName c = true) : c.isDigit = false := by
  simp only [startsName, Bool.or_eq_true, beq_iff_eq, decide_eq_true_eq] at h
  rcases h with ((h | rfl) | rfl) | h
  · have hletter := Text.of_isAlpha (p := fun c => !c.isDigit) (by decide) h
    exact Bool.not_inj hletter
  · decide
  · decide
  · simp only [Char.isDigit, Bool.and_eq_false_iff, decide_eq_false_iff_not,
      UInt32.le_iff_toNat_le]
    change 128 ≤ c.val.toNat at h
    exact .inr fun hle => by change c.val.toNat ≤ 57 at hle; omega

theorem isAsciiBlank_of_startsName {c : Char} (h : startsName c = true) :
    Text.isAsciiBlank c = false := by
  cases hblank : Text.isAsciiBlank c with
  | false => rfl
  | true =>
    simp only [Text.isAsciiBlank, Bool.or_eq_true, beq_iff_eq] at hblank
    rcases hblank with (((rfl | rfl) | rfl) | rfl) | rfl <;> cases h

theorem startsNumber_of_startsName {c : Char} (h : startsName c = true) (cs : List Char) :
    startsNumber (c :: cs) = false := by
  have hpoint : c ≠ '.' := by
    rintro rfl
    cases h
  have hdigit := isDigit_of_startsName h
  cases cs <;> simp [startsNumber, hpoint, hdigit]

/-- What can stand at the front of a text that starts with `c`: a token, and how many of the
characters after `c` belong to it. -/
inductive Front (c : Char) (cs : List Char) : Lexeme → Nat → Prop where
  | number {x : Float} : startsNumber (c :: cs) = true →
      Decimal.readWhole? ((c :: cs).take (numberLength (c :: cs))) = some x →
      Front c cs (.number x) (numberLength (c :: cs) - 1)
  | name : startsName c = true → inName c = true →
      Front c cs (.name (String.ofList (c :: cs.takeWhile inName))) (cs.takeWhile inName).length
  | text {s : String} {size : Nat} : c = '"' ∨ c = '\'' → readString? c [] 0 cs = some (s, size) →
      Front c cs (.text s) size
  | symbol {s : Symbol} : startsNumber (c :: cs) = false → startsName c = false →
      c ≠ '"' ∧ c ≠ '\'' → symbolAt? (c :: cs) = some s →
      Front c cs (.symbol s) (s.spelling.length - 1)

theorem next_iff_front {offset : Nat} {c : Char} {x : Lexeme} {size : Nat} :
    next offset c cs = .ok (x, size) ↔ Front c cs x size := by
  constructor
  · intro h
    unfold next at h
    split at h
    next hnumber =>
      dsimp only at h
      split at h
      next hread =>
        cases h
        exact .number hnumber hread
      next => cases h
    next hnumber =>
      rw [Bool.not_eq_true] at hnumber
      split at h
      next hstarts =>
        split at h
        next hname =>
          cases h
          exact .name hstarts hname
        next => cases h
      next hstarts =>
        rw [Bool.not_eq_true] at hstarts
        split at h
        next hquote =>
          rw [Bool.or_eq_true, beq_iff_eq, beq_iff_eq] at hquote
          split at h
          next hread =>
            cases h
            exact .text hquote hread
          next => cases h
        next hquote =>
          rw [Bool.or_eq_true, beq_iff_eq, beq_iff_eq, not_or] at hquote
          split at h
          next hs =>
            cases h
            exact .symbol hnumber hstarts hquote hs
          next => cases h
  · intro h
    cases h with
    | number hnumber hread => simp only [next, hnumber, if_true, hread]
    | name hstarts hname =>
      simp only [next, startsNumber_of_startsName hstarts, hstarts, hname, if_true]
      rfl
    | text hquote hread =>
      have hnumber : startsNumber (c :: cs) = false := by
        rcases hquote with rfl | rfl <;> cases cs <;> rfl
      rcases hquote with rfl | rfl
      all_goals
        simp only [next, hnumber, hread]
        rfl
    | symbol hnumber hstarts hquote hs =>
      have hquote : (c == '"' || c == '\'') = false := by simp [hquote]
      simp only [next, hnumber, hstarts, hquote, hs]
      rfl
theorem Cut.front_append (h : Cut rest) {c : Char} {x : Lexeme} {size : Nat}
    (hfront : Front c cs x size) : Front c (cs ++ rest) x size ∧ size ≤ cs.length := by
  cases hfront with
  | @number x hnumber hread =>
    have hle := numberLength_le (c :: cs)
    have hlength : numberLength (c :: (cs ++ rest)) = numberLength (c :: cs) :=
      h.numberLength_append (c :: cs)
    have hread' : Decimal.readWhole?
        ((c :: (cs ++ rest)).take (numberLength (c :: (cs ++ rest)))) = some x := by
      rw [hlength, ← List.cons_append, List.take_append_of_le_length hle]
      exact hread
    have hstarts : startsNumber (c :: (cs ++ rest)) = true :=
      (h.startsNumber_append c cs).trans hnumber
    have hfront := Front.number hstarts hread'
    rw [hlength] at hfront
    rw [List.length_cons] at hle
    exact ⟨hfront, by omega⟩
  | name hstarts hname =>
    have hfront := (Front.name hstarts hname : Front c (cs ++ rest) _ _)
    rw [h.takeWhile_append rfl] at hfront
    exact ⟨hfront, (List.takeWhile_sublist _).length_le⟩
  | text hquote hread =>
    obtain ⟨taken, after, rfl, hsize, hread⟩ := readString?_parts hread
    have hfront := Front.text hquote (hread (after ++ rest))
    rw [← List.append_assoc] at hfront
    exact ⟨hfront, by rw [hsize, List.length_append]; omega⟩
  | symbol hnumber hstarts hquote hs =>
    have hle := symbolAt?_length hs
    rw [List.length_cons] at hle
    have hnumber' := (h.startsNumber_append c cs).trans hnumber
    exact ⟨.symbol hnumber' hstarts hquote ((h.symbolAt?_append c cs).trans hs), by omega⟩

theorem Cut.next_append (h : Cut rest) {offset : Nat} {c : Char} {x : Lexeme} {size : Nat}
    (hnext : next offset c cs = .ok (x, size)) (offset' : Nat) :
    next offset' c (cs ++ rest) = .ok (x, size) ∧ size ≤ cs.length :=
  (h.front_append (next_iff_front.mp hnext)).imp_left next_iff_front.mpr

theorem scan_cons {offset : Nat} {c : Char} {cs : List Char} {x : Lexeme} {size : Nat}
    (hblank : ¬ Text.isAsciiBlank c) (h : next offset c cs = .ok (x, size)) :
    scan offset (c :: cs) =
      (scan (offset + c.utf8Size + Text.byteSize (cs.take size)) (cs.drop size)).map
        (⟨x, offset⟩ :: ·) := by
  rw [scan, if_neg hblank, h]
  change (scan _ _ >>= _) = _
  cases scan (offset + c.utf8Size + Text.byteSize (cs.take size)) (cs.drop size) <;> rfl

/-- A text that is a name: a first character that starts one, and characters that stand in one. -/
def IsName (s : String) : Prop :=
  ∃ c more, s.toList = c :: more ∧ startsName c = true ∧ ∀ x ∈ c :: more, inName x = true

theorem isName_of_next {offset : Nat} {c : Char} {s : String} {size : Nat}
    (h : next offset c cs = .ok (.name s, size)) : IsName s := by
  cases next_iff_front.mp h with
  | name hstarts hname =>
    refine ⟨c, _, String.toList_ofList, hstarts, ?_⟩
    exact List.forall_mem_cons.mpr ⟨hname, fun x hx => List.mem_takeWhile_imp hx⟩

theorem isName_of_scan {offset : Nat} {ts : List Token} (h : scan offset cs = .ok ts) {s : String}
    (hs : .name s ∈ lexemes ts) : IsName s := by
  fun_induction scan offset cs generalizing ts with
  | case1 =>
    cases h
    cases hs
  | case2 _ _ _ _ ih => exact ih h hs
  | case3 offset c cs hblank ih =>
    obtain ⟨⟨x, size⟩, hnext, h⟩ := Parser.bind_eq_ok.mp h
    obtain ⟨more, hmore, hts⟩ := Parser.bind_eq_ok.mp h
    cases hts
    rcases List.mem_cons.mp hs with rfl | hs
    · exact isName_of_next hnext
    · exact ih size hmore hs

theorem scan_name {s : String} (h : IsName s) (hrest : ∀ x ∈ rest.head?, inName x = false)
    (offset : Nat) :
    ∃ offset', scan offset (s.toList ++ rest) =
      (scan offset' rest).map (⟨.name s, offset⟩ :: ·) := by
  obtain ⟨c, more, hs, hstarts, hall⟩ := h
  have hrun : (more ++ rest).takeWhile inName = more := by
    have hmore : ∀ x ∈ more, inName x = true := fun x hx => hall x (List.mem_cons_of_mem c hx)
    exact Text.takeWhile_append_head hmore hrest
  have hnext : next offset c (more ++ rest) = .ok (.name s, more.length) := by
    rw [next, startsNumber_of_startsName hstarts, hstarts, hall c List.mem_cons_self]
    simp only [Bool.false_eq_true, if_false, if_true, hrun, ← hs, String.ofList_toList]
  have hblank : ¬ Text.isAsciiBlank c := by simp [isAsciiBlank_of_startsName hstarts]
  refine ⟨offset + c.utf8Size + Text.byteSize ((more ++ rest).take more.length), ?_⟩
  rw [hs, List.cons_append, scan_cons hblank hnext, List.drop_left]

/-- Text before a semicolon has the lexemes that it has alone and elsewhere, and what stands behind
it goes on with its own. -/
theorem Cut.scan_append (h : Cut rest) {offset : Nat} {ts : List Token}
    (hscan : scan offset cs = .ok ts) (offset' : Nat) :
    ∃ us offset'', lexemes us = lexemes ts ∧
      scan offset' (cs ++ rest) = (scan offset'' rest).map (us ++ ·) := by
  fun_induction scan offset cs generalizing ts offset' with
  | case1 offset =>
    cases hscan
    refine ⟨[], offset', rfl, ?_⟩
    rw [List.nil_append]
    cases scan offset' rest <;> rfl
  | case2 offset c cs hblank ih =>
    obtain ⟨us, offset'', hus, happend⟩ := ih hscan (offset' + c.utf8Size)
    refine ⟨us, offset'', hus, ?_⟩
    rw [List.cons_append, scan, if_pos hblank, happend]
  | case3 offset c cs hblank ih =>
    obtain ⟨⟨x, size⟩, hnext, hscan⟩ := Parser.bind_eq_ok.mp hscan
    obtain ⟨more, hmore, hts⟩ := Parser.bind_eq_ok.mp hscan
    cases hts
    obtain ⟨hnext', hle⟩ := h.next_append hnext offset'
    obtain ⟨us, offset'', hus, happend⟩ :=
      ih size hmore (offset' + c.utf8Size + Text.byteSize (cs.take size))
    refine ⟨⟨x, offset'⟩ :: us, offset'', congrArg (x :: ·) hus, ?_⟩
    rw [List.cons_append, scan_cons hblank hnext', List.take_append_of_le_length hle,
      List.drop_append_of_le_length hle, happend]
    cases scan offset'' rest <;> rfl

theorem scan_elsewhere {offset : Nat} {ts : List Token} (h : scan offset cs = .ok ts)
    (offset' : Nat) : ∃ us, scan offset' cs = .ok us ∧ lexemes us = lexemes ts := by
  obtain ⟨us, offset'', hus, happend⟩ := cut_nil.scan_append h offset'
  rw [List.append_nil, scan] at happend
  exact ⟨us, happend.trans (congrArg Except.ok (List.append_nil us)), hus⟩

theorem scan_semicolon (offset : Nat) (cs : List Char) :
    scan offset (';' :: cs) = (scan (offset + 1) cs).map (⟨.symbol .semicolon, offset⟩ :: ·) :=
  scan_cons (c := ';') (by decide) rfl

end ActiveMarkup.Lexer

namespace ActiveMarkup

open ActiveMarkup.Parser (lexemes)

theorem tokenize_semicolon {a b : String} {ts us : List Token} (ha : tokenize a = .ok ts)
    (hb : tokenize b = .ok us) :
    ∃ ts' offset us', tokenize (a ++ ";" ++ b) = .ok (ts' ++ ⟨.symbol .semicolon, offset⟩ :: us') ∧
      lexemes ts' = lexemes ts ∧ lexemes us' = lexemes us := by
  obtain ⟨ts', offset, hts, happend⟩ := (Lexer.cut_semicolon b.toList).scan_append ha 0
  obtain ⟨us', hscan, hus⟩ := Lexer.scan_elsewhere hb (offset + 1)
  refine ⟨ts', offset, us', ?_, hts, hus⟩
  have htext : (a ++ ";" ++ b).toList = a.toList ++ ';' :: b.toList := by simp
  rw [tokenize, htext, happend, Lexer.scan_semicolon, hscan]
  rfl

end ActiveMarkup
