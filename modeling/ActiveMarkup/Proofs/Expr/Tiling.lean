import ActiveMarkup.Proofs.Decimal.Form
import ActiveMarkup.Proofs.Expr.Lexing
set_option autoImplicit false

namespace ActiveMarkup.Lexer

open ActiveMarkup.Parser (lexemes)

variable {cs rest : List Char}

theorem exponent_parts (cs : List Char) :
    ∃ taken rest, cs = taken ++ rest ∧ exponentLength cs = taken.length ∧
      exponentLength taken = taken.length := by
  obtain ⟨taken, hform, hcs⟩ := Decimal.takeExponent_spelled cs
  have hself := (Decimal.takeExponent_append hform []).2 rfl
  rw [List.append_nil] at hself
  refine ⟨taken, _, hcs, ?_, ?_⟩
  · have hlength := congrArg List.length hcs
    rw [List.length_append] at hlength
    rw [exponentLength]
    omega
  · rw [exponentLength, hself]
    rfl

theorem startsNumber_cons {c : Char} (hpoint : c ≠ '.') (cs : List Char) :
    startsNumber (c :: cs) = c.isDigit := by
  simp [startsNumber, hpoint]

def inRun (c : Char) : Bool :=
  c.isDigit || c == '.'

theorem startsNumber_run (h : startsNumber cs = true) (rest : List Char) :
    startsNumber (cs.takeWhile inRun ++ rest) = true := by
  cases cs with
  | nil => cases h
  | cons c cs =>
    by_cases hpoint : c = '.'
    · subst hpoint
      cases cs with
      | nil => cases h
      | cons d cs =>
        have hd : d.isDigit = true := h
        rw [List.takeWhile_cons_of_pos rfl, List.takeWhile_cons_of_pos (by simp [inRun, hd])]
        exact hd
    · rw [startsNumber_cons hpoint] at h
      rw [List.takeWhile_cons_of_pos (by simp [inRun, h]), List.cons_append,
        startsNumber_cons hpoint, h]

theorem numberLength_run {run after : List Char} (hrun : ∀ c ∈ run, inRun c = true)
    (hafter : ∀ c ∈ after.head?, inRun c = false) :
    numberLength (run ++ after) = run.length + exponentLength after := by
  change (List.takeWhile inRun _).length +
    exponentLength (List.drop (List.takeWhile inRun _).length _) = _
  rw [Text.takeWhile_append_head hrun hafter, List.drop_left]

theorem number_parts (cs : List Char) :
    ∃ taken rest, cs = taken ++ rest ∧ numberLength cs = taken.length ∧
      numberLength taken = taken.length ∧
      (startsNumber cs = true → startsNumber taken = true) := by
  have hrun : ∀ c ∈ cs.takeWhile inRun, inRun c = true := fun c hc => List.mem_takeWhile_imp hc
  obtain ⟨exponent, rest, hafter, hlength, hself⟩ := exponent_parts (cs.dropWhile inRun)
  have hcs : cs.takeWhile inRun ++ (exponent ++ rest) = cs := by
    rw [← hafter, List.takeWhile_append_dropWhile]
  have hstop : ∀ c ∈ (cs.dropWhile inRun).head?, inRun c = false := by
    intro c hc
    have hnot := List.head?_dropWhile_not inRun cs
    rw [hc] at hnot
    exact hnot
  have hstop' : ∀ c ∈ exponent.head?, inRun c = false := by
    intro c hc
    refine hstop c ?_
    rw [hafter, List.head?_append, hc]
    rfl
  refine ⟨cs.takeWhile inRun ++ exponent, rest, by rw [List.append_assoc, hcs], ?_, ?_,
    fun hstarts => startsNumber_run hstarts exponent⟩
  · conv_lhs => rw [← hcs, ← hafter]
    rw [numberLength_run hrun hstop, hlength, List.length_append]
  · rw [numberLength_run hrun hstop', hself, List.length_append]

theorem next_spelling (s : Symbol) :
    ∃ c more, s.spelling.toList = c :: more ∧ Text.isAsciiBlank c = false ∧ ∀ offset,
      next offset c more = .ok (.symbol s, more.length) ∧
      ∀ rest, next offset c (more ++ ' ' :: rest) = .ok (.symbol s, more.length) := by
  cases s <;> exact ⟨_, _, rfl, rfl, fun offset => ⟨rfl, fun rest => rfl⟩⟩

theorem Front.parts {c : Char} {x : Lexeme} {size : Nat} (h : Front c cs x size) :
    ∃ more rest, cs = more ++ rest ∧ size = more.length ∧ Front c more x more.length := by
  cases h with
  | @number x hnumber hread =>
    obtain ⟨taken, rest, htaken, hsize, hself, hbegins⟩ := number_parts (c :: cs)
    have hstarts := hbegins hnumber
    clear hbegins
    rw [hsize] at hread ⊢
    rw [htaken, List.take_left] at hread
    cases taken with
    | nil => cases hstarts
    | cons d more =>
      cases htaken
      have hwhole : Decimal.readWhole? ((c :: more).take (numberLength (c :: more))) = some x := by
        rw [hself, List.take_length]
        exact hread
      have hfront := Front.number hstarts hwhole
      rw [hself] at hfront
      exact ⟨more, rest, rfl, rfl, hfront⟩
  | name hstarts hname =>
    have hall : ∀ x ∈ cs.takeWhile inName, inName x = true := fun x hx => List.mem_takeWhile_imp hx
    have hfront := (Front.name hstarts hname : Front c (cs.takeWhile inName) _ _)
    rw [List.takeWhile_eq_self_iff.mpr hall] at hfront
    exact ⟨_, _, List.takeWhile_append_dropWhile.symm, rfl, hfront⟩
  | text hquote hread =>
    obtain ⟨more, rest, rfl, hsize, hread⟩ := readString?_parts hread
    rw [Nat.zero_add] at hsize
    have halone := hread []
    rw [List.append_nil] at halone
    exact ⟨more, rest, rfl, hsize, .text hquote (hsize ▸ halone)⟩
  | @symbol s hnumber hstarts hquote hs =>
    obtain ⟨d, more, hspelling, -, hnext⟩ := next_spelling s
    have hprefix : s.spelling.toList.isPrefixOf (c :: cs) = true :=
      List.find?_some (p := fun s : Symbol => s.spelling.toList.isPrefixOf (c :: cs)) hs
    obtain ⟨rest, hrest⟩ := List.isPrefixOf_iff_prefix.mp hprefix
    have hsize : s.spelling.length = more.length + 1 := by
      rw [← String.length_toList, hspelling, List.length_cons]
    rw [hspelling] at hrest
    cases hrest
    exact ⟨more, rest, rfl, by omega, next_iff_front.mp (hnext 0).1⟩

/-- A token with its characters and the blanks behind them. -/
structure Tile where
  token : Token
  chars : List Char
  gap : List Char

def laid (tiles : List Tile) : List Char :=
  tiles.flatMap fun t => t.chars ++ t.gap

theorem laid_cons (t : Tile) (tiles : List Tile) :
    laid (t :: tiles) = t.chars ++ (t.gap ++ laid tiles) := by
  rw [laid, List.flatMap_cons, List.append_assoc, laid]

/-- A text cut into tiles, with the blanks before the first of them. A token starts at the byte
where what stands before it ends. -/
structure Tiling (offset : Nat) (cs first : List Char) (tiles : List Tile) : Prop where
  text : cs = first ++ laid tiles
  blank : ∀ c ∈ first, Text.isAsciiBlank c = true
  gap : ∀ t ∈ tiles, ∀ c ∈ t.gap, Text.isAsciiBlank c = true
  nonempty : ∀ t ∈ tiles, t.chars ≠ []
  alone : ∀ t ∈ tiles, scan 0 t.chars = .ok [⟨t.token.lexeme, 0⟩]
  offset : ∀ before t after, tiles = before ++ t :: after →
    t.token.offset = offset + Text.byteSize (first ++ laid before)
  sorted : tiles.Pairwise fun t u => t.token.offset < u.token.offset

theorem Tiling.le_offset {offset : Nat} {first : List Char} {tiles : List Tile}
    (h : Tiling offset cs first tiles) : ∀ t ∈ tiles, offset ≤ t.token.offset := by
  intro t ht
  obtain ⟨before, after, hsplit⟩ := List.append_of_mem ht
  rw [h.offset before t after hsplit]
  exact Nat.le_add_right offset _

theorem tiling_nil (offset : Nat) : Tiling offset [] [] [] where
  text := rfl
  blank := nofun
  gap := nofun
  nonempty := nofun
  alone := nofun
  offset := by simp
  sorted := .nil

theorem Tiling.blank_cons {offset : Nat} {c : Char} {first : List Char} {tiles : List Tile}
    (h : Tiling (offset + c.utf8Size) cs first tiles) (hblank : Text.isAsciiBlank c = true) :
    Tiling offset (c :: cs) (c :: first) tiles :=
  { h with
    text := by rw [h.text, List.cons_append]
    blank := List.forall_mem_cons.mpr ⟨hblank, h.blank⟩
    offset := by
      intro before t after hsplit
      rw [h.offset before t after hsplit, List.cons_append, Text.byteSize_cons, Nat.add_assoc] }

theorem Tiling.token_cons {offset : Nat} {t : Tile} {first : List Char} {tiles : List Tile}
    (h : Tiling (offset + Text.byteSize t.chars) cs first tiles) (hoffset : t.token.offset = offset)
    (hgap : t.gap = first) (hbytes : 0 < Text.byteSize t.chars)
    (halone : scan 0 t.chars = .ok [⟨t.token.lexeme, 0⟩]) :
    Tiling offset (t.chars ++ cs) [] (t :: tiles) where
  text := by rw [h.text, List.nil_append, laid_cons, hgap]
  blank := nofun
  gap := List.forall_mem_cons.mpr ⟨hgap ▸ h.blank, h.gap⟩
  nonempty := by
    refine List.forall_mem_cons.mpr ⟨fun hnil => ?_, h.nonempty⟩
    rw [hnil] at hbytes
    cases hbytes
  alone := List.forall_mem_cons.mpr ⟨halone, h.alone⟩
  offset := by
    intro before u after hsplit
    cases before with
    | nil =>
      cases hsplit
      exact hoffset
    | cons t' before =>
      cases hsplit
      rw [h.offset before u after rfl, List.nil_append, laid_cons, hgap,
        Text.byteSize_append t.chars, Nat.add_assoc]
  sorted := List.pairwise_cons.mpr ⟨fun u hu => by have hle := h.le_offset u hu; omega, h.sorted⟩

theorem byteSize_pos (c : Char) (cs : List Char) : 0 < Text.byteSize (c :: cs) :=
  Nat.lt_of_lt_of_le (Nat.succ_pos _) (Text.length_le_byteSize (c :: cs))

theorem scan_alone {c : Char} {more : List Char} {x : Lexeme}
    (hblank : ¬ Text.isAsciiBlank c) (h : next 0 c more = .ok (x, more.length)) :
    scan 0 (c :: more) = .ok [⟨x, 0⟩] := by
  rw [scan_cons hblank h, List.drop_length, scan]
  rfl

theorem exists_tiling {offset : Nat} {ts : List Token} (h : scan offset cs = .ok ts) :
    ∃ first tiles, ts = tiles.map Tile.token ∧ Tiling offset cs first tiles := by
  fun_induction scan offset cs generalizing ts with
  | case1 offset =>
    cases h
    exact ⟨[], [], rfl, tiling_nil offset⟩
  | case2 offset c cs hblank ih =>
    obtain ⟨first, tiles, hts, htiling⟩ := ih h
    exact ⟨c :: first, tiles, hts, htiling.blank_cons hblank⟩
  | case3 offset c cs hblank ih =>
    obtain ⟨⟨x, size⟩, hnext, h⟩ := Parser.bind_eq_ok.mp h
    obtain ⟨later, hlater, hts⟩ := Parser.bind_eq_ok.mp h
    cases hts
    obtain ⟨first, tiles, rfl, htiling⟩ := ih size hlater
    obtain ⟨more, rest, rfl, rfl, hfront⟩ := (next_iff_front.mp hnext).parts
    rw [List.take_left, List.drop_left, Nat.add_assoc, ← Text.byteSize_cons] at htiling
    refine ⟨[], ⟨⟨x, offset⟩, c :: more, first⟩ :: tiles, rfl, ?_⟩
    exact htiling.token_cons (t := ⟨⟨x, offset⟩, c :: more, first⟩) rfl rfl (byteSize_pos c more)
      (scan_alone hblank (next_iff_front.mpr hfront))

def escape (quote c : Char) : List Char :=
  if c == quote || c == '\\' then ['\\', c] else [c]

/-- How a token other than a number is written. A string stands between quotes of either kind. -/
inductive Written : Lexeme → String → Prop where
  | name (s : String) : Written (.name s) s
  | symbol (s : Symbol) : Written (.symbol s) s.spelling
  | text (quote : Char) (s : String) : quote = '"' ∨ quote = '\'' →
      Written (.text s) (String.ofList (quote :: (s.toList.flatMap (escape quote) ++ [quote])))

/-- A text that is one token at the end of a text and in front of a space. -/
def Lexes (x : Lexeme) (cs : List Char) : Prop :=
  ∀ offset rest, (∀ d ∈ rest.head?, d = ' ') →
    ∃ offset', scan offset (cs ++ rest) = (scan offset' rest).map (⟨x, offset⟩ :: ·)

theorem lexes_of_front {c : Char} {more : List Char} {x : Lexeme}
    (hblank : Text.isAsciiBlank c = false)
    (h : ∀ rest, (∀ d ∈ rest.head?, d = ' ') → Front c (more ++ rest) x more.length) :
    Lexes x (c :: more) := by
  intro offset rest hrest
  have hnext : next offset c (more ++ rest) = .ok (x, more.length) :=
    next_iff_front.mpr (h rest hrest)
  refine ⟨offset + c.utf8Size + Text.byteSize ((more ++ rest).take more.length), ?_⟩
  rw [List.cons_append, scan_cons (by simp [hblank]) hnext, List.drop_left]

theorem lexes_name {s : String} (h : IsName s) : Lexes (.name s) s.toList := by
  intro offset rest hrest
  refine scan_name h (fun d hd => ?_) offset
  rw [hrest d hd]
  decide

theorem lexes_symbol (s : Symbol) : Lexes (.symbol s) s.spelling.toList := by
  obtain ⟨c, more, hspelling, hblank, hnext⟩ := next_spelling s
  rw [hspelling]
  refine lexes_of_front hblank fun rest hrest => ?_
  cases rest with
  | nil => exact next_iff_front.mp (by rw [List.append_nil]; exact (hnext 0).1)
  | cons d rest =>
    cases hrest d rfl
    exact next_iff_front.mp ((hnext 0).2 rest)

theorem readString?_pair {quote : Char} (hslash : ('\\' == quote) = false) (out : List Char)
    (count : Nat) (c : Char) (cs : List Char) :
    readString? quote out count ('\\' :: c :: cs) =
      readString? quote (escaped c :: out) (count + 2) cs := by
  rw [readString?, if_neg (by simp [hslash]), if_pos (beq_self_eq_true _)]

theorem readString?_plain {quote c : Char} (h : (c == quote || c == '\\') = false)
    (out : List Char) (count : Nat) (cs : List Char) :
    readString? quote out count (c :: cs) = readString? quote (c :: out) (count + 1) cs := by
  rw [Bool.or_eq_false_iff] at h
  rw [readString?.eq_def]
  simp only [h, Bool.false_eq_true, if_false]

theorem readString?_escape {quote : Char} (hquote : quote = '"' ∨ quote = '\'') (out : List Char)
    (count : Nat) (cs rest : List Char) :
    readString? quote out count (cs.flatMap (escape quote) ++ quote :: rest) =
      some (String.ofList (out.reverse ++ cs), count + (cs.flatMap (escape quote)).length + 1) := by
  have hslash : ('\\' == quote) = false := by rcases hquote with rfl | rfl <;> decide
  have hescaped : escaped quote = quote := by rcases hquote with rfl | rfl <;> rfl
  induction cs generalizing out count with
  | nil =>
    rw [List.flatMap_nil, List.nil_append]
    unfold readString?
    rw [if_pos (beq_self_eq_true quote), List.append_nil, List.length_nil, Nat.add_zero]
  | cons c cs ih =>
    rw [List.flatMap_cons, List.append_assoc, List.length_append, escape]
    cases hmark : c == quote || c == '\\' with
    | true =>
      have hc : escaped c = c := by
        rcases Bool.or_eq_true_iff.mp hmark with h | h
        · rw [eq_of_beq h, hescaped]
        · rw [eq_of_beq h]
          rfl
      simp only [if_true, List.cons_append, List.nil_append]
      rw [readString?_pair hslash, ih, hc, List.reverse_cons, List.append_assoc]
      simp only [List.singleton_append, List.length_cons, List.length_nil]
      congr 2
      omega
    | false =>
      simp only [Bool.false_eq_true, if_false, List.cons_append, List.nil_append]
      rw [readString?_plain hmark, ih, List.reverse_cons, List.append_assoc]
      simp only [List.singleton_append, List.length_cons, List.length_nil]
      congr 2
      omega

theorem lexes_text {quote : Char} (hquote : quote = '"' ∨ quote = '\'') (s : String) :
    Lexes (.text s) (quote :: (s.toList.flatMap (escape quote) ++ [quote])) := by
  have hblank : Text.isAsciiBlank quote = false := by rcases hquote with rfl | rfl <;> rfl
  refine lexes_of_front hblank fun rest _ => .text hquote ?_
  rw [List.append_assoc, List.singleton_append, readString?_escape hquote]
  simp

theorem Written.lexes {x : Lexeme} {text : String} (h : Written x text)
    (hname : ∀ s, x = .name s → IsName s) : Lexes x text.toList := by
  cases h with
  | name s => exact lexes_name (hname _ rfl)
  | symbol s => exact lexes_symbol s
  | text quote s hquote =>
    rw [String.toList_ofList]
    exact lexes_text hquote s

theorem scan_joined {xs : List Lexeme} {texts : List String}
    (h : List.Forall₂ (fun x text => Lexes x text.toList) xs texts) (offset : Nat) :
    ∃ ts, scan offset (" ".intercalate texts).toList = .ok ts ∧ lexemes ts = xs := by
  induction h generalizing offset with
  | nil => exact ⟨[], by rw [String.intercalate_nil, String.toList_empty, scan], rfl⟩
  | @cons x text xs texts hx htexts ih =>
    cases htexts with
    | nil =>
      have hend : ∀ d ∈ ([] : List Char).head?, d = ' ' := by simp
      obtain ⟨offset', hscan⟩ := hx offset [] hend
      rw [List.append_nil, scan] at hscan
      exact ⟨[⟨x, offset⟩], by rw [String.intercalate_singleton, hscan]; rfl, rfl⟩
    | @cons _ second _ more _ _ =>
      have htext : (" ".intercalate (text :: second :: more)).toList =
          text.toList ++ ' ' :: (" ".intercalate (second :: more)).toList := by
        rw [String.intercalate_cons_cons, String.toList_append, String.toList_append,
          List.append_assoc]
        rfl
      have hspace : ∀ d ∈ (' ' :: (" ".intercalate (second :: more)).toList).head?, d = ' ' := by
        simp
      obtain ⟨offset', hscan⟩ := hx offset _ hspace
      obtain ⟨ts, hmore, hts⟩ := ih (offset' + ' '.utf8Size)
      refine ⟨⟨x, offset⟩ :: ts, ?_, congrArg (x :: ·) hts⟩
      rw [htext, hscan, scan, if_pos (by decide), hmore]
      rfl

end ActiveMarkup.Lexer

namespace ActiveMarkup

open ActiveMarkup.Parser (lexemes)
open Lexer

theorem tokenize_tiles :
    (∀ src ts, tokenize src = .ok ts → ∃ first tiles,
      src.toList = first ++ laid tiles ∧ ts = tiles.map Tile.token ∧
      (∀ c ∈ first, Text.isAsciiBlank c = true) ∧
      (∀ t ∈ tiles, t.chars ≠ [] ∧ (∀ c ∈ t.gap, Text.isAsciiBlank c = true) ∧
        tokenize (String.ofList t.chars) = .ok [⟨t.token.lexeme, 0⟩]) ∧
      (∀ before t after, tiles = before ++ t :: after →
        t.token.offset = (String.ofList (first ++ laid before)).utf8ByteSize) ∧
      ts.Pairwise fun t u => t.offset < u.offset) ∧
    ∀ xs texts, (∀ x ∈ xs, ∃ src ts, tokenize src = .ok ts ∧ x ∈ lexemes ts) →
      List.Forall₂ Written xs texts →
      ∃ ts, tokenize (" ".intercalate texts) = .ok ts ∧ lexemes ts = xs := by
  constructor
  · intro src ts h
    obtain ⟨first, tiles, hts, htiling⟩ := exists_tiling h
    refine ⟨first, tiles, htiling.text, hts, htiling.blank, fun t ht => ?_, ?_, ?_⟩
    · refine ⟨htiling.nonempty t ht, htiling.gap t ht, ?_⟩
      rw [tokenize, String.toList_ofList]
      exact htiling.alone t ht
    · intro before t after hsplit
      rw [htiling.offset before t after hsplit, Nat.zero_add, Text.byteSize_eq]
    · rw [hts]
      exact htiling.sorted.map Tile.token fun _ _ h => h
  · intro xs texts hfound hwritten
    refine scan_joined ?_ 0
    refine ((List.forall₂_and_left xs texts).mpr ⟨hfound, hwritten⟩).imp ?_
    rintro x text ⟨⟨src, ts, hscan, hx⟩, hwritten⟩
    refine hwritten.lexes fun s hs => ?_
    subst hs
    exact isName_of_scan hscan hx

theorem tokenize_tiles_comparison :
    ∃ ts, tokenize "a === '\\''" = .ok ts ∧
      lexemes ts = [.name "a", .symbol .strictEqual, .text "'"] ∧
      ∃ first tiles, "a === '\\''".toList = first ++ laid tiles ∧
        ts = tiles.map Tile.token := by
  obtain ⟨htiles, hwritten⟩ := tokenize_tiles
  have hname : tokenize "a" = .ok [⟨.name "a", 0⟩] :=
    scan_alone (by decide : ¬ Text.isAsciiBlank 'a') rfl
  have hsymbol : tokenize "===" = .ok [⟨.symbol .strictEqual, 0⟩] :=
    scan_alone (by decide : ¬ Text.isAsciiBlank '=') rfl
  have htext : tokenize "\"'\"" = .ok [⟨.text "'", 0⟩] :=
    scan_alone (by decide : ¬ Text.isAsciiBlank '"') rfl
  have hfound : ∀ x ∈ [.name "a", .symbol .strictEqual, .text "'"],
      ∃ src ts, tokenize src = .ok ts ∧ x ∈ lexemes ts := by
    simp only [List.forall_mem_cons]
    exact ⟨⟨_, _, hname, .head _⟩, ⟨_, _, hsymbol, .head _⟩, ⟨_, _, htext, .head _⟩, nofun⟩
  obtain ⟨ts, hts, hxs⟩ := hwritten _ ["a", "===", "'\\''"] hfound
    (.cons (.name "a") (.cons (.symbol .strictEqual) (.cons (.text '\'' "'" (.inr rfl)) .nil)))
  obtain ⟨first, tiles, htext, htokens, -⟩ := htiles _ ts hts
  exact ⟨ts, hts, hxs, first, tiles, htext, htokens⟩

end ActiveMarkup
