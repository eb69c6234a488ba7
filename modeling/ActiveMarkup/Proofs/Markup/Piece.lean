import ActiveMarkup.Markup.Piece
import ActiveMarkup.Markup.Tree
import ActiveMarkup.Proofs.Markup.Entity
import ActiveMarkup.Proofs.Markup.Style
set_option autoImplicit false

namespace ActiveMarkup.Markup

structure Readable (name : String) : Prop where
  nonempty : name.toList ≠ []
  chars : ∀ c ∈ name.toList, inAttributeName c = true
  fixed : attributeName name.toList = name

structure Writable (e : Element) : Prop where
  tag_alpha : ∃ c cs, e.tag.toList = c :: cs ∧ c.isAlpha = true
  tag_chars : ∀ c ∈ e.tag.toList, inTagName c = true
  tag_lower : e.tag.toLower = e.tag
  distinct : Table.Distinct e.attributes
  names : ∀ entry ∈ e.attributes, Readable entry.1 ∧ entry.1 ≠ "style"
  style : Style.Sound e.style

theorem Writable.withData {e : Element} (h : Writable e) {attributes style : Table String}
    (hdistinct : Table.Distinct attributes)
    (hnames : ∀ entry ∈ attributes, Readable entry.1 ∧ entry.1 ≠ "style")
    (hstyle : Style.Sound style) : Writable ⟨e.tag, attributes, style, []⟩ :=
  ⟨h.tag_alpha, h.tag_chars, h.tag_lower, hdistinct, hnames, hstyle⟩

def closingMark (tag : String) : List Char :=
  "</".toList ++ tag.toList

def startsClosing (tag : String) (cs : List Char) : Bool :=
  Text.sameIgnoringCase (cs.take (closingMark tag).length) (closingMark tag)

def Piece.Sound : Piece → Prop
  | comment s => ∀ rest, Text.NoStart ("-->".toList.isPrefixOf ·) s.toList ("-->".toList ++ rest)
  | opening e => Writable e ∧ isVoidTag e.tag = false ∧ isRawTextTag e.tag = false
  | leaf e => Writable e
  | verbatim e s => Writable e ∧ isVoidTag e.tag = false ∧ isRawTextTag e.tag = true ∧
      ∀ rest, Text.NoStart (startsClosing e.tag) s.toList (closingMark e.tag ++ rest)
  | closing _ => True
  | text s => s ≠ ""

theorem inTagName_toLower (c : Char) : inTagName c.toLower = inTagName c :=
  Text.toLower_congr (f := inTagName) (by decide) c

theorem inAttributeName_toLower (c : Char) : inAttributeName c.toLower = inAttributeName c :=
  Text.toLower_congr (f := inAttributeName) (by decide) c

theorem readable_attributeName {raw : List Char} (hne : raw ≠ [])
    (hchars : ∀ c ∈ raw, inAttributeName c = true) : Readable (attributeName raw) := by
  by_cases hstyle : Text.sameIgnoringCase (raw.take 6) "style.".toList = true
  · have hname : (attributeName raw).toList = "style.".toList ++ raw.drop 6 := by
      rw [attributeName, if_pos hstyle, String.toList_append,
        String.toList_ofList (l := raw.drop 6)]
    refine ⟨by rw [hname]; simp, fun c hc => ?_, ?_⟩
    · rw [hname, List.mem_append] at hc
      rcases hc with hc | hc
      · exact List.all_eq_true.mp (by decide) c hc
      · exact hchars c ((List.drop_sublist 6 raw).subset hc)
    · have htake : ("style.".toList ++ raw.drop 6).take 6 = "style.".toList := rfl
      have hdrop : ("style.".toList ++ raw.drop 6).drop 6 = raw.drop 6 := rfl
      rw [hname, attributeName, htake, hdrop, attributeName, if_pos hstyle]
      rfl
  · have hname : (attributeName raw).toList = raw.map Char.toLower := by
      rw [attributeName, if_neg hstyle, Text.toList_toLower, String.toList_ofList]
    refine ⟨by rw [hname]; simpa using hne, fun c hc => ?_, ?_⟩
    · rw [hname, List.mem_map] at hc
      obtain ⟨b, hb, rfl⟩ := hc
      rw [inAttributeName_toLower]
      exact hchars b hb
    · rw [← String.toList_inj, hname, attributeName, ← List.map_take,
        Text.sameIgnoringCase_map_toLower, if_neg hstyle, Text.toList_toLower,
        String.toList_ofList, List.map_map]
      exact List.map_congr_left fun c _ => Text.toLower_toLower c

theorem Writable.addAttribute {e : Element} (h : Writable e) {name : String}
    (hname : Readable name) (value : String) : Writable (addAttribute e name value) := by
  unfold Markup.addAttribute
  split
  · exact { h with style := Style.parse_sound value }
  next hstyle =>
    unfold Table.insertNew
    split
    · exact h
    · refine { h with distinct := h.distinct.insert _ _, names := fun entry hentry => ?_ }
      rcases Table.mem_of_mem_insert hentry with rfl | hold
      · exact ⟨hname, hstyle⟩
      · exact h.names entry hold

theorem readAttributes_writable {bound : Nat} {e : Element} {cs : List Char}
    {r : Element × Bool × List Char} (h : Writable e) (hr : readAttributes bound e cs = .ok r) :
    Writable r.1 := by
  induction bound generalizing e cs with
  | zero => cases hr
  | succ bound ih =>
    unfold readAttributes at hr
    split at hr
    · cases hr
    · cases hr
      exact h
    · cases hr
      exact h
    · exact ih h hr
    next c rest _ _ _ _ =>
      simp only at hr
      split at hr
      · exact ih h hr
      next hne =>
        generalize readAssigned ((c :: rest).dropWhile inAttributeName) = assigned at hr
        cases assigned with
        | error e => cases hr
        | ok found =>
          refine ih (h.addAttribute (readable_attributeName ?_ ?_) found.1) hr
          · simpa using hne
          · exact fun a ha => List.mem_takeWhile_imp ha

theorem inTagName_of_isAlpha {c : Char} (h : c.isAlpha = true) : inTagName c = true :=
  Text.of_isAlpha (by decide) h

theorem isAlpha_toLower (c : Char) : c.toLower.isAlpha = c.isAlpha :=
  Text.toLower_congr (f := Char.isAlpha) (by decide) c

theorem readTag_writable {d : Char} {cs : List Char} {r : Element × Bool × List Char}
    (hd : d.isAlpha = true) (hr : readTag (d :: cs) = .ok r) : Writable r.1 := by
  unfold readTag at hr
  generalize htext : (d :: cs).takeWhile inTagName = text at hr
  have htag : (Element.ofTag (String.ofList text)).tag.toList = text.map Char.toLower := by
    rw [Element.ofTag, Text.toList_toLower, String.toList_ofList]
  have hw : Writable (.ofTag (String.ofList text)) := {
    tag_alpha := by
      rw [List.takeWhile_cons_of_pos (inTagName_of_isAlpha hd)] at htext
      rw [htag, ← htext]
      exact ⟨d.toLower, _, rfl, by rw [isAlpha_toLower, hd]⟩
    tag_chars := by
      intro c hc
      rw [htag, List.mem_map] at hc
      obtain ⟨b, hb, rfl⟩ := hc
      rw [inTagName_toLower]
      exact List.mem_takeWhile_imp (htext ▸ hb)
    tag_lower := Text.string_toLower_toLower _
    distinct := List.nodup_nil
    names := by simp [Element.ofTag]
    style := Style.sound_nil }
  exact readAttributes_writable hw hr

/-- A word whose first character does not come again in it starts in no text that it follows,
unless it stands in that text as a whole. -/
theorem prefix_of_prefix_append {c : Char} {word v rest : List Char} (hc : c ∉ word) (hv : v ≠ [])
    (h : (c :: word) <+: v ++ (c :: word ++ rest)) : (c :: word) <+: v := by
  rcases List.prefix_or_prefix_of_prefix h (List.prefix_append v _) with hw | hw
  · exact hw
  · obtain ⟨u, hu⟩ := hw
    -- the text is a proper part of the word, so what is left of the word starts as the word does
    rw [← hu, List.prefix_append_right_inj] at h
    cases u with
    | nil =>
      rw [List.append_nil] at hu
      exact hu ▸ List.prefix_rfl
    | cons b u =>
      rw [hu, List.cons_append, List.cons_prefix_cons] at h
      cases v with
      | nil => exact (hv rfl).elim
      | cons a v =>
        rw [List.cons_append, List.cons.injEq] at hu
        refine (hc ?_).elim
        rw [← hu.2, ← h.1]
        exact List.mem_append_right _ List.mem_cons_self

theorem startsClosing_iff (tag : String) (cs : List Char) :
    startsClosing tag cs = true ↔
      (closingMark tag).map Char.toLower <+: cs.map Char.toLower := by
  rw [startsClosing, Text.sameIgnoringCase, beq_iff_eq, List.map_take, List.prefix_iff_eq_take,
    List.length_map]
  exact eq_comm

theorem closingMark_lower {tag : String} (h : isRawTextTag tag = true) :
    ∃ word, (closingMark tag).map Char.toLower = '<' :: word ∧ '<' ∉ word := by
  have hmem : tag ∈ rawTextTags := by simpa [isRawTextTag] using h
  simp only [rawTextTags, List.mem_cons, List.not_mem_nil, or_false] at hmem
  rcases hmem with rfl | rfl | rfl | rfl <;> exact ⟨_, rfl, by decide⟩

theorem noStart_closing {tag : String} (htag : isRawTextTag tag = true) {cs rest : List Char}
    (h : Text.NoStart (startsClosing tag) cs rest) (rest' : List Char) :
    Text.NoStart (startsClosing tag) cs (closingMark tag ++ rest') := by
  obtain ⟨word, hword, hnot⟩ := closingMark_lower htag
  intro a b hab hb
  refine Bool.eq_false_iff.mpr fun hstart => ?_
  rw [startsClosing_iff, List.map_append, List.map_append, hword] at hstart
  have hin := prefix_of_prefix_append hnot (by simpa using hb) hstart
  have hno := h a b hab hb
  rw [Bool.eq_false_iff, Ne, startsClosing_iff, List.map_append, hword] at hno
  exact hno (hin.trans (List.prefix_append _ _))

theorem noStart_readRaw {tag : String} (htag : isRawTextTag tag = true) (cs rest' : List Char) :
    Text.NoStart (startsClosing tag) (readRaw tag cs).1.toList (closingMark tag ++ rest') := by
  obtain ⟨a, b, hbreak, -, hno, -⟩ := Text.breakWhere_spec (startsClosing tag) [] cs
  have hraw : (readRaw tag cs).1 = String.ofList a := by
    change String.ofList (Text.breakWhere (startsClosing tag) [] cs).1 = String.ofList a
    rw [hbreak]
    rfl
  rw [hraw, String.toList_ofList]
  exact noStart_closing htag hno rest'

theorem ofTag_sound {e : Element} (h : Writable e) (closed : Bool) (rest : List Char) :
    (ofTag e closed rest).1.Sound := by
  unfold ofTag
  split
  · exact h
  next hvoid =>
    simp only [Bool.or_eq_true, not_or, Bool.not_eq_true] at hvoid
    split
    next hraw => exact ⟨h, hvoid.2, hraw, noStart_readRaw hraw rest⟩
    next hraw => exact ⟨h, hvoid.2, by simpa using hraw⟩

theorem text_sound {c : Char} {cs : List Char} :
    (Piece.text (String.ofList (decode (c :: cs)))).Sound := by
  intro h
  rw [← String.toList_inj, String.toList_ofList] at h
  exact decode_ne_nil (by simp) h

theorem nextPiece_cases {c : Char} {cs : List Char} {p : Piece} {rest : List Char}
    (h : nextPiece c cs = .ok (some p, rest)) :
    (∃ text s after, Text.cutAtWord "-->".toList text = some (s, after) ∧
      p = .comment (String.ofList s)) ∨
    (∃ tag, p = .closing tag) ∨
    (∃ d text e closed after, d.isAlpha = true ∧ readTag (d :: text) = .ok (e, closed, after) ∧
      p = (ofTag e closed after).1) ∨
    ∃ d text, p = .text (String.ofList (decode (d :: text))) := by
  unfold nextPiece at h
  split at h
  · split at h
    next s _ hcut =>
      cases h
      exact .inl ⟨_, s, _, hcut, rfl⟩
    · cases h
  · split at h <;> cases h
  · split at h <;> cases h
  · split at h <;> cases h
    exact .inr (.inl ⟨_, rfl⟩)
  next d text _ _ _ _ =>
    split at h
    next hd =>
      generalize hread : readTag (d :: text) = tag at h
      cases tag with
      | error e => cases h
      | ok r =>
        cases h
        exact .inr (.inr (.inl ⟨d, text, r.1, r.2.1, r.2.2, hd, hread, rfl⟩))
    · cases h
      exact .inr (.inr (.inr ⟨_, _, rfl⟩))
  · cases h
    exact .inr (.inr (.inr ⟨_, _, rfl⟩))

theorem nextPiece_sound {c : Char} {cs : List Char} {p : Piece} {rest : List Char}
    (h : nextPiece c cs = .ok (some p, rest)) : p.Sound := by
  obtain ⟨text, s, after, hcut, rfl⟩ | ⟨tag, rfl⟩ | ⟨d, text, e, closed, after, hd, hread, rfl⟩ |
    ⟨d, text, rfl⟩ := nextPiece_cases h
  · intro rest'
    rw [String.toList_ofList (l := s)]
    exact Text.noStart_of_cutAtWord hcut rest'
  · trivial
  · exact ofTag_sound (readTag_writable hd hread) closed after
  · exact text_sound

theorem forall_mem_piecesWithin {P : Piece → Prop}
    (hnext : ∀ c cs p rest, nextPiece c cs = .ok (some p, rest) → P p) (bound : Nat)
    (cs : List Char) : ∀ p ∈ (piecesWithin bound cs).1, P p := by
  induction bound generalizing cs with
  | zero => nofun
  | succ bound ih =>
    cases cs with
    | nil => nofun
    | cons c cs =>
      unfold piecesWithin
      split
      · nofun
      next piece rest hpiece =>
        intro p hp
        rcases List.mem_append.mp hp with hp | hp
        · rw [Option.mem_toList] at hp
          cases hp
          exact hnext c cs p rest hpiece
        · exact ih rest p hp

theorem piecesWithin_sound (bound : Nat) (cs : List Char) :
    ∀ p ∈ (piecesWithin bound cs).1, p.Sound :=
  forall_mem_piecesWithin (fun _ _ _ _ => nextPiece_sound) bound cs

end ActiveMarkup.Markup
