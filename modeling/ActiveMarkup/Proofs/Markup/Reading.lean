import ActiveMarkup.Proofs.Markup.Merging
set_option autoImplicit false

/-!
Reading what was written. Each form that is written out is read back as its piece, and what
follows it is left for the next one; so the text of trees in which no two texts stand side by side
is read as the pieces of the trees.
-/

namespace ActiveMarkup.Markup

def Reads (cs : List Char) (ps : List Piece) : Prop :=
  ∀ bound, cs.length ≤ bound → piecesWithin bound cs = (ps, none)

theorem reads_nil : Reads [] [] := by
  intro bound _
  cases bound <;> rfl

theorem Reads.cons {c : Char} {cs rest : List Char} {p : Piece} {ps : List Piece}
    (h : Reads rest ps) (hnext : nextPiece c cs = .ok (some p, rest))
    (hlength : rest.length ≤ cs.length) : Reads (c :: cs) (p :: ps) := by
  intro bound hbound
  cases bound with
  | zero => simp at hbound
  | succ bound =>
    have hrest := h bound (by simp only [List.length_cons] at hbound; omega)
    simp only [piecesWithin, hnext, hrest]
    rfl

theorem pieces_of_reads {src : String} {ps : List Piece} (h : Reads src.toList ps) :
    pieces src = (ps, none) := by
  rw [pieces, h _ (Nat.le_refl _)]
  rfl

def TextEnd (rest : List Char) : Prop :=
  rest = [] ∨ ∃ more, rest = '<' :: more

theorem nextPiece_text {c : Char} (hc : c ≠ '<') (cs : List Char) :
    nextPiece c cs = .ok (some (.text (String.ofList (decode (c :: cs.takeWhile (· != '<'))))),
      cs.dropWhile (· != '<')) := by
  unfold nextPiece
  split
  all_goals first
    | exact (hc rfl).elim
    | rfl

theorem nextPiece_escaped {s : String} {rest : List Char} (hs : s ≠ "") (hend : TextEnd rest) :
    ∃ c cs, escape .content s.toList = c :: cs ∧
      nextPiece c (cs ++ rest) = .ok (some (.text s), rest) := by
  have hlt : '<' ∉ escape .content s.toList := ends_not_mem_escape .content s.toList
  have hdecode := decode_escape .content s.toList
  have hne : escape .content s.toList ≠ [] := by
    rw [Ne, escape_eq_nil_iff]
    exact fun he => hs (String.toList_inj.mp he)
  generalize escape .content s.toList = text at hlt hdecode hne
  cases text with
  | nil => exact (hne rfl).elim
  | cons c cs =>
    simp only [List.mem_cons, not_or] at hlt
    have htake : (cs ++ rest).takeWhile (· != '<') = cs := by
      rw [List.takeWhile_append_of_pos (Text.ne_mark_of_not_mem hlt.2)]
      rcases hend with rfl | ⟨more, rfl⟩ <;> simp
    have hdrop : (cs ++ rest).dropWhile (· != '<') = rest := by
      rw [List.dropWhile_append_of_pos (Text.ne_mark_of_not_mem hlt.2)]
      rcases hend with rfl | ⟨more, rfl⟩ <;> simp
    refine ⟨c, cs, rfl, ?_⟩
    rw [nextPiece_text (Ne.symm hlt.1), htake, hdrop, hdecode, String.ofList_toList]

theorem reads_text {s : String} {rest : List Char} {ps : List Piece} (hs : s ≠ "")
    (hend : TextEnd rest) (h : Reads rest ps) :
    Reads (escape .content s.toList ++ rest) (.text s :: ps) := by
  obtain ⟨c, cs, htext, hnext⟩ := nextPiece_escaped hs hend
  rw [htext]
  exact h.cons hnext (by simp)

theorem reads_comment {s : String} {rest : List Char} {ps : List Piece}
    (hs : (Piece.comment s).Sound) (h : Reads rest ps) :
    Reads ('<' :: '!' :: '-' :: '-' :: (s.toList ++ ("-->".toList ++ rest)))
      (.comment s :: ps) := by
  have hcut := Text.cutAtWord_append (by decide) (hs rest)
  refine h.cons ?_ ?_
  · simp only [nextPiece, hcut, String.ofList_toList]
  · simp only [List.length_cons, List.length_append]
    omega

theorem reads_closing {e : Element} {rest : List Char} {ps : List Piece} (he : Writable e)
    (h : Reads rest ps) :
    Reads ('<' :: '/' :: (e.tag.toList ++ '>' :: rest)) (.closing e.tag :: ps) := by
  have hgt : '>' ∉ e.tag.toList := fun hm => absurd (he.tag_chars _ hm) (by decide)
  have hblank : ∀ c ∈ e.tag.toList, Text.isBlank c = false := by
    intro c hc
    have hin := he.tag_chars c hc
    simp only [inTagName, Bool.not_eq_true', Bool.or_eq_false_iff] at hin
    exact hin.1.1
  have htrim : Text.trimString e.tag = e.tag := by
    rw [Text.trimString, Text.trim_eq_self_of_no_blank hblank, String.ofList_toList]
  refine h.cons ?_ (by simp only [List.length_cons, List.length_append]; omega)
  simp only [nextPiece, Text.cutAt_append_mark hgt, String.ofList_toList, htrim, he.tag_lower]

/-- What follows an attribute: the end of the tag, or a blank and the next attribute. -/
def Delimited (cs : List Char) : Prop :=
  (∃ rest, cs = '>' :: rest) ∨ ∃ c rest, cs = ' ' :: c :: rest ∧ inAttributeName c = true

theorem inAttributeName_ne {c mark : Char} (hc : inAttributeName c = true)
    (hmark : inAttributeName mark = false) : c ≠ mark := by
  rintro rfl
  rw [hc] at hmark
  cases hmark

theorem not_isBlank_of_inAttributeName {c : Char} (hc : inAttributeName c = true) :
    Text.isBlank c = false := by
  simp only [inAttributeName, Bool.not_eq_true', Bool.or_eq_false_iff] at hc
  exact hc.1.1.1

theorem readAssigned_value (value : String) (more : List Char) :
    readAssigned ('=' :: '"' :: (escape .attribute value.toList ++ '"' :: more)) =
      .ok (value, more) := by
  have hquote : '"' ∉ escape .attribute value.toList := ends_not_mem_escape .attribute value.toList
  rw [readAssigned, Text.trimFront_cons rfl]
  simp only
  rw [Text.trimFront_cons rfl, readValue]
  simp only [beq_self_eq_true, Bool.true_or, if_true, Text.cutAt_append_mark hquote,
    decode_escape, String.ofList_toList]

theorem readAssigned_none {more : List Char} (h : Delimited more) :
    readAssigned more = .ok ("", Text.trimFront more) := by
  have hhead : ∃ c rest, Text.trimFront more = c :: rest ∧ c ≠ '=' := by
    rcases h with ⟨rest, rfl⟩ | ⟨c, rest, rfl, hc⟩
    · exact ⟨'>', rest, Text.trimFront_cons rfl rest, by decide⟩
    · refine ⟨c, rest, ?_, inAttributeName_ne hc rfl⟩
      rw [Text.trimFront_blank_cons rfl, Text.trimFront_cons (not_isBlank_of_inAttributeName hc)]
  obtain ⟨c, rest, htrim, hne⟩ := hhead
  rw [readAssigned, htrim]
  split
  next heq => exact (hne (List.cons.inj heq).1).elim
  next => rfl

theorem readAttributes_trimFront (bound : Nat) (e : Element) (cs : List Char) :
    readAttributes bound e (Text.trimFront cs) = readAttributes bound e cs := by
  cases bound with
  | zero => rfl
  | succ bound => rw [readAttributes, readAttributes, Text.trimFront_trimFront]

theorem readAttributes_name {bound : Nat} {e : Element} {cs rest rest' : List Char} {c : Char}
    {value : String} (htrim : Text.trimFront cs = c :: rest) (hc : inAttributeName c = true)
    (hvalue : readAssigned ((c :: rest).dropWhile inAttributeName) = .ok (value, rest')) :
    readAttributes (bound + 1) e cs = readAttributes bound
      (addAttribute e (attributeName ((c :: rest).takeWhile inAttributeName)) value) rest' := by
  have hname : ((c :: rest).takeWhile inAttributeName).isEmpty = false := by
    rw [List.takeWhile_cons_of_pos hc]
    rfl
  rw [readAttributes, htrim]
  split
  next heq => cases heq
  next heq => exact (inAttributeName_ne hc rfl (List.cons.inj heq).1).elim
  next heq => exact (inAttributeName_ne hc rfl (List.cons.inj heq).1).elim
  next heq => exact (inAttributeName_ne hc rfl (List.cons.inj heq).1).elim
  next c' rest'' _ _ _ heq =>
    obtain ⟨rfl, rfl⟩ := List.cons.inj heq
    simp only [hname, hvalue]
    rfl

theorem readAttributes_attribute {bound : Nat} {e : Element} {name value : String}
    {more : List Char} (hname : Readable name) (hmore : Delimited more) :
    readAttributes (bound + 1) e ((renderAttribute name value).toList ++ more) =
      readAttributes bound (addAttribute e name value) more := by
  obtain ⟨after, htext, hstop, hread⟩ : ∃ after,
      (renderAttribute name value).toList ++ more = ' ' :: (name.toList ++ after) ∧
      (∃ c rest, after = c :: rest ∧ inAttributeName c = false) ∧
      ∃ rest, readAssigned after = .ok (value, rest) ∧
        ∀ e, readAttributes bound e rest = readAttributes bound e more := by
    by_cases hv : value = ""
    · refine ⟨more, by simp [renderAttribute, hv], ?_, Text.trimFront more, ?_, ?_⟩
      · rcases hmore with ⟨rest, rfl⟩ | ⟨c, rest, rfl, -⟩
        · exact ⟨'>', rest, rfl, rfl⟩
        · exact ⟨' ', c :: rest, rfl, rfl⟩
      · rw [readAssigned_none hmore, hv]
      · exact fun e => readAttributes_trimFront bound e more
    · refine ⟨'=' :: '"' :: (escape .attribute value.toList ++ '"' :: more), ?_,
        ⟨'=', _, rfl, rfl⟩, more, readAssigned_value value more, fun _ => rfl⟩
      simp [renderAttribute, hv]
  obtain ⟨stop, rest, rfl, hstop⟩ := hstop
  obtain ⟨rest', hassigned, hsame⟩ := hread
  have htake : (name.toList ++ stop :: rest).takeWhile inAttributeName = name.toList :=
    Text.takeWhile_append_stop hname.chars hstop
  have hdrop : (name.toList ++ stop :: rest).dropWhile inAttributeName = stop :: rest :=
    Text.dropWhile_append_stop hname.chars hstop
  have hfixed := hname.fixed
  have hchars := hname.chars
  rw [htext]
  cases hn : name.toList with
  | nil => exact (hname.nonempty hn).elim
  | cons c cs =>
    rw [hn] at htake hdrop hfixed hchars
    have hc := hchars c List.mem_cons_self
    have htrim : Text.trimFront (' ' :: (c :: cs ++ stop :: rest)) = c :: (cs ++ stop :: rest) := by
      rw [Text.trimFront_blank_cons rfl, List.cons_append,
        Text.trimFront_cons (not_isBlank_of_inAttributeName hc)]
    rw [readAttributes_name htrim hc (hdrop ▸ hassigned), hsame, ← List.cons_append, htake, hfixed]

def writtenAttributes (attributes style : Table String) : List (String × String) :=
  attributes ++ if style.isEmpty then [] else [("style", Style.render style)]

def attributesText (entries : List (String × String)) : List Char :=
  entries.flatMap fun entry => (renderAttribute entry.1 entry.2).toList

theorem toList_renderAttributes (attributes style : Table String) :
    (renderAttributes attributes style).toList =
      attributesText (writtenAttributes attributes style) := by
  simp only [renderAttributes, String.toList_append, String.toList_join, attributesText,
    writtenAttributes, List.flatMap_append, List.flatMap_map]
  congr 1
  split <;> simp

theorem delimited_attributesText {entries : List (String × String)}
    (h : ∀ entry ∈ entries, Readable entry.1) (rest : List Char) :
    Delimited (attributesText entries ++ '>' :: rest) := by
  cases entries with
  | nil => exact .inl ⟨rest, rfl⟩
  | cons entry entries =>
    have hname := h entry List.mem_cons_self
    cases hn : entry.1.toList with
    | nil => exact (hname.nonempty hn).elim
    | cons c cs =>
      refine .inr ⟨c, ?_, ?_, hname.chars c (by rw [hn]; exact List.mem_cons_self)⟩
      · exact cs ++ ((renderAttribute entry.1 entry.2).toList.drop (cs.length + 2) ++
          (attributesText entries ++ '>' :: rest))
      · simp only [attributesText, List.flatMap_cons, renderAttribute]
        split <;> simp [hn]

theorem readAttributes_written {entries : List (String × String)}
    (h : ∀ entry ∈ entries, Readable entry.1) (e : Element) (bound : Nat)
    (hbound : entries.length < bound) (rest : List Char) :
    readAttributes bound e (attributesText entries ++ '>' :: rest) =
      .ok (entries.foldl (fun e entry => addAttribute e entry.1 entry.2) e, false, rest) := by
  induction entries generalizing e bound with
  | nil =>
    obtain ⟨bound, rfl⟩ := Nat.exists_eq_succ_of_ne_zero (by omega : bound ≠ 0)
    change readAttributes (bound + 1) e ('>' :: rest) = _
    rw [readAttributes, Text.trimFront_cons rfl]
    rfl
  | cons entry entries ih =>
    have hentries : ∀ entry ∈ entries, Readable entry.1 := fun a ha =>
      h a (List.mem_cons_of_mem _ ha)
    rw [List.length_cons] at hbound
    obtain ⟨bound, rfl⟩ := Nat.exists_eq_succ_of_ne_zero (by omega : bound ≠ 0)
    rw [attributesText, List.flatMap_cons, List.append_assoc]
    exact (readAttributes_attribute (h entry List.mem_cons_self)
      (delimited_attributesText hentries rest)).trans (ih hentries _ _ (by omega))

theorem foldl_addAttribute {entries : List (String × String)} {e : Element}
    (hdistinct : (Table.keys e.attributes ++ Table.keys entries).Nodup)
    (hstyle : ∀ entry ∈ entries, entry.1 ≠ "style") :
    entries.foldl (fun e entry => addAttribute e entry.1 entry.2) e =
      { e with attributes := e.attributes ++ entries } := by
  induction entries generalizing e with
  | nil => simp
  | cons entry entries ih =>
    have hnew : entry.1 ∉ Table.keys e.attributes := fun hm =>
      (List.nodup_append.mp hdistinct).2.2 _ hm entry.1 (by simp [Table.keys]) rfl
    have hadd : addAttribute e entry.1 entry.2 =
        { e with attributes := e.attributes ++ [entry] } := by
      have hhas : Table.has e.attributes entry.1 = false := by
        rw [Table.has, (Table.find?_eq_none_iff _ _).mpr hnew]
        rfl
      simp [addAttribute, hstyle entry List.mem_cons_self, Table.insertNew, hhas,
        Table.insert_of_not_mem hnew]
    rw [List.foldl_cons, hadd, ih _ fun a ha => hstyle a (List.mem_cons_of_mem _ ha)]
    · simp
    · simpa [Table.keys] using hdistinct

theorem readable_style : Readable "style" :=
  ⟨by decide, List.all_eq_true.mp (by decide), by decide +kernel⟩

theorem length_le_attributesText (entries : List (String × String)) :
    entries.length ≤ (attributesText entries).length := by
  induction entries with
  | nil => simp
  | cons entry entries ih =>
    have hone : 1 ≤ (renderAttribute entry.1 entry.2).toList.length := by
      unfold renderAttribute
      split <;> simp
    have happend : (attributesText (entry :: entries)).length =
        (renderAttribute entry.1 entry.2).toList.length + (attributesText entries).length := by
      rw [attributesText, List.flatMap_cons, List.length_append, attributesText]
    rw [List.length_cons]
    omega

theorem readable_writtenAttributes {attributes : Table String}
    (h : ∀ entry ∈ attributes, Readable entry.1) (style : Table String) :
    ∀ entry ∈ writtenAttributes attributes style, Readable entry.1 := by
  intro entry hentry
  rcases List.mem_append.mp hentry with hentry | hentry
  · exact h entry hentry
  · split at hentry
    · cases hentry
    · cases List.mem_singleton.mp hentry
      exact readable_style

/-- The attributes that are written make up the element again, with the style that is read from the
text of its style. -/
theorem foldl_writtenAttributes {tag : String} {attributes : Table String}
    (h : Writable ⟨tag, attributes, [], []⟩) (style : Table String) :
    (writtenAttributes attributes style).foldl
      (fun e entry => addAttribute e entry.1 entry.2) ⟨tag, [], [], []⟩ =
      ⟨tag, attributes, Style.parse (Style.render style), []⟩ := by
  have hnodup : (Table.keys ([] : Table String) ++ Table.keys attributes).Nodup := h.distinct
  rw [writtenAttributes, List.foldl_append, foldl_addAttribute (e := ⟨tag, [], [], []⟩) hnodup
    fun entry he => (h.names entry he).2]
  split
  next hs =>
    have hnone : Style.parse (Style.render []) = [] := Style.parse_render h.style
    simp [List.isEmpty_iff.mp hs, hnone]
  next => simp [addAttribute]

theorem readTag_printed {tag : String} {attributes : Table String}
    (h : Writable ⟨tag, attributes, [], []⟩) (style : Table String) (rest : List Char) :
    readTag (tag.toList ++ ((renderAttributes attributes style).toList ++ '>' :: rest)) =
      .ok (⟨tag, attributes, Style.parse (Style.render style), []⟩, false, rest) := by
  have hnames : ∀ entry ∈ writtenAttributes attributes style, Readable entry.1 :=
    readable_writtenAttributes (fun entry he => (h.names entry he).1) style
  have hlength := length_le_attributesText (writtenAttributes attributes style)
  have hlower : tag.toLower = tag := h.tag_lower
  have hread := readAttributes_written hnames ⟨tag, [], [], []⟩
    ((attributesText (writtenAttributes attributes style) ++ '>' :: rest).length + 1)
    (by rw [List.length_append]; omega) rest
  rw [foldl_writtenAttributes h] at hread
  obtain ⟨stop, after, hafter, hstop⟩ : ∃ stop after,
      attributesText (writtenAttributes attributes style) ++ '>' :: rest = stop :: after ∧
        inTagName stop = false := by
    rcases delimited_attributesText hnames rest with ⟨more, hmore⟩ | ⟨c, more, hmore, -⟩
    · exact ⟨'>', more, hmore, rfl⟩
    · exact ⟨' ', c :: more, hmore, rfl⟩
  rw [toList_renderAttributes, readTag]
  rw [hafter] at hread ⊢
  rw [Text.takeWhile_append_stop h.tag_chars hstop, Text.dropWhile_append_stop h.tag_chars hstop,
    String.ofList_toList, Element.ofTag, hlower]
  exact hread

theorem readTag_written {tag : String} {attributes style : Table String}
    (h : Writable ⟨tag, attributes, style, []⟩) (rest : List Char) :
    readTag (tag.toList ++ ((renderAttributes attributes style).toList ++ '>' :: rest)) =
      .ok (⟨tag, attributes, style, []⟩, false, rest) := by
  rw [readTag_printed (h.withData h.distinct h.names Style.sound_nil), Style.parse_render h.style]

theorem nextPiece_tag {d : Char} {cs rest : List Char} {e : Element} {closed : Bool}
    (hd : d.isAlpha = true) (hread : readTag (d :: cs) = .ok (e, closed, rest)) :
    nextPiece '<' (d :: cs) = .ok (some (ofTag e closed rest).1, (ofTag e closed rest).2) := by
  have hne : ∀ mark : Char, mark.isAlpha = false → d ≠ mark := by
    rintro mark hm rfl
    rw [hd] at hm
    cases hm
  unfold nextPiece
  split
  next heq => exact (hne '!' rfl (List.cons.inj heq).1).elim
  next heq => exact (hne '!' rfl (List.cons.inj heq).1).elim
  next heq => exact (hne '?' rfl (List.cons.inj heq).1).elim
  next heq => exact (hne '/' rfl (List.cons.inj heq).1).elim
  next d' cs' _ _ _ _ heq =>
    obtain ⟨rfl, rfl⟩ := List.cons.inj heq
    rw [if_pos hd, hread]
    rfl
  next hno => exact (hno d cs rfl rfl).elim

theorem reads_tag {tag : String} {attributes style : Table String} (rest : List Char)
    {ps : List Piece} (hw : Writable ⟨tag, attributes, style, []⟩)
    (hlength : (ofTag ⟨tag, attributes, style, []⟩ false rest).2.length ≤ rest.length)
    (h : Reads (ofTag ⟨tag, attributes, style, []⟩ false rest).2 ps) :
    Reads ('<' :: (tag.toList ++ ((renderAttributes attributes style).toList ++ '>' :: rest)))
      ((ofTag ⟨tag, attributes, style, []⟩ false rest).1 :: ps) := by
  have hread := readTag_written hw rest
  obtain ⟨d, ds, htag, hd⟩ := hw.tag_alpha
  simp only at htag
  refine h.cons ?_ ?_
  · rw [htag, List.cons_append] at hread ⊢
    exact nextPiece_tag hd hread
  · simp only [List.length_append, List.length_cons]
    omega

theorem readRaw_written {tag : String} {s : String} {rest : List Char}
    (hgt : '>' ∉ tag.toList)
    (hs : Text.NoStart (startsClosing tag) s.toList (closingMark tag ++ '>' :: rest)) :
    readRaw tag (s.toList ++ (closingMark tag ++ '>' :: rest)) = (s, rest) := by
  have hstart : startsClosing tag (closingMark tag ++ '>' :: rest) = true := by
    rw [startsClosing_iff, List.map_append]
    exact List.prefix_append _ _
  have hmark : '>' ∉ closingMark tag := by simpa [closingMark] using hgt
  have hbreak := Text.breakWhere_append hs (.inr hstart) []
  unfold startsClosing closingMark at hbreak
  unfold readRaw closingMark
  unfold closingMark at hmark
  simp only [hbreak, Text.cutAt_append_mark hmark, List.reverse_nil, List.nil_append,
    String.ofList_toList]

/-- A tree is read back as its pieces from whatever place it stands in. -/
def ReadsBack (t : Tree) : Prop :=
  ∀ rest ps, (t.isText = true → TextEnd rest) → Reads rest ps →
    Reads ((render false t).toList ++ rest) (flatten t ++ ps)

theorem toList_render_element (raw : Bool) (tag : String) (attributes style : Table String)
    (children : List Tree) (rest : List Char) :
    (render raw (.element tag attributes style children)).toList ++ rest =
      '<' :: (tag.toList ++ ((renderAttributes attributes style).toList ++ '>' ::
        if isVoidTag tag then rest
        else (renderAll (isRawTextTag tag) children).toList ++
          (closingMark tag ++ '>' :: rest))) := by
  rw [render]
  split <;> simp [closingMark]

theorem textEnd_render {t : Tree} (h : t.isText = false) (rest : List Char) :
    TextEnd ((render false t).toList ++ rest) := by
  cases t with
  | text s => cases h
  | comment s =>
    refine .inr ⟨'!' :: '-' :: '-' :: (s.toList ++ ("-->".toList ++ rest)), ?_⟩
    simp [render]
  | element tag attributes style children =>
    exact .inr ⟨_, toList_render_element false tag attributes style children rest⟩

theorem readsBack_all {ts : List Tree} (h : ∀ t ∈ ts, ReadsBack t) (hapart : Apart ts)
    {rest : List Char} {ps : List Piece} (hend : TextEnd rest) (hr : Reads rest ps) :
    Reads ((renderAll false ts).toList ++ rest) (flattenAll ts ++ ps) := by
  induction ts with
  | nil => simpa [renderAll, flattenAll] using hr
  | cons t ts ih =>
    have hts : ∀ t ∈ ts, ReadsBack t := fun t' ht' => h t' (List.mem_cons_of_mem _ ht')
    rw [renderAll, flattenAll, String.toList_append, List.append_assoc, List.append_assoc]
    refine h t List.mem_cons_self _ _ (fun htext => ?_) (ih hts hapart.2)
    have hnext := hapart.1 htext
    cases ts with
    | nil => simpa [renderAll] using hend
    | cons next ts =>
      rw [renderAll, String.toList_append, List.append_assoc]
      exact textEnd_render (by simpa using hnext) _

theorem readsBack_raw {tag s : String} {attributes style : Table String} {children : List Tree}
    (hs : (Piece.verbatim ⟨tag, attributes, style, []⟩ s).Sound)
    (hrender : renderAll true children = s) (htext : rawText children = s) :
    ReadsBack (.element tag attributes style children) := by
  obtain ⟨hw, hvoid, hraw, hno⟩ := hs
  intro rest ps _ hr
  have hgt : '>' ∉ tag.toList := fun hm => absurd (hw.tag_chars _ hm) (by decide)
  have hread := readRaw_written hgt (hno ('>' :: rest))
  have hof : ofTag ⟨tag, attributes, style, []⟩ false
      (s.toList ++ (closingMark tag ++ '>' :: rest)) =
      (.verbatim ⟨tag, attributes, style, []⟩ s, rest) := by
    simp only at hvoid hraw
    simp [ofTag, hvoid, hraw, hread]
  simp only at hvoid hraw
  rw [toList_render_element, hvoid, hraw, hrender, flatten]
  simp only [hvoid, hraw, Bool.false_eq_true, if_false, if_true, htext, List.singleton_append]
  have hshort : rest.length ≤ (s.toList ++ (closingMark tag ++ '>' :: rest)).length := by
    simp only [List.length_append, List.length_cons]
    omega
  have hreads := reads_tag (s.toList ++ (closingMark tag ++ '>' :: rest)) hw
    (by rw [hof]; exact hshort) (by rw [hof]; exact hr)
  rwa [hof] at hreads

theorem readsBack_branch {tag : String} {attributes style : Table String} {children : List Tree}
    (ho : (Piece.opening ⟨tag, attributes, style, []⟩).Sound) (hapart : Apart children)
    (h : ∀ t ∈ children, ReadsBack t) : ReadsBack (.element tag attributes style children) := by
  obtain ⟨hw, hvoid, hraw⟩ := ho
  simp only at hvoid hraw
  intro rest ps _ hr
  have hclose : Reads (closingMark tag ++ '>' :: rest) (.closing tag :: ps) := reads_closing hw hr
  have hinner := readsBack_all h hapart (.inr ⟨_, rfl⟩) hclose
  rw [toList_render_element, hvoid, hraw, flatten]
  simp only [hvoid, hraw, Bool.false_eq_true, if_false, List.cons_append, List.append_assoc,
    List.nil_append]
  have hof : ∀ cs, ofTag ⟨tag, attributes, style, []⟩ false cs =
      (.opening ⟨tag, attributes, style, []⟩, cs) := by
    intro cs
    simp [ofTag, hvoid, hraw]
  have hreads := reads_tag ((renderAll false children).toList ++
    (closingMark tag ++ '>' :: rest)) hw (by rw [hof]) (by rw [hof]; exact hinner)
  rwa [hof] at hreads

theorem readsBack_of_printable {t : Tree} (h : Printable Apart t) : ReadsBack t := by
  induction h with
  | @text s hs =>
    intro rest ps hend hr
    simpa [render, flatten] using reads_text hs (hend rfl) hr
  | comment hs =>
    intro rest ps _ hr
    simpa [render, flatten] using reads_comment hs hr
  | @leaf tag attributes style hw =>
    cases hvoid : isVoidTag tag with
    | true =>
      intro rest ps _ hr
      have hof : ofTag ⟨tag, attributes, style, []⟩ false rest =
          (.leaf ⟨tag, attributes, style, []⟩, rest) := by simp [ofTag, hvoid]
      have hreads := reads_tag rest hw (by rw [hof]) (by rw [hof]; exact hr)
      rw [hof] at hreads
      rw [toList_render_element, hvoid, flatten]
      simpa [hvoid] using hreads
    | false =>
      cases hraw : isRawTextTag tag with
      | true =>
        refine readsBack_raw (s := "") ⟨hw, hvoid, hraw, fun rest a b hab hb => ?_⟩ rfl rfl
        simp_all
      | false => exact readsBack_branch ⟨hw, hvoid, hraw⟩ trivial (by simp)
  | @raw tag s attributes style _ hv =>
    refine readsBack_raw hv ?_ rfl
    simp [renderAll, render]
  | branch ho hapart _ ih => exact readsBack_branch ho hapart ih

/-- The markup of trees is read as the pieces of the trees with their texts merged. -/
theorem pieces_renderAll {ts : List Tree} (h : ∀ t ∈ ts, t.Written) :
    pieces (renderAll false ts) = (flattenAll (mergeAll ts), none) := by
  obtain ⟨hall, hapart⟩ := mergeAll_printable fun t ht => merge_printable (h t ht)
  have hreads := readsBack_all (fun t ht => readsBack_of_printable (hall t ht)) hapart (.inl rfl)
    reads_nil
  rw [List.append_nil, List.append_nil, renderAll_mergeAll] at hreads
  exact pieces_of_reads hreads

end ActiveMarkup.Markup
