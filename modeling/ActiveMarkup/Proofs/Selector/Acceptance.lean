import ActiveMarkup.Proofs.Selector.Groups
set_option autoImplicit false

namespace ActiveMarkup.Selector

variable {cs cs' rest src : List Char} {c : Char} {waiting waiting' waiting'' : Bool}

/-- One combinator: blanks, or an angle bracket that may have blanks around it. -/
inductive Combinator : List Char → Prop where
  | blanks {c : Char} {w : List Char} : Text.isBlank c = true → AllBlank w → Combinator (c :: w)
  | angle {w w' : List Char} : AllBlank w → AllBlank w' → Combinator (w ++ '>' :: w')

def ReadsRelation (cs : List Char) : Prop :=
  ∃ relation, SpellsRelation cs relation

def IsCompound (cs : List Char) : Prop :=
  ∃ c, SpellsCompound cs c

inductive IsChain (Joins : List Char → Prop) : List Char → Prop where
  | compound {cs : List Char} : IsCompound cs → IsChain Joins cs
  | extend {cs between cs' : List Char} : IsChain Joins cs → Joins between → IsCompound cs' →
      IsChain Joins (cs ++ (between ++ cs'))

def IsGroup (Joins : List Char → Prop) (group : List Char) : Prop :=
  ∃ front core back, group = front ++ (core ++ back) ∧ AllBlank front ∧ AllBlank back ∧
    IsChain Joins core

def IsList (Joins : List Char → Prop) (src : List Char) : Prop :=
  ∃ groups, groups ≠ [] ∧ src = [','].intercalate groups ∧ ∀ group ∈ groups, IsGroup Joins group

/-- Whether an angle bracket follows another with nothing but blanks between them, outside quotes;
`waiting` says that there was one already. -/
def repeatsAngle (quote : Option Char) (waiting : Bool) : List Char → Bool
  | [] => false
  | c :: cs =>
    match quote with
    | some q => repeatsAngle (if c == q then none else some q) false cs
    | none =>
      if c == '"' || c == '\'' then repeatsAngle (some c) false cs
      else if c == '>' then waiting || repeatsAngle none true cs
      else repeatsAngle none (waiting && Text.isBlank c) cs

theorem isChain_iff : IsChain ReadsRelation cs ↔ ∃ s, Spells cs s := by
  constructor
  · intro h
    induction h with
    | compound hc =>
      obtain ⟨c, hc⟩ := hc
      exact ⟨_, .compound hc⟩
    | extend _ hbetween hc ih =>
      obtain ⟨s, hs⟩ := ih
      obtain ⟨relation, hrelation⟩ := hbetween
      obtain ⟨c, hc⟩ := hc
      exact ⟨_, .extend hs hrelation hc⟩
  · rintro ⟨s, h⟩
    induction h with
    | compound hc => exact .compound ⟨_, hc⟩
    | extend _ hrelation hc ih => exact .extend ih ⟨_, hrelation⟩ ⟨_, hc⟩

theorem isGroup_iff {group : List Char} :
    IsGroup ReadsRelation group ↔ ∃ s, SpellsGroup group s := by
  constructor
  · rintro ⟨front, core, back, hgroup, hfront, hback, hcore⟩
    obtain ⟨s, hs⟩ := isChain_iff.mp hcore
    exact ⟨s, front, core, back, hgroup, hfront, hback, hs⟩
  · rintro ⟨s, front, core, back, hgroup, hfront, hback, hs⟩
    exact ⟨front, core, back, hgroup, hfront, hback, isChain_iff.mpr ⟨s, hs⟩⟩

theorem exists_forall₂_iff {α β : Type} {R : α → β → Prop} {l : List α} :
    (∃ l', List.Forall₂ R l l') ↔ ∀ x ∈ l, ∃ y, R x y := by
  induction l with
  | nil => exact ⟨fun _ => by simp, fun _ => ⟨[], .nil⟩⟩
  | cons x l ih =>
    rw [List.forall_mem_cons, ← ih]
    constructor
    · rintro ⟨_, h⟩
      cases h with
      | cons hx hl => exact ⟨⟨_, hx⟩, _, hl⟩
    · rintro ⟨⟨y, hy⟩, l', hl'⟩
      exact ⟨y :: l', .cons hy hl'⟩

theorem accepted_iff {src : String} :
    (∃ list, parseAll src = .ok list) ↔ IsList ReadsRelation src.toList := by
  simp only [parseAll_eq_ok_iff, IsList, isGroup_iff, ← exists_forall₂_iff]
  constructor
  · rintro ⟨list, groups, hne, hsrc, hgroups⟩
    exact ⟨groups, hne, hsrc, list, hgroups⟩
  · rintro ⟨groups, hne, hsrc, list, hgroups⟩
    exact ⟨list, groups, hne, hsrc, hgroups⟩

/-- The search goes on behind a text, having found nothing in it. -/
def Clear (waiting : Bool) (cs : List Char) (waiting' : Bool) : Prop :=
  ∀ rest, repeatsAngle none waiting (cs ++ rest) = repeatsAngle none waiting' rest

theorem clear_nil : Clear waiting [] waiting :=
  fun _ => rfl

theorem Clear.append (h : Clear waiting cs waiting') (h' : Clear waiting' cs' waiting'') :
    Clear waiting (cs ++ cs') waiting'' := by
  intro rest
  rw [List.append_assoc, h, h']

theorem clear_blank (h : AllBlank cs) : Clear waiting cs waiting := by
  induction cs with
  | nil => exact clear_nil
  | cons c cs ih =>
    intro rest
    have hc := h c List.mem_cons_self
    have hdouble := ne_of_isBlank (x := '"') (by decide) hc
    have hsingle := ne_of_isBlank (x := '\'') (by decide) hc
    have hangle := ne_of_isBlank (x := '>') (by decide) hc
    have hrest := ih (fun x hx => h x (List.mem_cons_of_mem _ hx)) rest
    simp [repeatsAngle, hdouble, hsingle, hangle, hc, hrest]

def Solid (c : Char) : Prop :=
  c ≠ '"' ∧ c ≠ '\'' ∧ c ≠ '>' ∧ Text.isBlank c = false

instance (c : Char) : Decidable (Solid c) :=
  inferInstanceAs (Decidable (_ ∧ _))

theorem clear_char (h : Solid c) : Clear waiting [c] false := by
  intro rest
  obtain ⟨hdouble, hsingle, hangle, hblank⟩ := h
  simp [repeatsAngle, hdouble, hsingle, hangle, hblank]

theorem Clear.of_solid (h : Clear false (c :: cs) false) (hc : Solid c) :
    Clear waiting (c :: cs) false := by
  intro rest
  have hhere : Clear waiting [c] false := clear_char hc
  have hthere : Clear false [c] false := clear_char hc
  rw [← h rest]
  exact (hhere (cs ++ rest)).trans (hthere (cs ++ rest)).symm

theorem clear_solid (h : ∀ c ∈ cs, Solid c) : Clear false cs false := by
  induction cs with
  | nil => exact clear_nil
  | cons c cs ih =>
    exact (clear_char (h c List.mem_cons_self)).append
      (ih fun x hx => h x (List.mem_cons_of_mem _ hx))

theorem repeatsAngle_quoted {q : Char} (h : q ∉ cs) (rest : List Char) :
    repeatsAngle (some q) false (cs ++ q :: rest) = repeatsAngle none false rest := by
  induction cs with
  | nil => simp [repeatsAngle]
  | cons c cs ih =>
    have hc : (c == q) = false := by
      rw [beq_eq_false_iff_ne]
      rintro rfl
      exact h List.mem_cons_self
    rw [List.cons_append, repeatsAngle, hc]
    exact ih fun hm => h (List.mem_cons_of_mem _ hm)

theorem clear_quoted {q : Char} (hq : q = '"' ∨ q = '\'') (h : q ∉ cs) :
    Clear false (q :: (cs ++ [q])) false := by
  intro rest
  have hopen : repeatsAngle none false (q :: (cs ++ q :: rest)) =
      repeatsAngle (some q) false (cs ++ q :: rest) := by
    rcases hq with rfl | rfl <;> rfl
  simpa [hopen] using repeatsAngle_quoted h rest

theorem solid_of_inName (h : inName c = true) : Solid c :=
  ⟨ne_of_inName (by decide) h, ne_of_inName (by decide) h, ne_of_inName (by decide) h,
    isBlank_of_inName h⟩

theorem IsName.clear (h : IsName cs) : Clear false cs false :=
  clear_solid fun c hc => solid_of_inName (h.chars c hc)

theorem SpellsValue.clear {v : String} (h : SpellsValue cs v) : Clear false cs false := by
  cases h with
  | name h => exact h.clear
  | quoted hq hmem => exact clear_quoted hq hmem

theorem SpellsTest.clear {test : String → AttributeTest} (h : SpellsTest cs test) :
    Clear false cs false := by
  have hequals : Clear false ['='] false := clear_char (by decide)
  cases h with
  | equals => exact hequals
  | includes => exact (clear_char (c := '~') (by decide)).append hequals
  | begins => exact (clear_char (c := '^') (by decide)).append hequals
  | ends => exact (clear_char (c := '$') (by decide)).append hequals
  | contains => exact (clear_char (c := '*') (by decide)).append hequals

theorem SpellsAttribute.clear {condition : String × AttributeTest}
    (h : SpellsAttribute cs condition) : Clear false cs false := by
  have hbracket : Clear false [']'] false := clear_char (by decide)
  cases h with
  | present hw₁ hname hw₂ =>
    exact (clear_blank hw₁).append (hname.clear.append ((clear_blank hw₂).append hbracket))
  | tested hw₁ hname hw₂ hsign hw₃ hvalue hw₄ =>
    exact (clear_blank hw₁).append (hname.clear.append ((clear_blank hw₂).append
      (hsign.clear.append ((clear_blank hw₃).append (hvalue.clear.append
        ((clear_blank hw₄).append hbracket))))))

theorem SpellsConditions.clear {c c' : Compound} (h : SpellsConditions c cs c') :
    Clear false cs false := by
  induction h with
  | none => exact clear_nil
  | identified hname _ ih =>
    exact (clear_char (c := '#') (by decide)).append (hname.clear.append ih)
  | classed hname _ ih => exact (clear_char (c := '.') (by decide)).append (hname.clear.append ih)
  | attributed hinner _ ih =>
    exact (clear_char (c := '[') (by decide)).append (hinner.clear.append ih)

theorem IsCompound.clear (h : IsCompound cs) : Clear waiting cs false := by
  obtain ⟨compound, h⟩ := h
  cases h with
  | star h => exact (clear_char (by decide)).append h.clear
  | tag _ hname h =>
    have hfirst := solid_of_inName (hname.chars _ List.mem_cons_self)
    exact (hname.clear.append h.clear).of_solid hfirst
  | bare hne h =>
    have hclear := h.clear
    cases h with
    | none => exact absurd rfl hne
    | identified => exact hclear.of_solid (by decide)
    | classed => exact hclear.of_solid (by decide)
    | attributed => exact hclear.of_solid (by decide)

theorem Combinator.clear (h : Combinator cs) : ∃ waiting, Clear false cs waiting := by
  cases h with
  | blanks hc hw =>
    exact ⟨false, clear_blank (List.forall_mem_cons.mpr ⟨hc, hw⟩)⟩
  | angle hw hw' =>
    have hangle : Clear false ['>'] true := fun _ => rfl
    exact ⟨true, (clear_blank hw).append (hangle.append (clear_blank hw'))⟩

theorem IsChain.clear (h : IsChain Combinator cs) : Clear waiting cs false := by
  induction h with
  | compound hc => exact hc.clear
  | extend _ hbetween hc ih =>
    obtain ⟨_, hbetween⟩ := hbetween.clear
    exact ih.append (hbetween.append hc.clear)

theorem IsGroup.clear (h : IsGroup Combinator cs) : Clear waiting cs false := by
  obtain ⟨front, core, back, rfl, hfront, hback, hcore⟩ := h
  exact (clear_blank hfront).append (hcore.clear.append (clear_blank hback))

theorem Combinator.readsRelation (h : Combinator cs) : ReadsRelation cs := by
  cases h with
  | blanks hc hw => exact ⟨_, .descendant hc hw⟩
  | angle hw hw' => exact ⟨_, .child hw fun c hc => .inl (hw' c hc)⟩

theorem IsChain.mono {Joins Joins' : List Char → Prop} (hjoins : ∀ cs, Joins cs → Joins' cs)
    (h : IsChain Joins cs) : IsChain Joins' cs := by
  induction h with
  | compound hc => exact .compound hc
  | extend _ hbetween hc ih => exact .extend ih (hjoins _ hbetween) hc

theorem IsGroup.mono {Joins Joins' : List Char → Prop} (hjoins : ∀ cs, Joins cs → Joins' cs)
    (h : IsGroup Joins cs) : IsGroup Joins' cs := by
  obtain ⟨front, core, back, hgroup, hfront, hback, hcore⟩ := h
  exact ⟨front, core, back, hgroup, hfront, hback, hcore.mono hjoins⟩

theorem ReadsRelation.combinator (h : ReadsRelation cs)
    (hnone : repeatsAngle none false (cs ++ rest) = false) : Combinator cs := by
  obtain ⟨relation, h⟩ := h
  cases h with
  | descendant hc hw => exact .blanks hc hw
  | @child w more hw hmore =>
    have hangle : Clear false ['>'] true := fun _ => rfl
    obtain ⟨w', hw', htrim⟩ := trimFront_spells more
    cases hfront : Text.trimFront more with
    | nil =>
      rw [hfront, List.append_nil] at htrim
      rw [htrim]
      exact .angle hw hw'
    | cons x xs =>
      rw [hfront] at htrim
      have hx : Text.isBlank x = false := by
        have hfirst := List.head?_dropWhile_not Text.isBlank more
        rw [← Text.trimFront, hfront] at hfirst
        exact hfirst
      have hmem : x ∈ more := by simp [htrim]
      obtain rfl : x = '>' := (hmore x hmem).resolve_left (by simp [hx])
      -- the second angle bracket is met while one is waiting
      have hsplit : w ++ '>' :: more ++ rest = (w ++ (['>'] ++ w')) ++ '>' :: (xs ++ rest) := by
        simp [htrim]
      have hclear := (clear_blank hw).append (hangle.append (clear_blank hw'))
      rw [hsplit, hclear] at hnone
      cases hnone

theorem IsChain.combinators (h : IsChain ReadsRelation cs)
    (hnone : repeatsAngle none waiting (cs ++ rest) = false) : IsChain Combinator cs := by
  induction h generalizing rest with
  | compound hc => exact .compound hc
  | @extend cs between cs' _ hbetween hc ih =>
    rw [List.append_assoc] at hnone
    have hchain := ih hnone
    rw [hchain.clear, List.append_assoc] at hnone
    exact .extend hchain (hbetween.combinator hnone) hc

theorem IsGroup.combinators (h : IsGroup ReadsRelation cs)
    (hnone : repeatsAngle none waiting (cs ++ rest) = false) : IsGroup Combinator cs := by
  obtain ⟨front, core, back, rfl, hfront, hback, hcore⟩ := h
  rw [List.append_assoc, clear_blank hfront, List.append_assoc] at hnone
  exact ⟨front, core, back, rfl, hfront, hback, hcore.combinators hnone⟩

theorem clear_comma : Clear false [','] false :=
  clear_char (by decide)

theorem repeatsAngle_groups {groups : List (List Char)}
    (h : ∀ group ∈ groups, IsGroup Combinator group) :
    repeatsAngle none false ([','].intercalate groups) = false := by
  induction groups with
  | nil => rfl
  | cons group groups ih =>
    have hgroup : Clear false group false := (h group List.mem_cons_self).clear
    have hrest := ih fun g hg => h g (List.mem_cons_of_mem _ hg)
    by_cases hnil : groups = []
    · rw [hnil, List.intercalate_singleton, ← List.append_nil group, hgroup]
      rfl
    · rw [intercalate_cons hnil, hgroup]
      exact (clear_comma _).trans hrest

theorem combinators_of_groups {groups : List (List Char)}
    (h : ∀ group ∈ groups, IsGroup ReadsRelation group)
    (hnone : repeatsAngle none false ([','].intercalate groups) = false) :
    ∀ group ∈ groups, IsGroup Combinator group := by
  induction groups with
  | nil => simp
  | cons group groups ih =>
    have hread := h group List.mem_cons_self
    by_cases hnil : groups = []
    · rw [hnil, List.intercalate_singleton, ← List.append_nil group] at hnone
      rw [hnil, List.forall_mem_singleton]
      exact hread.combinators hnone
    · rw [intercalate_cons hnil] at hnone
      have hgroup := hread.combinators hnone
      rw [hgroup.clear] at hnone
      exact List.forall_mem_cons.mpr ⟨hgroup, ih (fun g hg => h g (List.mem_cons_of_mem _ hg))
        ((clear_comma _).symm.trans hnone)⟩

theorem isList_combinator_iff :
    IsList Combinator cs ↔ IsList ReadsRelation cs ∧ repeatsAngle none false cs = false := by
  constructor
  · rintro ⟨groups, hne, rfl, hgroups⟩
    exact ⟨⟨groups, hne, rfl, fun group hgroup =>
      (hgroups group hgroup).mono fun _ => Combinator.readsRelation⟩, repeatsAngle_groups hgroups⟩
  · rintro ⟨⟨groups, hne, rfl, hgroups⟩, hnone⟩
    exact ⟨groups, hne, rfl, combinators_of_groups hgroups hnone⟩

/-- A text is accepted exactly when it is a list of groups with commas between them, each of them a
chain of compounds joined by what is read as a relation. Of these texts the documented grammar has
those in which no angle bracket follows another. -/
theorem accepted_iff_grammar (src : String) :
    ((∃ list, parseAll src = .ok list) ↔ IsList ReadsRelation src.toList) ∧
      (IsList Combinator src.toList ↔
        (∃ list, parseAll src = .ok list) ∧ repeatsAngle none false src.toList = false) := by
  refine ⟨accepted_iff, ?_⟩
  rw [accepted_iff]
  exact isList_combinator_iff

/-- A second angle bracket between two compounds is accepted. -/
theorem accepted_repeated_angle :
    (∃ list, parseAll "a > > b" = .ok list) ∧ ¬ IsList Combinator "a > > b".toList := by
  constructor
  · exact ⟨_, show parseAll "a > > b" = .ok [⟨⟨some "b", none, [], []⟩,
      [(.child, ⟨some "a", none, [], []⟩)]⟩] by decide +kernel⟩
  · intro h
    have hnone := (isList_combinator_iff.mp h).2
    revert hnone
    decide

end ActiveMarkup.Selector
