import ActiveMarkup.Proofs.Document.Queries
set_option autoImplicit false

namespace ActiveMarkup.Selector

variable {cs : List Char} {c c' : Compound} {e : Element} {k : NodeId}

inductive Condition where
  | any
  | tag (name : String)
  | identified (name : String)
  | classed (name : String)
  | attributed (name : String) (test : AttributeTest)

namespace Condition

def holds (e : Element) : Condition → Bool
  | any => true
  | tag name => name == e.tag
  | identified name => e.attribute? "id" == some name
  | classed name => e.classes.contains name
  | attributed name test => (e.selectable? name).any test.holds

def addTo (c : Compound) : Condition → Compound
  | any => c
  | tag name => { c with tag := some name }
  | identified name => { c with id := some name }
  | classed name => { c with classes := c.classes ++ [name] }
  | attributed name test => { c with attributes := c.attributes ++ [(name, test)] }

def isHead : Condition → Bool
  | any | tag _ => true
  | identified _ | classed _ | attributed _ _ => false

def isIdentifier : Condition → Bool
  | identified _ => true
  | any | tag _ | classed _ | attributed _ _ => false

end Condition

inductive SpellsCondition : List Char → Condition → Prop where
  | any : SpellsCondition ['*'] .any
  | tag {first : Char} {name : List Char} : first.isDigit = false → IsName (first :: name) →
      SpellsCondition (first :: name) (.tag (String.ofList (first :: name)).toLower)
  | identified {name : List Char} : IsName name →
      SpellsCondition ('#' :: name) (.identified (String.ofList name))
  | classed {name : List Char} : IsName name →
      SpellsCondition ('.' :: name) (.classed (String.ofList name))
  | attributed {inner : List Char} {name : String} {test : AttributeTest} :
      SpellsAttribute inner (name, test) → SpellsCondition ('[' :: inner) (.attributed name test)

structure Part where
  chars : List Char
  condition : Condition
  spells : SpellsCondition chars condition

namespace Part

def text (part : Part) : String :=
  String.ofList part.chars

def compound (c : Compound) (parts : List Part) : Compound :=
  parts.foldl (fun c part => part.condition.addTo c) c

/-- The conditions that count: all but the identifiers that have another one behind them. -/
def counted : List Part → List Part
  | [] => []
  | part :: parts =>
    if part.condition.isIdentifier && parts.any (·.condition.isIdentifier) then counted parts
    else part :: counted parts

end Part

structure Together (parts : List Part) : Prop where
  nonempty : parts ≠ []
  heads : ∀ part ∈ parts.tail, part.condition.isHead = false

/-- A text that writes conditions together, between blanks. -/
structure Writes (src : String) (parts : List Part) : Prop where
  text : ∃ front back, AllBlank front ∧ AllBlank back ∧
    src.toList = front ++ (parts.flatMap Part.chars ++ back)
  together : Together parts

theorem Part.spellsConditions {parts : List Part}
    (h : ∀ part ∈ parts, part.condition.isHead = false) (c : Compound) :
    SpellsConditions c (parts.flatMap chars) (compound c parts) := by
  induction parts generalizing c with
  | nil => exact .none
  | cons part parts ih =>
    have hmore := fun c => ih (fun p hp => h p (List.mem_cons_of_mem _ hp)) c
    have hhead := h part List.mem_cons_self
    obtain ⟨chars, condition, hspells⟩ := part
    rw [List.flatMap_cons]
    cases hspells with
    | any => cases hhead
    | tag => cases hhead
    | identified hname => exact .identified hname (hmore _)
    | classed hname => exact .classed hname (hmore _)
    | attributed hinner => exact .attributed hinner (hmore _)

theorem Together.spells {parts : List Part} (h : Together parts) :
    SpellsCompound (parts.flatMap Part.chars) (Part.compound .any parts) := by
  obtain ⟨part, parts, rfl⟩ := List.exists_cons_of_ne_nil h.nonempty
  have hmore := Part.spellsConditions h.heads
  obtain ⟨chars, condition, hspells⟩ := part
  rw [List.flatMap_cons]
  cases hspells with
  | any => exact .star (hmore _)
  | tag hdigit hname => exact .tag hdigit hname (hmore _)
  | identified hname => exact .bare (by simp) (.identified hname (hmore _))
  | classed hname => exact .bare (by simp) (.classed hname (hmore _))
  | attributed hinner => exact .bare (by simp) (.attributed hinner (hmore _))

theorem exists_parts_of_spellsConditions (h : SpellsConditions c cs c') :
    ∃ parts, (∀ part ∈ parts, part.condition.isHead = false) ∧ cs = parts.flatMap Part.chars ∧
      c' = Part.compound c parts := by
  have hcons : ∀ {c c' cs} (part : Part), part.condition.isHead = false →
      (∃ parts, (∀ part ∈ parts, part.condition.isHead = false) ∧ cs = parts.flatMap Part.chars ∧
        c' = Part.compound (part.condition.addTo c) parts) →
      ∃ parts, (∀ part ∈ parts, part.condition.isHead = false) ∧
        part.chars ++ cs = parts.flatMap Part.chars ∧ c' = Part.compound c parts := by
    rintro c c' cs part hhead ⟨parts, hheads, rfl, rfl⟩
    exact ⟨part :: parts, List.forall_mem_cons.mpr ⟨hhead, hheads⟩, by simp, rfl⟩
  induction h with
  | none => exact ⟨[], by simp, rfl, rfl⟩
  | identified hname _ ih => exact hcons ⟨_, _, .identified hname⟩ rfl ih
  | classed hname _ ih => exact hcons ⟨_, _, .classed hname⟩ rfl ih
  | attributed hinner _ ih => exact hcons ⟨_, _, .attributed hinner⟩ rfl ih

theorem exists_parts_of_spellsCompound (h : SpellsCompound cs c) :
    ∃ parts, Together parts ∧ cs = parts.flatMap Part.chars ∧ c = Part.compound .any parts := by
  cases h with
  | star h =>
    obtain ⟨parts, hheads, rfl, rfl⟩ := exists_parts_of_spellsConditions h
    exact ⟨⟨_, _, .any⟩ :: parts, ⟨by simp, hheads⟩, by simp, rfl⟩
  | tag hdigit hname h =>
    obtain ⟨parts, hheads, rfl, rfl⟩ := exists_parts_of_spellsConditions h
    exact ⟨⟨_, _, .tag hdigit hname⟩ :: parts, ⟨by simp, hheads⟩, by simp, rfl⟩
  | bare hne h =>
    obtain ⟨parts, hheads, rfl, rfl⟩ := exists_parts_of_spellsConditions h
    refine ⟨parts, ⟨?_, fun part hpart => hheads part (List.mem_of_mem_tail hpart)⟩, rfl, rfl⟩
    rintro rfl
    exact hne rfl

theorem Writes.parseAll {src : String} {parts : List Part} (h : Writes src parts) :
    parseAll src = .ok [⟨Part.compound .any parts, []⟩] := by
  obtain ⟨front, back, hfront, hback, htext⟩ := h.text
  exact parseAll_singleton_iff.mpr
    ⟨front, _, back, htext, hfront, hback, .compound h.together.spells⟩

theorem Part.writes (part : Part) : Writes part.text [part] :=
  ⟨⟨[], [], allBlank_nil, allBlank_nil, by simp [text]⟩, by simp, nofun⟩

theorem exists_writes_iff {src : String} :
    (∃ c, parseAll src = .ok [⟨c, []⟩]) ↔ ∃ parts, Writes src parts := by
  constructor
  · rintro ⟨c, hc⟩
    obtain ⟨front, core, back, htext, hfront, hback, hcore⟩ := parseAll_singleton_iff.mp hc
    obtain ⟨parts, htogether, rfl, -⟩ := exists_parts_of_spellsCompound hcore.toCompound
    exact ⟨parts, ⟨front, back, hfront, hback, htext⟩, htogether⟩
  · rintro ⟨parts, hwrites⟩
    exact ⟨_, hwrites.parseAll⟩

def unidentified (c : Compound) : Compound :=
  { c with id := none }

namespace Condition

variable {condition : Condition}

theorem holds_addTo (hhead : condition.isHead = false) (hid : condition.isIdentifier = false) :
    (condition.addTo c).holds e = true ↔ c.holds e = true ∧ condition.holds e = true := by
  cases condition with
  | any => cases hhead
  | tag => cases hhead
  | identified => cases hid
  | classed name => simp [addTo, holds, Compound.holds, and_assoc, and_comm, and_left_comm]
  | attributed name test => simp [addTo, holds, Compound.holds, and_assoc]

theorem holds_addTo_identifier (hid : condition.isIdentifier = true) :
    (condition.addTo c).holds e = true ↔
      (unidentified c).holds e = true ∧ condition.holds e = true := by
  cases condition with
  | identified name =>
    simp [addTo, holds, unidentified, Compound.holds, and_assoc, and_comm]
  | any | tag | classed | attributed => cases hid

theorem unidentified_addTo (hid : condition.isIdentifier = false) :
    unidentified (condition.addTo c) = condition.addTo (unidentified c) := by
  cases condition with
  | identified => cases hid
  | any | tag | classed | attributed => rfl

theorem unidentified_addTo_identifier (hid : condition.isIdentifier = true) :
    unidentified (condition.addTo c) = unidentified c := by
  cases condition with
  | identified => rfl
  | any | tag | classed | attributed => cases hid

theorem holds_addTo_any : (condition.addTo .any).holds e = condition.holds e := by
  cases condition <;> simp [addTo, holds, Compound.holds, Compound.any]

end Condition

/-- An identifier among the conditions takes the place of the one that was there. -/
theorem Part.holds_compound {parts : List Part}
    (h : ∀ part ∈ parts, part.condition.isHead = false) (c : Compound) :
    (compound c parts).holds e = true ↔
      (if parts.any (·.condition.isIdentifier) then unidentified c else c).holds e = true ∧
        ∀ part ∈ counted parts, part.condition.holds e = true := by
  induction parts generalizing c with
  | nil => simp [compound, counted]
  | cons part parts ih =>
    have hhead := h part List.mem_cons_self
    have hrest := ih (fun p hp => h p (List.mem_cons_of_mem _ hp)) (part.condition.addTo c)
    change (compound (part.condition.addTo c) parts).holds e = true ↔ _
    rw [hrest, List.any_cons, counted]
    by_cases hmore : parts.any (·.condition.isIdentifier) = true <;>
      cases hid : part.condition.isIdentifier
    · simp [hmore, Condition.unidentified_addTo hid, Condition.holds_addTo hhead hid, and_assoc]
    · simp [hmore, Condition.unidentified_addTo_identifier hid]
    · simp [hmore, Condition.holds_addTo hhead hid, and_assoc]
    · simp [hmore, Condition.holds_addTo_identifier hid, and_assoc]

theorem Part.counted_head {part : Part} {parts : List Part}
    (hid : part.condition.isIdentifier = false) :
    counted (part :: parts) = part :: counted parts := by
  rw [counted, hid, Bool.false_and, if_neg (by simp)]

theorem Together.holds {parts : List Part} (h : Together parts) :
    (Part.compound .any parts).holds e = true ↔
      ∀ part ∈ Part.counted parts, part.condition.holds e = true := by
  obtain ⟨part, parts, rfl⟩ := List.exists_cons_of_ne_nil h.nonempty
  have hheads : ∀ p ∈ parts, p.condition.isHead = false := h.heads
  cases hhead : part.condition.isHead with
  | false =>
    have hany : unidentified .any = .any := rfl
    rw [Part.holds_compound (List.forall_mem_cons.mpr ⟨hhead, hheads⟩), hany, ite_self]
    exact and_iff_right rfl
  | true =>
    have hid : part.condition.isIdentifier = false := by
      cases hc : part.condition <;> simp_all [Condition.isHead, Condition.isIdentifier]
    have hfirst : unidentified (part.condition.addTo .any) = part.condition.addTo .any :=
      Condition.unidentified_addTo hid
    change (Part.compound (part.condition.addTo .any) parts).holds e = true ↔ _
    rw [Part.holds_compound hheads, hfirst, ite_self, Condition.holds_addTo_any,
      Part.counted_head hid, List.forall_mem_cons]

theorem Writes.matches_iff {d : Document} {src : String} {n : NodeId} {parts : List Part}
    (h : Writes src parts) : Matches d src n ↔
      ∃ e, d.element? n = some e ∧ ∀ part ∈ Part.counted parts, part.condition.holds e = true := by
  rw [matches_singleton h.parseAll, selects_compound, Compound.holdsAt, Option.any_eq_true]
  simp only [h.together.holds]

theorem Part.matches_iff {d : Document} {n : NodeId} (part : Part) :
    Matches d part.text n ↔ ∃ e, d.element? n = some e ∧ part.condition.holds e = true := by
  rw [part.writes.matches_iff]
  simp [counted]

theorem Part.counted_subset (parts : List Part) : counted parts ⊆ parts := by
  induction parts with
  | nil => exact List.Subset.refl _
  | cons part parts ih =>
    rw [counted]
    split
    · exact List.subset_cons_of_subset part ih
    · exact List.cons_subset_cons part ih

theorem Part.exists_counted_identifier {parts : List Part}
    (h : ∃ part ∈ parts, part.condition.isIdentifier = true) :
    ∃ part ∈ counted parts, part.condition.isIdentifier = true := by
  induction parts with
  | nil => simp at h
  | cons first parts ih =>
    rw [counted]
    split
    next hlater =>
      rw [Bool.and_eq_true, List.any_eq_true] at hlater
      exact ih hlater.2
    next =>
      obtain ⟨part, hpart, hid⟩ := h
      rcases List.mem_cons.mp hpart with rfl | hpart
      · exact ⟨part, List.mem_cons_self, hid⟩
      · obtain ⟨other, hother, hid⟩ := ih ⟨part, hpart, hid⟩
        exact ⟨other, List.mem_cons_of_mem _ hother, hid⟩

theorem Part.mem_counted {part : Part} {parts : List Part} (h : part ∈ parts)
    (hid : part.condition.isIdentifier = false) : part ∈ counted parts := by
  induction parts with
  | nil => cases h
  | cons first parts ih =>
    rcases List.mem_cons.mp h with rfl | h
    · rw [counted_head hid]
      exact List.mem_cons_self
    · rw [counted]
      split
      · exact ih h
      · exact List.mem_cons_of_mem _ (ih h)

theorem Part.counted_ne_nil {parts : List Part} (h : parts ≠ []) : counted parts ≠ [] := by
  obtain ⟨part, hpart⟩ := List.exists_mem_of_ne_nil _ h
  cases hid : part.condition.isIdentifier with
  | false => exact List.ne_nil_of_mem (mem_counted hpart hid)
  | true =>
    obtain ⟨other, hother, -⟩ := exists_counted_identifier ⟨part, hpart, hid⟩
    exact List.ne_nil_of_mem hother

def OneIdentifier (parts : List Part) : Prop :=
  ∀ part ∈ parts, ∀ other ∈ parts, part.condition.isIdentifier = true →
    other.condition.isIdentifier = true → part.condition = other.condition

theorem OneIdentifier.of_forall {parts : List Part} (condition : Condition)
    (h : ∀ part ∈ parts, part.condition.isIdentifier = true → part.condition = condition) :
    OneIdentifier parts :=
  fun part hpart other hother hid hid' => (h part hpart hid).trans (h other hother hid').symm

theorem OneIdentifier.forall_counted {parts : List Part} (h : OneIdentifier parts)
    (P : Condition → Prop) :
    (∀ part ∈ Part.counted parts, P part.condition) ↔ ∀ part ∈ parts, P part.condition := by
  refine ⟨fun hall part hpart => ?_, fun hall part hpart => hall part (Part.counted_subset _ hpart)⟩
  cases hid : part.condition.isIdentifier with
  | false => exact hall part (Part.mem_counted hpart hid)
  | true =>
    obtain ⟨other, hother, hid'⟩ := Part.exists_counted_identifier ⟨part, hpart, hid⟩
    rw [h part hpart other (Part.counted_subset _ hother) hid hid']
    exact hall other hother

/-- A text matches the nodes that each of the parts matches on its own, and it finds the elements
that each of them finds, once and in document order. -/
structure IsConjunction (d : Document) (src : String) (parts : List Part) : Prop where
  matching : ∀ n, Matches d src n ↔ ∀ part ∈ parts, Matches d part.text n
  finding : ∀ found, d.queryAll src = .ok found ↔
    d.Lists (fun n => ∀ part ∈ parts, ∃ all, d.queryAll part.text = .ok all ∧ n ∈ all) found

theorem exists_queryAll_iff {d : Document} (ht : d.IsTree) {src : String} {list : List Selector}
    (hsrc : parseAll src = .ok list) {n : NodeId} :
    (∃ all, d.queryAll src = .ok all ∧ n ∈ all) ↔ d.Finds (Matches d src) n := by
  have hlists := ht.lists_select hsrc
  constructor
  · rintro ⟨all, hall, hn⟩
    exact (((ht.queryAll_eq_ok_iff hsrc).mp hall).mem n).mp hn
  · intro hn
    exact ⟨_, (ht.queryAll_eq_ok_iff hsrc).mpr hlists, (hlists.mem n).mpr hn⟩

theorem isConjunction_of_matches {d : Document} (ht : d.IsTree) {src : String}
    {list : List Selector} (hsrc : parseAll src = .ok list) {parts : List Part} (hne : parts ≠ [])
    (h : ∀ n, Matches d src n ↔ ∀ part ∈ parts, Matches d part.text n) :
    IsConjunction d src parts := by
  refine ⟨h, fun found => ?_⟩
  have hiff : ∀ n, d.Finds (Matches d src) n ↔
      ∀ part ∈ parts, ∃ all, d.queryAll part.text = .ok all ∧ n ∈ all := by
    intro n
    have hpart : ∀ part : Part, (∃ all, d.queryAll part.text = .ok all ∧ n ∈ all) ↔
        d.Finds (Matches d part.text) n := fun part =>
      exists_queryAll_iff ht part.writes.parseAll
    simp only [hpart, Document.Finds, h]
    constructor
    · rintro ⟨he, hc, hall⟩ part hpart
      exact ⟨he, hc, hall part hpart⟩
    · intro hall
      obtain ⟨first, hfirst⟩ := List.exists_mem_of_ne_nil _ hne
      obtain ⟨he, hc, -⟩ := hall first hfirst
      exact ⟨he, hc, fun part hpart => (hall part hpart).2.2⟩
  rw [ht.queryAll_eq_ok_iff hsrc]
  exact ⟨fun hfound => hfound.congr hiff, fun hfound => hfound.congr fun n => (hiff n).symm⟩

/-- In a document with a history: the texts that are read as one compound are those that write
conditions together, and such a text is the conjunction of the conditions that count. If it has one
identifier, however often, it is the conjunction of all its conditions. -/
theorem compound_isConjunction {d : Document} (hd : d.Reachable) (src : String) :
    ((∃ c, parseAll src = .ok [⟨c, []⟩]) ↔ ∃ parts, Writes src parts) ∧
      ∀ parts, Writes src parts →
        IsConjunction d src (Part.counted parts) ∧
          (OneIdentifier parts → IsConjunction d src parts) := by
  refine ⟨exists_writes_iff, fun parts h => ?_⟩
  have hne := Part.counted_ne_nil h.together.nonempty
  have hmatches : ∀ n, Matches d src n ↔ ∀ part ∈ Part.counted parts, Matches d part.text n := by
    intro n
    obtain ⟨first, hfirst⟩ := List.exists_mem_of_ne_nil _ hne
    simp only [h.matches_iff, Part.matches_iff]
    constructor
    · rintro ⟨e, he, hall⟩ part hpart
      exact ⟨e, he, hall part hpart⟩
    · intro hall
      obtain ⟨e, he, -⟩ := hall first hfirst
      refine ⟨e, he, fun part hpart => ?_⟩
      obtain ⟨e', he', hholds⟩ := hall part hpart
      cases he.symm.trans he'
      exact hholds
  refine ⟨isConjunction_of_matches hd.isTree h.parseAll hne hmatches, fun hone =>
    isConjunction_of_matches hd.isTree h.parseAll h.together.nonempty fun n => ?_⟩
  rw [hmatches]
  simp only [Part.matches_iff]
  exact hone.forall_counted fun condition => ∃ e, d.element? n = some e ∧ condition.holds e = true

theorem isName_of_isAlphanum (hne : cs ≠ [])
    (h : cs.all (fun c => decide (c.toNat < 0x80) && c.isAlphanum) = true) : IsName cs := by
  refine ⟨hne, fun c hc => ?_⟩
  have hc := List.all_eq_true.mp h c hc
  rw [Bool.and_eq_true, decide_eq_true_eq] at hc
  rw [inName_eq, if_pos hc.1, hc.2, Bool.true_or, Bool.true_or]

/-- A tag, a class that is written twice, a quoted value with a blank in it, and an identifier that
is written twice. -/
theorem compound_isConjunction_repeated :
    ∃ d parts, Document.parse "<p id=i class='b a' title='x y'></p><p class=a></p>" = .ok d ∧
      Writes "p#i.a[title='x y'].a#i" parts ∧ OneIdentifier parts ∧
      IsConjunction d "p#i.a[title='x y'].a#i" parts ∧
      Matches d "p#i.a[title='x y'].a#i" ⟨1⟩ ∧ ¬ Matches d "p#i.a[title='x y'].a#i" ⟨2⟩ := by
  have hi : IsName ['i'] := isName_of_isAlphanum (by simp) (by decide)
  have ha : IsName ['a'] := isName_of_isAlphanum (by simp) (by decide)
  have hp : IsName ['p'] := isName_of_isAlphanum (by simp) (by decide)
  have htitle : IsName "title".toList := isName_of_isAlphanum (by decide) (by decide)
  have hvalue : SpellsValue ('\'' :: ("x y".toList ++ ['\''])) "x y" :=
    .quoted (.inr rfl) (by decide)
  have hattribute := SpellsAttribute.tested allBlank_nil htitle allBlank_nil .equals allBlank_nil
    hvalue allBlank_nil
  obtain ⟨parts, hwrites, hone⟩ :
      ∃ parts, Writes "p#i.a[title='x y'].a#i" parts ∧ OneIdentifier parts := by
    refine ⟨[⟨_, _, .tag (by decide) hp⟩, ⟨_, _, .identified hi⟩, ⟨_, _, .classed ha⟩,
      ⟨_, _, .attributed hattribute⟩, ⟨_, _, .classed ha⟩, ⟨_, _, .identified hi⟩],
      ⟨⟨[], [], allBlank_nil, allBlank_nil, rfl⟩, by simp, ?_⟩, .of_forall (.identified "i") ?_⟩
    · simp [Condition.isHead]
    · simp [Condition.isIdentifier]
  have hsrc : parseAll "p#i.a[title='x y'].a#i" =
      .ok [⟨⟨some "p", some "i", ["a", "a"], [("title", .equals "x y")]⟩, []⟩] := by decide +kernel
  have heval : (Document.parse "<p id=i class='b a' title='x y'></p><p class=a></p>").toOption.map
      (fun d =>
        let s : Selector := ⟨⟨some "p", some "i", ["a", "a"], [("title", .equals "x y")]⟩, []⟩
        (s.selects d ⟨1⟩, s.selects d ⟨2⟩)) = some (true, false) := by decide +kernel
  obtain ⟨d, hd, hfacts⟩ := Option.map_eq_some_iff.mp heval
  obtain ⟨hfirst, hsecond⟩ := Prod.mk.inj hfacts
  have hparse := Document.parse_of_toOption hd
  refine ⟨d, parts, hparse, hwrites, hone, ?_, (matches_singleton hsrc).mpr hfirst, ?_⟩
  · exact ((compound_isConjunction (.parse hparse) _).2 _ hwrites).2 hone
  · rw [matches_singleton hsrc, hsecond]
    simp

/-- An identifier that has another one behind it counts for nothing. -/
theorem compound_isConjunction_lost :
    ∃ d parts, Document.parse "<p id=b></p>" = .ok d ∧ Writes "#a#b" parts ∧
      Matches d "#a#b" ⟨1⟩ ∧ ¬ ∀ part ∈ parts, Matches d part.text ⟨1⟩ := by
  have ha : IsName ['a'] := isName_of_isAlphanum (by simp) (by decide)
  have hb : IsName ['b'] := isName_of_isAlphanum (by simp) (by decide)
  have hwrites : Writes "#a#b" [⟨_, _, .identified ha⟩, ⟨_, _, .identified hb⟩] :=
    ⟨⟨[], [], allBlank_nil, allBlank_nil, rfl⟩, by simp, by simp [Condition.isHead]⟩
  have hsrc : parseAll "#a#b" = .ok [⟨⟨none, some "b", [], []⟩, []⟩] := by decide +kernel
  have hsrc' : parseAll "#a" = .ok [⟨⟨none, some "a", [], []⟩, []⟩] := by decide +kernel
  have heval : (Document.parse "<p id=b></p>").toOption.map (fun d =>
      ((⟨⟨none, some "b", [], []⟩, []⟩ : Selector).selects d ⟨1⟩,
        (⟨⟨none, some "a", [], []⟩, []⟩ : Selector).selects d ⟨1⟩)) = some (true, false) := by
    decide +kernel
  obtain ⟨d, hd, hfacts⟩ := Option.map_eq_some_iff.mp heval
  obtain ⟨htogether, halone⟩ := Prod.mk.inj hfacts
  refine ⟨d, _, Document.parse_of_toOption hd, hwrites, (matches_singleton hsrc).mpr htogether, ?_⟩
  intro hall
  have hfirst : Matches d "#a" ⟨1⟩ := hall _ List.mem_cons_self
  rw [matches_singleton hsrc', halone] at hfirst
  cases hfirst

end ActiveMarkup.Selector
