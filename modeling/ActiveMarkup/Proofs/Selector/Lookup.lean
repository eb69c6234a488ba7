import ActiveMarkup.Proofs.Selector.Conjunction
set_option autoImplicit false

namespace ActiveMarkup.Document

open Selector (Condition IsName Part SpellsAttribute SpellsCondition SpellsTest SpellsValue
  allBlank_nil)

variable {d : Document} {src name : String} {condition condition' : Condition}

def having (d : Document) (condition : Condition) : List NodeId :=
  (d.descendants .root).filter fun n => (d.element? n).any condition.holds

theorem having_congr (h : ∀ e, condition.holds e = condition'.holds e) :
    d.having condition = d.having condition' := by
  have hholds : (fun e => condition.holds e) = fun e => condition'.holds e := funext h
  rw [having, having, hholds]

theorem lists_having (ht : d.IsTree) (condition : Condition) :
    d.Lists (d.Finds fun n => ∃ e, d.element? n = some e ∧ condition.holds e = true)
      (d.having condition) := by
  refine (ht.descendants_root.filter _).congr fun n => ?_
  rw [Finds, and_assoc, Option.any_eq_true]

theorem queryAll_condition (h : SpellsCondition src.toList condition) :
    d.queryAll src = .ok (d.having condition) ∧ d.query src = .ok (d.having condition).head? := by
  let part : Part := ⟨src.toList, condition, h⟩
  have hparse : Selector.parseAll src = .ok [⟨condition.addTo .any, []⟩] := by
    have hwrites := part.writes
    rw [show part.text = src from String.ofList_toList] at hwrites
    exact hwrites.parseAll
  have hselect : d.select [⟨condition.addTo .any, []⟩] = d.having condition := by
    have hholds : (condition.addTo .any).holds = fun e => condition.holds e :=
      funext fun _ => Condition.holds_addTo_any
    simp only [select, having, List.any_cons, List.any_nil, Bool.or_false,
      Selector.selects_compound, Compound.holdsAt, hholds]
  rw [queryAll, query, selectors_ok hparse, ← hselect]
  exact ⟨rfl, rfl⟩

theorem holds_equals {e : Element} :
    Condition.holds e (.attributed "id" (.equals name)) = Condition.holds e (.identified name) := by
  have hid : e.selectable? "id" = e.attribute? "id" := rfl
  rw [Condition.holds, Condition.holds, hid]
  cases e.attribute? "id" <;> rfl

theorem holds_includes {e : Element} :
    Condition.holds e (.attributed "class" (.includes name)) =
      Condition.holds e (.classed name) := by
  have hclass : e.selectable? "class" = e.attribute? "class" := rfl
  rw [Condition.holds, Condition.holds, hclass, Element.classes]
  cases e.attribute? "class" <;> rfl

theorem byId?_eq_having (hname : name ≠ "") :
    d.byId? name = (d.having (.identified name)).head? := by
  have hholds : ∀ n, (d.attribute? n "id" == some name) =
      (d.element? n).any (Condition.holds · (.identified name)) := by
    intro n
    rw [attribute?]
    cases d.element? n <;> rfl
  simp only [byId?_eq_head? hname, hholds, having]

theorem spells_comparison {key : String} {sign value : List Char} {test : String → AttributeTest}
    (hkey : IsName key.toList) (hlower : key.toLower = key) (hsign : SpellsTest sign test)
    (hvalue : SpellsValue value name) :
    SpellsCondition ('[' :: (key.toList ++ (sign ++ (value ++ [']']))))
      (.attributed key (test name)) := by
  have hinner := SpellsAttribute.tested allBlank_nil hkey allBlank_nil hsign allBlank_nil hvalue
    allBlank_nil
  rw [String.ofList_toList, hlower] at hinner
  exact .attributed hinner

theorem spellsValue_quoted {q : Char} (hq : q = '"' ∨ q = '\'') (hname : IsName name.toList) :
    SpellsValue (q :: (name.toList ++ [q])) name := by
  have hmem : q ∉ name.toList := fun hmem =>
    (Selector.plain_of_inName (hname.chars q hmem)).elim fun hdouble hrest =>
      hq.elim hdouble hrest.1
  simpa using SpellsValue.quoted hq hmem

theorem query_compared {value : List Char} (hname : name ≠ "") (hvalue : SpellsValue value name)
    (hsrc : src.toList = '[' :: ("id".toList ++ (['='] ++ (value ++ [']'])))) :
    d.query src = .ok (d.byId? name) := by
  have hid : IsName "id".toList := Selector.isName_of_isAlphanum (by decide) (by decide)
  have hspells : SpellsCondition src.toList (.attributed "id" (.equals name)) := by
    rw [hsrc]
    exact spells_comparison hid (by decide +kernel) .equals hvalue
  have hsame : d.having (.attributed "id" (.equals name)) = d.having (.identified name) :=
    having_congr fun _ => holds_equals
  rw [(queryAll_condition hspells).2, hsame, byId?_eq_having hname]

theorem queryAll_classed (hname : IsName name.toList) :
    d.queryAll ("." ++ name) = .ok (d.having (.classed name)) ∧
      d.queryAll ("[class~=" ++ name ++ "]") = .ok (d.having (.classed name)) := by
  have hclass : IsName "class".toList := Selector.isName_of_isAlphanum (by decide) (by decide)
  have hvalue : SpellsValue name.toList name := by simpa using SpellsValue.name hname
  have hword : SpellsCondition ("[class~=" ++ name ++ "]").toList
      (.attributed "class" (.includes name)) := by
    simpa using spells_comparison hclass (by decide +kernel) .includes hvalue
  have hsame : d.having (.attributed "class" (.includes name)) = d.having (.classed name) :=
    having_congr fun _ => holds_includes
  constructor
  · exact (queryAll_condition (by simpa using SpellsCondition.classed hname)).1
  · rw [(queryAll_condition hword).1, hsame]

/-- In a document with a history, the direct search for an identifier and the selectors that ask for
it give the same answer, which is the first connected element with the identifier. The two selectors
that ask for a class find the same elements as well, which are the connected ones with the class. -/
theorem reachable_lookups (hd : d.Reachable) (hname : IsName name.toList) :
    d.query ("#" ++ name) = .ok (d.byId? name) ∧
    d.query ("[id=" ++ name ++ "]") = .ok (d.byId? name) ∧
    d.query ("[id='" ++ name ++ "']") = .ok (d.byId? name) ∧
    d.query ("[id=\"" ++ name ++ "\"]") = .ok (d.byId? name) ∧
    (∀ n, d.byId? name = some n ↔
      d.IsFirst (d.Finds fun n => d.attribute? n "id" = some name) n) ∧
    ∃ found, d.queryAll ("." ++ name) = .ok found ∧
      d.queryAll ("[class~=" ++ name ++ "]") = .ok found ∧
      d.Lists (d.Finds fun n => ∃ e, d.element? n = some e ∧ name ∈ e.classes) found := by
  have hne : name ≠ "" := by
    rintro rfl
    exact hname.nonempty rfl
  have hbare : SpellsValue name.toList name := by simpa using SpellsValue.name hname
  refine ⟨?_, ?_, ?_, ?_, fun n => ?_, d.having (.classed name), ?_, ?_, ?_⟩
  · rw [byId?_eq_having hne]
    exact (queryAll_condition (by simpa using SpellsCondition.identified hname)).2
  · exact query_compared hne hbare (by simp)
  · exact query_compared hne (spellsValue_quoted (.inr rfl) hname) (by simp)
  · exact query_compared hne (spellsValue_quoted (.inl rfl) hname) (by simp)
  · rw [byId?_eq_head? hne]
    exact (hd.isTree.lists_identified name).head?_eq_some_iff hd.isTree
  · exact (queryAll_classed hname).1
  · exact (queryAll_classed hname).2
  · refine (lists_having hd.isTree _).congr fun n => ?_
    simp only [Finds, Condition.holds, List.contains_iff_mem]

/-- A name may begin with a digit or with a mark. The later of two elements is put around the
earlier one, so that it comes first, the list of classes names the class twice, and an element that
stands apart has the same identifier. -/
theorem reachable_lookups_moved :
    let moves : List Operation :=
      [.appendChild ⟨3⟩ ⟨1⟩, .createElement "b", .setAttribute ⟨4⟩ "id" "1-é"]
    IsName "1-é".toList ∧
    ∃ d, (parse "<p><b id='1-é' class='x 1-é y 1-é'></b></p><i id='1-é' class='1-é'></i>").map
        (moves.foldl Operation.after) = .ok d ∧
      d.attribute? ⟨4⟩ "id" = some "1-é" ∧
      d.byId? "1-é" = some ⟨3⟩ ∧
      d.query ("#" ++ "1-é") = .ok (some ⟨3⟩) ∧
      d.query ("[id=" ++ "1-é" ++ "]") = .ok (some ⟨3⟩) ∧
      d.query ("[id='" ++ "1-é" ++ "']") = .ok (some ⟨3⟩) ∧
      d.query ("[id=\"" ++ "1-é" ++ "\"]") = .ok (some ⟨3⟩) ∧
      d.queryAll ("." ++ "1-é") = .ok [⟨3⟩, ⟨2⟩] ∧
      d.queryAll ("[class~=" ++ "1-é" ++ "]") = .ok [⟨3⟩, ⟨2⟩] := by
  intro moves
  have haccent : Selector.inName 'é' = true := by
    rw [Selector.inName_eq]
    decide +kernel
  have hname : IsName "1-é".toList := by
    refine ⟨by decide, ?_⟩
    simp only [String.reduceToList, List.forall_mem_cons]
    exact ⟨by decide, by decide, haccent, nofun⟩
  have heval : (parse "<p><b id='1-é' class='x 1-é y 1-é'></b></p><i id='1-é' class='1-é'></i>"
      ).toOption.map (fun d₀ =>
        let d := moves.foldl Operation.after d₀
        (d.attribute? ⟨4⟩ "id", d.byId? "1-é", d.having (.classed "1-é"))) =
      some (some "1-é", some ⟨3⟩, [⟨3⟩, ⟨2⟩]) := by decide +kernel
  obtain ⟨d₀, hd₀, hfacts⟩ := Option.map_eq_some_iff.mp heval
  simp only [Prod.mk.injEq] at hfacts
  obtain ⟨hapart, hid, hclassed⟩ := hfacts
  have hparse := parse_of_toOption hd₀
  have hd := Reachable.operations (.parse hparse) moves
  obtain ⟨hsharp, hbare, hsingle, hdouble, -, found, hdot, hword, -⟩ :=
    reachable_lookups hd hname
  have hfound : found = [⟨3⟩, ⟨2⟩] := by
    rw [(queryAll_classed hname).1, hclassed] at hdot
    exact (Except.ok.inj hdot).symm
  rw [hid] at hsharp hbare hsingle hdouble
  rw [hfound] at hdot hword
  exact ⟨hname, _, by rw [hparse]; rfl, hapart, hid, hsharp, hbare, hsingle, hdouble, hdot, hword⟩

end ActiveMarkup.Document
