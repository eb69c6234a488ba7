import ActiveMarkup.Document.Query
import ActiveMarkup.Proofs.Document.History
import ActiveMarkup.Proofs.Selector.Groups
set_option autoImplicit false

namespace ActiveMarkup.Selector

variable {d : Document} {n : NodeId} {A B C : String} {s : Selector} {c : Compound}

/-- A node matches a text when the text is accepted and one of its selectors selects the node. -/
def Matches (d : Document) (src : String) (n : NodeId) : Prop :=
  ∃ list, parseAll src = .ok list ∧ ∃ s ∈ list, s.selects d n = true

theorem matches_iff {list : List Selector} (h : parseAll A = .ok list) :
    Matches d A n ↔ ∃ s ∈ list, s.selects d n = true := by
  constructor
  · rintro ⟨list', h', hs⟩
    cases h.symm.trans h'
    exact hs
  · exact fun hs => ⟨list, h, hs⟩

theorem matches_singleton (h : parseAll A = .ok [s]) : Matches d A n ↔ s.selects d n = true := by
  rw [matches_iff h]
  simp

theorem parseAll_comma {as bs : List Selector} (hA : parseAll A = .ok as)
    (hB : parseAll B = .ok bs) : parseAll (A ++ "," ++ B) = .ok (as ++ bs) := by
  obtain ⟨groups, hne, htext, hgroups⟩ := parseAll_eq_ok_iff.mp hA
  obtain ⟨groups', hne', htext', hgroups'⟩ := parseAll_eq_ok_iff.mp hB
  refine parseAll_eq_ok_iff.mpr ⟨groups ++ groups', by simp [hne], ?_,
    List.rel_append hgroups hgroups'⟩
  rw [intercalate_append hne hne', ← htext, ← htext']
  simp

theorem parseAll_singleton_iff : parseAll A = .ok [s] ↔ SpellsGroup A.toList s := by
  rw [parseAll_eq_ok_iff]
  constructor
  · rintro ⟨groups, _, htext, hgroups⟩
    cases hgroups with
    | cons hgroup hnil =>
      cases hnil
      rw [htext, List.intercalate_singleton]
      exact hgroup
  · intro h
    exact ⟨[A.toList], by simp, List.intercalate_singleton.symm, .cons h .nil⟩

theorem Spells.toCompound {cs : List Char} (h : Spells cs ⟨c, []⟩) : SpellsCompound cs c := by
  generalize hs : (⟨c, []⟩ : Selector) = s at h
  cases h with
  | compound h =>
    cases hs
    exact h
  | extend => cases hs

theorem parseAll_extend {between : String} {relation : Relation} (hA : parseAll A = .ok [s])
    (hC : parseAll C = .ok [⟨c, []⟩])
    (hbetween : ∀ w w', AllBlank w → AllBlank w' →
      SpellsRelation (w ++ (between.toList ++ w')) relation) :
    parseAll (A ++ between ++ C) = .ok [s.extend relation c] := by
  obtain ⟨front, core, back, htext, hfront, hback, hcore⟩ := parseAll_singleton_iff.mp hA
  obtain ⟨front', core', back', htext', hfront', hback', hcore'⟩ := parseAll_singleton_iff.mp hC
  refine parseAll_singleton_iff.mpr ⟨front, core ++ (back ++ (between.toList ++ front') ++ core'),
    back', ?_, hfront, hback', hcore.extend (hbetween back front' hback hfront') hcore'.toCompound⟩
  simp [htext, htext']

theorem parseAll_descendant (hA : parseAll A = .ok [s]) (hC : parseAll C = .ok [⟨c, []⟩]) :
    parseAll (A ++ " " ++ C) = .ok [s.extend .descendant c] := by
  refine parseAll_extend hA hC fun w w' hw hw' => ?_
  have hspace : AllBlank [' '] := by simp [AllBlank]; decide
  have hall : AllBlank (w ++ ([' '] ++ w')) := hw.append (hspace.append hw')
  obtain ⟨x, more, hx⟩ := List.exists_cons_of_ne_nil (l := w ++ ([' '] ++ w')) (by simp)
  change SpellsRelation (w ++ ([' '] ++ w')) .descendant
  rw [hx] at hall ⊢
  exact .descendant (hall x List.mem_cons_self) fun y hy => hall y (List.mem_cons_of_mem _ hy)

theorem parseAll_child (hA : parseAll A = .ok [s]) (hC : parseAll C = .ok [⟨c, []⟩]) :
    parseAll (A ++ " > " ++ C) = .ok [s.extend .child c] := by
  refine parseAll_extend hA hC fun w w' hw hw' => ?_
  have hspace : AllBlank [' '] := by simp [AllBlank]; decide
  have hmore : ∀ y ∈ ' ' :: w', Text.isBlank y = true ∨ y = '>' :=
    fun y hy => .inl ((hspace.append hw') y hy)
  simpa using SpellsRelation.child (hw.append hspace) hmore

theorem selects_compound : (⟨c, []⟩ : Selector).selects d n = c.holdsAt d n := by
  simp [selects, found]

theorem selects_extend_child : (s.extend .child c).selects d n = true ↔
    c.holdsAt d n = true ∧ ∃ p, d.parent? n = some p ∧ s.selects d p = true := by
  simp [extend, selects, found, Option.any_eq_true]

theorem selects_extend_descendant (ht : d.IsTree) : (s.extend .descendant c).selects d n = true ↔
    c.holdsAt d n = true ∧ ∃ a, d.Above a n ∧ a ≠ n ∧ s.selects d a = true := by
  simp [extend, selects, found, ht.mem_tail_ancestors, and_assoc]

/-- With accepted texts `A` and `B`, the text `A,B` has the selectors of both and matches what one
of them matches. With one selector `A` and one compound `C`, the text `A C` matches what `C`
matches below a node that `A` matches, and `A > C` what `C` matches right below one. -/
theorem matches_composed (hd : d.Reachable) (n : NodeId) {as bs : List Selector}
    (hA : parseAll A = .ok as) (hB : parseAll B = .ok bs) :
    parseAll (A ++ "," ++ B) = .ok (as ++ bs) ∧
      (Matches d (A ++ "," ++ B) n ↔ Matches d A n ∨ Matches d B n) ∧
      ∀ s C c, as = [s] → parseAll C = .ok [⟨c, []⟩] →
        (Matches d (A ++ " " ++ C) n ↔
          Matches d C n ∧ ∃ a, d.Above a n ∧ a ≠ n ∧ Matches d A a) ∧
        (Matches d (A ++ " > " ++ C) n ↔
          Matches d C n ∧ ∃ p, d.parent? n = some p ∧ Matches d A p) := by
  have hcomma := parseAll_comma hA hB
  refine ⟨hcomma, ?_, ?_⟩
  · rw [matches_iff hcomma, matches_iff hA, matches_iff hB]
    simp only [List.mem_append, or_and_right, exists_or]
  · rintro s C c rfl hC
    simp only [matches_singleton hA, matches_singleton hC, selects_compound]
    rw [matches_singleton (parseAll_descendant hA hC), matches_singleton (parseAll_child hA hC)]
    exact ⟨selects_extend_descendant hd.isTree, selects_extend_child⟩

/-- An attribute value that holds a comma, a bracket, an angle bracket and the other quote. -/
theorem matches_composed_quoted :
    ∃ d, Document.parse "<div title=\"a, ]'> b\"><p><i class=k></i></p></div>" = .ok d ∧
      Matches d "div[title=\"a, ]'> b\"],b" ⟨1⟩ ∧
      Matches d "div[title=\"a, ]'> b\"] .k" ⟨3⟩ ∧
      ¬ Matches d "div[title=\"a, ]'> b\"] > .k" ⟨3⟩ := by
  have hA : parseAll "div[title=\"a, ]'> b\"]" =
      .ok [⟨⟨some "div", none, [], [("title", .equals "a, ]'> b")]⟩, []⟩] := by decide +kernel
  have hB : parseAll "b" = .ok [⟨⟨some "b", none, [], []⟩, []⟩] := by decide +kernel
  have hC : parseAll ".k" = .ok [⟨⟨none, none, ["k"], []⟩, []⟩] := by decide +kernel
  have heval : (Document.parse "<div title=\"a, ]'> b\"><p><i class=k></i></p></div>").toOption.map
      (fun d => (d.parent? ⟨3⟩, d.parent? ⟨2⟩,
        (⟨⟨some "div", none, [], [("title", .equals "a, ]'> b")]⟩, []⟩ : Selector).selects d ⟨1⟩,
        (⟨⟨some "div", none, [], [("title", .equals "a, ]'> b")]⟩, []⟩ : Selector).selects d ⟨2⟩,
        (⟨⟨none, none, ["k"], []⟩, []⟩ : Selector).selects d ⟨3⟩)) =
      some (some ⟨2⟩, some ⟨1⟩, true, false, true) := by decide +kernel
  obtain ⟨d, hd, hfacts⟩ := Option.map_eq_some_iff.mp heval
  simp only [Prod.mk.injEq] at hfacts
  obtain ⟨hparent, hgrand, hdiv, hpar, hclass⟩ := hfacts
  have hparse := Document.parse_of_toOption hd
  have hreach : d.Reachable := .parse hparse
  refine ⟨d, hparse, ?_, ?_, ?_⟩
  · exact (matches_composed hreach ⟨1⟩ hA hB).2.1.mpr (.inl ((matches_singleton hA).mpr hdiv))
  · refine ((matches_composed hreach ⟨3⟩ hA hB).2.2 _ _ _ rfl hC).1.mpr
      ⟨(matches_singleton hC).mpr hclass, ⟨1⟩, ?_, by decide, (matches_singleton hA).mpr hdiv⟩
    exact .step hparent (.step hgrand .self)
  · intro h
    obtain ⟨_, p, hp, hmatch⟩ := ((matches_composed hreach ⟨3⟩ hA hB).2.2 _ _ _ rfl hC).2.mp h
    cases hparent.symm.trans hp
    have hselects := (matches_singleton hA).mp hmatch
    rw [hpar] at hselects
    cases hselects

end ActiveMarkup.Selector
