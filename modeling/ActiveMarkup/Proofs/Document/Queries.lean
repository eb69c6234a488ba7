import ActiveMarkup.Proofs.Document.Order
import ActiveMarkup.Proofs.Selector.Composition
set_option autoImplicit false

namespace ActiveMarkup.Document

open Selector (Matches parseAll)

variable {d : Document} {n : NodeId} {src name : String} {list : List Selector}

/-- A connected element with a property. -/
def Finds (d : Document) (P : NodeId → Prop) (n : NodeId) : Prop :=
  d.isElement n = true ∧ d.isConnected n = true ∧ P n

theorem selectors_ok (h : parseAll src = .ok list) : selectors src = .ok list := by
  rw [selectors, h]

namespace IsTree

theorem descendants_root (h : d.IsTree) :
    d.Lists (fun n => d.isElement n = true ∧ d.isConnected n = true) (d.descendants .root) := by
  refine (h.descendants_lists .root).congr fun n => ?_
  rw [h.isConnected_iff]
  refine and_congr_right fun he => ⟨And.left, fun ha => ⟨ha, ?_⟩⟩
  rintro rfl
  rw [isElement, element?_eq, (h.root_kind .root).mpr rfl] at he
  cases he

theorem lists_select (h : d.IsTree) (hsrc : parseAll src = .ok list) :
    d.Lists (d.Finds (Matches d src)) (d.select list) := by
  refine (h.descendants_root.filter _).congr fun n => ?_
  rw [Finds, and_assoc, Selector.matches_iff hsrc, List.any_eq_true]

theorem queryAll_eq_ok_iff (h : d.IsTree) (hsrc : parseAll src = .ok list) {found : List NodeId} :
    d.queryAll src = .ok found ↔ d.Lists (d.Finds (Matches d src)) found := by
  have hlists := h.lists_select hsrc
  rw [queryAll, selectors_ok hsrc]
  constructor
  · intro hfound
    cases hfound
    exact hlists
  · intro hfound
    rw [← h.lists_unique hlists hfound]
    rfl

theorem lists_identified (h : d.IsTree) (name : String) :
    d.Lists (d.Finds fun n => d.attribute? n "id" = some name)
      ((d.descendants .root).filter fun n => d.attribute? n "id" == some name) := by
  refine (h.descendants_root.filter _).congr fun n => ?_
  rw [Finds, and_assoc, beq_iff_eq]

end IsTree

theorem byId?_eq_head? (hname : name ≠ "") : d.byId? name =
    ((d.descendants .root).filter fun n => d.attribute? n "id" == some name).head? := by
  rw [byId?, if_neg hname, List.head?_filter]

/-- In a document with a history the walk below a node ends and comes to the elements below the
node in document order; a list of them in this order is the one that is given. A selector finds the
connected elements that it matches, or the first of them, and an identifier finds the first
connected element that has it, unless it is empty. -/
theorem reachable_queries (hd : d.Reachable) :
    (∀ id, ∃ visited, (∀ v, d.Walks (d.children id) v ↔ v = visited) ∧
      d.descendants id = visited.filter d.isElement) ∧
    (∀ id found, found = d.descendants id ↔
      d.Lists (fun n => d.isElement n = true ∧ d.Above id n ∧ id ≠ n) found) ∧
    (∀ src list, parseAll src = .ok list →
      (∀ found, d.queryAll src = .ok found ↔ d.Lists (d.Finds (Matches d src)) found) ∧
      (∀ n, d.query src = .ok (some n) ↔ d.IsFirst (d.Finds (Matches d src)) n) ∧
      (d.query src = .ok none ↔ ∀ n, ¬ d.Finds (Matches d src) n)) ∧
    (∀ name, name ≠ "" →
      (∀ n, d.byId? name = some n ↔
        d.IsFirst (d.Finds fun n => d.attribute? n "id" = some name) n) ∧
      (d.byId? name = none ↔ ∀ n, ¬ d.Finds (fun n => d.attribute? n "id" = some name) n)) ∧
    d.byId? "" = none := by
  have ht := hd.isTree
  refine ⟨fun id => ?_, fun id found => ?_, fun src list hsrc => ?_, fun name hname => ?_, rfl⟩
  · refine ⟨(d.children id).flatMap d.subtree, fun v => ht.walks_iff, ?_⟩
    rw [descendants, ht.subtree_eq, List.tail_cons]
  · have hlists := ht.descendants_lists id
    exact ⟨fun h => h ▸ hlists, fun h => ht.lists_unique h hlists⟩
  · have hlists := ht.lists_select hsrc
    have hfirst : d.query src = .ok (d.select list).head? := by
      rw [query, selectors_ok hsrc]
      rfl
    rw [hfirst]
    refine ⟨fun found => ht.queryAll_eq_ok_iff hsrc, fun n => ?_, ?_⟩
    · rw [Except.ok.injEq]
      exact hlists.head?_eq_some_iff ht
    · rw [Except.ok.injEq]
      exact hlists.head?_eq_none_iff
  · have hlists := ht.lists_identified name
    rw [byId?_eq_head? hname]
    exact ⟨fun n => hlists.head?_eq_some_iff ht, hlists.head?_eq_none_iff⟩

/-- The later of two elements is put around the earlier one, so that it comes first, and an element
that stands apart has the same identifier. -/
theorem reachable_queries_moved :
    let moves : List Operation :=
      [.appendChild ⟨3⟩ ⟨1⟩, .createElement "b", .setAttribute ⟨4⟩ "id" "x"]
    ∃ d, (parse "<p><b id=x></b></p><i id=x></i>").map (moves.foldl Operation.after) = .ok d ∧
      d.attribute? ⟨4⟩ "id" = some "x" ∧
      d.Lists (fun n => d.isElement n = true ∧ d.Above .root n ∧ .root ≠ n) [⟨3⟩, ⟨1⟩, ⟨2⟩] ∧
      d.Lists (d.Finds (Matches d "#x")) [⟨3⟩, ⟨2⟩] ∧
      d.IsFirst (d.Finds fun n => d.attribute? n "id" = some "x") ⟨3⟩ := by
  intro moves
  have hsrc : parseAll "#x" = .ok [⟨⟨none, some "x", [], []⟩, []⟩] := by decide +kernel
  have heval : (parse "<p><b id=x></b></p><i id=x></i>").toOption.map (fun d₀ =>
      let d := moves.foldl Operation.after d₀
      (d.attribute? ⟨4⟩ "id", d.descendants .root,
        d.select [⟨⟨none, some "x", [], []⟩, []⟩], d.byId? "x")) =
      some (some "x", [⟨3⟩, ⟨1⟩, ⟨2⟩], [⟨3⟩, ⟨2⟩], some ⟨3⟩) := by decide +kernel
  obtain ⟨d₀, hd₀, hfacts⟩ := Option.map_eq_some_iff.mp heval
  simp only [Prod.mk.injEq] at hfacts
  obtain ⟨hapart, hbelow, hselect, hid⟩ := hfacts
  have hparse := parse_of_toOption hd₀
  obtain ⟨-, hdescendants, hqueries, hids, -⟩ :=
    reachable_queries (Reachable.operations (.parse hparse) moves)
  have hall : (moves.foldl Operation.after d₀).queryAll "#x" = .ok [⟨3⟩, ⟨2⟩] := by
    rw [queryAll, selectors_ok hsrc, ← hselect]
    rfl
  refine ⟨_, by rw [hparse]; rfl, hapart, (hdescendants _ _).mp hbelow.symm, ?_, ?_⟩
  · exact ((hqueries _ _ hsrc).1 _).mp hall
  · exact ((hids "x" (by decide)).1 _).mp hid

/-- The first element with an empty identifier is not found by it. -/
theorem byId?_empty_lost :
    ∃ d, parse "<p id=\"\"></p>" = .ok d ∧
      d.IsFirst (d.Finds fun n => d.attribute? n "id" = some "") ⟨1⟩ ∧ d.byId? "" = none := by
  have heval : (parse "<p id=\"\"></p>").toOption.map (fun d =>
      ((d.descendants .root).filter fun n => d.attribute? n "id" == some "").head?) =
      some (some ⟨1⟩) := by decide +kernel
  obtain ⟨d, hd, hhead⟩ := Option.map_eq_some_iff.mp heval
  have hparse := parse_of_toOption hd
  have ht := (Reachable.parse hparse).isTree
  exact ⟨d, hparse, ((ht.lists_identified "").head?_eq_some_iff ht).mp hhead, rfl⟩

end ActiveMarkup.Document
