import ActiveMarkup.Proofs.Document.Trees
import ActiveMarkup.Proofs.Markup.Reading
set_option autoImplicit false

namespace ActiveMarkup.Document

variable {d : Document} {src : String}

theorem building_empty : Building empty .root [] :=
  ⟨isTree_empty, ⟨.document, rfl, rfl⟩, trivial⟩

theorem parse_trees (h : parse src = .ok d) :
    d.trees .root = Markup.assemble (Markup.pieces src).1 ∧
      d.toMarkup = Markup.renderAll false (d.trees .root) := by
  obtain ⟨-, rfl⟩ := parse_eq_ok_iff.mp h
  obtain ⟨ht, hforest⟩ := forest_build (Markup.pieces src).1 building_empty
  exact ⟨ht.trees_root.trans hforest, ht.toMarkup_eq⟩

theorem parse_of_pieces {pieces : List Markup.Piece} (h : Markup.pieces src = (pieces, none)) :
    parse src = .ok (build .root [] pieces empty) := by
  rw [parse_eq_ok_iff, h]
  exact ⟨rfl, rfl⟩

theorem parse_written (h : parse src = .ok d) : ∀ t ∈ d.trees .root, t.Written := by
  rw [(parse_trees h).1]
  exact Markup.assemble_written (Markup.piecesWithin_sound _ _)

theorem IsTree.reads_back (h : d.IsTree) (hwritten : ∀ t ∈ d.trees .root, t.Written) :
    ∃ d', parse d.toMarkup = .ok d' ∧ d'.trees .root = Markup.mergeAll (d.trees .root) ∧
      d'.toMarkup = d.toMarkup := by
  have hpieces := Markup.pieces_renderAll hwritten
  rw [← h.toMarkup_eq] at hpieces
  have hd' := parse_of_pieces hpieces
  obtain ⟨htrees', hmarkup'⟩ := parse_trees hd'
  obtain ⟨hprintable, -⟩ :=
    Markup.mergeAll_printable fun t ht => Markup.merge_printable (hwritten t ht)
  rw [hpieces, Markup.assemble_flattenAll hprintable] at htrees'
  refine ⟨_, hd', htrees', ?_⟩
  rw [hmarkup', htrees', Markup.renderAll_mergeAll, h.toMarkup_eq]

/-- The markup of a parsed document is accepted, and gives the same trees with the texts that stand
side by side merged, and the same markup. -/
theorem parse_toMarkup (h : parse src = .ok d) :
    ∃ d', parse d.toMarkup = .ok d' ∧ d'.trees .root = Markup.mergeAll (d.trees .root) ∧
      d'.toMarkup = d.toMarkup :=
  (parse_isTree h).reads_back (parse_written h)

/-- A passed over declaration between two texts, an unquoted value, a lone angle bracket, raw text,
a stray closing tag, a comment that ends in three hyphens and an element left open. -/
theorem parse_toMarkup_forgiving :
    let src := "a<!x>b<P Q=2>< <script>1<2</SCRIPT ></i><!--x---><br>"
    ∃ d, parse src = .ok d ∧
      d.toMarkup = "ab<p q=\"2\">&lt; <script>1<2</script><!--x---><br></p>" ∧
      ∃ d', parse d.toMarkup = .ok d' ∧ d'.trees .root = Markup.mergeAll (d.trees .root) ∧
        d'.toMarkup = d.toMarkup := by
  intro src
  have heval : (parse src).map toMarkup =
      .ok "ab<p q=\"2\">&lt; <script>1<2</script><!--x---><br></p>" := by decide +kernel
  cases hd : parse src with
  | error e => simp [hd, Except.map] at heval
  | ok d =>
    simp only [hd, Except.map, Except.ok.injEq] at heval
    exact ⟨d, rfl, heval, parse_toMarkup hd⟩

end ActiveMarkup.Document
