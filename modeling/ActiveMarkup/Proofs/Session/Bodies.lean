import ActiveMarkup.Host.Recorder
import ActiveMarkup.Proofs.Session.Requests
set_option autoImplicit false

namespace ActiveMarkup

namespace Document

variable {d d₁ d₂ : Document} {j x : NodeId}

/-- What was entered in the journal since it was that of `d`. -/
def insertedSince (d d' : Document) : List NodeId :=
  d'.inserted.toList.drop d.inserted.size

theorem Edit.journal_cases (h : Edit d₁ d₂) :
    d₂.inserted = d₁.inserted ∨ ∃ j, d₂.inserted = d₁.inserted.push j := by
  cases h with
  | data => exact .inl rfl
  | extend he => exact .inl he.journal
  | detach id =>
    refine .inl ?_
    unfold Document.detach
    split <;> rfl
  | @append _ p c ha =>
    rw [(appendChild_ok ha).2.2]
    split
    · exact .inr ⟨c, rfl⟩
    · exact .inl rfl

theorem Edited.journal_size_le (h : Edited d d₁) : d.inserted.size ≤ d₁.inserted.size := by
  induction h with
  | refl => exact Nat.le_refl _
  | tail _ he ih =>
    rcases he.journal_cases with hj | ⟨j, hj⟩
    · rw [hj]
      exact ih
    · rw [hj, Array.size_push]
      omega

theorem insertedSince_push (h : Edited d d₁) (hj : d₂.inserted = d₁.inserted.push j) :
    insertedSince d d₂ = insertedSince d d₁ ++ [j] := by
  have hle := h.journal_size_le
  rw [insertedSince, hj, Array.toList_push, List.drop_append_of_le_length (by simpa using hle)]
  rfl

theorem insertedSince_subset (h : Edited d d₁) (he : Edit d₁ d₂) :
    insertedSince d d₁ ⊆ insertedSince d d₂ := by
  rcases he.journal_cases with hj | ⟨j, hj⟩
  · rw [insertedSince, insertedSince, hj]
    exact fun _ hx => hx
  · rw [insertedSince_push h hj]
    exact List.subset_append_left _ _

end Document

namespace Session

open Document (insertedSince)

variable {d d' : Document} {x : NodeId}

theorem kindOf?_edited (h : d.Edited d') (hx : d.Known x) : kindOf? d' x = kindOf? d x := by
  induction h with
  | refl => rfl
  | tail hd he ih => rw [kindOf?_edit he (Document.Edited.known hd hx), ih]

/-- A connected node stands under an insertion that was made since, or under the nodes that it stood
under before. -/
theorem above_edited (ht : d.IsTree) (h : d.Edited d') (hroot : d'.Above .root x) :
    (∃ j ∈ insertedSince d d', d'.Above j x) ∨ ∀ a, d'.Above a x ↔ d.Above a x := by
  induction h with
  | refl => exact .inr fun _ => .rfl
  | @tail d₁ d₂ hd he ih =>
    rcases above_edit (Document.Edited.isTree hd ht) he hroot with ⟨j, hj, hjx⟩ | ⟨-, habove⟩
    · refine .inl ⟨j, ?_, hjx⟩
      rw [Document.insertedSince_push hd hj]
      exact List.mem_append_right _ (List.mem_singleton_self j)
    · rcases ih ((habove _).mp hroot) with ⟨j, hj, hjx⟩ | habove'
      · exact .inl ⟨j, Document.insertedSince_subset hd he hj, (habove j).mpr hjx⟩
      · exact .inr fun a => (habove a).trans (habove' a)

theorem above_of_mem_frontier {σ : Type} {s : Session σ} {id a : NodeId} (ht : s.document.IsTree)
    (hx : x ∈ s.frontier id) (ha : s.document.Above a x) (hne : a ≠ x)
    (hk : (kindOf? s.document a).isSome) : s.document.Above a id ∧ a ≠ id := by
  obtain ⟨hid, hout⟩ := outermost_of_mem_frontierWithin ht hx
  have hbetween : ¬ s.document.Above id a := by
    intro h
    rw [hout a h ha hne] at hk
    cases hk
  refine ⟨?_, ?_⟩
  · rcases ha.total hid with h | h
    · exact h
    · exact (hbetween h).elim
  · rintro rfl
    exact hbetween .self

variable {σ : Type} [Host σ] {s : Session σ} {bound : Nat}

theorem Scan.nested {q : Scan σ} {y : Execution σ} {a : NodeId} (ht : q.session.document.IsTree)
    (hy : y ∈ q.executions bound) (ha : a ∈ (y.session.document.ancestors y.node).tail)
    (hk : (kindOf? y.session.document a).isSome) :
    a ∈ (q.session.document.ancestors q.node).tail ∨
      y.session.document.isConnected y.node = false ∨
      ∃ j ∈ insertedSince q.session.document y.session.document,
        y.node ∈ y.session.document.subtree j := by
  obtain ⟨hmem, -, hlead⟩ := Scan.mem_executions bound hy
  have ht' := hlead.document.isTree ht
  obtain ⟨hay, hne⟩ := ht'.mem_tail_ancestors.mp ha
  cases hc : y.session.document.isConnected y.node with
  | false => exact .inr (.inl rfl)
  | true =>
    rcases above_edited ht hlead.document (ht'.isConnected_iff.mp hc) with ⟨j, hj, hjy⟩ | habove
    · exact .inr (.inr ⟨j, hj, ht'.mem_subtree.mpr hjy⟩)
    · -- nothing above the node has changed since it was collected
      have hknown := known_of_kindOf? (pending_of_mem_frontierWithin hmem).1
      have hay' := (habove a).mp hay
      rw [kindOf?_edited hlead.document (ht.known_above hay' hknown)] at hk
      exact .inl (ht.mem_tail_ancestors.mpr (above_of_mem_frontier ht hmem hay' hne hk))

/-- A scan executes directives without a scope. One that stands in another directive when its turn
comes was moved since the scan started, or stands in a directive around the scanned node. -/
theorem scans_nested {requests : List Request} {q : Scan σ} {y : Execution σ}
    (h : s.document.Reachable) (hq : q ∈ scansOf bound requests s) (hy : y ∈ q.executions bound) :
    y.scope = none ∧ (kindOf? y.session.document y.node).isSome ∧
      ∀ a ∈ (y.session.document.ancestors y.node).tail, (kindOf? y.session.document a).isSome →
        a ∈ (q.session.document.ancestors q.node).tail ∨
          y.session.document.isConnected y.node = false ∨
          ∃ j ∈ insertedSince q.session.document y.session.document,
            y.node ∈ y.session.document.subtree j := by
  have ht := isTree_scansOf h.isTree q hq
  obtain ⟨hmem, hscope, hlead⟩ := Scan.mem_executions bound hy
  refine ⟨hscope, ?_, fun a ha hk => Scan.nested ht hy ha hk⟩
  exact isDirective_edited hlead.document (pending_of_mem_frontierWithin hmem).1

def surroundings (bound : Nat) (requests : List Request) (s : Session σ) :
    List (NodeId × NodeId × List NodeId) :=
  (scansOf bound requests s).flatMap fun q => (q.executions bound).map fun y =>
    (q.node, y.node, (y.session.document.ancestors y.node).tail.filter fun a =>
      (kindOf? y.session.document a).isSome)

theorem of_mem_surroundings {requests : List Request} {id node : NodeId} {around : List NodeId}
    (h : (id, node, around) ∈ surroundings bound requests s) :
    ∃ q ∈ scansOf bound requests s, ∃ y ∈ q.executions bound, q.node = id ∧ y.node = node ∧
      ((y.session.document.ancestors y.node).tail.filter fun a =>
        (kindOf? y.session.document a).isSome) = around := by
  obtain ⟨q, hq, hmem⟩ := List.mem_flatMap.mp h
  obtain ⟨y, hy, heq⟩ := List.mem_map.mp hmem
  simp only [Prod.mk.injEq] at heq
  exact ⟨q, hq, y, hy, heq⟩

/-- The message is moved into a branch that is not executed, and is shown by the scan that collected
it before. -/
theorem scans_nested_moved :
    let src := "<append target=f source=b></append><if id=f></if><log id=b>hi</log>"
    ∃ d, Document.parse src = .ok d ∧
      ∃ q ∈ scansOf 2 [.run] (ofDocument d (Recorder.ofAnswers [] []) .standard),
        ∃ y ∈ q.executions 2, q.node = .root ∧ y.node = ⟨3⟩ ∧
          ∃ a ∈ (y.session.document.ancestors y.node).tail,
            (kindOf? y.session.document a).isSome := by
  intro src
  have heval : ((Document.parse src).toOption.map fun d =>
      surroundings 2 [.run] (ofDocument d (Recorder.ofAnswers [] []) .standard)) =
      some [(.root, ⟨1⟩, []), (.root, ⟨2⟩, []), (.root, ⟨3⟩, [⟨2⟩])] := by decide +kernel
  obtain ⟨d, hd, hlist⟩ := Option.map_eq_some_iff.mp heval
  have hmem : (.root, ⟨3⟩, [⟨2⟩]) ∈
      surroundings 2 [.run] (ofDocument d (Recorder.ofAnswers [] []) .standard) := by
    rw [hlist]
    decide
  obtain ⟨q, hq, y, hy, hnode, hnode', haround⟩ := of_mem_surroundings hmem
  have hif : ⟨2⟩ ∈ (y.session.document.ancestors y.node).tail.filter fun a =>
      (kindOf? y.session.document a).isSome := by
    rw [haround]
    exact List.mem_singleton_self _
  obtain ⟨ha, hk⟩ := List.mem_filter.mp hif
  exact ⟨d, Document.parse_of_toOption hd, q, hq, y, hy, hnode, hnode', ⟨2⟩, ha, hk⟩

/-- What is taken out of one branch and put into another is scanned as an insertion, in the branch.
-/
theorem scans_nested_inserted :
    let src :=
      "<if id=f></if><if><p id=b><log>hi</log></p></if><append target=f source=b></append>"
    ∃ d, Document.parse src = .ok d ∧
      ∃ q ∈ scansOf 3 [.run] (ofDocument d (Recorder.ofAnswers [] []) .standard),
        ∃ y ∈ q.executions 3, q.node = ⟨3⟩ ∧ y.node = ⟨4⟩ ∧ y.scope = none ∧
          ∀ a ∈ (y.session.document.ancestors y.node).tail, (kindOf? y.session.document a).isSome →
            a ∈ (q.session.document.ancestors q.node).tail ∨
              y.session.document.isConnected y.node = false ∨
              ∃ j ∈ insertedSince q.session.document y.session.document,
                y.node ∈ y.session.document.subtree j := by
  intro src
  have heval : ((Document.parse src).toOption.map fun d =>
      surroundings 3 [.run] (ofDocument d (Recorder.ofAnswers [] []) .standard)) =
      some [(.root, ⟨1⟩, []), (.root, ⟨2⟩, []), (.root, ⟨6⟩, []), (⟨3⟩, ⟨4⟩, [⟨1⟩])] := by
    decide +kernel
  obtain ⟨d, hd, hlist⟩ := Option.map_eq_some_iff.mp heval
  have hparse := Document.parse_of_toOption hd
  have hmem : (⟨3⟩, ⟨4⟩, [⟨1⟩]) ∈
      surroundings 3 [.run] (ofDocument d (Recorder.ofAnswers [] []) .standard) := by
    rw [hlist]
    decide
  obtain ⟨q, hq, y, hy, hnode, hnode', -⟩ := of_mem_surroundings hmem
  obtain ⟨hscope, -, hnested⟩ := scans_nested (.parse hparse) hq hy
  exact ⟨d, hparse, q, hq, y, hy, hnode, hnode', hscope, hnested⟩

end Session

end ActiveMarkup
