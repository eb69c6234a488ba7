import ActiveMarkup.Proofs.Document.Handles
import ActiveMarkup.Proofs.Document.Journal
import ActiveMarkup.Proofs.Document.Order
import ActiveMarkup.Proofs.Document.RoundTrip
set_option autoImplicit false

namespace ActiveMarkup.Document

variable {d d' : Document} {container p x : NodeId}

/-- The handles of the arena, in the order in which they were given out. -/
def handles (d : Document) : List NodeId :=
  (List.range d.nodes.size).map NodeId.mk

theorem mem_handles : x ∈ d.handles ↔ d.Known x := by
  simp only [handles, List.mem_map, List.mem_range]
  constructor
  · rintro ⟨n, hn, rfl⟩
    exact hn
  · exact fun hx => ⟨x.index, hx, rfl⟩

theorem handles_pushChild (d : Document) (p : NodeId) (kind : NodeKind) :
    (d.pushChild p kind).2.handles = d.handles ++ [(d.pushChild p kind).1] := by
  rw [handles, size_pushChild, List.range_succ, List.map_append]
  rfl

theorem handles_sublist {a b : NodeId} (ha : d.Known a) (hb : d.Known b) (hab : a.index < b.index) :
    [a, b].Sublist d.handles := by
  have hpair : [a.index, b.index].Sublist (List.range d.nodes.size) := by
    refine List.sublist_of_subperm_of_pairwise (r := (· < ·)) ?_ (by simpa using hab)
      List.pairwise_lt_range
    refine List.subperm_of_subset (by simp; omega) fun n hn => ?_
    rw [List.mem_range]
    rcases List.mem_pair.mp hn with rfl | rfl
    · exact ha
    · exact hb
  exact hpair.map NodeId.mk

theorem IsTree.subtree_congr (h : d.IsTree) (hsize : d.nodes.size ≤ d'.nodes.size)
    (hsame : ∀ z, d.Above x z → d'.children z = d.children z) : d'.subtree x = d.subtree x := by
  obtain ⟨more, hmore⟩ : ∃ more, d'.nodes.size + 1 = d.nodes.size + 1 + more :=
    ⟨d'.nodes.size - d.nodes.size, by omega⟩
  rw [subtree, hmore, h.subtreeWithin_congr hsame, h.subtreeWithin_eq]

theorem subtree_pushChild (ht : d.IsTree) (hp : d.Known p) (kind : NodeKind)
    (hnot : ¬ d.Above x p) : (d.pushChild p kind).2.subtree x = d.subtree x := by
  refine ht.subtree_congr (by rw [size_pushChild]; omega) fun z hz => ?_
  rw [children_pushChild hp, if_neg]
  rintro rfl
  exact hnot hz

theorem subtree_pushChild_self (ht : d.IsTree) (hp : d.Open p) {kind : NodeKind}
    (hkind : kind ≠ .document) :
    (d.pushChild p kind).2.subtree p = d.subtree p ++ [(d.pushChild p kind).1] := by
  have ht' := ht.pushChild hp hkind
  have hfresh := d.pushChild_fresh p kind
  have hne : (d.pushChild p kind).1 ≠ p := fun he => hfresh (he ▸ hp.known)
  have hold : ∀ y ∈ d.children p, (d.pushChild p kind).2.subtree y = d.subtree y := fun y hy =>
    subtree_pushChild ht hp.known kind
      ((ht.grounded y).not_above_parent ((ht.mem_children p y).mp hy))
  have hnew : (d.pushChild p kind).2.subtree (d.pushChild p kind).1 = [(d.pushChild p kind).1] := by
    rw [ht'.subtree_eq, children_pushChild hp.known, if_neg hne, children_fresh hfresh]
    rfl
  rw [ht'.subtree_eq, ht.subtree_eq, children_pushChild hp.known, if_pos rfl, List.flatMap_append,
    List.flatMap_singleton, hnew, List.flatMap_def, List.map_congr_left hold, ← List.flatMap_def,
    List.cons_append]

theorem Spine.subtree_pushChild {ids : List NodeId} (h : d.Spine container ids) (ht : d.IsTree)
    (hp : innermost container ids = p) (hopen : d.Open p) {kind : NodeKind}
    (hkind : kind ≠ .document) :
    (d.pushChild p kind).2.subtree container = d.subtree container ++ [(d.pushChild p kind).1] := by
  induction ids generalizing container with
  | nil =>
    obtain rfl : container = p := hp
    exact subtree_pushChild_self ht hopen hkind
  | cons id ids ih =>
    have hne : container ≠ p := hp ▸ h.ne_innermost ht
    have hpar := h.parent ht
    obtain ⟨⟨front, hfront⟩, -, hrest⟩ := h
    rw [innermost_cons] at hp
    have hold : ∀ y ∈ front, (d.pushChild p kind).2.subtree y = d.subtree y := by
      intro y hy
      have honce := ht.once container
      rw [hfront] at honce
      have hyid : y ≠ id := (List.nodup_append.mp honce).2.2 y hy id (List.mem_singleton_self id)
      have hpary : d.parent? y = some container := by
        rw [← ht.mem_children, hfront]
        exact List.mem_append_left _ hy
      exact Document.subtree_pushChild ht hopen.known kind
        (ht.not_above_of_sibling hpary hpar hyid (hp ▸ hrest.above ht))
    rw [(ht.pushChild hopen hkind).subtree_eq, ht.subtree_eq, children_pushChild hopen.known,
      if_neg hne, hfront, List.flatMap_append, List.flatMap_append, List.flatMap_singleton,
      List.flatMap_singleton, ih hrest hp, List.flatMap_def, List.map_congr_left hold,
      ← List.flatMap_def, ← List.append_assoc, List.cons_append]

/-- What a node at the end of the rightmost branch leaves true is true of what markup builds. -/
theorem Building.induction {P : Document → Prop}
    (hstep : ∀ (d : Document) (ids : List NodeId) (p : NodeId) (kind : NodeKind), d.IsTree →
      d.Spine container ids → innermost container ids = p → d.Open p → kind ≠ .document → P d →
      P (d.pushChild p kind).2)
    (pieces : List Markup.Piece) {stack : List (NodeId × String)} (h : Building d container stack)
    (hd : P d) : P (build container stack pieces d) := by
  have hpush : ∀ {d : Document} {stack : List (NodeId × String)} (kind : NodeKind),
      Building d container stack → kind ≠ .document → P d →
      P (d.pushChild ((stack.head?.map Prod.fst).getD container) kind).2 := by
    intro d stack kind h hkind hd
    have hin := innermost_reverse container stack
    exact hstep d _ _ kind h.tree h.spine hin (hin ▸ h.spine.open_innermost h.opened) hkind hd
  induction pieces generalizing d stack with
  | nil => exact hd
  | cons piece rest ih =>
    cases piece with
    | comment s =>
      exact ih (h.pushChild (.comment s) (by simp) rfl rfl).1 (hpush _ h (by simp) hd)
    | text s => exact ih (h.pushChild (.text s) (by simp) rfl rfl).1 (hpush _ h (by simp) hd)
    | leaf e => exact ih (h.pushChild (.element e) (by simp) rfl rfl).1 (hpush _ h (by simp) hd)
    | opening e =>
      exact ih ((h.pushChild (.element e) (by simp) rfl rfl).2.1 e e.tag rfl)
        (hpush _ h (by simp) hd)
    | closing tag => exact ih (h.suffix (closeTag_suffix tag stack)) hd
    | verbatim e s =>
      obtain ⟨hleft, hinner, -⟩ := h.pushChild (.element e) (by simp) rfl rfl
      have hd₁ := hpush (.element e) h (by simp) hd
      simp only [build]
      split
      · exact ih hleft hd₁
      · -- the text is put under the element, which is not left open
        have hentered := hinner e e.tag rfl
        have hd₂ := hpush (.text s) hentered (by simp) hd₁
        have htext := (hentered.pushChild (.text s) (by simp) rfl rfl).1
        exact ih (htext.suffix (List.suffix_cons _ stack)) hd₂

theorem subtree_root_of_parse {src : String} (h : parse src = .ok d) :
    d.subtree .root = d.handles := by
  obtain ⟨-, rfl⟩ := parse_eq_ok_iff.mp h
  refine Building.induction (P := fun d => d.subtree .root = d.handles) ?_ _ building_empty rfl
  intro d ids p kind ht hspine hp hopen hkind hd
  rw [handles_pushChild, hspine.subtree_pushChild ht hp hopen hkind, hd]

/-- The handles of a parsed document are in document order: a walk from the root with a stack comes
to all handles of the arena, one after another. So every node is connected, every node but the root
is a child of one node, and of two nodes the one with the smaller handle comes first; and there is
nothing in the journal. -/
theorem parse_numbered {src : String} (h : parse src = .ok d) :
    (∀ visited, d.Walks [.root] visited ↔
      visited = (List.range d.nodes.size).map NodeId.mk) ∧
    d.subtree .root = (List.range d.nodes.size).map NodeId.mk ∧
    (∀ x, d.isConnected x = true ↔ x.index < d.nodes.size) ∧
    (∀ x, x.index < d.nodes.size → x ≠ .root → ∃! p, x ∈ d.children p) ∧
    (∀ a b, a.index < d.nodes.size → b.index < d.nodes.size →
      (d.Before a b ↔ a.index < b.index)) ∧
    d.inserted = #[] := by
  have ht := parse_isTree h
  have hnumbered : d.subtree .root = d.handles := subtree_root_of_parse h
  have hconnected : ∀ x, d.isConnected x = true ↔ d.Known x := fun x => by
    rw [ht.isConnected_iff, ← ht.mem_subtree, hnumbered, mem_handles]
  have hbefore : ∀ {a b}, d.Known a → d.Known b → a.index < b.index → d.Before a b := by
    intro a b ha hb hab
    have hsorted := (ht.subtree_lists .root).sorted
    rw [hnumbered] at hsorted
    exact List.pairwise_iff_forall_sublist.mp hsorted (handles_sublist ha hb hab)
  refine ⟨fun visited => ?_, hnumbered, hconnected, fun x hx hne => ?_, fun a b ha hb => ?_,
    inserted_of_parse h⟩
  · rw [ht.walks_iff, List.flatMap_singleton, hnumbered]
    rfl
  · have habove := ht.isConnected_iff.mp ((hconnected x).mpr hx)
    obtain ⟨p, hp, -⟩ := habove.parent_of_ne hne.symm
    refine ⟨p, (ht.mem_children p x).mpr hp, fun q hq => ?_⟩
    have hq := (ht.mem_children q x).mp hq
    rw [hp] at hq
    exact (Option.some.inj hq).symm
  · refine ⟨fun hab => ?_, hbefore ha hb⟩
    rcases Nat.lt_trichotomy a.index b.index with hlt | heq | hgt
    · exact hlt
    · rw [(index_eq_iff a b).mp heq] at hab
      exact (ht.before_irrefl b hab).elim
    · exact (ht.before_asymm hab (hbefore hb ha hgt)).elim

/-- A list item is left open under another one and both are closed with the list; a closing tag that
closes nothing, an element without content, one with raw text and one that is never closed. -/
theorem parse_numbered_unclosed :
    let src := "<ul><li>a<br><li>b</ul>c</p><script>d</script><i>e"
    ∃ d, parse src = .ok d ∧ d.children .root = [⟨1⟩, ⟨7⟩, ⟨8⟩, ⟨10⟩] ∧
      d.children ⟨2⟩ = [⟨3⟩, ⟨4⟩, ⟨5⟩] ∧
      d.Walks [.root] ((List.range 12).map NodeId.mk) ∧ d.Before ⟨6⟩ ⟨10⟩ := by
  intro src
  have heval : ((parse src).toOption.map fun d =>
      (d.nodes.size, d.children .root, d.children ⟨2⟩)) =
      some (12, [⟨1⟩, ⟨7⟩, ⟨8⟩, ⟨10⟩], [⟨3⟩, ⟨4⟩, ⟨5⟩]) := by decide +kernel
  obtain ⟨d, hd, heq⟩ := Option.map_eq_some_iff.mp heval
  simp only [Prod.mk.injEq] at heq
  obtain ⟨hsize, hroot, hitem⟩ := heq
  have hparse := parse_of_toOption hd
  obtain ⟨hwalks, -, -, -, hbefore, -⟩ := parse_numbered hparse
  refine ⟨d, hparse, hroot, hitem, (hwalks _).mpr (by rw [hsize]), ?_⟩
  exact (hbefore ⟨6⟩ ⟨10⟩ (by rw [hsize]; decide) (by rw [hsize]; decide)).mpr (by decide)

end ActiveMarkup.Document
