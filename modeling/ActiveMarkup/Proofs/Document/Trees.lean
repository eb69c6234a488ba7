import ActiveMarkup.Proofs.Document.Operations
import ActiveMarkup.Proofs.Markup.Assembly
set_option autoImplicit false

namespace ActiveMarkup

open Markup (Tree)

def NodeKind.trees (kind : NodeKind) (below : List Tree) : List Tree :=
  match kind with
  | document => below
  | element e => [.ofElement e below]
  | text s => [.text s]
  | comment s => [.comment s]

namespace Document

variable {d d' : Document} {c p x : NodeId}

def forest (d : Document) (id : NodeId) : List Tree :=
  (d.children id).flatMap d.trees

theorem treesWithin_succ (d : Document) (depth : Nat) (x : NodeId) :
    d.treesWithin (depth + 1) x =
      ((d.kind? x).map NodeKind.trees).elim [] fun trees =>
        trees ((d.children x).flatMap (d.treesWithin depth)) := by
  rw [treesWithin, kind?, children]
  cases d.node? x with
  | none => rfl
  | some n =>
    simp only [Option.map_some, Option.elim_some, Option.getD_some]
    cases n.kind <;> rfl

namespace IsTree

theorem treesWithin_add_one (h : d.IsTree) {depth : Nat} (hx : d.Known x)
    (hd : d.nodes.size < depth + (d.ancestors x).length) :
    d.treesWithin (depth + 1) x = d.treesWithin depth x := by
  refine h.walk_succ (f := d.treesWithin) (fun depth x hstep => ?_) hx hd
  rw [treesWithin_succ, treesWithin_succ, List.flatMap_def, List.flatMap_def,
    List.map_congr_left hstep]

theorem treesWithin_eq (h : d.IsTree) (more : Nat) (x : NodeId) :
    d.treesWithin (d.nodes.size + 1 + more) x = d.trees x := by
  by_cases hx : d.Known x
  · induction more with
    | zero => rfl
    | succ more ih =>
      rw [← ih, ← Nat.add_assoc]
      exact h.treesWithin_add_one hx (by omega)
  · have hk : d.kind? x = none := by
      rw [known_iff_kind?] at hx
      simpa using hx
    rw [trees, Nat.add_right_comm, treesWithin_succ, treesWithin_succ, hk]
    rfl

theorem trees_eq (h : d.IsTree) (x : NodeId) :
    d.trees x = (d.kind? x).elim [] fun kind => kind.trees (d.forest x) := by
  rw [← h.treesWithin_eq 1 x, treesWithin_succ, Option.elim_map]
  rfl

theorem trees_root (h : d.IsTree) : d.trees .root = d.forest .root := by
  rw [h.trees_eq, (h.root_kind .root).mpr rfl]
  rfl

theorem toMarkup_eq (h : d.IsTree) : d.toMarkup = Markup.renderAll false (d.trees .root) := by
  rw [toMarkup, innerMarkup, h.holdsRawText_root, h.trees_root]
  rfl

theorem treesWithin_congr (h : d.IsTree) {depth : Nat}
    (hsame : ∀ z, d.Above x z →
      (d'.kind? z).map NodeKind.trees = (d.kind? z).map NodeKind.trees ∧
        d'.children z = d.children z) :
    d'.treesWithin depth x = d.treesWithin depth x := by
  induction depth generalizing x with
  | zero => rfl
  | succ depth ih =>
    obtain ⟨hkind, hchildren⟩ := hsame x .self
    have hstep : ∀ c ∈ d.children x, d'.treesWithin depth c = d.treesWithin depth c := by
      intro c hc
      have hp := (h.mem_children x c).mp hc
      exact ih fun z hz => hsame z ((Above.of_parent hp).trans hz)
    rw [treesWithin_succ, treesWithin_succ, hkind, hchildren, List.flatMap_def, List.flatMap_def,
      List.map_congr_left hstep]

theorem trees_congr (h : d.IsTree) (hsize : d.nodes.size ≤ d'.nodes.size)
    (hsame : ∀ z, d.Above x z →
      (d'.kind? z).map NodeKind.trees = (d.kind? z).map NodeKind.trees ∧
        d'.children z = d.children z) :
    d'.trees x = d.trees x := by
  obtain ⟨more, hmore⟩ : ∃ more, d'.nodes.size + 1 = d.nodes.size + 1 + more :=
    ⟨d'.nodes.size - d.nodes.size, by omega⟩
  rw [trees, hmore, h.treesWithin_congr hsame, h.treesWithin_eq]

theorem not_above_of_sibling (h : d.IsTree) {a b : NodeId} (ha : d.parent? a = some p)
    (hb : d.parent? b = some p) (hne : a ≠ b) (hbx : d.Above b x) : ¬ d.Above a x := by
  intro hax
  rcases hax.total hbx with hab | hba
  · obtain ⟨q, hq, haq⟩ := hab.parent_of_ne hne
    rw [hb] at hq
    cases hq
    exact (h.grounded a).not_above_parent ha haq
  · obtain ⟨q, hq, hbq⟩ := hba.parent_of_ne (Ne.symm hne)
    rw [ha] at hq
    cases hq
    exact (h.grounded b).not_above_parent hb hbq

end IsTree

theorem children_pushChild (hp : d.Known p) (kind : NodeKind) (x : NodeId) :
    (d.pushChild p kind).2.children x =
      if x = p then d.children p ++ [(d.pushChild p kind).1] else d.children x := by
  change ((d.push kind).2.link p (d.push kind).1).children x = _
  rw [children_link ((d.known_push kind p).mpr (.inr hp)), children_push, children_push]
  rfl

theorem size_pushChild (d : Document) (p : NodeId) (kind : NodeKind) :
    (d.pushChild p kind).2.nodes.size = d.nodes.size + 1 := by
  simp [pushChild, push, link, modify]

theorem trees_pushChild (ht : d.IsTree) (kind : NodeKind) (hx : d.Known x)
    (hnot : ¬ d.Above x p) : (d.pushChild p kind).2.trees x = d.trees x := by
  refine ht.trees_congr (by rw [size_pushChild]; omega) fun z hz =>
    (same_of_node? ?_).imp_left (congrArg (Option.map NodeKind.trees))
  refine node?_pushChild d p kind (hz.known hx) ?_
  rintro rfl
  exact hnot hz

theorem forest_pushChild_self (ht : d.IsTree) (hp : d.Open p) {kind : NodeKind}
    (hkind : kind ≠ .document) :
    (d.pushChild p kind).2.forest p = d.forest p ++ kind.trees [] := by
  have ht' := ht.pushChild hp hkind
  have hne : (d.pushChild p kind).1 ≠ p := fun he => d.pushChild_fresh p kind (he ▸ hp.known)
  have hold : ∀ y ∈ d.children p, (d.pushChild p kind).2.trees y = d.trees y := by
    intro y hy
    have hpy := (ht.mem_children p y).mp hy
    exact trees_pushChild ht kind (ht.known_child hy) ((ht.grounded y).not_above_parent hpy)
  have hnew : (d.pushChild p kind).2.trees (d.pushChild p kind).1 = kind.trees [] := by
    rw [ht'.trees_eq, kind?_pushChild, if_pos rfl, forest, children_pushChild hp.known,
      if_neg hne, children_fresh (d.pushChild_fresh p kind)]
    rfl
  rw [forest, children_pushChild hp.known, if_pos rfl, List.flatMap_append, List.flatMap_def,
    List.map_congr_left hold, List.flatMap_cons, hnew, List.flatMap_nil, List.append_nil,
    ← List.flatMap_def, forest]

/-- The nodes lead down the rightmost branch below a container, and are elements. -/
def Spine (d : Document) : NodeId → List NodeId → Prop
  | _, [] => True
  | container, id :: ids =>
    (∃ front, d.children container = front ++ [id]) ∧ (∃ e, d.kind? id = some (.element e)) ∧
      d.Spine id ids

def innermost (container : NodeId) (ids : List NodeId) : NodeId :=
  ids.getLast?.getD container

theorem innermost_cons (container id : NodeId) (ids : List NodeId) :
    innermost container (id :: ids) = innermost id ids := by
  rw [innermost, List.getLast?_cons]
  rfl

theorem Spine.parent {container id : NodeId} {ids : List NodeId} (h : d.Spine container (id :: ids))
    (ht : d.IsTree) : d.parent? id = some container := by
  obtain ⟨⟨front, hfront⟩, -⟩ := h
  rw [← ht.mem_children, hfront]
  exact List.mem_append_right _ (List.mem_singleton_self id)

theorem Spine.above {container : NodeId} {ids : List NodeId} (h : d.Spine container ids)
    (ht : d.IsTree) : d.Above container (innermost container ids) := by
  induction ids generalizing container with
  | nil => exact .self
  | cons id ids ih =>
    rw [innermost_cons]
    exact (Above.of_parent (h.parent ht)).trans (ih h.2.2)

theorem Spine.ne_innermost {container id : NodeId} {ids : List NodeId}
    (h : d.Spine container (id :: ids)) (ht : d.IsTree) :
    container ≠ innermost container (id :: ids) := by
  intro he
  have hab := Spine.above h.2.2 ht
  rw [← innermost_cons container id ids, ← he] at hab
  exact (ht.grounded id).not_above_parent (h.parent ht) hab

theorem Spine.prefix {container : NodeId} {ids more : List NodeId}
    (h : d.Spine container (ids ++ more)) : d.Spine container ids := by
  induction ids generalizing container with
  | nil => trivial
  | cons id ids ih => exact ⟨h.1, h.2.1, ih h.2.2⟩

theorem Spine.open_innermost {container : NodeId} {ids : List NodeId}
    (h : d.Spine container ids) (hc : d.Open container) : d.Open (innermost container ids) := by
  induction ids generalizing container with
  | nil => exact hc
  | cons id ids ih =>
    obtain ⟨e, he⟩ := h.2.1
    rw [innermost_cons]
    exact ih h.2.2 ⟨_, he, rfl⟩

theorem Spine.pushChild {container : NodeId} {ids : List NodeId} (h : d.Spine container ids)
    (ht : d.IsTree) (hp : innermost container ids = p) (hopen : d.Open p) (kind : NodeKind) :
    (d.pushChild p kind).2.Spine container ids := by
  induction ids generalizing container with
  | nil => trivial
  | cons id ids ih =>
    obtain ⟨⟨front, hfront⟩, ⟨e, he⟩, hrest⟩ := h
    have hne : container ≠ p := hp ▸ Spine.ne_innermost ⟨⟨front, hfront⟩, ⟨e, he⟩, hrest⟩ ht
    have hid : id ≠ (d.pushChild p kind).1 := by
      rintro rfl
      exact d.pushChild_fresh p kind (known_of_kind? he)
    refine ⟨⟨front, ?_⟩, ⟨e, ?_⟩, ih hrest (by rw [← hp, innermost_cons])⟩
    · rw [children_pushChild hopen.known, if_neg hne, hfront]
    · rw [kind?_pushChild, if_neg hid, he]

theorem Spine.pushChild_element {container : NodeId} {ids : List NodeId}
    (h : d.Spine container ids) (ht : d.IsTree) (hp : innermost container ids = p)
    (hopen : d.Open p) (e : Element) :
    (d.pushChild p (.element e)).2.Spine container
      (ids ++ [(d.pushChild p (.element e)).1]) := by
  have hkeep := h.pushChild ht hp hopen (.element e)
  induction ids generalizing container with
  | nil =>
    have hc : container = p := hp
    refine ⟨⟨d.children container, ?_⟩, ⟨e, ?_⟩, trivial⟩
    · rw [children_pushChild hopen.known, if_pos hc, hc]
    · rw [kind?_pushChild, if_pos rfl]
  | cons id ids ih =>
    exact ⟨hkeep.1, hkeep.2.1, ih h.2.2 (by rw [← hp, innermost_cons]) hkeep.2.2⟩

theorem forest_pushChild {container : NodeId} {ids : List NodeId} (h : d.Spine container ids)
    (ht : d.IsTree) (hp : innermost container ids = p) (hopen : d.Open p) {kind : NodeKind}
    (hkind : kind ≠ .document) {t : Tree} (htree : kind.trees [] = [t]) :
    (d.pushChild p kind).2.forest container =
      Markup.addAt ids.length t (d.forest container) := by
  induction ids generalizing container with
  | nil =>
    have hc : container = p := hp
    rw [hc, forest_pushChild_self ht hopen hkind, htree]
    rfl
  | cons id ids ih =>
    have hspine := h
    obtain ⟨⟨front, hfront⟩, ⟨e, he⟩, hrest⟩ := h
    have hp' : innermost id ids = p := by rw [← hp, innermost_cons]
    have hpar := hspine.parent ht
    have hne : container ≠ p := hp ▸ hspine.ne_innermost ht
    have hid : id ≠ (d.pushChild p kind).1 := by
      rintro rfl
      exact d.pushChild_fresh p kind (known_of_parent? hpar)
    have hold : ∀ y ∈ front, (d.pushChild p kind).2.trees y = d.trees y := by
      intro y hy
      have hmem : y ∈ d.children container := by
        rw [hfront]
        exact List.mem_append_left _ hy
      have hyid : y ≠ id := by
        rintro rfl
        have hnodup := ht.once container
        rw [hfront] at hnodup
        exact (List.nodup_append.mp hnodup).2.2 y hy y (List.mem_singleton_self y) rfl
      refine trees_pushChild ht kind (ht.known_child hmem) ?_
      exact ht.not_above_of_sibling ((ht.mem_children container y).mp hmem) hpar hyid
        (hp' ▸ Spine.above hrest ht)
    have hlast : (d.pushChild p kind).2.trees id =
        [.ofElement e (Markup.addAt ids.length t (d.forest id))] := by
      rw [(ht.pushChild hopen hkind).trees_eq, kind?_pushChild, if_neg hid, he, ih hrest hp']
      rfl
    have hforest : d.forest container =
        front.flatMap d.trees ++ [.ofElement e (d.forest id)] := by
      rw [forest, hfront, List.flatMap_append, List.flatMap_cons, ht.trees_eq id, he]
      rfl
    rw [hforest, List.length_cons, Markup.addAt, Markup.mapLast_concat, forest,
      children_pushChild hopen.known, if_neg hne, hfront, List.flatMap_append, List.flatMap_def,
      List.map_congr_left hold, ← List.flatMap_def, List.flatMap_cons, hlast]
    rfl

theorem innermost_reverse (container : NodeId) (stack : List (NodeId × String)) :
    innermost container (stack.map Prod.fst).reverse =
      (stack.head?.map Prod.fst).getD container := by
  rw [innermost, List.getLast?_reverse, List.head?_map]

theorem map_snd_closeTag (tag : String) (stack : List (NodeId × String)) :
    (closeTag tag stack).map Prod.snd = Markup.closeTags tag (stack.map Prod.snd) := by
  have hdrop : (stack.map Prod.snd).dropWhile (fun open_tag => decide (open_tag ≠ tag)) =
      (stack.dropWhile fun entry => decide (entry.2 ≠ tag)).map Prod.snd := List.dropWhile_map
  rw [closeTag, Markup.closeTags, hdrop]
  cases stack.dropWhile fun entry => decide (entry.2 ≠ tag) <;> rfl

theorem closeTag_suffix (tag : String) (stack : List (NodeId × String)) :
    closeTag tag stack <:+ stack := by
  unfold closeTag
  split
  · exact List.suffix_rfl
  next first rest hd =>
    have hsuffix := List.dropWhile_suffix (l := stack) fun entry => decide (entry.2 ≠ tag)
    rw [hd] at hsuffix
    exact (List.suffix_cons first rest).trans hsuffix

/-- The open elements of a stack lead down the rightmost branch below the container. -/
structure Building (d : Document) (container : NodeId) (stack : List (NodeId × String)) : Prop where
  tree : d.IsTree
  opened : d.Open container
  spine : d.Spine container (stack.map Prod.fst).reverse

theorem Building.suffix {container : NodeId} {stack stack' : List (NodeId × String)}
    (h : Building d container stack) (hs : stack' <:+ stack) : Building d container stack' := by
  obtain ⟨front, hfront⟩ := hs
  have hspine := h.spine
  rw [← hfront, List.map_append, List.reverse_append] at hspine
  exact ⟨h.tree, h.opened, hspine.prefix⟩

theorem Building.pushChild {container : NodeId} {stack : List (NodeId × String)}
    (h : Building d container stack) (kind : NodeKind) (hkind : kind ≠ .document) {t : Tree}
    (htree : kind.trees [] = [t]) (hp : p = (stack.head?.map Prod.fst).getD container) :
    Building (d.pushChild p kind).2 container stack ∧
      (∀ e tag, kind = .element e → Building (d.pushChild p kind).2 container
        (((d.pushChild p kind).1, tag) :: stack)) ∧
      (d.pushChild p kind).2.forest container =
        Markup.addAt stack.length t (d.forest container) := by
  have hin : innermost container (stack.map Prod.fst).reverse = p := by
    rw [hp, innermost_reverse]
  have hopen : d.Open p := hin ▸ h.spine.open_innermost h.opened
  have hpushed : Building (d.pushChild p kind).2 container stack :=
    ⟨h.tree.pushChild hopen hkind, h.opened.pushChild p kind,
      h.spine.pushChild h.tree hin hopen kind⟩
  refine ⟨hpushed, ?_, ?_⟩
  · rintro e tag rfl
    refine ⟨hpushed.tree, hpushed.opened, ?_⟩
    rw [List.map_cons, List.reverse_cons]
    exact h.spine.pushChild_element h.tree hin hopen e
  · have hforest := forest_pushChild h.spine h.tree hin hopen hkind htree
    rwa [List.length_reverse, List.length_map] at hforest

/-- Adding pieces to a document is assembling their trees. -/
theorem forest_build {container : NodeId} (pieces : List Markup.Piece)
    {stack : List (NodeId × String)} (h : Building d container stack) :
    (build container stack pieces d).IsTree ∧
      (build container stack pieces d).forest container =
        (pieces.foldl Markup.grow (d.forest container, stack.map Prod.snd)).1 := by
  induction pieces generalizing d stack with
  | nil => exact ⟨h.tree, rfl⟩
  | cons piece rest ih =>
    have hlength : (stack.map Prod.snd).length = stack.length := List.length_map _
    have hone : ∀ (kind : NodeKind) (t : Tree), kind ≠ .document → kind.trees [] = [t] →
        (build container stack rest
          (d.pushChild ((stack.head?.map Prod.fst).getD container) kind).2).IsTree ∧
        (build container stack rest
          (d.pushChild ((stack.head?.map Prod.fst).getD container) kind).2).forest container =
          (rest.foldl Markup.grow (Markup.addAt stack.length t (d.forest container),
            stack.map Prod.snd)).1 := by
      intro kind t hkind htree
      obtain ⟨hnext, -, hforest⟩ := h.pushChild kind hkind htree rfl
      rw [← hforest]
      exact ih hnext
    rw [List.foldl_cons]
    cases piece with
    | comment s =>
      simp only [Markup.grow, hlength]
      exact hone (.comment s) (.comment s) (by simp) rfl
    | text s =>
      simp only [Markup.grow, hlength]
      exact hone (.text s) (.text s) (by simp) rfl
    | leaf e =>
      simp only [Markup.grow, hlength]
      exact hone (.element e) (.ofElement e []) (by simp) rfl
    | verbatim e s =>
      simp only [Markup.grow, hlength, build]
      split
      · exact hone (.element e) (.ofElement e []) (by simp) rfl
      next hs =>
        obtain ⟨-, hinner, hforest⟩ :=
          h.pushChild (.element e) (t := .ofElement e []) (by simp) rfl rfl
        obtain ⟨htext, -, hforest'⟩ :=
          (hinner e e.tag rfl).pushChild (.text s) (t := .text s) (by simp) rfl rfl
        have htrees : Markup.addAt (stack.length + 1) (.text s)
            (Markup.addAt stack.length (.ofElement e []) (d.forest container)) =
            Markup.addAt stack.length (.ofElement e [.text s]) (d.forest container) :=
          Markup.addAt_addAt stack.length (.text s) _ e.tag e.attributes e.style []
        rw [List.length_cons, hforest, htrees] at hforest'
        rw [← hforest']
        exact ih (htext.suffix (List.suffix_cons _ stack))
    | opening e =>
      obtain ⟨-, hinner, hforest⟩ :=
        h.pushChild (.element e) (t := .ofElement e []) (by simp) rfl rfl
      simp only [Markup.grow, hlength]
      rw [← hforest]
      exact ih (hinner e e.tag rfl)
    | closing tag =>
      simp only [Markup.grow, ← map_snd_closeTag]
      exact ih (h.suffix (closeTag_suffix tag stack))

end Document

end ActiveMarkup
