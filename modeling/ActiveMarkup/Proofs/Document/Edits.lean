import ActiveMarkup.Proofs.Document.Tree
import ActiveMarkup.Document.Property
set_option autoImplicit false

namespace ActiveMarkup.Document

variable {d d' : Document} {a b c p x : NodeId}

/-- A node that takes children. -/
def Open (d : Document) (p : NodeId) : Prop :=
  ∃ kind, d.kind? p = some kind ∧ kind.isLeaf = false

theorem Open.known (h : d.Open p) : d.Known p := by
  obtain ⟨kind, hk, -⟩ := h
  exact known_of_kind? hk

theorem Open.push (h : d.Open p) (kind : NodeKind) : (d.push kind).2.Open p := by
  obtain ⟨open_kind, ho, hl⟩ := h
  exact ⟨open_kind, by rw [kind?_push, if_neg (ne_push kind (known_of_kind? ho)), ho], hl⟩

namespace IsTree

theorem of_same_links (h : d.IsTree) (hparent : ∀ x, d'.parent? x = d.parent? x)
    (hchildren : ∀ x, d'.children x = d.children x)
    (hroot : ∀ x, d'.kind? x = some .document ↔ x = .root)
    (hleaf : ∀ x kind, d'.kind? x = some kind → kind.isLeaf = true → d.children x = []) :
    d'.IsTree where
  root_kind := hroot
  root_top := by rw [hparent, h.root_top]
  mem_children p c := by rw [hchildren, hparent, h.mem_children]
  once p := by rw [hchildren]; exact h.once p
  leaf p kind hk hl := by rw [hchildren, hleaf p kind hk hl]
  grounded id := by
    induction h.grounded id with
    | top hp => exact .top ((hparent _).trans hp)
    | step hp _ ih => exact .step ((hparent _).trans hp) ih

theorem push (h : d.IsTree) {kind : NodeKind} (hkind : kind ≠ .document) :
    (d.push kind).2.IsTree := by
  refine h.of_same_links (d.parent?_push kind) (d.children_push kind) (fun x => ?_) ?_
  · rw [kind?_push]
    split
    next hx =>
      have hne : x ≠ .root := fun he => d.push_fresh kind (hx ▸ he ▸ h.known_root)
      simp [hkind, hne]
    next => exact h.root_kind x
  · intro x k hk hl
    rw [kind?_push] at hk
    split at hk
    next hx => exact children_fresh (hx ▸ d.push_fresh kind)
    next => exact h.leaf x k hk hl

theorem modify_element (h : d.IsTree) {id : NodeId} {e : Element}
    (he : d.kind? id = some (.element e)) (e' : Element) :
    (d.modify id fun n => { n with kind := .element e' }).IsTree := by
  have hkind : ∀ x, (d.modify id fun n => { n with kind := .element e' }).kind? x =
      if x = id then some (.element e') else d.kind? x := by
    intro x
    simp only [kind?, node?_modify]
    by_cases hx : x = id
    · subst hx
      obtain ⟨n, hn, -⟩ := Option.map_eq_some_iff.mp he
      simp [hn]
    · simp [hx]
  refine h.of_same_links (parent?_modify fun _ => rfl) (children_modify fun _ => rfl)
    (fun x => ?_) ?_
  · rw [hkind]
    split
    next hx =>
      have hne : x ≠ .root := by
        rw [Ne, ← h.root_kind, hx, he]
        simp
      simp [hne]
    next => exact h.root_kind x
  · intro x k hk hl
    rw [hkind] at hk
    split at hk
    next =>
      cases hk
      cases hl
    next => exact h.leaf x k hk hl

theorem detach (h : d.IsTree) (id : NodeId) : (d.detach id).IsTree where
  root_kind x := by rw [kind?_detach, h.root_kind]
  root_top := by
    rw [parent?_detach, h.root_top]
    exact ite_self none
  mem_children p c := by
    rw [children_detach, parent?_detach]
    by_cases hc : c = id
    · subst hc
      by_cases hp : d.parent? c = some p
      · simp [hp]
      · simp [hp, h.mem_children]
    · by_cases hp : d.parent? id = some p <;> simp [hp, hc, h.mem_children]
  once p := by
    rw [children_detach]
    split
    · exact (h.once p).filter _
    · exact h.once p
  leaf p kind hk hl := by
    rw [kind?_detach] at hk
    rw [children_detach, h.leaf p kind hk hl]
    exact ite_self []
  -- a chain that goes through `id` ends there now; every other is as it was
  grounded x := by
    induction h.grounded x with
    | @top y hp =>
      refine .top ?_
      rw [parent?_detach, hp]
      exact ite_self none
    | @step y p hp _ ih =>
      by_cases hy : y = id
      · exact .top (by rw [parent?_detach, if_pos hy])
      · exact .step (by rw [parent?_detach, if_neg hy, hp]) ih

/-- A node without parent may be put under a node that takes children and does not stand
under it. -/
theorem link (h : d.IsTree) (hp : d.Open p) (hc : d.Known c) (hroot : c ≠ .root)
    (htop : d.parent? c = none) (hcycle : ¬ d.Above c p) : (d.link p c).IsTree where
  root_kind x := by rw [kind?_link, h.root_kind]
  root_top := by rw [parent?_link p hc, if_neg hroot.symm, h.root_top]
  mem_children q x := by
    rw [children_link hp.known, parent?_link p hc]
    by_cases hx : x = c
    · subst hx
      by_cases hq : q = p
      · simp [hq]
      · simp [hq, h.mem_children, htop, Ne.symm hq]
    · by_cases hq : q = p <;> simp [hq, hx, h.mem_children]
  once q := by
    rw [children_link hp.known]
    split
    · refine List.nodup_append.mpr ⟨h.once p, by simp, ?_⟩
      intro y hy z hz hyz
      have hyc : y = c := hyz.trans (List.mem_singleton.mp hz)
      rw [h.mem_children, hyc, htop] at hy
      cases hy
    · exact h.once q
  leaf q kind hk hl := by
    rw [kind?_link] at hk
    obtain ⟨open_kind, ho, hn⟩ := hp
    have hq : q ≠ p := by
      rintro rfl
      rw [hk] at ho
      cases ho
      rw [hl] at hn
      cases hn
    rw [children_link (Open.known ⟨_, ho, hn⟩), if_neg hq, h.leaf q kind hk hl]
  -- only chains through `c` change: they go on at `p`, whose own chain does not meet `c`
  grounded x := by
    have hpar : ∀ y, y ≠ c → (d.link p c).parent? y = d.parent? y := fun y hy => by
      rw [parent?_link p hc, if_neg hy]
    induction h.grounded x with
    | @top y hy =>
      by_cases hyc : y = c
      · exact .step (by rw [parent?_link p hc, if_pos hyc]) ((h.grounded p).transfer hpar hcycle)
      · exact .top ((hpar y hyc).trans hy)
    | @step y q hq _ ih =>
      have hyc : y ≠ c := by
        rintro rfl
        rw [htop] at hq
        cases hq
      exact .step ((hpar y hyc).trans hq) ih

theorem not_above_push (h : d.IsTree) (hp : d.Known p) (kind : NodeKind) :
    ¬ (d.push kind).2.Above (d.push kind).1 p := by
  intro hab
  have hab' : d.Above (d.push kind).1 p := (above_congr (d.parent?_push kind)).mp hab
  exact d.push_fresh kind (h.known_above hab' hp)

theorem pushChild (h : d.IsTree) (hp : d.Open p) {kind : NodeKind} (hkind : kind ≠ .document) :
    (d.pushChild p kind).2.IsTree :=
  (h.push hkind).link (hp.push kind) ((d.known_push kind _).mpr (.inl rfl))
    (ne_push kind h.known_root).symm (d.parent?_push_self kind) (h.not_above_push hp.known kind)

end IsTree

theorem isTree_empty : empty.IsTree where
  root_kind := by rintro ⟨_ | n⟩ <;> simp [kind?, node?, empty, NodeId.root]
  root_top := rfl
  mem_children p c := by
    have hn : ∀ x, empty.parent? x = none ∧ empty.children x = [] := by
      rintro ⟨_ | n⟩ <;> exact ⟨rfl, rfl⟩
    simp [(hn p).2, (hn c).1]
  once := by rintro ⟨_ | n⟩ <;> exact List.nodup_nil
  leaf := by rintro ⟨_ | n⟩ <;> exact fun _ _ _ => rfl
  grounded := by rintro ⟨_ | n⟩ <;> exact .top rfl

theorem refusal?_eq_none (h : d.IsTree) (hr : d.refusal? p c = none) :
    d.Open p ∧ d.Known c ∧ c ≠ .root ∧ ¬ d.Above c p := by
  have hrest : ∀ kind, d.kind? p = some kind → kind.isLeaf = false →
      (if (d.node? c).isNone || c = .root then some (DocumentError.unknownNode c)
        else if d.isAncestor c p then some (.cycle c p) else none) = none →
      d.Open p ∧ d.Known c ∧ c ≠ .root ∧ ¬ d.Above c p := by
    intro kind hk hl hif
    split at hif
    · cases hif
    next hknown =>
      split at hif
      · cases hif
      next hcycle =>
        simp only [Bool.or_eq_true, decide_eq_true_eq, not_or] at hknown
        refine ⟨⟨kind, hk, hl⟩, ?_, hknown.2, fun hab => hcycle (h.isAncestor_iff.mpr hab)⟩
        rw [known_iff_node?, Option.isSome_iff_ne_none]
        simpa using hknown.1
  unfold refusal? at hr
  cases hk : (d.node? p).map Node.kind with
  | none => simp [hk] at hr
  | some kind =>
    cases kind with
    | text s => simp [hk] at hr
    | comment s => simp [hk] at hr
    | document => exact hrest _ hk rfl (by simpa only [hk] using hr)
    | element e => exact hrest _ hk rfl (by simpa only [hk] using hr)

/-- An insertion moves the node and enters it in the journal when it gets connected. -/
theorem appendChild_ok (h : d.appendChild p c = .ok d') :
    d.refusal? p c = none ∧ d'.nodes = ((d.detach c).link p c).nodes ∧
      d'.inserted = if d'.isConnected p then d.inserted.push c else d.inserted := by
  unfold appendChild at h
  cases hr : d.refusal? p c with
  | some e => simp [hr] at h
  | none =>
    have hj : ((d.detach c).link p c).inserted = d.inserted := by
      simp only [link, modify, detach]
      split <;> rfl
    simp only [hr, Except.ok.injEq] at h
    have hn : d'.nodes = ((d.detach c).link p c).nodes := by
      rw [← h]
      split <;> rfl
    refine ⟨rfl, hn, ?_⟩
    rw [isConnected_of_nodes hn, ← h, ← hj]
    split <;> rfl

theorem IsTree.of_nodes (h : d.IsTree) (hn : d'.nodes = d.nodes) : d'.IsTree := by
  obtain ⟨nodes, journal⟩ := d
  obtain ⟨_, journal'⟩ := d'
  cases hn
  exact h.of_same_links (fun _ => rfl) (fun _ => rfl) h.root_kind h.leaf

theorem IsTree.appendChild (h : d.IsTree) (ha : d.appendChild p c = .ok d') : d'.IsTree := by
  obtain ⟨hr, hn, -⟩ := appendChild_ok ha
  obtain ⟨hp, hc, hroot, hcycle⟩ := refusal?_eq_none h hr
  refine IsTree.of_nodes ((h.detach c).link ?_ ?_ hroot ?_ ?_) hn
  · obtain ⟨kind, hk, hl⟩ := hp
    exact ⟨kind, by rw [kind?_detach, hk], hl⟩
  · rwa [known_iff_kind?, kind?_detach, ← known_iff_kind?]
  · rw [parent?_detach, if_pos rfl]
  · intro hab
    refine hcycle (hab.of_transfer (c := c) (fun y hy => ?_) hcycle)
    rw [parent?_detach, if_neg hy]

theorem IsTree.parent?_appendChild (h : d.IsTree) (ha : d.appendChild p c = .ok d')
    (x : NodeId) : d'.parent? x = if x = c then some p else d.parent? x := by
  obtain ⟨hr, hn, -⟩ := appendChild_ok ha
  obtain ⟨-, hc, -, -⟩ := refusal?_eq_none h hr
  have hc' : (d.detach c).Known c := by rwa [known_iff_kind?, kind?_detach, ← known_iff_kind?]
  have hp : d'.parent? x = ((d.detach c).link p c).parent? x := by simp only [parent?, node?, hn]
  rw [hp, parent?_link p hc', parent?_detach]
  split <;> rfl

theorem kind?_appendChild (ha : d.appendChild p c = .ok d') (x : NodeId) :
    d'.kind? x = d.kind? x := by
  obtain ⟨-, hn, -⟩ := appendChild_ok ha
  have hk : d'.kind? x = ((d.detach c).link p c).kind? x := by simp only [kind?, node?, hn]
  rw [hk, kind?_link, kind?_detach]

end ActiveMarkup.Document
