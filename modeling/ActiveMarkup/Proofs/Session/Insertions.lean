import ActiveMarkup.Host.Recorder
import ActiveMarkup.Proofs.Document.History
import ActiveMarkup.Proofs.Session.Exposure
import ActiveMarkup.Proofs.Session.Nesting
set_option autoImplicit false

/-!
A run misses no directive. At every moment an exposed directive was executed, is still to come in
the scan that is going on, or stands under a node that is going to be scanned or under a node of
the journal. Each step of a run, from one execution up to the rounds of insertions, keeps this, and
at the end only the journal is left.
-/

namespace ActiveMarkup.Session

variable {σ : Type} {s s' : Session σ} {owed owed' : NodeId → Prop} {list nodes : List NodeId}

/-- The document is a tree in which every exposed directive under an owed node was executed, is in
the list, or stands under one of the nodes or under a node of the journal. An interrupted session
promises nothing. -/
structure Covered (owed : NodeId → Prop) (list nodes : List NodeId) (s : Session σ) : Prop where
  tree : s.document.IsTree
  covers : s.interrupted = false → ∀ x, Exposed s.document x →
    (∃ a, owed a ∧ s.document.Above a x) →
    x ∈ s.executed ∨ x ∈ list ∨ ∃ j, (j ∈ nodes ∨ j ∈ s.document.inserted) ∧ s.document.Above j x

theorem exposed_edited {d d' : Document} {x : NodeId} (ht : d.IsTree) (h : d.Edited d')
    (hx : Exposed d' x) :
    (∃ j ∈ d'.inserted, d'.Above j x) ∨ (Exposed d x ∧ ∀ a, d'.Above a x ↔ d.Above a x) := by
  induction h with
  | refl => exact .inr ⟨hx, fun _ => .rfl⟩
  | tail hd he ih =>
    rcases exposed_edit (Document.Edited.isTree hd ht) he hx with hj | ⟨hx', habove⟩
    · exact .inl hj
    · rcases ih hx' with ⟨j, hj, hjx⟩ | ⟨hx'', habove'⟩
      · exact .inl ⟨j, he.journal hj, (habove j).mpr hjx⟩
      · exact .inr ⟨hx'', fun a => (habove a).trans (habove' a)⟩

namespace Covered

theorem mono (h : Covered owed list nodes s) (howed : ∀ a, owed' a → owed a) :
    Covered owed' list nodes s where
  tree := h.tree
  covers hi x hx := fun ⟨a, ha, hax⟩ => h.covers hi x hx ⟨a, howed a ha, hax⟩

theorem leads (h : Covered owed list nodes s) (hs : Leads s s') : Covered owed list nodes s' where
  tree := hs.document.isTree h.tree
  covers hi x hx := by
    rintro ⟨a, ha, hax⟩
    have hi' : s.interrupted = false := by
      cases hc : s.interrupted with
      | false => rfl
      | true =>
        rw [hs.interrupted hc] at hi
        cases hi
    rcases exposed_edited h.tree hs.document hx with ⟨j, hj, hjx⟩ | ⟨hx', habove⟩
    · exact .inr (.inr ⟨j, .inr hj, hjx⟩)
    · rcases h.covers hi' x hx' ⟨a, ha, (habove a).mp hax⟩ with hex | hlist | ⟨j, hj, hjx⟩
      · exact .inl (hs.executed hex)
      · exact .inr (.inl hlist)
      · refine .inr (.inr ⟨j, hj.imp_right fun hj => ?_, (habove j).mpr hjx⟩)
        exact hs.document.journal hj

theorem drop {node : NodeId} (h : Covered owed (node :: list) nodes s) (hn : node ∈ s.executed) :
    Covered owed list nodes s where
  tree := h.tree
  covers hi x hx hax := by
    rcases h.covers hi x hx hax with hex | hlist | hj
    · exact .inl hex
    · rcases List.mem_cons.mp hlist with rfl | hlist
      · exact .inl hn
      · exact .inr (.inl hlist)
    · exact .inr (.inr hj)

theorem frontier {id : NodeId} (h : Covered owed [] (id :: nodes) s) :
    Covered owed (s.frontier id) nodes s where
  tree := h.tree
  covers hi x hx hax := by
    obtain ⟨hk, hroot, hout⟩ := (exposed_iff h.tree).mp hx
    rcases h.covers hi x hx hax with hex | hlist | ⟨j, hj, hjx⟩
    · exact .inl hex
    · cases hlist
    · by_cases hex : x ∈ s.executed
      · exact .inl hex
      · simp only [List.mem_cons, or_assoc] at hj
        rcases hj with rfl | hj
        · exact .inr (.inl (mem_frontier h.tree hx hex hjx))
        · exact .inr (.inr ⟨j, hj, hjx⟩)

end Covered

/-- Above a connected node that stands under a batch there is a node of the batch that is
scanned: the topmost one. -/
theorem exists_batchRoot {d : Document} (ht : d.IsTree) {batch : List NodeId} {x : NodeId}
    (hroot : d.Above .root x) (hbatch : ∃ j ∈ batch, d.Above j x) :
    ∃ r ∈ batchRoots d batch, d.Above r x := by
  -- up the chain of parents: either the parent still stands under the batch, or `x` is topmost
  induction ht.grounded x with
  | @top x hx =>
    obtain ⟨j, hj, hjx⟩ := hbatch
    have hjeq : j = x := hjx.eq_of_top hx
    subst hjeq
    refine ⟨j, ?_, .self⟩
    simp [batchRoots, hj, ht.isConnected_iff.mpr hroot, ht.ancestors_eq j, hx]
  | @step x p hp _ ih =>
    by_cases habove : ∃ j ∈ batch, d.Above j p
    · have hne : NodeId.root ≠ x := by
        rintro rfl
        rw [ht.root_top] at hp
        cases hp
      obtain ⟨q, hq, hrq⟩ := hroot.parent_of_ne hne
      rw [hp] at hq
      cases hq
      obtain ⟨r, hr, hrp⟩ := ih hrq habove
      exact ⟨r, hr, .step hp hrp⟩
    · obtain ⟨j, hj, hjx⟩ := hbatch
      have hjeq : j = x := by
        refine Decidable.byContradiction fun hne => ?_
        obtain ⟨q, hq, hjq⟩ := hjx.parent_of_ne hne
        rw [hp] at hq
        cases hq
        exact habove ⟨j, hj, hjq⟩
      subst hjeq
      refine ⟨j, List.mem_filter.mpr ⟨List.mem_eraseDups.mpr hj, ?_⟩, .self⟩
      rw [ht.isConnected_iff.mpr hroot, Bool.true_and, Bool.not_eq_true', List.any_eq_false]
      intro a ha hcond
      simp only [Bool.and_eq_true, decide_eq_true_eq, List.contains_iff_mem] at hcond
      obtain ⟨hab, hne⟩ := ht.mem_tail_ancestors.mp ha
      obtain ⟨q, hq, haq⟩ := hab.parent_of_ne hne
      rw [hp] at hq
      cases hq
      exact habove ⟨a, hcond.2, haq⟩

theorem takeInserted_of_empty {d : Document} (h : d.inserted = #[]) :
    d.takeInserted = ([], d) := by
  obtain ⟨arena, journal⟩ := d
  cases h
  rfl

theorem above_takeInserted (d : Document) (a x : NodeId) :
    d.takeInserted.2.Above a x ↔ d.Above a x :=
  Document.above_congr fun _ => rfl

theorem exposed_takeInserted {d : Document} {x : NodeId} (ht : d.IsTree) :
    Exposed d.takeInserted.2 x ↔ Exposed d x := by
  have ht' : d.takeInserted.2.IsTree := ht.of_nodes rfl
  rw [exposed_iff ht, exposed_iff ht']
  simp only [above_takeInserted]
  rfl

/-- Taking the journal leaves its scanned nodes to do. What stands under the nodes that were taken
is owed as well from then on. -/
theorem Covered.takeInserted (h : Covered owed [] [] s) :
    Covered (fun a => owed a ∨ a ∈ s.document.takeInserted.1) []
      (batchRoots s.document.takeInserted.2 s.document.takeInserted.1)
      { s with document := s.document.takeInserted.2 } where
  tree := h.tree.of_nodes rfl
  covers hi x hx := by
    rintro ⟨a, ha, hax⟩
    have ht' : s.document.takeInserted.2.IsTree := h.tree.of_nodes rfl
    have habove := fun a => above_takeInserted s.document a x
    have hunder : x ∈ s.executed ∨ ∃ j ∈ s.document.takeInserted.1, s.document.Above j x := by
      rcases ha with ha | ha
      · rcases h.covers hi x ((exposed_takeInserted h.tree).mp hx) ⟨a, ha, (habove a).mp hax⟩ with
          hex | hlist | ⟨j, hj, hjx⟩
        · exact .inl hex
        · cases hlist
        · rcases hj with hj | hj
          · cases hj
          · exact .inr ⟨j, Array.mem_toList_iff.mpr hj, hjx⟩
      · exact .inr ⟨a, ha, (habove a).mp hax⟩
    rcases hunder with hex | ⟨j, hj, hjx⟩
    · exact .inl hex
    · have hroot := ((exposed_iff ht').mp hx).2.1
      obtain ⟨r, hr, hrx⟩ := exists_batchRoot ht' hroot ⟨j, hj, (habove j).mpr hjx⟩
      exact .inr (.inr ⟨r, .inl hr, hrx⟩)

variable [Host σ] {bound : Nat}

theorem dispatchCounted_covered {count : Nat} {r : Nat × Session σ} (h : Covered owed list nodes s)
    (hlist : ∀ x ∈ list, (kindOf? s.document x).isSome)
    (hr : dispatchCounted bound list count s = some r) : Covered owed [] nodes r.2 := by
  induction list generalizing count s with
  | nil =>
    cases hr
    exact h
  | cons node rest ih =>
    unfold dispatchCounted at hr
    split at hr
    next hi =>
      cases hr
      exact ⟨h.tree, fun hi' => by rw [show s.interrupted = false from hi'] at hi; cases hi⟩
    next =>
      obtain ⟨s₁, hd, hr⟩ := Option.bind_eq_some_iff.mp hr
      have hs := leads_dispatch hd
      have hn := mem_executed_dispatch hd (hlist node List.mem_cons_self)
      refine ih ((h.leads hs).drop hn) (fun x hx => ?_) hr
      exact isDirective_edited hs.document (hlist x (List.mem_cons_of_mem _ hx))

theorem scan_covered {id : NodeId} {r : Nat × Session σ} (h : Covered owed [] (id :: nodes) s)
    (hr : scan bound id s = some r) : Covered owed [] nodes r.2 :=
  dispatchCounted_covered h.frontier (fun _ hx => (pending_of_mem_frontierWithin hx).1) hr

theorem scanAll_covered {count : Nat} {r : Nat × Session σ} (h : Covered owed [] nodes s)
    (hr : scanAll bound nodes count s = some r) : Covered owed [] [] r.2 := by
  induction nodes generalizing count s with
  | nil =>
    cases hr
    exact h
  | cons id rest ih =>
    obtain ⟨scanned, hs, hr⟩ := Option.bind_eq_some_iff.mp hr
    exact ih (scan_covered h hs) hr

theorem flushRounds_covered {rounds count : Nat} {r : Nat × Session σ} (h : Covered owed [] [] s)
    (hr : flushRounds bound rounds count s = some r) : Covered owed [] [] r.2 := by
  induction rounds generalizing count s with
  | zero =>
    cases hr
    simp only
    split
    · exact h.leads (leads_note s _)
    · exact h
  | succ rounds ih =>
    unfold flushRounds at hr
    simp only at hr
    split at hr
    next hempty =>
      cases hr
      have ht := h.takeInserted.mono fun a => .inl
      rw [List.isEmpty_iff.mp hempty] at ht
      exact ht
    next =>
      obtain ⟨scanned, hs, hr⟩ := Option.bind_eq_some_iff.mp hr
      exact ih ((scanAll_covered h.takeInserted hs).mono fun a => .inl) hr

theorem run_covered {r : Nat × Session σ} (ht : s.document.IsTree) (hr : run bound s = some r) :
    Covered (· = .root) [] [] r.2 := by
  obtain ⟨scanned, hs, hr⟩ := Option.bind_eq_some_iff.mp hr
  obtain ⟨flushed, hf, hr⟩ := Option.bind_eq_some_iff.mp hr
  cases hr
  have hroot : Covered (· = .root) [] [.root] s := by
    refine ⟨ht, fun _ x _ hax => ?_⟩
    obtain ⟨a, rfl, hax⟩ := hax
    exact .inr (.inr ⟨.root, .inl List.mem_cons_self, hax⟩)
  have hc : Covered (· = .root) [] [] scanned.2 := scan_covered hroot hs
  change Covered (· = .root) [] [] flushed.2
  exact flushRounds_covered hc hf

theorem flushRounds_of_empty (rounds count : Nat) (hj : s.document.hasInsertions = false) :
    flushRounds bound rounds count s = some (count, s) := by
  have hempty : s.document.inserted = #[] := by simpa [Document.hasInsertions] using hj
  cases rounds with
  | zero => simp [flushRounds, hj]
  | succ rounds => simp only [flushRounds, takeInserted_of_empty hempty, List.isEmpty_nil, if_true]

theorem run_of_executed (bound : Nat) (ht : s.document.IsTree)
    (hj : s.document.hasInsertions = false)
    (hx : ∀ x, Exposed s.document x → x ∈ s.executed) : run bound s = some (0, s) := by
  have hfrontier : s.frontier .root = [] := by
    refine List.eq_nil_iff_forall_not_mem.mpr fun x hmem => ?_
    obtain ⟨hk, hex⟩ := pending_of_mem_frontierWithin hmem
    obtain ⟨hroot, hout⟩ := outermost_of_mem_frontierWithin ht hmem
    refine hex (hx x ((exposed_iff ht).mpr ⟨hk, hroot, fun a ha hne => ?_⟩))
    refine hout a ?_ ha hne
    rcases hroot.total ha with h | h
    · exact h
    · rw [ht.above_root h]
      exact .self
  have hflush : flush bound s = some (0, s) := flushRounds_of_empty _ 0 hj
  simp only [run, scan, hfrontier, dispatchCounted, hflush, Option.bind_some, bind]

/-- After a run that was not interrupted, every exposed directive that was not executed stands
under a node of the journal; with an empty journal all of them were executed, and running the
session again does nothing at all. -/
theorem run_executes_exposed {count : Nat} (hd : s.document.Reachable)
    (hr : run bound s = some (count, s')) (hi : s'.interrupted = false) :
    (∀ x, Exposed s'.document x → x ∉ s'.executed →
      ∃ j ∈ s'.document.inserted, x ∈ s'.document.subtree j) ∧
    (s'.document.hasInsertions = false →
      (∀ x, Exposed s'.document x → x ∈ s'.executed) ∧
      ∀ bound', run bound' s' = some (0, s')) := by
  have hc : Covered (· = .root) [] [] s' := run_covered hd.isTree hr
  have hall : ∀ x, Exposed s'.document x → x ∉ s'.executed →
      ∃ j ∈ s'.document.inserted, s'.document.Above j x := by
    intro x hx hex
    have hroot := hc.tree.isConnected_iff.mp hx.connected
    rcases hc.covers hi x hx ⟨.root, rfl, hroot⟩ with h | h | ⟨j, hj | hj, hjx⟩
    · exact (hex h).elim
    · cases h
    · cases hj
    · exact ⟨j, hj, hjx⟩
  refine ⟨fun x hx hex => ?_, fun hj => ?_⟩
  · obtain ⟨j, hj, hjx⟩ := hall x hx hex
    exact ⟨j, hj, hc.tree.mem_subtree.mpr hjx⟩
  · have hexec : ∀ x, Exposed s'.document x → x ∈ s'.executed := by
      intro x hx
      refine Decidable.byContradiction fun hex => ?_
      obtain ⟨j, hmem, -⟩ := hall x hx hex
      have hempty : s'.document.inserted = #[] := by simpa [Document.hasInsertions] using hj
      simp [hempty] at hmem
    exact ⟨hexec, fun bound' => run_of_executed bound' hc.tree hj hexec⟩

/-- A message is taken out of a branch that is not executed, and is shown in the first round of
insertions. -/
theorem run_executes_exposed_unnested :
    let src := "<if><log id=l>hi</log></if><append target=m source=l></append><div id=m></div>"
    ∃ (d : Document) (s' : Session Recorder), Document.parse src = .ok d ∧
      run 3 (ofDocument d (.ofAnswers [] []) .standard) = some (3, s') ∧
      s'.host.logs = ["hi"] ∧ s'.executed = [⟨2⟩, ⟨4⟩, ⟨1⟩] ∧
      (∀ x, Exposed s'.document x → x ∈ s'.executed) ∧
      ∀ bound, run bound s' = some (0, s') := by
  intro src
  have heval : ((Document.parse src).toOption.bind fun d =>
      (run 3 (ofDocument d (Recorder.ofAnswers [] []) .standard)).map fun r =>
        (r.1, r.2.host.logs, r.2.executed, r.2.interrupted, r.2.document.hasInsertions)) =
      some (3, ["hi"], [⟨2⟩, ⟨4⟩, ⟨1⟩], false, false) := by decide +kernel
  obtain ⟨d, hd, hmap⟩ := Option.bind_eq_some_iff.mp heval
  obtain ⟨⟨count, s'⟩, hr, heq⟩ := Option.map_eq_some_iff.mp hmap
  simp only [Prod.mk.injEq] at heq
  obtain ⟨rfl, hlogs, hexec, hi, hj⟩ := heq
  have hp := Document.parse_of_toOption hd
  exact ⟨d, s', hp, hr, hlogs, hexec, (run_executes_exposed (.parse hp) hr hi).2 hj⟩

end ActiveMarkup.Session
