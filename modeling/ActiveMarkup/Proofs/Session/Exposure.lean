import ActiveMarkup.Proofs.Document.Operations
import ActiveMarkup.Session.Scan
import Mathlib.Data.List.Flatten
set_option autoImplicit false

namespace ActiveMarkup.Session

variable {d d' : Document} {a x : NodeId}

/-- A directive that stands under the root and in no other directive. -/
structure Exposed (d : Document) (x : NodeId) : Prop where
  directive : (kindOf? d x).isSome
  connected : d.isConnected x = true
  outermost : ∀ a ∈ (d.ancestors x).tail, kindOf? d a = none

theorem exposed_iff (ht : d.IsTree) :
    Exposed d x ↔ (kindOf? d x).isSome ∧ d.Above .root x ∧
      ∀ a, d.Above a x → a ≠ x → kindOf? d a = none := by
  constructor
  · intro h
    refine ⟨h.directive, ht.isConnected_iff.mp h.connected, fun a ha hne => ?_⟩
    exact h.outermost a (ht.mem_tail_ancestors.mpr ⟨ha, hne⟩)
  · rintro ⟨hk, hroot, hout⟩
    refine ⟨hk, ht.isConnected_iff.mpr hroot, fun a ha => ?_⟩
    obtain ⟨hab, hne⟩ := ht.mem_tail_ancestors.mp ha
    exact hout a hab hne

theorem kindOf?_congr (h : d'.kind? x = d.kind? x) : kindOf? d' x = kindOf? d x := by
  simp only [kindOf?, Document.tag?, Document.element?_eq, h]

theorem known_of_kindOf? (h : (kindOf? d x).isSome) : d.Known x := by
  rw [Document.known_iff_kind?]
  cases hk : d.kind? x with
  | none => simp [kindOf?, Document.tag?, Document.element?_eq, hk] at h
  | some kind => rfl

theorem kindOf?_edit (h : d.Edit d') (hx : d.Known x) : kindOf? d' x = kindOf? d x := by
  cases h with
  | @data id e e' he htag =>
    by_cases hid : x = id
    · subst hid
      obtain ⟨n, hn, hkind⟩ := Option.map_eq_some_iff.mp he
      simp [kindOf?, Document.tag?, Document.element?_eq, Document.kind?, Document.node?_modify,
        hn, hkind, htag]
    · refine kindOf?_congr ?_
      simp only [Document.kind?, Document.node?_modify, hid, if_false]
  | extend he => exact kindOf?_congr (by rw [Document.kind?, he.old x hx]; rfl)
  | detach id => exact kindOf?_congr (Document.kind?_detach d id x)
  | append ha => exact kindOf?_congr (Document.kind?_appendChild ha x)

theorem isDirective_edited (h : d.Edited d') (hk : (kindOf? d x).isSome) :
    (kindOf? d' x).isSome := by
  induction h with
  | refl => exact hk
  | tail _ he ih => rwa [kindOf?_edit he (known_of_kindOf? ih)]

theorem Exposed.of_above (ht : d.IsTree) (ht' : d'.IsTree) (he : d.Edit d') (hx : Exposed d' x)
    (hknown : d.Known x) (habove : ∀ a, d'.Above a x ↔ d.Above a x) : Exposed d x := by
  obtain ⟨hk, hroot, hout⟩ := (exposed_iff ht').mp hx
  refine (exposed_iff ht).mpr ⟨?_, (habove _).mp hroot, fun a ha hne => ?_⟩
  · rwa [← kindOf?_edit he hknown]
  · rw [← kindOf?_edit he (ht.known_above ha hknown)]
    exact hout a ((habove a).mpr ha) hne

theorem above_extends (ht : d.IsTree) (he : d.Extends d') (hroot : d'.Above .root x) :
    d.Known x ∧ ∀ a, d'.Above a x ↔ d.Above a x :=
  have hknown := he.known_of_connected ht hroot
  ⟨hknown, he.above_iff ht hknown⟩

theorem not_above_of_detach (ht : d.IsTree) {id : NodeId} (hid : id ≠ .root)
    (hroot : (d.detach id).Above .root x) : ¬ d.Above id x := by
  induction hroot with
  | self => exact fun h => hid (ht.above_root h)
  | @step y p hp _ ih =>
    rw [Document.parent?_detach] at hp
    split at hp
    · cases hp
    next hy =>
      intro h
      obtain ⟨q, hq, hab⟩ := h.parent_of_ne (Ne.symm hy)
      rw [hp] at hq
      cases hq
      exact ih hab

/-- A node that is connected after an edit stands under the node that the edit has entered in the
journal, or it was there before under the same nodes. -/
theorem above_edit (ht : d.IsTree) (he : d.Edit d') (hroot : d'.Above .root x) :
    (∃ j, d'.inserted = d.inserted.push j ∧ d'.Above j x) ∨
      (d.Known x ∧ ∀ a, d'.Above a x ↔ d.Above a x) := by
  have ht' := he.isTree ht
  have hknown' : d'.Known x := hroot.known ht'.known_root
  cases he with
  | data e' hk htag =>
    refine .inr ⟨(Document.known_modify d _ x _).mp hknown', fun a => ?_⟩
    exact Document.above_congr (Document.parent?_modify fun _ => rfl)
  | extend hext => exact .inr (above_extends ht hext hroot)
  | detach id =>
    have hknown : d.Known x := by
      rwa [Document.known_iff_kind?, Document.kind?_detach, ← Document.known_iff_kind?] at hknown'
    by_cases hid : id = .root
    · subst hid
      refine .inr ⟨hknown, fun a => Document.above_congr fun y => ?_⟩
      rw [Document.parent?_detach]
      split
      next hy => rw [hy, ht.root_top]
      next => rfl
    · have hpar : ∀ y, y ≠ id → (d.detach id).parent? y = d.parent? y := fun y hy => by
        rw [Document.parent?_detach, if_neg hy]
      have hnot := not_above_of_detach ht hid hroot
      exact .inr ⟨hknown, fun a =>
        ⟨fun h => h.of_transfer hpar hnot, fun h => h.transfer hpar hnot⟩⟩
  -- a node that moves changes only what stands under it
  | @append _ p c ha =>
    obtain ⟨hr, -, hj⟩ := Document.appendChild_ok ha
    obtain ⟨-, -, hc, -⟩ := Document.refusal?_eq_none ht hr
    have hpar := ht.parent?_appendChild ha
    by_cases hab : d'.Above c x
    · -- a moved node that is connected now is in the journal
      have hrc : d'.Above .root c := by
        rcases hroot.total hab with h | h
        · exact h
        · exact (hc (ht'.above_root h)).elim
      obtain ⟨q, hq, hrp⟩ := hrc.parent_of_ne hc.symm
      rw [hpar, if_pos rfl] at hq
      cases hq
      rw [if_pos (ht'.isConnected_iff.mpr hrp)] at hj
      exact .inl ⟨c, hj, hab⟩
    · have hother : ∀ y, y ≠ c → d.parent? y = d'.parent? y := fun y hy => by
        rw [hpar, if_neg hy]
      refine .inr ⟨?_, fun a => ⟨fun h => h.transfer hother hab, fun h => h.of_transfer hother hab⟩⟩
      rwa [Document.known_iff_kind?, Document.kind?_appendChild ha,
        ← Document.known_iff_kind?] at hknown'

/-- A directive that is exposed after an edit stands under a node of the journal, or it was
exposed under the same nodes before. -/
theorem exposed_edit (ht : d.IsTree) (he : d.Edit d') (hx : Exposed d' x) :
    (∃ j ∈ d'.inserted, d'.Above j x) ∨ (Exposed d x ∧ ∀ a, d'.Above a x ↔ d.Above a x) := by
  have ht' := he.isTree ht
  have hroot := ((exposed_iff ht').mp hx).2.1
  rcases above_edit ht he hroot with ⟨j, hj, hjx⟩ | ⟨hknown, habove⟩
  · exact .inl ⟨j, by rw [hj]; exact Array.mem_push_self, hjx⟩
  · exact .inr ⟨hx.of_above ht ht' he hknown habove, habove⟩

theorem tag?_of_parent (ht : d.IsTree) {c : NodeId} (hc : d.parent? c = some a)
    (ha : d.tag? a = none) : a = .root := by
  have hmem := (ht.mem_children a c).mpr hc
  cases hk : d.kind? a with
  | none =>
    rw [Document.children_fresh] at hmem
    · cases hmem
    · rw [Document.known_iff_kind?, hk]
      simp
  | some kind =>
    cases kind with
    | document => exact (ht.root_kind a).mp hk
    | element e => simp [Document.tag?, Document.element?_eq, hk] at ha
    | text s => simp [ht.leaf a _ hk rfl] at hmem
    | comment s => simp [ht.leaf a _ hk rfl] at hmem

theorem children_of_tag?_none (ht : d.IsTree) (ha : d.tag? a = none) (hroot : a ≠ .root) :
    d.children a = [] := by
  refine List.eq_nil_iff_forall_not_mem.mpr fun c hc => hroot ?_
  exact tag?_of_parent ht ((ht.mem_children a c).mp hc) ha

theorem frontierWithin_succ (executed : List NodeId) (depth : Nat) (hk : kindOf? d a = none)
    (helement : d.tag? a = none → a = .root) :
    frontierWithin d executed (depth + 1) a =
      (d.children a).flatMap (frontierWithin d executed depth) := by
  unfold frontierWithin
  cases hta : d.tag? a with
  | none => simp only [helement hta, if_true]
  | some tag =>
    simp only [kindOf?, hta, Option.bind_some] at hk
    simp only [hk]

theorem frontierWithin_below (ht : d.IsTree) (executed : List NodeId) (depth : Nat)
    (hk : kindOf? d a = none) :
    frontierWithin d executed (depth + 1) a =
      (d.children a).flatMap (frontierWithin d executed depth) := by
  by_cases helement : d.tag? a = none → a = .root
  · exact frontierWithin_succ executed depth hk helement
  · obtain ⟨hta, hroot⟩ := Classical.not_imp.mp helement
    rw [children_of_tag?_none ht hta hroot, frontierWithin, hta]
    simp [hroot]

theorem frontierWithin_directive (executed : List NodeId) (depth : Nat)
    (hk : (kindOf? d a).isSome) :
    frontierWithin d executed (depth + 1) a = if executed.contains a then [] else [a] := by
  unfold frontierWithin
  cases hta : d.tag? a with
  | none => simp [kindOf?, hta] at hk
  | some tag =>
    simp only [kindOf?, hta, Option.bind_some, Option.isSome_iff_exists] at hk
    obtain ⟨kind, hk⟩ := hk
    simp only [hk]

/-- The levels and the nodes above make up the arena, so the walk reaches the directive. -/
theorem mem_frontierWithin (ht : d.IsTree) {executed : List NodeId} {depth : Nat}
    (ha : d.Above a x) (hknown : d.Known a) (hk : (kindOf? d x).isSome) (hx : x ∉ executed)
    (hout : ∀ b, d.Above a b → d.Above b x → b ≠ x → kindOf? d b = none)
    (hdepth : d.nodes.size < depth + (d.ancestors a).length) :
    x ∈ frontierWithin d executed depth a := by
  induction depth generalizing a with
  | zero =>
    have hlt := ht.ancestors_length_lt a
    omega
  | succ depth ih =>
    by_cases hax : a = x
    · subst hax
      rw [frontierWithin_directive executed depth hk, if_neg (by simpa using hx)]
      exact List.mem_singleton_self a
    · obtain ⟨c, hc, hcx⟩ := ha.child_of_ne hax
      rw [frontierWithin_below ht executed depth (hout a .self ha hax)]
      refine List.mem_flatMap.mpr ⟨c, (ht.mem_children a c).mpr hc, ih hcx ?_ ?_ ?_⟩
      · exact Document.known_of_parent? hc
      · exact fun b hcb hbx hne => hout b ((Document.Above.of_parent hc).trans hcb) hbx hne
      · rw [ht.ancestors_length hc]
        omega

theorem frontierWithin_cases {executed : List NodeId} {depth : Nat}
    (h : x ∈ frontierWithin d executed (depth + 1) a) :
    (x = a ∧ (kindOf? d x).isSome ∧ x ∉ executed) ∨
      (kindOf? d a = none ∧ ∃ c ∈ d.children a, x ∈ frontierWithin d executed depth c) := by
  cases hk : kindOf? d a with
  | some kind =>
    have hka : (kindOf? d a).isSome := by rw [hk]; rfl
    rw [frontierWithin_directive executed depth hka] at h
    split at h
    · cases h
    next hx =>
      cases List.mem_singleton.mp h
      exact .inl ⟨rfl, hka, by simpa using hx⟩
  | none =>
    refine .inr ⟨rfl, List.mem_flatMap.mp ?_⟩
    unfold frontierWithin at h
    split at h
    · split at h
      · exact h
      · cases h
    next tag htag =>
      rw [kindOf?, htag, Option.bind_some] at hk
      rwa [hk] at h

theorem pending_of_mem_frontierWithin {executed : List NodeId} {depth : Nat}
    (h : x ∈ frontierWithin d executed depth a) : (kindOf? d x).isSome ∧ x ∉ executed := by
  induction depth generalizing a with
  | zero => cases h
  | succ depth ih =>
    obtain ⟨rfl, hpending⟩ | ⟨-, c, -, hx⟩ := frontierWithin_cases h
    · exact hpending
    · exact ih hx

theorem outermost_of_mem_frontierWithin (ht : d.IsTree) {executed : List NodeId} {depth : Nat}
    (h : x ∈ frontierWithin d executed depth a) :
    d.Above a x ∧ ∀ b, d.Above a b → d.Above b x → b ≠ x → kindOf? d b = none := by
  induction depth generalizing a with
  | zero => cases h
  | succ depth ih =>
    obtain ⟨rfl, -⟩ | ⟨hk, c, hc, hx⟩ := frontierWithin_cases h
    · exact ⟨.self, fun b hab hba hne => (hne (ht.above_antisymm hba hab)).elim⟩
    · have hpc := (ht.mem_children a c).mp hc
      obtain ⟨hcx, hout⟩ := ih hx
      refine ⟨(Document.Above.of_parent hpc).trans hcx, fun b hab hbx hne => ?_⟩
      by_cases hba : b = a
      · rw [hba, hk]
      · -- a node between that is not the first one stands under the child
        rcases hcx.total hbx with hcb | hbc
        · exact hout b hcb hbx hne
        · by_cases hbc' : b = c
          · exact hout b (hbc' ▸ .self) hbx hne
          · obtain ⟨p, hp, hbp⟩ := hbc.parent_of_ne hbc'
            rw [hpc] at hp
            cases hp
            exact (hba (ht.above_antisymm hbp hab)).elim

theorem frontierWithin_sublist (d : Document) (executed : List NodeId) (depth : Nat) (a : NodeId) :
    (frontierWithin d executed depth a).Sublist (d.subtreeWithin depth a) := by
  induction depth generalizing a with
  | zero => exact List.Sublist.refl []
  | succ depth ih =>
    have hbelow : ((d.children a).flatMap (frontierWithin d executed depth)).Sublist
        (d.subtreeWithin (depth + 1) a) :=
      (List.Sublist.flatMap_right _ fun c _ => ih c).cons a
    unfold frontierWithin
    split
    · split
      · exact hbelow
      · exact List.nil_sublist _
    · split
      · split
        · exact List.nil_sublist _
        · exact (List.nil_sublist _).cons_cons a
      · exact hbelow

theorem mem_frontier {σ : Type} {s : Session σ} (ht : s.document.IsTree)
    (hx : Exposed s.document x) (hex : x ∉ s.executed) (ha : s.document.Above a x) :
    x ∈ s.frontier a := by
  obtain ⟨hk, -, hout⟩ := (exposed_iff ht).mp hx
  exact mem_frontierWithin ht ha (ht.known_above ha (known_of_kindOf? hk)) hk hex
    (fun b _ hbx hne => hout b hbx hne) (by omega)

end ActiveMarkup.Session
