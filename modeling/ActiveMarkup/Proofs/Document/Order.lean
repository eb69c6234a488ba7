import ActiveMarkup.Proofs.Document.Trees
import Mathlib.Data.List.Nodup
set_option autoImplicit false

namespace ActiveMarkup.Document

variable {d : Document} {a b n p q x y : NodeId}

/-- One node comes before another: it stands above the other, or they stand under two children of
one node and the child above the first is the earlier one. -/
inductive Before (d : Document) (a b : NodeId) : Prop where
  | above : d.Above a b → a ≠ b → Before d a b
  | beside {p x y : NodeId} : [x, y].Sublist (d.children p) → d.Above x a → d.Above y b →
      Before d a b

/-- A walk that keeps the nodes still to be visited on a stack. It takes the topmost one and puts
the children of that in its place. -/
inductive Walks (d : Document) : List NodeId → List NodeId → Prop where
  | done : Walks d [] []
  | visit {n : NodeId} {stack visited : List NodeId} : Walks d (d.children n ++ stack) visited →
      Walks d (n :: stack) (n :: visited)

/-- The nodes with a property, each of them once and in document order. -/
structure Lists (d : Document) (P : NodeId → Prop) (found : List NodeId) : Prop where
  mem : ∀ n, n ∈ found ↔ P n
  once : found.Nodup
  sorted : found.Pairwise d.Before

def IsFirst (d : Document) (P : NodeId → Prop) (n : NodeId) : Prop :=
  P n ∧ ∀ m, P m → m = n ∨ d.Before n m

theorem not_sublist_swap {l : List NodeId} (h : l.Nodup) (hxy : [x, y].Sublist l) :
    ¬ [y, x].Sublist l := by
  intro hyx
  obtain ⟨l₁, l₂, rfl, hx, hy⟩ := List.cons_sublist_iff.mp hxy
  obtain ⟨k₁, k₂, hk, hy', hx'⟩ := List.cons_sublist_iff.mp hyx
  rw [List.singleton_sublist] at hy hx'
  rcases List.append_eq_append_iff.mp hk with ⟨t, rfl, rfl⟩ | ⟨t, rfl, rfl⟩
  · exact List.disjoint_of_nodup_append h hx (List.mem_append_right t hx')
  · exact List.disjoint_of_nodup_append h (List.mem_append_left t hy') hy

namespace IsTree

theorem apart (h : d.IsTree) (hxy : [x, y].Sublist (d.children p)) (hx : d.Above x n)
    (hy : d.Above y n) : False := by
  have hxp : x ∈ d.children p := hxy.subset List.mem_cons_self
  have hyp : y ∈ d.children p := hxy.subset (List.mem_cons_of_mem _ List.mem_cons_self)
  have hne : x ≠ y := by
    have hnodup := (h.once p).sublist hxy
    simpa using hnodup
  exact h.not_above_of_sibling ((h.mem_children p x).mp hxp) ((h.mem_children p y).mp hyp) hne hy hx

theorem apart_of_above (h : d.IsTree) (hpq : d.Above p q) (hne : p ≠ q)
    (hxy : [x, y].Sublist (d.children p)) (hx : d.Above x a) (hy : d.Above y b)
    (hqa : d.Above q a) (hqb : d.Above q b) : False := by
  obtain ⟨c, hc, hcq⟩ := hpq.child_of_ne hne
  have hxp := (h.mem_children p x).mp (hxy.subset List.mem_cons_self)
  have hcx : c = x := Decidable.byContradiction fun hcx =>
    h.not_above_of_sibling hc hxp hcx hx (hcq.trans hqa)
  subst hcx
  exact h.apart hxy (hcq.trans hqb) hy

theorem apart_swapped (h : d.IsTree) {x' y' : NodeId} (hxy : [x, y].Sublist (d.children p))
    (hxy' : [x', y'].Sublist (d.children p)) (hx : d.Above x a) (hy : d.Above y b)
    (hx' : d.Above x' b) (hy' : d.Above y' a) : False := by
  have hone : ∀ {z w n}, z ∈ d.children p → w ∈ d.children p → d.Above z n → d.Above w n →
      z = w := fun hz hw hzn hwn => Decidable.byContradiction fun hzw =>
    h.not_above_of_sibling ((h.mem_children p _).mp hz) ((h.mem_children p _).mp hw) hzw hwn hzn
  have hmem : x ∈ d.children p ∧ y ∈ d.children p := by
    constructor <;> exact hxy.subset (by simp)
  have hmem' : x' ∈ d.children p ∧ y' ∈ d.children p := by
    constructor <;> exact hxy'.subset (by simp)
  cases hone hmem.1 hmem'.2 hx hy'
  cases hone hmem.2 hmem'.1 hy hx'
  exact not_sublist_swap (h.once p) hxy hxy'

theorem before_asymm (h : d.IsTree) (hab : d.Before a b) : ¬ d.Before b a := by
  intro hba
  cases hab with
  | above hab hne =>
    cases hba with
    | above hba _ => exact hne (h.above_antisymm hab hba)
    | beside hxy hx hy => exact h.apart hxy hx (hy.trans hab)
  | @beside p x y hxy hx hy =>
    cases hba with
    | above hba _ => exact h.apart hxy hx (hy.trans hba)
    | @beside q x' y' hxy' hx' hy' =>
      have hq : ∀ {z}, z ∈ [x', y'] → d.Above q z := fun hz =>
        Above.of_parent ((h.mem_children q _).mp (hxy'.subset hz))
      have hp : ∀ {z}, z ∈ [x, y] → d.Above p z := fun hz =>
        Above.of_parent ((h.mem_children p _).mp (hxy.subset hz))
      have hqa : d.Above q a := (hq (by simp)).trans hy'
      have hqb : d.Above q b := (hq (by simp)).trans hx'
      have hpa : d.Above p a := (hp (by simp)).trans hx
      have hpb : d.Above p b := (hp (by simp)).trans hy
      -- both parents stand above both nodes, so they stand above one another or are the same
      by_cases hpq : p = q
      · subst hpq
        exact h.apart_swapped hxy hxy' hx hy hx' hy'
      · rcases hpa.total hqa with hpq' | hqp
        · exact h.apart_of_above hpq' hpq hxy hx hy hqa hqb
        · exact h.apart_of_above hqp (Ne.symm hpq) hxy' hx' hy' hpb hpa

theorem before_irrefl (h : d.IsTree) (a : NodeId) : ¬ d.Before a a :=
  fun ha => h.before_asymm ha ha

theorem lists_unique (h : d.IsTree) {P : NodeId → Prop} {l l' : List NodeId} (hl : d.Lists P l)
    (hl' : d.Lists P l') : l = l' := by
  have hperm : l.Perm l' := (List.perm_ext_iff_of_nodup hl.once hl'.once).mpr fun n =>
    (hl.mem n).trans (hl'.mem n).symm
  exact hperm.eq_of_pairwise (fun a b _ _ hab hba => absurd hba (h.before_asymm hab)) hl.sorted
    hl'.sorted

theorem subtreeWithin_sorted (h : d.IsTree) (depth : Nat) (a : NodeId) :
    (d.subtreeWithin depth a).Pairwise d.Before := by
  induction depth generalizing a with
  | zero => exact List.Pairwise.nil
  | succ depth ih =>
    rw [subtreeWithin, List.pairwise_cons, List.pairwise_flatMap]
    refine ⟨?_, fun c _ => ih c, ?_⟩
    · intro n hn
      obtain ⟨c, hc, hn⟩ := List.mem_flatMap.mp hn
      have hac := (h.mem_children a c).mp hc
      have hcn := h.above_of_mem_subtreeWithin hn
      refine .above ((Above.of_parent hac).trans hcn) ?_
      rintro rfl
      exact (h.grounded c).not_above_parent hac hcn
    · rw [List.pairwise_iff_forall_sublist]
      intro x y hxy n hn m hm
      exact .beside hxy (h.above_of_mem_subtreeWithin hn) (h.above_of_mem_subtreeWithin hm)

theorem subtreeWithin_nodup (h : d.IsTree) (depth : Nat) (a : NodeId) :
    (d.subtreeWithin depth a).Nodup :=
  (h.subtreeWithin_sorted depth a).imp fun hb => by
    rintro rfl
    exact h.before_irrefl _ hb

theorem subtree_lists (h : d.IsTree) (a : NodeId) : d.Lists (d.Above a) (d.subtree a) where
  mem _ := h.mem_subtree
  once := h.subtreeWithin_nodup _ a
  sorted := h.subtreeWithin_sorted _ a

theorem descendants_lists (h : d.IsTree) (a : NodeId) :
    d.Lists (fun n => d.isElement n = true ∧ d.Above a n ∧ a ≠ n) (d.descendants a) := by
  have hall := h.subtree_lists a
  have hcons : d.subtree a = a :: (d.subtree a).tail := by
    rw [h.subtree_eq]
    rfl
  refine ⟨fun n => ?_, hall.once.tail.filter _, hall.sorted.tail.filter _⟩
  have hmem := hall.mem n
  have hnot : a ∉ (d.subtree a).tail := by
    have honce := hall.once
    rw [hcons] at honce
    exact (List.nodup_cons.mp honce).1
  rw [hcons, List.mem_cons] at hmem
  rw [descendants, List.mem_filter, and_comm, ← hmem]
  refine and_congr_right fun _ => ⟨fun hn => ⟨.inr hn, ?_⟩, fun hn => hn.1.resolve_left hn.2.symm⟩
  rintro rfl
  exact hnot hn

/-- The walk with a stack ends, and it comes to the nodes of the subtrees one after another. -/
theorem walks_iff (h : d.IsTree) {stack visited : List NodeId} :
    d.Walks stack visited ↔ visited = stack.flatMap d.subtree := by
  constructor
  · intro hw
    induction hw with
    | done => rfl
    | visit _ ih => rw [ih, List.flatMap_append, List.flatMap_cons, h.subtree_eq, List.cons_append]
  · -- the stack shrinks and grows, so the induction is on what is left to be visited
    intro hv
    induction visited generalizing stack with
    | nil =>
      cases stack with
      | nil => exact .done
      | cons n stack =>
        rw [List.flatMap_cons, h.subtree_eq] at hv
        cases hv
    | cons v visited ih =>
      cases stack with
      | nil => cases hv
      | cons n stack =>
        rw [List.flatMap_cons, h.subtree_eq, List.cons_append] at hv
        obtain ⟨rfl, hv⟩ := List.cons.inj hv
        refine .visit (ih ?_)
        rw [hv, List.flatMap_append]

end IsTree

theorem Lists.filter {P : NodeId → Prop} {l : List NodeId} (h : d.Lists P l)
    (keep : NodeId → Bool) : d.Lists (fun n => P n ∧ keep n = true) (l.filter keep) where
  mem n := by rw [List.mem_filter, h.mem]
  once := h.once.filter _
  sorted := h.sorted.filter _

theorem Lists.congr {P Q : NodeId → Prop} {l : List NodeId} (h : d.Lists P l)
    (hPQ : ∀ n, P n ↔ Q n) : d.Lists Q l :=
  ⟨fun n => (h.mem n).trans (hPQ n), h.once, h.sorted⟩

theorem Lists.head?_eq_none_iff {P : NodeId → Prop} {l : List NodeId} (h : d.Lists P l) :
    l.head? = none ↔ ∀ n, ¬ P n := by
  rw [List.head?_eq_none_iff, List.eq_nil_iff_forall_not_mem]
  exact forall_congr' fun n => not_congr (h.mem n)

theorem Lists.head?_eq_some_iff (ht : d.IsTree) {P : NodeId → Prop} {l : List NodeId}
    (h : d.Lists P l) : l.head? = some n ↔ d.IsFirst P n := by
  constructor
  · intro hn
    refine ⟨(h.mem n).mp (List.mem_of_head? hn), fun m hm => ?_⟩
    obtain ⟨rest, rfl⟩ := List.head?_eq_some_iff.mp hn
    rcases List.mem_cons.mp ((h.mem m).mpr hm) with rfl | hmem
    · exact .inl rfl
    · exact .inr ((List.pairwise_cons.mp h.sorted).1 m hmem)
  · rintro ⟨hP, hfirst⟩
    obtain ⟨m, rest, rfl⟩ := List.exists_cons_of_ne_nil (List.ne_nil_of_mem ((h.mem n).mpr hP))
    rcases hfirst m ((h.mem m).mp List.mem_cons_self) with rfl | hnm
    · rfl
    · rcases List.mem_cons.mp ((h.mem n).mpr hP) with rfl | hmem
      · rfl
      · exact absurd ((List.pairwise_cons.mp h.sorted).1 n hmem) (ht.before_asymm hnm)

end ActiveMarkup.Document
