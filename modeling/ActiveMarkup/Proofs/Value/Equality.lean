import ActiveMarkup.Proofs.Value.Keyed
import ActiveMarkup.Value.Equality
import Mathlib
set_option autoImplicit false

/-!
The three equalities as relations. Strict equality is symmetric and transitive, and a value equals
itself unless it is NaN. Loose equality is symmetric and weaker, and not transitive. Equality of
contents looks the fields of one object up in the other, so it is symmetric only between objects
that have no key twice. Objects that come from JSON texts, or from evaluating over such objects, are
of this kind, and the order of their fields says nothing.
-/

namespace ActiveMarkup

namespace Table

variable {α : Type} {t u : Table α} {key : String}

theorem mem_keys_iff : key ∈ t.keys ↔ ∃ v, t.find? key = some v := by
  rw [← Option.isSome_iff_exists, ← Option.ne_none_iff_isSome, ne_eq, find?_eq_none_iff, not_not]

theorem Distinct.find?_eq_some_iff (h : t.Distinct) {v : α} :
    t.find? key = some v ↔ (key, v) ∈ t := by
  refine ⟨mem_of_find?, fun hmem => ?_⟩
  induction t with
  | nil => cases hmem
  | cons entry rest ih =>
    obtain ⟨k, w⟩ := entry
    obtain ⟨hk, hrest⟩ := List.nodup_cons.mp h
    rcases List.mem_cons.mp hmem with heq | hmem
    · cases heq
      rw [find?, if_pos rfl]
    · have hne : k ≠ key := by
        rintro rfl
        exact hk (List.mem_map.mpr ⟨_, hmem, rfl⟩)
      rw [find?, if_neg hne, ih hrest hmem]

theorem Distinct.keys_iff (h : t.Distinct) (hsize : t.length = u.length) (hsub : t.keys ⊆ u.keys)
    (key : String) : key ∈ t.keys ↔ key ∈ u.keys := by
  have hlength : u.keys.length ≤ t.keys.length := by simp [keys, hsize]
  exact ((List.subperm_of_subset h hsub).perm_of_length_le hlength).mem_iff

theorem Distinct.length_eq (ht : t.Distinct) (hu : u.Distinct)
    (hkeys : ∀ key, key ∈ t.keys ↔ key ∈ u.keys) : t.length = u.length := by
  have hperm := ((List.perm_ext_iff_of_nodup ht hu).mpr hkeys).length_eq
  simpa [keys] using hperm

end Table

namespace Value

variable {a b c : Value}

theorem strictEq_comm (a b : Value) : strictEq a b = strictEq b a := by
  cases a <;> cases b <;> try rfl
  all_goals exact BEq.comm

theorem strictEq_congr (h : strictEq a b = true) (c : Value) : strictEq a c = strictEq b c := by
  cases a <;> cases b <;> try cases h
  case undefined.undefined | null.null => rfl
  case number.number x y =>
    cases c with
    | number z => exact BEq.congr_left h
    | _ => rfl
  all_goals
    cases eq_of_beq h
    cases c <;> rfl

theorem strictEq_trans (hab : strictEq a b = true) (hbc : strictEq b c = true) :
    strictEq a c = true :=
  (strictEq_congr hab c).trans hbc

theorem strictEq_self_iff (a : Value) :
    strictEq a a = true ↔ ∀ x, a = number x → x.isNaN = false := by
  cases a with
  | number x =>
    change (x == x) = true ↔ _
    rw [Float.beq_self_iff]
    simp [Float.isNaN_eq_decide_eq_nan]
  | _ => simp [strictEq]

theorem looseEq_of_mixed (hpresent : (a.isNullish || b.isNullish) = false)
    (hmixed : ∀ s t, a = text s → b = text t → False) :
    looseEq a b =
      if a.isStructured || b.isStructured then
        if sameKind a b then strictEq a b else toText a == toText b
      else toNumber a == toNumber b := by
  unfold looseEq
  rw [hpresent, if_neg Bool.false_ne_true]
  split
  next s t => exact (hmixed s t rfl rfl).elim
  next => rfl

theorem looseEq_comm (a b : Value) : looseEq a b = looseEq b a := by
  cases hpresent : a.isNullish || b.isNullish with
  | true =>
    have hpresent' : (b.isNullish || a.isNullish) = true := by rw [Bool.or_comm, hpresent]
    unfold looseEq
    rw [if_pos hpresent, if_pos hpresent', Bool.and_comm]
  | false =>
    have hpresent' : (b.isNullish || a.isNullish) = false := by rw [Bool.or_comm, hpresent]
    by_cases htexts : ∃ s t, a = text s ∧ b = text t
    · obtain ⟨s, t, rfl, rfl⟩ := htexts
      exact BEq.comm
    · rw [looseEq_of_mixed hpresent fun s t hs ht => htexts ⟨s, t, hs, ht⟩,
        looseEq_of_mixed hpresent' fun s t hs ht => htexts ⟨t, s, ht, hs⟩,
        Bool.or_comm b.isStructured, sameKind, sameKind, BEq.comm (a := b.kindName),
        strictEq_comm b a, BEq.comm (a := b.toText), BEq.comm (a := b.toNumber)]

theorem looseEq_of_strictEq (h : strictEq a b = true) : looseEq a b = true := by
  cases a <;> cases b <;> try cases h
  case undefined.undefined | null.null => rfl
  case bool.bool x y =>
    cases eq_of_beq h
    cases x <;> decide
  all_goals exact h

-- two arrays with the same text, which it equals, are told apart by identity
example : looseEq (array 0 []) (text "") = true ∧ looseEq (text "") (array 1 []) = true ∧
    looseEq (array 0 []) (array 1 []) = false := by decide

inductive Alike : Value → Value → Prop where
  | undefined : Alike .undefined .undefined
  | null : Alike .null .null
  | bool (b : Bool) : Alike (.bool b) (.bool b)
  | number {x y : Float} : (x == y) = true → Alike (.number x) (.number y)
  | text (s : String) : Alike (.text s) (.text s)
  | node (id : NodeId) : Alike (.node id) (.node id)
  | array {ref ref' : Ref} {items items' : List Value} : items.length = items'.length →
      (∀ (i : Nat) v w, items[i]? = some v → items'[i]? = some w → Alike v w) →
      Alike (.array ref items) (.array ref' items')
  | object {ref ref' : Ref} {fields fields' : List (String × Value)} :
      (∀ key, key ∈ Table.keys fields ↔ key ∈ Table.keys fields') →
      (∀ key v w, Table.find? fields key = some v → Table.find? fields' key = some w →
        Alike v w) →
      Alike (.object ref fields) (.object ref' fields')

/-- The fields of an object change places, or those of an object inside do. -/
inductive Reordered : Value → Value → Prop where
  | refl (v : Value) : Reordered v v
  | trans {u v w : Value} : Reordered u v → Reordered v w → Reordered u w
  | fields (ref : Ref) {fields fields' : List (String × Value)} : fields.Perm fields' →
      Reordered (.object ref fields) (.object ref fields')
  | item (ref : Ref) (before after : List Value) {v w : Value} : Reordered v w →
      Reordered (.array ref (before ++ v :: after)) (.array ref (before ++ w :: after))
  | field (ref : Ref) (before after : List (String × Value)) (key : String) {v w : Value} :
      Reordered v w →
      Reordered (.object ref (before ++ (key, v) :: after))
        (.object ref (before ++ (key, w) :: after))

theorem Alike.symm (h : Alike a b) : Alike b a := by
  induction h with
  | undefined => exact .undefined
  | null => exact .null
  | bool b => exact .bool b
  | number hxy => exact .number (BEq.symm hxy)
  | text s => exact .text s
  | node id => exact .node id
  | array hlength _ ih => exact .array hlength.symm fun i w v hw hv => ih i v w hv hw
  | object hkeys _ ih =>
    exact .object (fun key => (hkeys key).symm) fun key w v hw hv => ih key v w hv hw

theorem Alike.trans (hab : Alike a b) (hbc : Alike b c) : Alike a c := by
  induction hab generalizing c with
  | undefined | null | bool | text | node => exact hbc
  | number hxy =>
    cases hbc with
    | number hyz => exact .number (BEq.trans hxy hyz)
  | @array ref ref' xs ys hlength _ ih =>
    cases hbc with
    | @array _ _ _ zs hlength' hyz =>
      refine .array (hlength.trans hlength') fun i v w hv hw => ?_
      obtain ⟨hi, -⟩ := List.getElem?_eq_some_iff.mp hv
      have hu : ys[i]? = some ys[i] := List.getElem?_eq_getElem (hlength ▸ hi)
      exact ih i v _ hv hu (hyz i _ w hu hw)
  | object hkeys _ ih =>
    cases hbc with
    | object hkeys' hyz =>
      refine .object (fun key => (hkeys key).trans (hkeys' key)) fun key v w hv hw => ?_
      obtain ⟨u, hu⟩ := Table.mem_keys_iff.mp ((hkeys key).mp (Table.mem_keys_iff.mpr ⟨v, hv⟩))
      exact ih key v u hv hu (hyz key u w hu hw)

theorem sameItems_iff (xs ys : List Value) :
    sameItems xs ys = true ↔ xs.length = ys.length ∧
      ∀ (i : Nat) v w, xs[i]? = some v → ys[i]? = some w → sameContents v w = true := by
  induction xs generalizing ys with
  | nil => cases ys <;> simp [sameItems]
  | cons x xs ih =>
    cases ys with
    | nil => simp [sameItems]
    | cons y ys =>
      rw [sameItems, Bool.and_eq_true, ih, List.length_cons, List.length_cons,
        Nat.add_right_cancel_iff]
      constructor
      · rintro ⟨hxy, hlength, hall⟩
        refine ⟨hlength, fun i v w hv hw => ?_⟩
        cases i with
        | zero =>
          cases hv
          cases hw
          exact hxy
        | succ i => exact hall i v w hv hw
      · rintro ⟨hlength, hall⟩
        exact ⟨hall 0 x y rfl rfl, hlength, fun i v w hv hw => hall (i + 1) v w hv hw⟩

theorem fieldsWithin_iff (fs gs : List (String × Value)) :
    fieldsWithin fs gs = true ↔
      ∀ entry ∈ fs, ∃ w, Table.find? gs entry.1 = some w ∧ sameContents entry.2 w = true := by
  induction fs with
  | nil => simp [fieldsWithin]
  | cons entry rest ih =>
    rw [fieldsWithin, Bool.and_eq_true, ih, List.forall_mem_cons]
    refine and_congr_left fun _ => ?_
    cases Table.find? gs entry.1 <;> simp

/-- Values that are strictly equal have the same contents, unless they are arrays or objects, which
are equal by identity. -/
theorem alike_of_strictEq (h : strictEq a b = true) (harray : ∀ ref items, a ≠ array ref items)
    (hobject : ∀ ref fields, a ≠ object ref fields) : Alike a b := by
  cases a <;> cases b <;> try cases h
  case undefined.undefined => exact .undefined
  case null.null => exact .null
  case number.number => exact .number h
  case array.array => exact (harray _ _ rfl).elim
  case object.object => exact (hobject _ _ rfl).elim
  all_goals
    cases eq_of_beq h
    constructor

theorem alike_of_sameContents (ha : a.Keyed) (h : sameContents a b = true) : Alike a b := by
  induction ha generalizing b with
  | undefined | null | bool | number | text | node =>
    exact alike_of_strictEq h nofun nofun
  | @array ref xs _ ih =>
    cases b with
    | array ref' ys =>
      obtain ⟨hlength, hall⟩ := (sameItems_iff xs ys).mp h
      refine .array hlength fun i v w hv hw => ih v (List.mem_of_getElem? hv) (hall i v w hv hw)
    | _ => cases h
  | @object ref fs hdistinct _ ih =>
    cases b with
    | object ref' gs =>
      rw [sameContents, Bool.and_eq_true, beq_iff_eq, fieldsWithin_iff] at h
      obtain ⟨hsize, hall⟩ := h
      have hsub : Table.keys fs ⊆ Table.keys gs := by
        intro key hkey
        obtain ⟨v, hv⟩ := Table.mem_keys_iff.mp hkey
        obtain ⟨w, hw, -⟩ := hall _ (Table.mem_of_find? hv)
        exact Table.mem_keys_iff.mpr ⟨w, hw⟩
      refine .object (hdistinct.keys_iff hsize hsub) fun key v w hv hw => ?_
      have hmem := Table.mem_of_find? hv
      obtain ⟨w', hw', hvw⟩ := hall _ hmem
      rw [hw] at hw'
      cases hw'
      exact ih _ hmem hvw
    | _ => cases h

theorem sameContents_of_alike (h : Alike a b) (ha : a.Keyed) (hb : b.Keyed) :
    sameContents a b = true := by
  induction h with
  | undefined | null => rfl
  | number hxy => exact hxy
  | bool | text | node => simp [sameContents, strictEq]
  | @array ref ref' xs ys hlength _ ih =>
    cases ha with
    | array hxs =>
      cases hb with
      | array hys =>
        refine (sameItems_iff xs ys).mpr ⟨hlength, fun i v w hv hw => ?_⟩
        exact ih i v w hv hw (hxs v (List.mem_of_getElem? hv)) (hys w (List.mem_of_getElem? hw))
  | @object ref ref' fs gs hkeys _ ih =>
    cases ha with
    | object hfs hfs' =>
      cases hb with
      | object hgs hgs' =>
        rw [sameContents, Bool.and_eq_true, beq_iff_eq, fieldsWithin_iff]
        refine ⟨hfs.length_eq hgs hkeys, fun entry hentry => ?_⟩
        have hv := hfs.find?_eq_some_iff.mpr hentry
        obtain ⟨w, hw⟩ := Table.mem_keys_iff.mp ((hkeys _).mp (Table.mem_keys_iff.mpr ⟨_, hv⟩))
        exact ⟨w, hw, ih _ _ w hv hw (hfs' _ hentry) (hgs' _ (Table.mem_of_find? hw))⟩

theorem sameContents_iff_alike (ha : a.Keyed) (hb : b.Keyed) :
    sameContents a b = true ↔ Alike a b :=
  ⟨alike_of_sameContents ha, fun h => sameContents_of_alike h ha hb⟩

theorem sameContents_comm (ha : a.Keyed) (hb : b.Keyed) : sameContents a b = sameContents b a := by
  rw [Bool.eq_iff_iff, sameContents_iff_alike ha hb, sameContents_iff_alike hb ha]
  exact ⟨Alike.symm, Alike.symm⟩

-- a key that stands twice makes up for one that is missing, but not the other way around
example : sameContents (object 0 [("a", null), ("a", null)]) (object 1 [("a", null), ("b", null)]) =
      true ∧
    sameContents (object 1 [("a", null), ("b", null)]) (object 0 [("a", null), ("a", null)]) =
      false := by decide

theorem sameContents_trans (ha : a.Keyed) (hb : b.Keyed) (hc : c.Keyed)
    (hab : sameContents a b = true) (hbc : sameContents b c = true) : sameContents a c = true :=
  sameContents_of_alike ((alike_of_sameContents ha hab).trans (alike_of_sameContents hb hbc)) ha hc

theorem sameItems_replace {v w : Value} (h : ∀ b, sameContents v b = sameContents w b)
    (before after ys : List Value) :
    sameItems (before ++ v :: after) ys = sameItems (before ++ w :: after) ys := by
  induction before generalizing ys with
  | nil =>
    cases ys with
    | nil => rfl
    | cons y ys => simp only [List.nil_append, sameItems, h]
  | cons x before ih =>
    cases ys with
    | nil => rfl
    | cons y ys => simp only [List.cons_append, sameItems, ih]

theorem fieldsWithin_replace {v w : Value} (h : ∀ b, sameContents v b = sameContents w b)
    (key : String) (before after gs : List (String × Value)) :
    fieldsWithin (before ++ (key, v) :: after) gs =
      fieldsWithin (before ++ (key, w) :: after) gs := by
  induction before with
  | nil => simp only [List.nil_append, fieldsWithin, h]
  | cons entry before ih => simp only [List.cons_append, fieldsWithin, ih]

theorem fieldsWithin_perm {fs fs' : List (String × Value)} (h : fs.Perm fs')
    (gs : List (String × Value)) : fieldsWithin fs gs = fieldsWithin fs' gs := by
  rw [Bool.eq_iff_iff, fieldsWithin_iff, fieldsWithin_iff]
  simp only [h.mem_iff]

theorem sameContents_reordered (h : Reordered a b) (c : Value) :
    sameContents a c = sameContents b c := by
  induction h generalizing c with
  | refl => rfl
  | trans _ _ ih ih' => exact (ih c).trans (ih' c)
  | fields ref hperm =>
    cases c with
    | object => rw [sameContents, sameContents, hperm.length_eq, fieldsWithin_perm hperm]
    | _ => rfl
  | item ref before after _ ih =>
    cases c with
    | array => exact sameItems_replace ih before after _
    | _ => rfl
  | @field ref before after key v w _ ih =>
    cases c with
    | object =>
      rw [sameContents, sameContents, fieldsWithin_replace ih, List.length_append,
        List.length_append, List.length_cons, List.length_cons]
    | _ => rfl

theorem Reordered.keyed (h : Reordered a b) (ha : a.Keyed) : b.Keyed := by
  induction h with
  | refl => exact ha
  | trans _ _ ih ih' => exact ih' (ih ha)
  | fields ref hperm =>
    cases ha with
    | object hdistinct hall =>
      refine .object ?_ fun entry hentry => hall entry (hperm.mem_iff.mpr hentry)
      exact (hperm.map Prod.fst).nodup_iff.mp hdistinct
  | item ref before after _ ih =>
    cases ha with
    | array hall =>
      rw [List.forall_mem_append, List.forall_mem_cons] at hall
      obtain ⟨hbefore, hv, hafter⟩ := hall
      refine .array ?_
      rw [List.forall_mem_append, List.forall_mem_cons]
      exact ⟨hbefore, ih hv, hafter⟩
  | field ref before after key _ ih =>
    cases ha with
    | object hdistinct hall =>
      rw [List.forall_mem_append, List.forall_mem_cons] at hall
      obtain ⟨hbefore, hv, hafter⟩ := hall
      refine .object (by simpa [Table.Distinct, Table.keys] using hdistinct) ?_
      rw [List.forall_mem_append, List.forall_mem_cons]
      exact ⟨hbefore, ih hv, hafter⟩

/-- Number comparison is that of doubles. Contents are compared where no object has a key twice,
which is so of the values of JSON texts and of what expressions over such values come to. -/
theorem equalities :
    ((∀ a b, strictEq a b = strictEq b a) ∧
      (∀ a b c, strictEq a b = true → strictEq b c = true → strictEq a c = true) ∧
      ∀ a, strictEq a a = true ↔ ∀ x, a = number x → x.isNaN = false) ∧
    ((∀ a b, strictEq a b = true → looseEq a b = true) ∧ ∀ a b, looseEq a b = looseEq b a) ∧
    ((∀ a b, a.Keyed → b.Keyed → sameContents a b = sameContents b a) ∧
      ∀ a b c, a.Keyed → b.Keyed → c.Keyed → sameContents a b = true → sameContents b c = true →
        sameContents a c = true) ∧
    (∀ a a' b, a.Keyed → b.Keyed → Reordered a a' →
      a'.Keyed ∧ sameContents a b = sameContents a' b ∧ sameContents b a = sameContents b a') ∧
    (∀ src json next, Json.parse? src = some json → (ofJson next json).1.Keyed) ∧
    ∀ (ns ns' : Namespace) src v, ns.vars.All Keyed → ns.evaluate src = .ok (v, ns') → v.Keyed := by
  refine ⟨⟨strictEq_comm, fun a b c => strictEq_trans, strictEq_self_iff⟩,
    ⟨fun a b => looseEq_of_strictEq, looseEq_comm⟩,
    ⟨fun a b => sameContents_comm, fun a b c => sameContents_trans⟩, ?_, ?_, ?_⟩
  · intro a a' b ha hb hreordered
    have ha' := hreordered.keyed ha
    have hleft := sameContents_reordered hreordered b
    refine ⟨ha', hleft, ?_⟩
    rw [sameContents_comm hb ha, hleft, sameContents_comm ha' hb]
  · intro src json next hparse
    exact Json.keyed_of_parse hparse next
  · intro ns ns' src v hvars heval
    exact (closed_keyed.evaluate hvars heval).1

theorem equalities_of_two_orders :
    (object 0 [("on", bool true), ("items", array 1 [text "x", null])]).Keyed ∧
    (object 2 [("items", array 3 [text "x", null]), ("on", bool true)]).Keyed ∧
    sameContents (object 0 [("on", bool true), ("items", array 1 [text "x", null])])
      (object 2 [("items", array 3 [text "x", null]), ("on", bool true)]) = true ∧
    sameContents (object 2 [("items", array 3 [text "x", null]), ("on", bool true)])
      (object 0 [("on", bool true), ("items", array 1 [text "x", null])]) = true := by
  obtain ⟨-, -, ⟨hcomm, -⟩, -⟩ := equalities
  have hitems : ∀ ref, (array ref [text "x", null]).Keyed := fun ref => .array <| by
    rw [List.forall_mem_cons, List.forall_mem_singleton]
    exact ⟨.text "x", .null⟩
  have ha : (object 0 [("on", bool true), ("items", array 1 [text "x", null])]).Keyed :=
    .object (by unfold Table.Distinct; decide) <| by
      rw [List.forall_mem_cons, List.forall_mem_singleton]
      exact ⟨.bool true, hitems 1⟩
  have hb : (object 2 [("items", array 3 [text "x", null]), ("on", bool true)]).Keyed :=
    .object (by unfold Table.Distinct; decide) <| by
      rw [List.forall_mem_cons, List.forall_mem_singleton]
      exact ⟨hitems 3, .bool true⟩
  have hab : sameContents (object 0 [("on", bool true), ("items", array 1 [text "x", null])])
      (object 2 [("items", array 3 [text "x", null]), ("on", bool true)]) = true := by decide
  exact ⟨ha, hb, hab, (hcomm _ _ ha hb).symm.trans hab⟩

end Value

end ActiveMarkup
