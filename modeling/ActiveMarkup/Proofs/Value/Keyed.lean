import ActiveMarkup.Json
import ActiveMarkup.Proofs.Expr.Closure
set_option autoImplicit false

namespace ActiveMarkup

theorem Table.distinct_nil {α : Type} : Distinct ([] : Table α) := List.nodup_nil

namespace Value

inductive Keyed : Value → Prop where
  | undefined : Keyed .undefined
  | null : Keyed .null
  | bool (b : Bool) : Keyed (.bool b)
  | number (x : Float) : Keyed (.number x)
  | text (s : String) : Keyed (.text s)
  | node (id : NodeId) : Keyed (.node id)
  | array {ref : Ref} {items : List Value} : (∀ v ∈ items, Keyed v) → Keyed (.array ref items)
  | object {ref : Ref} {fields : List (String × Value)} : Table.Distinct fields →
      (∀ entry ∈ fields, Keyed entry.2) → Keyed (.object ref fields)

theorem closed_keyed : Closed Keyed where
  plain v hplain := by
    cases v with
    | array | object => cases hplain
    | _ => constructor
  array ref items := .array
  item ref items h := by
    cases h with
    | array hall => exact hall
  field ref fields h := by
    cases h with
    | object _ hall => exact hall

theorem keyed_ofJsonItems {items : List Json}
    (h : ∀ json ∈ items, ∀ next, (ofJson next json).1.Keyed) (next : Ref) :
    ∀ v ∈ (ofJsonItems next items).1, v.Keyed := by
  induction items generalizing next with
  | nil => nofun
  | cons json rest ih =>
    rw [ofJsonItems]
    obtain ⟨hjson, hrest⟩ := List.forall_mem_cons.mp h
    exact List.forall_mem_cons.mpr ⟨hjson next, ih hrest _⟩

theorem keyed_ofJsonFields {fields : List (String × Json)}
    (h : ∀ entry ∈ fields, ∀ next, (ofJson next entry.2).1.Keyed) (next : Ref) :
    ∀ entry ∈ (ofJsonFields next fields).1, entry.2.Keyed := by
  induction fields generalizing next with
  | nil => nofun
  | cons field rest ih =>
    rw [ofJsonFields]
    obtain ⟨hfield, hrest⟩ := List.forall_mem_cons.mp h
    exact List.forall_mem_cons.mpr ⟨hfield next, ih hrest _⟩

theorem keys_ofJsonFields (next : Ref) (fields : List (String × Json)) :
    Table.keys (ofJsonFields next fields).1 = Table.keys fields := by
  induction fields generalizing next with
  | nil => rfl
  | cons field rest ih =>
    rw [ofJsonFields]
    exact congrArg (field.1 :: ·) (ih _)

end Value

namespace Json

/-- A JSON value that makes a value without a key that stands twice. -/
def Keyed (json : Json) : Prop :=
  ∀ next, (Value.ofJson next json).1.Keyed

theorem keyed_array {items : List Json} (h : ∀ json ∈ items, json.Keyed) :
    Keyed (.array items) := by
  intro next
  rw [Value.ofJson]
  exact .array (Value.keyed_ofJsonItems h _)

theorem keyed_object {fields : List (String × Json)} (hdistinct : Table.Distinct fields)
    (h : ∀ entry ∈ fields, entry.2.Keyed) : Keyed (.object fields) := by
  intro next
  rw [Value.ofJson]
  refine .object ?_ (Value.keyed_ofJsonFields h _)
  rw [Table.Distinct, Value.keys_ofJsonFields]
  exact hdistinct

theorem keyed_plain {json : Json} (h : ∀ items, json ≠ .array items)
    (h' : ∀ fields, json ≠ .object fields) : json.Keyed := by
  intro next
  cases json with
  | array items => exact (h items rfl).elim
  | object fields => exact (h' fields rfl).elim
  | _ =>
    rw [Value.ofJson]
    constructor

variable {json : Json} {cs rest : List Char} {bound room : Nat}

theorem keyed_readNumber {negative : Bool} (h : readNumber? negative cs = some (json, rest)) :
    json.Keyed := by
  simp only [readNumber?] at h
  split at h
  · cases h
  · simp only [Option.bind_eq_bind, Option.bind_eq_some_iff, Option.some.injEq, Prod.mk.injEq] at h
    obtain ⟨_, -, _, -, x, -, rfl, -⟩ := h
    exact keyed_plain nofun nofun

theorem keyed_expectWord {word : String} {result : Json}
    (h : expectWord? word result cs = some (json, rest)) (hresult : result.Keyed) : json.Keyed := by
  rw [expectWord?] at h
  split at h
  · cases h
    exact hresult
  · cases h

structure KeyedBelow (bound : Nat) : Prop where
  value : ∀ room cs json rest, readValue? bound room cs = some (json, rest) → json.Keyed
  items : ∀ room items cs json rest, (∀ item ∈ items, item.Keyed) →
    readItems? bound room items cs = some (json, rest) → json.Keyed
  fields : ∀ room fields cs json rest, Table.Distinct fields → (∀ entry ∈ fields, entry.2.Keyed) →
    readFields? bound room fields cs = some (json, rest) → json.Keyed

theorem keyed_readValue (h : KeyedBelow bound)
    (hread : readValue? (bound + 1) room cs = some (json, rest)) : json.Keyed := by
  rw [readValue?] at hread
  split at hread
  · exact keyed_expectWord hread (keyed_plain nofun nofun)
  · exact keyed_expectWord hread (keyed_plain nofun nofun)
  · exact keyed_expectWord hread (keyed_plain nofun nofun)
  · simp only [Option.bind_eq_bind, Option.bind_eq_some_iff, Option.some.injEq,
      Prod.mk.injEq] at hread
    obtain ⟨_, -, rfl, -⟩ := hread
    exact keyed_plain nofun nofun
  · split at hread
    · cases hread
    · split at hread
      · cases hread
        exact keyed_array (List.forall_mem_nil _)
      · exact h.items _ _ _ _ _ (List.forall_mem_nil _) hread
  · split at hread
    · cases hread
    · split at hread
      · cases hread
        exact keyed_object Table.distinct_nil (List.forall_mem_nil _)
      · exact h.fields _ _ _ _ _ Table.distinct_nil (List.forall_mem_nil _) hread
  · exact keyed_readNumber hread
  · exact keyed_readNumber hread

theorem keyed_readItems (h : KeyedBelow bound) {items : List Json}
    (hitems : ∀ item ∈ items, item.Keyed)
    (hread : readItems? (bound + 1) room items cs = some (json, rest)) : json.Keyed := by
  rw [readItems?] at hread
  obtain ⟨⟨v, rest'⟩, hv, hread⟩ := Option.bind_eq_some_iff.mp hread
  have hall : ∀ item ∈ v :: items, item.Keyed :=
    List.forall_mem_cons.mpr ⟨h.value _ _ _ _ hv, hitems⟩
  dsimp only at hread
  split at hread
  · cases hread
    exact keyed_array fun item hitem => hall item (List.mem_reverse.mp hitem)
  · exact h.items _ _ _ _ _ hall hread
  · cases hread

theorem keyed_readFields (h : KeyedBelow bound) {fields : List (String × Json)}
    (hdistinct : Table.Distinct fields) (hfields : ∀ entry ∈ fields, entry.2.Keyed)
    (hread : readFields? (bound + 1) room fields cs = some (json, rest)) : json.Keyed := by
  rw [readFields?] at hread
  split at hread
  · obtain ⟨⟨key, rest₁⟩, -, hread⟩ := Option.bind_eq_some_iff.mp hread
    dsimp only at hread
    split at hread
    · obtain ⟨⟨v, rest₂⟩, hv, hread⟩ := Option.bind_eq_some_iff.mp hread
      have hdistinct' := hdistinct.insert key v
      have hall : ∀ entry ∈ Table.insert fields key v, entry.2.Keyed := by
        intro entry hentry
        rcases Table.mem_of_mem_insert hentry with rfl | hold
        · exact h.value _ _ _ _ hv
        · exact hfields entry hold
      dsimp only at hread
      split at hread
      · cases hread
        exact keyed_object hdistinct' hall
      · exact h.fields _ _ _ _ _ hdistinct' hall hread
      · cases hread
    · cases hread
  · cases hread

theorem keyedBelow (bound : Nat) : KeyedBelow bound := by
  induction bound with
  | zero =>
    constructor
    case value => intro room cs json rest h; cases h
    case items => intro room items cs json rest _ h; cases h
    case fields => intro room fields cs json rest _ _ h; cases h
  | succ bound ih =>
    exact ⟨fun _ _ _ _ => keyed_readValue ih, fun _ _ _ _ _ => keyed_readItems ih,
      fun _ _ _ _ _ => keyed_readFields ih⟩

theorem keyed_of_parse {src : String} (h : parse? src = some json) : json.Keyed := by
  obtain ⟨⟨v, rest⟩, hread, h⟩ := Option.bind_eq_some_iff.mp h
  dsimp only at h
  split at h
  · cases h
    exact (keyedBelow _).value _ _ _ _ hread
  · cases h

end Json

end ActiveMarkup
