import ActiveMarkup.Json
import ActiveMarkup.Proofs.Expr.Closure
set_option autoImplicit false

namespace ActiveMarkup

variable {id : NodeId}

/-- A handle that a value is, or has inside. -/
inductive Value.Mentions (id : NodeId) : Value → Prop where
  | node : Mentions id (.node id)
  | item {ref : Ref} {items : List Value} {v : Value} :
      v ∈ items → Mentions id v → Mentions id (.array ref items)
  | field {ref : Ref} {fields : List (String × Value)} {entry : String × Value} :
      entry ∈ fields → Mentions id entry.2 → Mentions id (.object ref fields)

namespace Table

def Mentions (t : Table Value) (id : NodeId) : Prop :=
  ∃ entry ∈ t, entry.2.Mentions id

theorem not_mentions_nil : ¬ Mentions [] id := by
  rintro ⟨_, hentry, -⟩
  cases hentry

theorem mentions_of_find? {t : Table Value} {key : String} {v : Value} (h : t.find? key = some v)
    (hv : v.Mentions id) : t.Mentions id :=
  ⟨(key, v), mem_of_find? h, hv⟩

theorem keys_prefix_insert {α : Type} (t : Table α) (key : String) (v : α) :
    t.keys <+: (t.insert key v).keys := by
  rw [keys_insert]
  split
  · exact List.prefix_refl _
  · exact List.prefix_append _ _

theorem mentions_insert {t : Table Value} {key : String} {v : Value}
    (h : Mentions (t.insert key v) id) : t.Mentions id ∨ v.Mentions id := by
  obtain ⟨entry, hentry, hmentions⟩ := h
  rcases mem_of_mem_insert hentry with rfl | hold
  · exact .inr hmentions
  · exact .inl ⟨entry, hold, hmentions⟩

end Table

def Value.Within (t : Table Value) (v : Value) : Prop :=
  ∀ id, v.Mentions id → t.Mentions id

theorem Value.closed_within (t : Table Value) : Closed (Within t) where
  plain v hplain id hv := by cases hv <;> cases hplain
  array ref items hall id := by
    rintro (_ | ⟨hv, hid⟩)
    exact hall _ hv id hid
  item ref items hall v hv id hid := hall id (.item hv hid)
  field ref fields hall entry hentry id hid := hall id (.field hentry hid)

theorem Table.all_within (t : Table Value) : t.All (Value.Within t) :=
  fun entry hentry _ hid => ⟨entry, hentry, hid⟩

namespace Namespace

variable {ns ns' : Namespace}

/-- Names after texts were evaluated: the functions are the ones there were, the variables keep
their places, and they hold no handle that they did not hold before. -/
structure Reworked (ns ns' : Namespace) : Prop where
  functions : ns'.functions = ns.functions
  serial : ns'.nextSerial = ns.nextSerial
  keys : ns.vars.keys <+: ns'.vars.keys
  handles : ∀ id, ns'.vars.Mentions id → ns.vars.Mentions id

theorem Reworked.refl (ns : Namespace) : Reworked ns ns := ⟨rfl, rfl, List.prefix_rfl, fun _ => id⟩

theorem Reworked.ref (ns : Namespace) (next : Ref) : Reworked ns { ns with nextRef := next } :=
  ⟨rfl, rfl, List.prefix_rfl, fun _ => id⟩

theorem resolve_spec (ns : Namespace) (src : String) :
    (∃ next, (ns.resolve src).2 = { ns with nextRef := next }) ∧
      ∀ id, (ns.resolve src).1.Mentions id → ns.vars.Mentions id :=
  ((Value.closed_within ns.vars).resolve ns.vars.all_within src).symm

theorem keys_prefix_executeStmt {s : Stmt} (h : s.execute ns = .ok ns') :
    ns'.functions = ns.functions ∧ ns'.nextSerial = ns.nextSerial ∧
      ns.vars.keys <+: ns'.vars.keys := by
  rcases Stmt.execute_cases h with ⟨next, rfl⟩ | ⟨name, v, next, rfl, -⟩
  · exact ⟨rfl, rfl, List.prefix_rfl⟩
  · exact ⟨rfl, rfl, ns.vars.keys_prefix_insert name v⟩

theorem keys_prefix_executeAll (stmts : List Stmt) (ns : Namespace) :
    (Stmt.executeAll stmts ns).2.functions = ns.functions ∧
      (Stmt.executeAll stmts ns).2.nextSerial = ns.nextSerial ∧
      ns.vars.keys <+: (Stmt.executeAll stmts ns).2.vars.keys := by
  induction stmts generalizing ns with
  | nil => exact ⟨rfl, rfl, List.prefix_rfl⟩
  | cons s rest ih =>
    rw [Stmt.executeAll]
    split
    next ns₁ hs =>
      obtain ⟨hfunctions, hserial, hkeys⟩ := keys_prefix_executeStmt hs
      obtain ⟨hfunctions', hserial', hkeys'⟩ := ih ns₁
      exact ⟨hfunctions'.trans hfunctions, hserial'.trans hserial, hkeys.trans hkeys'⟩
    next => exact ⟨rfl, rfl, List.prefix_rfl⟩

theorem reworked_execute (ns : Namespace) (src : String) : ns.Reworked (ns.execute src).2 := by
  have hall := (Value.closed_within ns.vars).execute ns.vars.all_within src
  have hhandles : ∀ id, (ns.execute src).2.vars.Mentions id → ns.vars.Mentions id :=
    fun id ⟨entry, hentry, hid⟩ => hall entry hentry id hid
  unfold execute at hhandles ⊢
  split at hhandles
  next stmts _ =>
    obtain ⟨hfunctions, hserial, hkeys⟩ := keys_prefix_executeAll stmts ns
    exact ⟨hfunctions, hserial, hkeys, hhandles⟩
  next => exact .refl ns

end Namespace

namespace Value

mutual

theorem not_mentions_ofJson (next : Ref) (json : Json) : ¬ (ofJson next json).1.Mentions id := by
  cases json with
  | null | bool | number | text => nofun
  | array items =>
    rw [ofJson]
    rintro (_ | ⟨hv, hid⟩)
    exact not_mentions_ofJsonItems (next + 1) items _ hv hid
  | object fields =>
    rw [ofJson]
    rintro (_ | _ | ⟨hv, hid⟩)
    exact not_mentions_ofJsonFields (next + 1) fields _ hv hid

theorem not_mentions_ofJsonItems (next : Ref) (items : List Json) :
    ∀ v ∈ (ofJsonItems next items).1, ¬ v.Mentions id := by
  cases items with
  | nil => nofun
  | cons json rest =>
    rw [ofJsonItems]
    refine List.forall_mem_cons.mpr ⟨not_mentions_ofJson next json, ?_⟩
    exact not_mentions_ofJsonItems _ rest

theorem not_mentions_ofJsonFields (next : Ref) (fields : List (String × Json)) :
    ∀ entry ∈ (ofJsonFields next fields).1, ¬ entry.2.Mentions id := by
  cases fields with
  | nil => nofun
  | cons field rest =>
    rw [ofJsonFields]
    refine List.forall_mem_cons.mpr ⟨not_mentions_ofJson next field.2, ?_⟩
    exact not_mentions_ofJsonFields _ rest

end

end Value

end ActiveMarkup
