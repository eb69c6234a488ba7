import ActiveMarkup.Expr.Statement
import ActiveMarkup.Proofs.Expr.Statements
import ActiveMarkup.Proofs.Markup.Style
set_option autoImplicit false

namespace ActiveMarkup

/-- A property of all values without contents, of the arrays whose items have it, and of what stands
in the arrays and objects that have it. -/
structure Value.Closed (P : Value → Prop) : Prop where
  plain : ∀ v, v.isStructured = false → P v
  array : ∀ ref items, (∀ v ∈ items, P v) → P (.array ref items)
  item : ∀ ref items, P (.array ref items) → ∀ v ∈ items, P v
  field : ∀ ref fields, P (.object ref fields) → ∀ entry ∈ fields, P entry.2

def Table.All (P : Value → Prop) (t : Table Value) : Prop :=
  ∀ entry ∈ t, P entry.2

variable {P : Value → Prop}

namespace Table

theorem mem_of_find? {α : Type} {t : Table α} {key : String} {v : α} (h : t.find? key = some v) :
    (key, v) ∈ t := by
  induction t with
  | nil => cases h
  | cons entry rest ih =>
    obtain ⟨k, w⟩ := entry
    rw [find?] at h
    split at h
    next hk =>
      cases h
      exact hk ▸ List.mem_cons_self
    next => exact List.mem_cons_of_mem _ (ih h)

theorem All.insert {t : Table Value} (h : All P t) {v : Value} (hv : P v) (key : String) :
    All P (Table.insert t key v) := by
  intro entry hentry
  rcases mem_of_mem_insert hentry with rfl | hold
  · exact hv
  · exact h entry hold

end Table

theorem BinaryOp.plain_apply {op : BinaryOp} {l r w : Value} (h : op.apply l r = .ok w) :
    w.isStructured = false := by
  cases op with
  | and | or => cases h
  | add =>
    cases h
    rw [Value.sum]
    split <;> rfl
  | _ =>
    cases h
    rfl

namespace Value.Closed

theorem itemAt (h : Closed P) {ref : Ref} {items : List Value} (hv : P (.array ref items))
    (x : Float) : P (itemAt items x) := by
  unfold Value.itemAt
  split
  next n _ =>
    cases hn : items[n]? with
    | none => exact h.plain _ rfl
    | some v => exact h.item ref items hv v (List.mem_of_getElem? hn)
  next => exact h.plain _ rfl

theorem charAt (h : Closed P) (s : String) (x : Float) : P (charAt s x) := by
  unfold Value.charAt
  split
  · split <;> exact h.plain _ rfl
  · exact h.plain _ rfl

theorem member (h : Closed P) {v w : Value} {name : String} (hv : P v)
    (hmember : v.member name = .ok w) : P w := by
  cases v with
  | undefined | null | node => cases hmember
  | bool | number =>
    cases hmember
    exact h.plain _ rfl
  | text s =>
    cases hmember
    split <;> exact h.plain _ rfl
  | object ref fields =>
    cases hmember
    cases hf : Table.find? fields name with
    | none => exact h.plain _ rfl
    | some v => exact h.field ref fields hv _ (Table.mem_of_find? hf)
  | array ref items =>
    cases hmember
    split
    · exact h.plain _ rfl
    · split
      · exact h.itemAt hv _
      · exact h.plain _ rfl

theorem indexed (h : Closed P) {v i w : Value} (hv : P v) (hitem : v.item i = .ok w) : P w := by
  unfold Value.item at hitem
  split at hitem
  · cases hitem
    exact h.itemAt hv _
  · cases hitem
    exact h.charAt _ _
  · exact h.member hv hitem

theorem unary (h : Closed P) (op : UnaryOp) (v : Value) : P (op.apply v) := by
  cases op <;> exact h.plain _ rfl

theorem valueOf {vars : Table Value} (hvars : vars.All P) {name : String} {v : Value}
    (h : valueOf vars name = .ok v) : P v := by
  unfold ActiveMarkup.valueOf at h
  split at h
  next w hw =>
    cases h
    exact hvars _ (Table.mem_of_find? hw)
  next => cases h

end Value.Closed

namespace Expr

open Grammar

theorem eval_bind {α β : Type} {x : Eval α} {f : α → Eval β} {n m : Ref} {b : β} :
    (x >>= f) n = .ok (b, m) ↔ ∃ a k, x n = .ok (a, k) ∧ f a k = .ok (b, m) := by
  constructor
  · intro h
    obtain ⟨⟨a, k⟩, hx, hf⟩ := Parser.bind_eq_ok.mp h
    exact ⟨a, k, hx, hf⟩
  · rintro ⟨a, k, hx, hf⟩
    exact Parser.bind_eq_ok.mpr ⟨(a, k), hx, hf⟩

theorem eval_lift {α : Type} {x : Except ExprError α} {n m : Ref} {a : α}
    (h : (liftM x : Eval α) n = .ok (a, m)) : x = .ok a := by
  obtain ⟨b, hx, hb⟩ := Parser.bind_eq_ok.mp h
  cases hb
  exact hx

def Gives (P : Value → Prop) (vars : Table Value) (e : Expr) : Prop :=
  ∀ n v m, e.eval vars n = .ok (v, m) → P v

theorem gives_evalAll {vars : Table Value} {es : List Expr} (h : ∀ e ∈ es, Gives P vars e)
    {n m : Ref} {vs : List Value} (heval : evalAll vars es n = .ok (vs, m)) : ∀ v ∈ vs, P v := by
  induction es generalizing n vs with
  | nil =>
    rw [evalAll] at heval
    cases heval
    nofun
  | cons e rest ih =>
    rw [evalAll] at heval
    obtain ⟨w, k, hfirst, heval⟩ := eval_bind.mp heval
    obtain ⟨ws, l, hrest, heval⟩ := eval_bind.mp heval
    cases heval
    have hmore := ih (fun e' he' => h e' (List.mem_cons_of_mem _ he')) hrest
    exact List.forall_mem_cons.mpr ⟨h e List.mem_cons_self n w k hfirst, hmore⟩

theorem gives_binary (h : Value.Closed P) {vars : Table Value} {op : BinaryOp} {l r : Expr}
    (hl : Gives P vars l) (hr : Gives P vars r) : Gives P vars (.binary op l r) := by
  intro n v m heval
  cases op with
  | and =>
    rw [eval] at heval
    obtain ⟨w, k, hw, heval⟩ := eval_bind.mp heval
    split at heval
    · exact hr k v m heval
    · cases heval
      exact hl n _ _ hw
  | or =>
    rw [eval] at heval
    obtain ⟨w, k, hw, heval⟩ := eval_bind.mp heval
    split at heval
    · cases heval
      exact hl n _ _ hw
    · exact hr k v m heval
  | _ =>
    rw [eval] at heval
    · obtain ⟨w, k, -, heval⟩ := eval_bind.mp heval
      obtain ⟨u, j, -, heval⟩ := eval_bind.mp heval
      exact h.plain v (BinaryOp.plain_apply (eval_lift heval))
    · nofun
    · nofun

theorem gives_of_derives (h : Value.Closed P) {vars : Table Value} (hvars : vars.All P)
    {phrase : Phrase} {u : List Lexeme} {e : Expr} (hderives : Derives phrase u e) :
    Gives P vars e := by
  induction hderives with
  | number | text =>
    intro n v m heval
    rw [eval] at heval
    cases heval
    exact h.plain _ rfl
  | @literal name w hmem =>
    intro n v m heval
    rw [eval] at heval
    cases heval
    refine h.plain _ ?_
    simp only [literalNames, List.mem_cons, Prod.mk.injEq, List.not_mem_nil, or_false] at hmem
    rcases hmem with ⟨-, rfl⟩ | ⟨-, rfl⟩ | ⟨-, rfl⟩ | ⟨-, rfl⟩ | ⟨-, rfl⟩ | ⟨-, rfl⟩
    all_goals rfl
  | «variable» =>
    intro n v m heval
    rw [eval] at heval
    exact Value.Closed.valueOf hvars (eval_lift heval)
  | parens _ ih | primary _ ih | access _ ih | tighter _ ih => exact ih
  | array items _ ih =>
    intro n v m heval
    rw [eval] at heval
    obtain ⟨vs, k, hvs, heval⟩ := eval_bind.mp heval
    obtain ⟨ref, l, -, heval⟩ := eval_bind.mp heval
    cases heval
    refine h.array ref vs (gives_evalAll (fun e he => ?_) hvs)
    obtain ⟨item, hitem, rfl⟩ := List.mem_map.mp he
    exact ih item hitem
  | member name _ ih =>
    intro n v m heval
    rw [eval] at heval
    obtain ⟨w, k, hw, heval⟩ := eval_bind.mp heval
    exact h.member (ih n w k hw) (eval_lift heval)
  | index _ _ ihe _ =>
    intro n v m heval
    rw [eval] at heval
    obtain ⟨w, k, hw, heval⟩ := eval_bind.mp heval
    obtain ⟨i, l, -, heval⟩ := eval_bind.mp heval
    exact h.indexed (ihe n w k hw) (eval_lift heval)
  | unary op _ _ =>
    intro n v m heval
    rw [eval] at heval
    obtain ⟨w, k, -, heval⟩ := eval_bind.mp heval
    cases heval
    exact h.unary op w
  | binary op _ _ ihl ihr => exact gives_binary h ihl ihr

end Expr

/-- What a statement does to the names: nothing but using up identities, or one declaration, of a
value without contents or of what the expression of an assignment comes to. -/
theorem Stmt.execute_cases {s : Stmt} {ns ns' : Namespace} (h : s.execute ns = .ok ns') :
    (∃ next, ns' = { ns with nextRef := next }) ∨
      ∃ name v next, ns' = { ns with nextRef := next }.declare name v ∧
        (v.isStructured = false ∨ ∃ e ∈ s.value?, e.eval ns.vars ns.nextRef = .ok (v, next)) := by
  cases s with
  | assign name op e =>
    obtain ⟨⟨right, next⟩, heval, h⟩ := Parser.bind_eq_ok.mp h
    cases op with
    | none =>
      cases h
      exact .inr ⟨name, right, next, rfl, .inr ⟨e, rfl, heval⟩⟩
    | some op =>
      obtain ⟨current, -, h⟩ := Parser.bind_eq_ok.mp h
      obtain ⟨value, happly, h⟩ := Parser.bind_eq_ok.mp h
      cases h
      exact .inr ⟨name, value, next, rfl, .inl (BinaryOp.plain_apply happly)⟩
  | step name up =>
    obtain ⟨current, -, h⟩ := Parser.bind_eq_ok.mp h
    cases h
    exact .inr ⟨name, _, ns.nextRef, rfl, .inl rfl⟩
  | expr e =>
    obtain ⟨⟨value, next⟩, -, h⟩ := Parser.bind_eq_ok.mp h
    cases h
    exact .inl ⟨next, rfl⟩

namespace Value.Closed

variable {ns ns' : Namespace}

theorem evaluate (h : Closed P) (hvars : ns.vars.All P) {src : String} {v : Value}
    (heval : ns.evaluate src = .ok (v, ns')) :
    P v ∧ ∃ next, ns' = { ns with nextRef := next } := by
  obtain ⟨e, hparse, heval⟩ := Parser.bind_eq_ok.mp heval
  obtain ⟨⟨w, next⟩, hw, hns⟩ := Parser.bind_eq_ok.mp heval
  cases hns
  obtain ⟨u, hderives⟩ := Expr.derives_of_parse hparse
  exact ⟨Expr.gives_of_derives h hvars hderives _ v next hw, next, rfl⟩

theorem resolve (h : Closed P) (hvars : ns.vars.All P) (src : String) :
    P (ns.resolve src).1 ∧ ∃ next, (ns.resolve src).2 = { ns with nextRef := next } := by
  unfold Namespace.resolve
  split
  next v hv => exact ⟨hvars _ (Table.mem_of_find? hv), ns.nextRef, rfl⟩
  next =>
    split
    · split
      next found he => exact h.evaluate hvars he
      next => exact ⟨h.plain _ rfl, ns.nextRef, rfl⟩
    · exact ⟨h.plain _ rfl, ns.nextRef, rfl⟩

theorem executeStmt (h : Closed P) (hvars : ns.vars.All P) {s : Stmt}
    (hs : ∀ e ∈ s.value?, Expr.Gives P ns.vars e) (hexec : s.execute ns = .ok ns') :
    ns'.vars.All P := by
  rcases Stmt.execute_cases hexec with ⟨next, rfl⟩ | ⟨name, v, next, rfl, hv⟩
  · exact hvars
  · refine hvars.insert ?_ name
    rcases hv with hplain | ⟨e, he, heval⟩
    · exact h.plain v hplain
    · exact hs e he _ v next heval

theorem executeAll (h : Closed P) {stmts : List Stmt}
    (hstmts : ∀ s ∈ stmts, ∀ e ∈ s.value?, ∀ vars, Table.All P vars → Expr.Gives P vars e)
    (hvars : ns.vars.All P) : (Stmt.executeAll stmts ns).2.vars.All P := by
  induction stmts generalizing ns with
  | nil => exact hvars
  | cons s rest ih =>
    rw [Stmt.executeAll]
    split
    next ns₁ hs =>
      have hfirst := h.executeStmt hvars (fun e he => hstmts s List.mem_cons_self e he _ hvars) hs
      exact ih (fun s' hs' => hstmts s' (List.mem_cons_of_mem _ hs')) hfirst
    next => exact hvars

theorem execute (h : Closed P) (hvars : ns.vars.All P) (src : String) :
    (ns.execute src).2.vars.All P := by
  unfold Namespace.execute
  split
  next stmts hparse =>
    refine h.executeAll (fun s hs e he vars hall => ?_) hvars
    obtain ⟨u, hderives⟩ := Stmt.derives_of_parseAll hparse hs he
    exact Expr.gives_of_derives h hall hderives
  next => exact hvars

end Value.Closed

end ActiveMarkup
