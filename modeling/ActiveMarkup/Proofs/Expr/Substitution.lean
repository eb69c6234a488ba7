import ActiveMarkup.Expr.Statement
import Mathlib
set_option autoImplicit false

namespace ActiveMarkup

variable {vars vars' : Table Value} {x : String} {v : Value} {op : BinaryOp} {l r l' r' : Expr}

namespace Expr

mutual

/-- The expression with a value in all places of a variable. -/
def replace (x : String) (v : Value) : Expr → Expr
  | literal w => literal w
  | .variable name => if name = x then literal v else .variable name
  | array items => array (replaceAll x v items)
  | unary op operand => unary op (replace x v operand)
  | binary op left right => binary op (replace x v left) (replace x v right)
  | member target name => member (replace x v target) name
  | index target i => index (replace x v target) (replace x v i)

def replaceAll (x : String) (v : Value) : List Expr → List Expr
  | [] => []
  | e :: rest => replace x v e :: replaceAll x v rest

end

mutual

def Reads (y : String) : Expr → Prop
  | literal _ => False
  | .variable name => name = y
  | array items => ReadsAny y items
  | unary _ operand => operand.Reads y
  | binary _ left right => left.Reads y ∨ right.Reads y
  | member target _ => target.Reads y
  | index target i => target.Reads y ∨ i.Reads y

def ReadsAny (y : String) : List Expr → Prop
  | [] => False
  | e :: rest => e.Reads y ∨ ReadsAny y rest

end

theorem eval_binary_congr (hl : l.eval vars = l'.eval vars') (hr : r.eval vars = r'.eval vars') :
    (binary op l r).eval vars = (binary op l' r').eval vars' := by
  cases op <;> simp only [eval, hl, hr]

theorem valueOf_insert (vars : Table Value) (x : String) (v : Value) (y : String) :
    valueOf (vars.insert x v) y = if y = x then .ok v else valueOf vars y := by
  rw [valueOf, valueOf]
  by_cases hy : y = x
  · rw [hy, Table.find?_insert_same, if_pos rfl]
  · rw [Table.find?_insert_other vars v hy, if_neg hy]

mutual

theorem eval_replace (e : Expr) : (e.replace x v).eval vars = e.eval (vars.insert x v) := by
  cases e with
  | literal w => rw [replace, eval, eval]
  | «variable» y =>
    rw [replace, eval, valueOf_insert]
    by_cases hy : y = x
    · rw [if_pos hy, if_pos hy, eval]
      rfl
    · rw [if_neg hy, if_neg hy, eval]
  | array items => rw [replace, eval, eval, evalAll_replace items]
  | unary op operand => rw [replace, eval, eval, eval_replace operand]
  | binary op left right =>
    rw [replace]
    exact eval_binary_congr (eval_replace left) (eval_replace right)
  | member target name => rw [replace, eval, eval, eval_replace target]
  | index target i => rw [replace, eval, eval, eval_replace target, eval_replace i]

theorem evalAll_replace (es : List Expr) :
    evalAll vars (replaceAll x v es) = evalAll (vars.insert x v) es := by
  cases es with
  | nil => rw [replaceAll, evalAll, evalAll]
  | cons e rest => rw [replaceAll, evalAll, evalAll, eval_replace e, evalAll_replace rest]

end

mutual

theorem eval_congr (e : Expr) (h : ∀ y, e.Reads y → vars'.find? y = vars.find? y) :
    e.eval vars' = e.eval vars := by
  cases e with
  | literal w => rw [eval, eval]
  | «variable» y => rw [eval, eval, valueOf, valueOf, h y rfl]
  | array items => rw [eval, eval, evalAll_congr items h]
  | unary op operand => rw [eval, eval, eval_congr operand h]
  | binary op left right =>
    exact eval_binary_congr (eval_congr left fun y hy => h y (.inl hy))
      (eval_congr right fun y hy => h y (.inr hy))
  | member target name => rw [eval, eval, eval_congr target h]
  | index target i =>
    rw [eval, eval, eval_congr target fun y hy => h y (.inl hy),
      eval_congr i fun y hy => h y (.inr hy)]

theorem evalAll_congr (es : List Expr) (h : ∀ y, ReadsAny y es → vars'.find? y = vars.find? y) :
    evalAll vars' es = evalAll vars es := by
  cases es with
  | nil => rw [evalAll, evalAll]
  | cons e rest =>
    rw [evalAll, evalAll, eval_congr e fun y hy => h y (.inl hy),
      evalAll_congr rest fun y hy => h y (.inr hy)]

end

mutual

/-- The value brings no variable with it, whatever it spells. -/
theorem reads_replace (e : Expr) (y : String) : (e.replace x v).Reads y ↔ e.Reads y ∧ y ≠ x := by
  cases e with
  | literal w => simp only [replace, Reads, false_and]
  | «variable» name =>
    by_cases hname : name = x
    · rw [replace, if_pos hname, Reads, Reads, hname]
      exact ⟨False.elim, fun h => h.2 h.1.symm⟩
    · rw [replace, if_neg hname, Reads]
      exact ⟨fun h => ⟨h, h ▸ hname⟩, And.left⟩
  | array items => simp only [replace, Reads, readsAny_replaceAll items]
  | unary op operand => simp only [replace, Reads, reads_replace operand]
  | binary op left right =>
    simp only [replace, Reads, reads_replace left, reads_replace right, or_and_right]
  | member target name => simp only [replace, Reads, reads_replace target]
  | index target i =>
    simp only [replace, Reads, reads_replace target, reads_replace i, or_and_right]

theorem readsAny_replaceAll (es : List Expr) (y : String) :
    ReadsAny y (replaceAll x v es) ↔ ReadsAny y es ∧ y ≠ x := by
  cases es with
  | nil => simp only [replaceAll, ReadsAny, false_and]
  | cons e rest =>
    simp only [replaceAll, ReadsAny, reads_replace e, readsAny_replaceAll rest, or_and_right]

end

end Expr

namespace Namespace

/-- A variable stands for its value. To evaluate an expression where a variable has a value is to
evaluate the expression with the value in the place of the variable, with the same result, the same
failure and the same identities for new arrays. A text is read before any value is looked at, and
then the same is true. So an evaluation depends on the variables that occur in the expression only,
and the value adds none to them: another variable does not matter even if the value spells it. -/
theorem eval_declare (e : Expr) (x : String) (v : Value) (ns : Namespace) :
    e.eval (ns.declare x v).vars = (e.replace x v).eval ns.vars ∧
    (∀ src, (ns.declare x v).evaluate src = do
      let e ← Expr.parse src
      let (w, next) ← (e.replace x v).eval ns.vars ns.nextRef
      pure (w, { ns.declare x v with nextRef := next })) ∧
    (∀ y, (e.replace x v).Reads y ↔ e.Reads y ∧ y ≠ x) ∧
    (∀ ns' : Namespace, (∀ y, e.Reads y → ns'.lookup y = ns.lookup y) →
      e.eval ns'.vars = e.eval ns.vars) ∧
    ∀ y w, ¬ e.Reads y →
      e.eval ((ns.declare x v).declare y w).vars = e.eval (ns.declare x v).vars := by
  have hreplace : ∀ e : Expr, (e.replace x v).eval ns.vars = e.eval (ns.declare x v).vars :=
    fun e => Expr.eval_replace e
  refine ⟨(hreplace e).symm, fun src => ?_, e.reads_replace, fun ns' h => e.eval_congr h,
    fun y w hy => e.eval_congr fun z hz => ?_⟩
  · simp only [hreplace]
    rfl
  · exact Table.find?_insert_other _ w fun hzy => hy (hzy ▸ hz)

/-- The value spells a variable, and is not read again. Without that variable, or with another value
for it, the result is the same, and an operator that the value spells is not read either. -/
theorem eval_declare_spelled :
    let e : Expr := .binary .add (.variable "a") (.literal (.text "1"))
    let ns := empty.declare "b" (.text "5")
    Expr.parse "a + '1'" = .ok e ∧ e.replace "a" (.text "b") =
      .binary .add (.literal (.text "b")) (.literal (.text "1")) ∧
    (ns.declare "a" (.text "b")).evaluate "a + '1'" =
      .ok (.text "b1", ns.declare "a" (.text "b")) ∧
    e.eval (empty.declare "a" (.text "b")).vars = e.eval (ns.declare "a" (.text "b")).vars ∧
    e.eval ((ns.declare "a" (.text "b")).declare "b" .null).vars =
      e.eval (ns.declare "a" (.text "b")).vars ∧
    (ns.declare "a" (.text "b + b")).evaluate "a + '1'" =
      .ok (.text "b + b1", ns.declare "a" (.text "b + b")) := by
  intro e ns
  have hparse : Expr.parse "a + '1'" = .ok e := by cbv
  have hresult : ∀ s, (ns.declare "a" (.text s)).evaluate "a + '1'" =
      .ok (.text (s ++ "1"), ns.declare "a" (.text s)) := by
    intro s
    rw [(eval_declare e "a" (.text s) ns).2.1, hparse]
    rfl
  have hreads : ∀ y, e.Reads y → (empty.declare "a" (.text "b")).lookup y =
      (ns.declare "a" (.text "b")).lookup y := by
    rintro y (rfl | hy)
    · rfl
    · exact hy.elim
  have hspelled : ¬ e.Reads "b" := by
    rintro (hb | hb)
    · exact absurd (show "a" = "b" from hb) (by decide)
    · exact hb
  exact ⟨hparse, rfl, hresult "b",
    (eval_declare e "a" (.text "b") (ns.declare "a" (.text "b"))).2.2.2.1 _ hreads,
    (eval_declare e "a" (.text "b") ns).2.2.2.2 "b" .null hspelled, hresult "b + b"⟩

end Namespace

end ActiveMarkup
