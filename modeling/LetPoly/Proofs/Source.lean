import LetPoly.Expr.Basic

/-! Expressions as they are written: without the nodes that only evaluation makes. -/

namespace LetPoly.Expr

/-- Induction on an expression, where the items of a list come together and a closure is not
entered. -/
theorem induct {P : Expr → Prop} (number : ∀ n, P (.number n)) (boolean : ∀ b, P (.boolean b))
    (var : ∀ name, P (.var name)) (lam : ∀ binder body, P body → P (.lam binder body))
    (app : ∀ func argument, P func → P argument → P (.app func argument))
    (ite : ∀ c t e, P c → P t → P e → P (.ite c t e))
    (letIn : ∀ recursive binder bound body,
      P bound → P body → P (.letIn recursive binder bound body))
    (list : ∀ items, (∀ e ∈ items, P e) → P (.list items)) (prim : ∀ op, P (.prim op))
    (closure : ∀ id binder body env self, P (.closure id binder body env self)) (e : Expr) : P e :=
  @Expr.rec P (fun items => ∀ e ∈ items, P e) (fun _ => True) (fun _ => True)
    number boolean var lam app ite letIn list prim
    (fun id binder body env self _ _ => closure id binder body env self)
    (by simp) (fun e es he hes => List.forall_mem_cons.2 ⟨he, hes⟩)
    trivial (fun _ _ _ _ => trivial) (fun _ _ _ => trivial) e

mutual

/-- No closure and no operation occurs. -/
def isSource : Expr → Bool
  | number _ | boolean _ | var _ => true
  | lam _ body => body.isSource
  | app func argument => func.isSource && argument.isSource
  | ite c t e => c.isSource && t.isSource && e.isSource
  | letIn _ _ bound body => bound.isSource && body.isSource
  | list items => allSource items
  | prim _ | closure .. => false

def allSource : List Expr → Bool
  | [] => true
  | e :: es => e.isSource && allSource es

end

mutual

/-- The names that the environment has to supply. -/
def freeVars : Expr → List String
  | number _ | boolean _ | prim _ | closure .. => []
  | var name => [name]
  | lam binder body => body.freeVars.filter (· ≠ binder)
  | app func argument => func.freeVars ++ argument.freeVars
  | ite c t e => c.freeVars ++ t.freeVars ++ e.freeVars
  | letIn true binder bound body => (bound.freeVars ++ body.freeVars).filter (· ≠ binder)
  | letIn false binder bound body => bound.freeVars ++ body.freeVars.filter (· ≠ binder)
  | list items => freeVarsAll items

def freeVarsAll : List Expr → List String
  | [] => []
  | e :: es => e.freeVars ++ freeVarsAll es

end

def isLam : Expr → Bool
  | lam .. => true
  | _ => false

theorem eq_lam_of_isLam {e : Expr} (h : e.isLam = true) : ∃ x body, e = .lam x body := by
  unfold isLam at h
  split at h
  · exact ⟨_, _, rfl⟩
  · cases h

mutual

/-- Every recursive `let` binds a lambda. -/
def tiesLambdas : Expr → Bool
  | number _ | boolean _ | var _ | prim _ | closure .. => true
  | lam _ body => body.tiesLambdas
  | app func argument => func.tiesLambdas && argument.tiesLambdas
  | ite c t e => c.tiesLambdas && t.tiesLambdas && e.tiesLambdas
  | letIn recursive _ bound body =>
    (!recursive || bound.isLam) && bound.tiesLambdas && body.tiesLambdas
  | list items => allTieLambdas items

def allTieLambdas : List Expr → Bool
  | [] => true
  | e :: es => e.tiesLambdas && allTieLambdas es

end

theorem allSource_iff {es : List Expr} : allSource es = true ↔ ∀ e ∈ es, e.isSource = true := by
  induction es with
  | nil => simp [allSource]
  | cons e es ih => simp [allSource, ih]

theorem allTieLambdas_iff {es : List Expr} :
    allTieLambdas es = true ↔ ∀ e ∈ es, e.tiesLambdas = true := by
  induction es with
  | nil => simp [allTieLambdas]
  | cons e es ih => simp [allTieLambdas, ih]

theorem mem_freeVarsAll {es : List Expr} {name : String} :
    name ∈ freeVarsAll es ↔ ∃ e ∈ es, name ∈ e.freeVars := by
  induction es with
  | nil => simp [freeVarsAll]
  | cons e es ih => simp [freeVarsAll, ih]

end LetPoly.Expr
