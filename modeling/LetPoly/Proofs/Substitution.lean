import LetPoly.Evaluation.Error
import LetPoly.Proofs.Source

/-! Call-by-value evaluation by substitution. Programs become terms in which the built-in names are
constants; a call puts its argument for the parameter, and a recursive function puts itself for its
name. Only closed values are ever put for a name, so no name is captured (`Term.Closed`), and to put
one more is to translate with one name more in scope (`Expr.subst_term`). -/

namespace LetPoly

/-- A recursive function carries its own name, and `held` is an operation that waits for its second
operand. -/
inductive Term where
  | number (value : Int64)
  | boolean (value : Bool)
  | var (name : String)
  | lam (binder : String) (body : Term)
  | fix (self binder : String) (body : Term)
  | app (func argument : Term)
  | ite (condition thenBranch elseBranch : Term)
  | letIn (binder : String) (bound body : Term)
  | list (items : List Term)
  | op (op : Primitive)
  | held (op : Primitive) (first : Term)

namespace Term

mutual

/-- Puts `v` for the free occurrences of `x`. -/
def subst (t : Term) (x : String) (v : Term) : Term :=
  match t with
  | number n => number n
  | boolean b => boolean b
  | var y => if y = x then v else var y
  | lam y body => lam y (if y = x then body else body.subst x v)
  | fix f y body => fix f y (if f = x ∨ y = x then body else body.subst x v)
  | app f a => app (f.subst x v) (a.subst x v)
  | ite c t e => ite (c.subst x v) (t.subst x v) (e.subst x v)
  | letIn y bound body => letIn y (bound.subst x v) (if y = x then body else body.subst x v)
  | list items => list (substAll items x v)
  | op p => op p
  | held p first => held p (first.subst x v)

def substAll (ts : List Term) (x : String) (v : Term) : List Term :=
  match ts with
  | [] => []
  | t :: ts => t.subst x v :: substAll ts x v

end

def isFunction : Term → Bool
  | lam .. | fix .. | op _ | held .. => true
  | _ => false

/-- An evaluation goes on with it. -/
def isPending : Term → Bool
  | var _ | app .. | ite .. | letIn .. => true
  | _ => false

/-- Lets a function call itself by `f`. -/
def tie (f : String) : Term → Term
  | lam x body => fix f x body
  | t => t

end Term

/-- What can go wrong, without the values that it goes wrong with. -/
inductive Fault where
  | unboundVariable (name : String)
  | notAFunction
  | notABoolean
  | notAList
  | emptyListAccess (op : Primitive)
  | invalidOperands (op : Primitive)
  | recursionLimit
deriving DecidableEq, Repr

def EvalError.fault : EvalError → Fault
  | unboundVariable name => .unboundVariable name
  | notAFunction _ => .notAFunction
  | notABoolean _ => .notABoolean
  | notAList _ => .notAList
  | emptyListAccess op => .emptyListAccess op
  | invalidOperands op _ => .invalidOperands op
  | recursionLimit _ => .recursionLimit

namespace Primitive

/-- An operation on one operand. -/
def unary : Primitive → Term → Except Fault Term
  | isEmpty, .list vs => .ok (.boolean vs.isEmpty)
  | head, .list (v :: _) => .ok v
  | tail, .list (_ :: vs) => .ok (.list vs)
  | p, .list [] => .error (.emptyListAccess p)
  | _, _ => .error .notAList

/-- An operation on two operands. -/
def binary : Primitive → Term → Term → Except Fault Term
  | add, .number m, .number n => .ok (.number (m + n))
  | subtract, .number m, .number n => .ok (.number (m - n))
  | multiply, .number m, .number n => .ok (.number (m * n))
  | equals, .number m, .number n => .ok (.boolean (m == n))
  | equals, .boolean a, .boolean b => .ok (.boolean (a == b))
  | cons, v, .list vs => .ok (.list (v :: vs))
  | cons, _, _ => .error .notAList
  | p, _, _ => .error (.invalidOperands p)

end Primitive

/-- What a term evaluates to: a value, or what goes wrong first. The function comes before the argument,
the items of a list from left to right, and of an `if` one branch only. -/
inductive Evaluates : Term → Except Fault Term → Prop
  | number (n : Int64) : Evaluates (.number n) (.ok (.number n))
  | boolean (b : Bool) : Evaluates (.boolean b) (.ok (.boolean b))
  | function {t : Term} : t.isFunction = true → Evaluates t (.ok t)
  | var (x : String) : Evaluates (.var x) (.error (.unboundVariable x))
  | funcFails {f a : Term} {e : Fault} : Evaluates f (.error e) → Evaluates (.app f a) (.error e)
  | notAFunction {f a v : Term} : Evaluates f (.ok v) → v.isFunction = false →
      Evaluates (.app f a) (.error .notAFunction)
  | argumentFails {f a v : Term} {e : Fault} : Evaluates f (.ok v) → v.isFunction = true →
      Evaluates a (.error e) → Evaluates (.app f a) (.error e)
  | appLam {f a body v : Term} {x : String} {r : Except Fault Term} :
      Evaluates f (.ok (.lam x body)) → Evaluates a (.ok v) → Evaluates (body.subst x v) r →
      Evaluates (.app f a) r
  | appFix {f a body v : Term} {g x : String} {r : Except Fault Term} :
      Evaluates f (.ok (.fix g x body)) → Evaluates a (.ok v) →
      Evaluates ((body.subst x v).subst g (.fix g x body)) r → Evaluates (.app f a) r
  | appUnary {f a v : Term} {p : Primitive} : Evaluates f (.ok (.op p)) → p.arity = 1 →
      Evaluates a (.ok v) → Evaluates (.app f a) (p.unary v)
  | appFirst {f a v : Term} {p : Primitive} : Evaluates f (.ok (.op p)) → p.arity = 2 →
      Evaluates a (.ok v) → Evaluates (.app f a) (.ok (.held p v))
  | appSecond {f a v w : Term} {p : Primitive} : Evaluates f (.ok (.held p v)) →
      Evaluates a (.ok w) → Evaluates (.app f a) (p.binary v w)
  | conditionFails {c t e : Term} {err : Fault} : Evaluates c (.error err) →
      Evaluates (.ite c t e) (.error err)
  | notABoolean {c t e v : Term} : Evaluates c (.ok v) → (∀ b, v ≠ .boolean b) →
      Evaluates (.ite c t e) (.error .notABoolean)
  | branch {c t e : Term} {b : Bool} {r : Except Fault Term} : Evaluates c (.ok (.boolean b)) →
      Evaluates (if b then t else e) r → Evaluates (.ite c t e) r
  | boundFails {x : String} {bound body : Term} {e : Fault} : Evaluates bound (.error e) →
      Evaluates (.letIn x bound body) (.error e)
  | letIn {x : String} {bound body v : Term} {r : Except Fault Term} : Evaluates bound (.ok v) →
      Evaluates (body.subst x v) r → Evaluates (.letIn x bound body) r
  | nil : Evaluates (.list []) (.ok (.list []))
  | itemFails {t : Term} {ts : List Term} {e : Fault} : Evaluates t (.error e) →
      Evaluates (.list (t :: ts)) (.error e)
  | itemsFail {t v : Term} {ts : List Term} {e : Fault} : Evaluates t (.ok v) →
      Evaluates (.list ts) (.error e) → Evaluates (.list (t :: ts)) (.error e)
  | cons {t v : Term} {ts vs : List Term} : Evaluates t (.ok v) →
      Evaluates (.list ts) (.ok (.list vs)) → Evaluates (.list (t :: ts)) (.ok (.list (v :: vs)))

/-! ### Programs as terms -/

/-- The built-in names: the empty list and the operations. -/
def Term.builtins : Scope Term := ("nil", .list []) :: Primitive.all.map fun p => (p.name, .op p)

namespace Expr

mutual

/-- The term of a source expression, with what `ρ` has for the names that are not bound in it. A
recursive `let` binds a function that carries the name. Of a closure there is only the code. -/
def term (ρ : Scope Term) : Expr → Term
  | number n => .number n
  | boolean b => .boolean b
  | var x => (ρ.get? x).getD (.var x)
  | lam x body => .lam x (body.term (ρ.erase x))
  | app f a => .app (f.term ρ) (a.term ρ)
  | ite c t e => .ite (c.term ρ) (t.term ρ) (e.term ρ)
  | letIn true x bound body => .letIn x ((bound.term (ρ.erase x)).tie x) (body.term (ρ.erase x))
  | letIn false x bound body => .letIn x (bound.term ρ) (body.term (ρ.erase x))
  | list items => .list (termAll ρ items)
  | prim p => .op p
  | closure _ x body _ _ => .lam x (body.term [])

def termAll (ρ : Scope Term) : List Expr → List Term
  | [] => []
  | e :: es => e.term ρ :: termAll ρ es

end

/-- The term of a whole program. -/
def program (e : Expr) : Term := e.term Term.builtins

end Expr

namespace Term

/-- There is no name to put anything for. -/
def Closed (t : Term) : Prop := ∀ x v, t.subst x v = t

end Term

/-- All that the names stand for is closed. -/
def Term.ClosedScope (ρ : Scope Term) : Prop := ∀ x t, ρ.get? x = some t → t.Closed

theorem Term.substAll_eq_map (ts : List Term) (x : String) (v : Term) :
    substAll ts x v = ts.map fun t => t.subst x v := by
  induction ts with
  | nil => rfl
  | cons t ts ih => simp [substAll, ih]

section Scopes

variable {ρ σ : Scope Term} {x y : String} {t v : Term}

theorem erase_append (ρ : Scope Term) (x y : String) (v : Term) :
    Bindings.erase (ρ ++ [(x, v)]) y = ρ.erase y ++ if y = x then [] else [(x, v)] := by
  by_cases hy : y = x
  · simp [Bindings.erase, hy]
  · simp [Bindings.erase, hy, Ne.symm hy]

theorem Term.ClosedScope.erase (h : ClosedScope ρ) (x : String) : ClosedScope (ρ.erase x) := by
  intro y t hy
  rw [Bindings.get?_erase] at hy
  split at hy
  · cases hy
  · exact h y t hy

theorem Term.ClosedScope.insert (h : ClosedScope ρ) (ht : t.Closed) (x : String) :
    ClosedScope (ρ.insert x t) := by
  intro y r hy
  rw [Bindings.get?_insert] at hy
  split at hy
  · cases hy
    exact ht
  · exact h y r hy

theorem Term.subst_tie (f y : String) (body : Term) (x : String) (v : Term) :
    ((lam y body).tie f).subst x v =
      if f = x then (lam y body).tie f else ((lam y body).subst x v).tie f := by
  by_cases hf : f = x
  · simp [tie, subst, hf]
  · simp [tie, subst, hf]

end Scopes

namespace Expr

variable {ρ σ : Scope Term} {e : Expr} {x y : String} {v : Term}

theorem termAll_eq_map (ρ : Scope Term) (es : List Expr) : termAll ρ es = es.map (term ρ) := by
  induction es with
  | nil => rfl
  | cons e es ih => simp [termAll, ih]

theorem term_congr (h : ∀ y ∈ e.freeVars, ρ.get? y = σ.get? y) : e.term ρ = e.term σ := by
  have under : ∀ {e : Expr} {ρ σ : Scope Term} (x : String),
      (∀ y ∈ e.freeVars, y ≠ x → ρ.get? y = σ.get? y) →
      ∀ y ∈ e.freeVars, (ρ.erase x).get? y = (σ.erase x).get? y := by
    intro e ρ σ x h y hy
    rw [Bindings.get?_erase, Bindings.get?_erase]
    split
    · rfl
    · next hne => exact h y hy (Ne.symm hne)
  induction e using induct generalizing ρ σ with
  | number | boolean | prim | closure => simp only [term]
  | var x => simp only [term, h x (by simp [freeVars])]
  | lam x body ih =>
    simp only [freeVars, List.mem_filter, decide_eq_true_eq, and_imp] at h
    simp only [term, ih (under x h)]
  | app f a ihf iha =>
    simp only [freeVars, List.forall_mem_append] at h
    simp only [term, ihf h.1, iha h.2]
  | ite c t e ihc iht ihe =>
    simp only [freeVars, List.forall_mem_append] at h
    simp only [term, ihc h.1.1, iht h.1.2, ihe h.2]
  | letIn recursive x bound body ih ihbody =>
    cases recursive with
    | true =>
      simp only [freeVars, List.mem_filter, List.mem_append, decide_eq_true_eq, and_imp, or_imp,
        forall_and] at h
      simp only [term, ih (under x h.1), ihbody (under x h.2)]
    | false =>
      simp only [freeVars, List.forall_mem_append, List.mem_filter, decide_eq_true_eq, and_imp] at h
      simp only [term, ih h.1, ihbody (under x h.2)]
  | list items ih =>
    simp only [term, termAll_eq_map]
    congr 1
    exact List.map_congr_left fun e he => ih e he fun y hy => h y (mem_freeVarsAll.2 ⟨e, he, hy⟩)

/-- To put a term for a name that a closed scope leaves open is to have it in the scope. -/
theorem subst_term (hsource : e.isSource = true) (hties : e.tiesLambdas = true)
    (hρ : Term.ClosedScope ρ) (x : String) (v : Term) :
    (e.term ρ).subst x v = e.term (ρ ++ [(x, v)]) := by
  induction e using induct generalizing ρ with
  | number | boolean => simp only [term, Term.subst]
  | prim | closure => cases hsource
  | var y =>
    simp only [term, Bindings.get?_append]
    cases hy : ρ.get? y with
    | some t => simpa using hρ y t hy x v
    | none =>
      by_cases hyx : y = x
      · simp [Term.subst, Bindings.get?, hyx]
      · simp [Term.subst, Bindings.get?, hyx, Ne.symm hyx]
  | lam y body ih =>
    simp only [term, Term.subst, erase_append]
    split
    · rw [List.append_nil]
    · rw [ih hsource hties (hρ.erase y)]
  | app f a ihf iha =>
    simp only [isSource, tiesLambdas, Bool.and_eq_true] at hsource hties
    simp only [term, Term.subst, ihf hsource.1 hties.1 hρ, iha hsource.2 hties.2 hρ]
  | ite c t e ihc iht ihe =>
    simp only [isSource, tiesLambdas, Bool.and_eq_true] at hsource hties
    simp only [term, Term.subst, ihc hsource.1.1 hties.1.1 hρ, iht hsource.1.2 hties.1.2 hρ,
      ihe hsource.2 hties.2 hρ]
  | letIn recursive y bound body ih ihbody =>
    simp only [isSource, tiesLambdas, Bool.and_eq_true] at hsource hties
    have hbody : (if y = x then body.term (ρ.erase y) else (body.term (ρ.erase y)).subst x v) =
        body.term (Bindings.erase (ρ ++ [(x, v)]) y) := by
      rw [erase_append]
      split
      · rw [List.append_nil]
      · rw [ihbody hsource.2 hties.2 (hρ.erase y)]
    cases recursive with
    | false => simp only [term, Term.subst, ih hsource.1 hties.1.2 hρ, hbody]
    | true =>
      have hbound := ih hsource.1 hties.1.2 (hρ.erase y)
      obtain ⟨z, inner, rfl⟩ := eq_lam_of_isLam hties.1.1
      have htie : (((lam z inner).term (ρ.erase y)).tie y).subst x v =
          ((lam z inner).term (Bindings.erase (ρ ++ [(x, v)]) y)).tie y := by
        rw [erase_append]
        by_cases hyx : y = x
        · rw [if_pos hyx, List.append_nil, term, Term.subst_tie, if_pos hyx]
        · rw [if_neg hyx, ← hbound, term, Term.subst_tie, if_neg hyx]
      rw [term, Term.subst, htie, hbody]
      simp only [term]
  | list items ih =>
    simp only [term, Term.subst, termAll_eq_map, Term.substAll_eq_map, List.map_map]
    congr 1
    exact List.map_congr_left fun e he =>
      ih e he (allSource_iff.1 hsource e he) (allTieLambdas_iff.1 hties e he) hρ

theorem subst_term_of_bound (hsource : e.isSource = true) (hties : e.tiesLambdas = true)
    (hρ : Term.ClosedScope ρ) (hx : x ∈ e.freeVars → (ρ.get? x).isSome) (v : Term) :
    (e.term ρ).subst x v = e.term ρ := by
  rw [subst_term hsource hties hρ]
  refine term_congr fun y hy => ?_
  rw [Bindings.get?_append]
  by_cases hyx : x = y
  · subst hyx
    obtain ⟨t, ht⟩ := Option.isSome_iff_exists.1 (hx hy)
    rw [ht, Option.some_or]
  · simp [Bindings.get?, hyx]

/-- To put a term for the parameter of a function is to have it in the scope of the body. -/
theorem subst_term_erase (hsource : e.isSource = true) (hties : e.tiesLambdas = true)
    (hρ : Term.ClosedScope ρ) (x : String) (v : Term) :
    (e.term (ρ.erase x)).subst x v = e.term (ρ.insert x v) := by
  rw [subst_term hsource hties (hρ.erase x)]
  refine term_congr fun y _ => ?_
  rw [Bindings.get?_append, Bindings.get?_erase, Bindings.get?_insert]
  by_cases hy : x = y <;> simp [Bindings.get?, hy]

/-- The parameter hides the function's own name if they are the same. -/
theorem subst_term_erase_erase (hsource : e.isSource = true) (hties : e.tiesLambdas = true)
    (hρ : Term.ClosedScope ρ) (f x : String) (t : Term) {v : Term} (hv : v.Closed) :
    ((e.term ((ρ.erase f).erase x)).subst x v).subst f t = e.term ((ρ.insert f t).insert x v) := by
  have hclosed : Term.ClosedScope (Bindings.insert (ρ.erase f) x v) := (hρ.erase f).insert hv x
  rw [subst_term_erase hsource hties (hρ.erase f), subst_term hsource hties hclosed]
  refine term_congr fun y _ => ?_
  rw [Bindings.get?_append, Bindings.get?_insert, Bindings.get?_erase, Bindings.get?_insert,
    Bindings.get?_insert]
  by_cases hx : x = y <;> by_cases hf : f = y <;> simp [Bindings.get?, hx, hf]

/-- The value of a lambda, which may carry a name by which it calls itself. -/
def function (ρ : Scope Term) (self : Option String) (x : String) (body : Expr) : Term :=
  match self with
  | none => (lam x body).term ρ
  | some f => ((lam x body).term (ρ.erase f)).tie f

theorem isFunction_function (ρ : Scope Term) (self : Option String) (x : String) (body : Expr) :
    (function ρ self x body).isFunction = true := by
  cases self <;> simp only [function, term, Term.tie, Term.isFunction]

/-- All names in the body are bound, by the parameter, by the function's own name or in the scope. -/
theorem closed_function {self : Option String} {body : Expr} (hsource : body.isSource = true)
    (hties : body.tiesLambdas = true)
    (hbound : ∀ y ∈ body.freeVars, y = x ∨ self = some y ∨ (ρ.get? y).isSome)
    (hρ : Term.ClosedScope ρ) : (function ρ self x body).Closed := by
  intro z v
  have hfree : z ∈ (lam x body).freeVars → self = some z ∨ (ρ.get? z).isSome := by
    intro hz
    simp only [freeVars, List.mem_filter, decide_eq_true_eq] at hz
    exact (hbound z hz.1).resolve_left hz.2
  have hlam : (lam x body).isSource = true ∧ (lam x body).tiesLambdas = true := ⟨hsource, hties⟩
  cases self with
  | none => exact subst_term_of_bound hlam.1 hlam.2 hρ (fun hz => by simpa using hfree hz) v
  | some f =>
    by_cases hf : f = z
    · rw [function, term, Term.subst_tie, if_pos hf]
    · have hz : z ∈ (lam x body).freeVars → ((ρ.erase f).get? z).isSome := by
        intro hz
        rw [Bindings.get?_erase, if_neg hf]
        exact (hfree hz).resolve_left (by simpa using hf)
      have hsubst := subst_term_of_bound hlam.1 hlam.2 (hρ.erase f) hz v
      rw [term] at hsubst
      rw [function, term, Term.subst_tie, if_neg hf, hsubst]

end Expr

/-- A source expression that ties lambdas only, and whose names are bound or in the scope. -/
structure Expr.ClosedIn (ρ : Scope Term) (e : Expr) : Prop where
  source : e.isSource = true
  ties : e.tiesLambdas = true
  bound : ∀ y ∈ e.freeVars, (ρ.get? y).isSome

namespace Expr.ClosedIn

variable {ρ : Scope Term} {e f a c t bound body : Expr} {items : List Expr} {x : String} {v : Term}

theorem app (h : (app f a).ClosedIn ρ) : f.ClosedIn ρ ∧ a.ClosedIn ρ := by
  obtain ⟨hsource, hties, hbound⟩ := h
  simp only [isSource, tiesLambdas, freeVars, Bool.and_eq_true, List.forall_mem_append]
    at hsource hties hbound
  exact ⟨⟨hsource.1, hties.1, hbound.1⟩, ⟨hsource.2, hties.2, hbound.2⟩⟩

theorem ite (h : (ite c t e).ClosedIn ρ) : c.ClosedIn ρ ∧ t.ClosedIn ρ ∧ e.ClosedIn ρ := by
  obtain ⟨hsource, hties, hbound⟩ := h
  simp only [isSource, tiesLambdas, freeVars, Bool.and_eq_true, List.forall_mem_append]
    at hsource hties hbound
  exact ⟨⟨hsource.1.1, hties.1.1, hbound.1.1⟩, ⟨hsource.1.2, hties.1.2, hbound.1.2⟩,
    ⟨hsource.2, hties.2, hbound.2⟩⟩

/-- Under a binder there is one name more. -/
theorem of_insert (hsource : body.isSource = true) (hties : body.tiesLambdas = true)
    (hbound : ∀ y ∈ body.freeVars, y ≠ x → (ρ.get? y).isSome) : body.ClosedIn (ρ.insert x v) := by
  refine ⟨hsource, hties, fun y hy => ?_⟩
  rw [Bindings.get?_insert]
  split
  · rfl
  · next hne => exact hbound y hy (Ne.symm hne)

theorem letPoly (h : (letIn false x bound body).ClosedIn ρ) :
    bound.ClosedIn ρ ∧ ∀ v, body.ClosedIn (ρ.insert x v) := by
  obtain ⟨hsource, hties, hbound⟩ := h
  simp only [isSource, tiesLambdas, freeVars, Bool.and_eq_true, List.forall_mem_append,
    List.mem_filter, decide_eq_true_eq, and_imp] at hsource hties hbound
  exact ⟨⟨hsource.1, hties.1.2, hbound.1⟩, fun v => .of_insert hsource.2 hties.2 hbound.2⟩

theorem letRec (h : (letIn true x bound body).ClosedIn ρ) :
    (∃ y inner, bound = .lam y inner ∧ inner.isSource = true ∧ inner.tiesLambdas = true ∧
      ∀ z ∈ inner.freeVars, z = y ∨ some x = some z ∨ (ρ.get? z).isSome) ∧
      ∀ v, body.ClosedIn (ρ.insert x v) := by
  obtain ⟨hsource, hties, hbound⟩ := h
  simp only [isSource, tiesLambdas, freeVars, Bool.and_eq_true, List.mem_filter, List.mem_append,
    decide_eq_true_eq, and_imp, or_imp, forall_and] at hsource hties hbound
  refine ⟨?_, fun v => .of_insert hsource.2 hties.2 hbound.2⟩
  obtain ⟨y, inner, rfl⟩ := eq_lam_of_isLam hties.1.1
  refine ⟨y, inner, rfl, hsource.1, hties.1.2, fun z hz => ?_⟩
  by_cases hzy : z = y
  · exact .inl hzy
  · by_cases hzx : z = x
    · exact .inr (.inl (by rw [hzx]))
    · refine .inr (.inr (hbound.1 z ?_ hzx))
      simp [freeVars, hz, hzy]

theorem list_iff : (list items).ClosedIn ρ ↔ ∀ e ∈ items, e.ClosedIn ρ := by
  constructor
  · intro h e he
    refine ⟨allSource_iff.1 h.source e he, allTieLambdas_iff.1 h.ties e he, fun y hy => ?_⟩
    exact h.bound y (mem_freeVarsAll.2 ⟨e, he, hy⟩)
  · intro h
    refine ⟨allSource_iff.2 fun e he => (h e he).source,
      allTieLambdas_iff.2 fun e he => (h e he).ties, fun y hy => ?_⟩
    obtain ⟨e, he, hy⟩ := mem_freeVarsAll.1 hy
    exact (h e he).bound y hy

end Expr.ClosedIn

end LetPoly
