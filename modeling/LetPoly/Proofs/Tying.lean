import Mathlib.Logic.Relation
import LetPoly.Proofs.Heredity
import LetPoly.Proofs.Limit

/-! What recursive `let`s tie. A closure has one name by which it knows itself, and tying it to another
can make a difference to its body in two ways: a name that it looks up is hidden by the closure
(`Closure.Gains`), or the closure is not found any more by the name that it had (`Closure.Loses`). Both
take a recursive `let` of something else than a lambda. What closures a run may tie so can be read off the
program and the closures at hand: they are what such a `let` in one of these binds (`Task.Ties.of_tiesOnly`),
and where there is none, nothing but what lambdas have made is tied (`Task.not_ties_of_plain`). -/

namespace LetPoly

/-! ### Names that are looked up -/

namespace Expr

mutual

/-- The names of recursive `let`s that bind something else than a lambda and speak of the name in
it. -/
def looseBinders : Expr → List String
  | number _ | boolean _ | var _ | prim _ | closure .. => []
  | lam _ body => body.looseBinders
  | app func argument => func.looseBinders ++ argument.looseBinders
  | ite c t e => c.looseBinders ++ t.looseBinders ++ e.looseBinders
  | letIn recursive binder bound body =>
    (if recursive && !bound.isLam && bound.freeVars.contains binder then [binder] else []) ++
      bound.looseBinders ++ body.looseBinders
  | list items => looseBindersAll items

def looseBindersAll : List Expr → List String
  | [] => []
  | e :: es => e.looseBinders ++ looseBindersAll es

end

theorem mem_looseBindersAll {es : List Expr} {name : String} :
    name ∈ looseBindersAll es ↔ ∃ e ∈ es, name ∈ e.looseBinders := by
  induction es with
  | nil => simp [looseBindersAll]
  | cons e es ih => simp [looseBindersAll, ih]

theorem looseBinders_of_tiesLambdas {e : Expr} (h : e.tiesLambdas = true) : e.looseBinders = [] := by
  induction e using Expr.induct with
  | number | boolean | var | prim | closure => rfl
  | lam x body ih => exact ih h
  | app f a ihf iha =>
    simp only [tiesLambdas, Bool.and_eq_true] at h
    simp [looseBinders, ihf h.1, iha h.2]
  | ite c t e ihc iht ihe =>
    simp only [tiesLambdas, Bool.and_eq_true] at h
    simp [looseBinders, ihc h.1.1, iht h.1.2, ihe h.2]
  | letIn recursive x bound body ih ihbody =>
    simp only [tiesLambdas, Bool.and_eq_true] at h
    have hown : (recursive && !bound.isLam) = false := by
      have hlam := h.1.1
      cases recursive <;> simp_all
    simp [looseBinders, ih h.1.2, ihbody h.2, hown]
  | list items ih =>
    have h := allTieLambdas_iff.1 h
    refine List.eq_nil_iff_forall_not_mem.2 fun y hy => ?_
    obtain ⟨e, he, hy⟩ := mem_looseBindersAll.1 hy
    rw [ih e he (h e he)] at hy
    cases hy

mutual

/-- The names that evaluation looks up in the environment. A recursive `let` has its name in scope in a
lambda that it binds, and in nothing else that it binds. An operation reads its operands. -/
def reads : Expr → List String
  | number _ | boolean _ | closure .. => []
  | var name => [name]
  | prim op => if op.arity = 2 then ["x", "y"] else ["x"]
  | lam binder body => body.reads.filter (· ≠ binder)
  | app func argument => func.reads ++ argument.reads
  | ite c t e => c.reads ++ t.reads ++ e.reads
  | letIn recursive binder bound body =>
    (if recursive && bound.isLam then bound.reads.filter (· ≠ binder) else bound.reads) ++
      body.reads.filter (· ≠ binder)
  | list items => readsAll items

def readsAll : List Expr → List String
  | [] => []
  | e :: es => e.reads ++ readsAll es

end

theorem mem_readsAll {es : List Expr} {name : String} : name ∈ readsAll es ↔ ∃ e ∈ es, name ∈ e.reads := by
  induction es with
  | nil => simp [readsAll]
  | cons e es ih => simp [readsAll, ih]

/-- In a program these are the free variables, and binders of recursive `let`s that are no binders where
they are looked up. -/
theorem mem_freeVars_or_looseBinders {e : Expr} {y : String} (hsource : e.isSource = true)
    (h : y ∈ e.reads) : y ∈ e.freeVars ∨ y ∈ e.looseBinders := by
  induction e using Expr.induct with
  | number n => cases h
  | boolean b => cases h
  | var x => exact .inl h
  | lam x body ih =>
    simp only [reads, freeVars, looseBinders, List.mem_filter] at h ⊢
    exact (ih hsource h.1).imp (fun hy => ⟨hy, h.2⟩) id
  | app f a ihf iha =>
    simp only [isSource, Bool.and_eq_true] at hsource
    simp only [reads, freeVars, looseBinders, List.mem_append] at h ⊢
    rcases h with h | h
    · exact (ihf hsource.1 h).imp .inl .inl
    · exact (iha hsource.2 h).imp .inr .inr
  | ite c t e ihc iht ihe =>
    simp only [isSource, Bool.and_eq_true] at hsource
    simp only [reads, freeVars, looseBinders, List.mem_append] at h ⊢
    rcases h with (h | h) | h
    · exact (ihc hsource.1.1 h).imp (.inl ∘ .inl) (.inl ∘ .inl)
    · exact (iht hsource.1.2 h).imp (.inl ∘ .inr) (.inl ∘ .inr)
    · exact (ihe hsource.2 h).imp .inr .inr
  | letIn recursive x bound body ih ihbody =>
    simp only [isSource, Bool.and_eq_true] at hsource
    have hbound := ih hsource.1
    have hbody := ihbody hsource.2
    simp only [reads, List.mem_append, List.mem_filter, decide_eq_true_eq] at h
    rcases h with h | ⟨hy, hne⟩
    · by_cases hown : (recursive && bound.isLam) = true
      · rw [if_pos hown, List.mem_filter, decide_eq_true_eq] at h
        rw [Bool.and_eq_true] at hown
        obtain ⟨rfl, -⟩ := hown
        exact (hbound h.1).imp (fun hy => by simp [freeVars, hy, h.2])
          fun hy => by simp [looseBinders, hy]
      · rw [if_neg hown] at h
        rcases hbound h with hy | hy
        · -- the binder itself is looked up outside
          cases recursive with
          | false => exact .inl (by simp [freeVars, hy])
          | true =>
            by_cases hyx : y = x
            · subst hyx
              exact .inr (by simp_all [looseBinders])
            · exact .inl (by simp [freeVars, hy, hyx])
        · exact .inr (by simp [looseBinders, hy])
    · refine (hbody hy).imp (fun hy => ?_) fun hy => by simp [looseBinders, hy]
      cases recursive <;> simp [freeVars, hy, hne]
  | list items ih =>
    have hsource := allSource_iff.1 hsource
    obtain ⟨e, he, hy⟩ := mem_readsAll.1 h
    exact (ih e he (hsource e he) hy).imp (fun hy => mem_freeVarsAll.2 ⟨e, he, hy⟩)
      fun hy => mem_looseBindersAll.2 ⟨e, he, hy⟩
  | prim op => cases hsource
  | closure id x body env self => cases hsource

end Expr

theorem Closure.get?_scope (c : Closure) (v : Expr) (y : String) :
    (c.scope v).get? y =
      if c.binder = y then some v else if c.self = some y then some c.toExpr else c.env.get? y := by
  unfold scope
  rw [Bindings.get?_insert]
  cases c.self with
  | none => simp
  | some f => simp [Bindings.get?_insert]

theorem Closure.get?_scope_binder (c : Closure) (v : Expr) : (c.scope v).get? c.binder = some v := by
  rw [get?_scope, if_pos rfl]

namespace Closure

/-- Tied to the name `f`, the closure is not found any more under `g`, by which its body calls it. -/
structure Loses (c : Closure) (f g : String) : Prop where
  self : c.self = some g
  ne : g ≠ f
  ne_binder : g ≠ c.binder
  reads : g ∈ c.body.reads

/-- Tied to the name, the closure hides what its body looks up under that name. -/
structure Gains (c : Closure) (f : String) : Prop where
  self : c.self ≠ some f
  ne_binder : f ≠ c.binder
  reads : f ∈ c.body.reads

end Closure

/-! ### Evaluations within evaluations -/

/-- Evaluation of an expression in an environment, with the nesting that it may use and the interpreter
from which it starts. -/
structure Task where
  fuel : Nat
  env : Env
  expr : Expr
  start : Interpreter

/-- An evaluation starts another, of a part of its expression or of the body of a closure it calls, in
the environment and from the interpreter that it has come to. -/
inductive Enters : Task → Task → Prop
  | func {n : Nat} {env : Env} {f a : Expr} {i : Interpreter} :
      Enters ⟨n, env, .app f a, i⟩ ⟨n, env, f, i⟩
  | argument {n : Nat} {env : Env} {f a : Expr} {c : Closure} {i j : Interpreter} :
      eval n env f i = some (.ok c.toExpr, j) → Enters ⟨n, env, .app f a, i⟩ ⟨n, env, a, j⟩
  | body {n : Nat} {env : Env} {f a v : Expr} {c : Closure} {i j k : Interpreter} :
      eval (n + 1) env f i = some (.ok c.toExpr, j) → eval (n + 1) env a j = some (.ok v, k) →
      Eval.checkDepth k = some (.ok (), k) →
      Enters ⟨n + 1, env, .app f a, i⟩ ⟨n, c.scope v, c.body, k.enter c v⟩
  | condition {n : Nat} {env : Env} {c t e : Expr} {i : Interpreter} :
      Enters ⟨n, env, .ite c t e, i⟩ ⟨n, env, c, i⟩
  | branch {n : Nat} {env : Env} {c t e : Expr} {b : Bool} {i j : Interpreter} :
      eval n env c i = some (.ok (.boolean b), j) →
      Enters ⟨n, env, .ite c t e, i⟩ ⟨n, env, if b then t else e, j⟩
  | bound {n : Nat} {env : Env} {recursive : Bool} {x : String} {e body : Expr} {i : Interpreter} :
      Enters ⟨n, env, .letIn recursive x e body, i⟩ ⟨n, env, e, i⟩
  | rest {n : Nat} {env : Env} {recursive : Bool} {x : String} {e body v w : Expr}
      {i j k : Interpreter} :
      eval n env e i = some (.ok v, j) →
      (if recursive then tie x v else pure v : Eval Expr) j = some (.ok w, k) →
      Enters ⟨n, env, .letIn recursive x e body, i⟩ ⟨n, env.insert x w, body, k⟩
  | item {n : Nat} {env : Env} {before after vs : List Expr} {e : Expr} {i j : Interpreter} :
      evalItems (apply n) env before i = some (.ok vs, j) →
      Enters ⟨n, env, .list (before ++ e :: after), i⟩ ⟨n, env, e, j⟩

/-- What follows a recursive `let` of a lambda. -/
theorem Enters.recursiveRest {n : Nat} {env : Env} {f x : String} {inner body : Expr}
    {i : Interpreter} : Enters ⟨n, env, .letIn true f (.lam x inner) body, i⟩
      ⟨n, env.insert f (.closure (i.nextId + 1) x inner env (some f)), body, i.tied f⟩ :=
  .rest (run_lam _ _ _ _ _) rfl

/-! ### Closures that are tied -/

namespace Task

/-- The evaluation comes to a recursive `let` of something else than a lambda, which ties the closure to
the name. -/
def Ties (T : Task) (f : String) (c : Closure) : Prop :=
  ∃ n env bound body i j, Relation.ReflTransGen Enters T ⟨n, env, .letIn true f bound body, i⟩ ∧
    bound.isLam = false ∧ eval n env bound i = some (.ok c.toExpr, j)

/-- Without a limit, and tying only such closures to names. -/
def Confined (P : String → Closure → Prop) (T : Task) : Prop :=
  T.start.maxDepth = none ∧ ∀ f c, T.Ties f c → P f c

variable {P : String → Closure → Prop} {T T' : Task} {f : String} {c : Closure}

theorem Ties.head (hT : Enters T T') (h : T'.Ties f c) : T.Ties f c := by
  obtain ⟨n, env, bound, body, i, j, hreach, hlam, hrun⟩ := h
  exact ⟨n, env, bound, body, i, j, .head hT hreach, hlam, hrun⟩

/-- What an unlimited evaluation comes to has no limit. -/
theorem Confined.after {r : Except EvalError Expr} {j : Interpreter} (h : T.Confined P)
    (hrun : eval T.fuel T.env T.expr T.start = some (r, j)) : j.maxDepth = none :=
  (steady_eval _ _ _ _ r j hrun).1.trans h.1

theorem Confined.enters (h : T.Confined P) (hT : Enters T T') : T'.Confined P := by
  obtain ⟨hdepth, hties⟩ := h
  refine ⟨?_, fun f c htie => hties f c (htie.head hT)⟩
  have hkept : ∀ {n env e i r j}, i.maxDepth = none → eval n env e i = some (r, j) →
      Interpreter.maxDepth j = none := fun hi hrun => (steady_eval _ _ _ _ _ _ hrun).1.trans hi
  cases hT with
  | func | condition | bound => exact hdepth
  | argument h | branch h => exact hkept hdepth h
  | body h h' _ =>
    have hk := hkept (hkept hdepth h) h'
    exact hk
  | @rest n env recursive x e body v w i j k h h' =>
    have htie : Eval.Steady (if recursive then tie x v else pure v) := by
      split
      · exact Eval.steady_tie x v
      · exact Eval.steady_pure v
    exact (htie j _ k h').1.trans (hkept hdepth h)
  | @item n env before after vs e i j h =>
    have hitems : Eval.Steady (evalItems (apply n) env before) :=
      steady_evalItems fun e _ => steady_eval n env e
    exact (hitems i _ j h).1.trans hdepth

end Task

/-! ### Where closures may be tied -/

namespace Expr

/-- Every recursive `let` binds a lambda, or is one of those in `A`, in the expression and in the closures
that are in it. -/
inductive TiesOnly (A : String → Expr → Prop) : Expr → Prop
  | number (n : Int64) : TiesOnly A (.number n)
  | boolean (b : Bool) : TiesOnly A (.boolean b)
  | var (x : String) : TiesOnly A (.var x)
  | lam {x : String} {body : Expr} : TiesOnly A body → TiesOnly A (.lam x body)
  | app {f a : Expr} : TiesOnly A f → TiesOnly A a → TiesOnly A (.app f a)
  | ite {c t e : Expr} : TiesOnly A c → TiesOnly A t → TiesOnly A e → TiesOnly A (.ite c t e)
  | letIn {recursive : Bool} {x : String} {bound body : Expr} :
      (recursive = true → bound.isLam = false → A x bound) → TiesOnly A bound → TiesOnly A body →
      TiesOnly A (.letIn recursive x bound body)
  | list {es : List Expr} : (∀ e ∈ es, TiesOnly A e) → TiesOnly A (.list es)
  | prim (op : Primitive) : TiesOnly A (.prim op)
  | closure {id : Nat} {x : String} {body : Expr} {env : Env} {self : Option String} :
      TiesOnly A body → (∀ y v, env.get? y = some v → TiesOnly A v) →
      TiesOnly A (.closure id x body env self)

/-- Every recursive `let` binds a lambda, in the expression and in the closures that are in it. -/
abbrev Plain : Expr → Prop := TiesOnly fun _ _ => False

variable {A : String → Expr → Prop}

theorem tiesOnly_of_isSource {e : Expr} (hsource : e.isSource = true) (h : e.tiesLambdas = true) :
    e.TiesOnly A := by
  induction e using Expr.induct with
  | number n => exact .number n
  | boolean b => exact .boolean b
  | var x => exact .var x
  | lam x body ih => exact .lam (ih hsource h)
  | app f a ihf iha =>
    simp only [isSource, tiesLambdas, Bool.and_eq_true] at hsource h
    exact .app (ihf hsource.1 h.1) (iha hsource.2 h.2)
  | ite c t e ihc iht ihe =>
    simp only [isSource, tiesLambdas, Bool.and_eq_true] at hsource h
    exact .ite (ihc hsource.1.1 h.1.1) (iht hsource.1.2 h.1.2) (ihe hsource.2 h.2)
  | letIn recursive x bound body ih ihbody =>
    simp only [isSource, tiesLambdas, Bool.and_eq_true, Bool.or_eq_true, Bool.not_eq_true']
      at hsource h
    obtain ⟨⟨hlam, hbound⟩, hbody⟩ := h
    refine .letIn (fun hrec hnot => ?_) (ih hsource.1 hbound) (ihbody hsource.2 hbody)
    simp [hrec, hnot] at hlam
  | list items ih =>
    have hsource := allSource_iff.1 hsource
    have h := allTieLambdas_iff.1 h
    exact .list fun e he => ih e he (hsource e he) (h e he)
  | prim op => exact .prim op
  | closure id x body env self => cases hsource

theorem hereditary_tiesOnly (A : String → Expr → Prop) : Hereditary (TiesOnly A) (TiesOnly A) where
  number := .number
  boolean := .boolean
  list_iff := by
    intro vs
    refine ⟨fun h => ?_, .list⟩
    cases h with
    | list hvs => exact hvs
  closure_iff := by
    intro id x body env self
    refine ⟨fun h => ?_, fun h => .closure h.1 h.2⟩
    cases h with
    | closure hbody henv => exact ⟨hbody, henv⟩
  lam h := by cases h; assumption
  app h := by cases h; exact ⟨by assumption, by assumption⟩
  ite h := by cases h; exact ⟨by assumption, by assumption, by assumption⟩
  letIn h := by cases h; exact ⟨by assumption, by assumption⟩
  items h := by cases h; assumption
  closure h := h

end Expr

def Env.Plain (env : Env) : Prop := ∀ y v, env.get? y = some v → v.Plain

section TiesOnly

variable {A : String → Expr → Prop} {n : Nat} {env : Env} {e v : Expr}

theorem Env.Plain.insert (h : env.Plain) (hv : v.Plain) (x : String) :
    Env.Plain (env.insert x v) :=
  Env.All.insert h hv x

theorem Env.tiesOnly_initial : Env.initial.All (Expr.TiesOnly A) :=
  (Expr.hereditary_tiesOnly A).initial .prim fun _ _ => .lam

theorem tiesOnly_of_eval {i j : Interpreter} (henv : env.All (Expr.TiesOnly A)) (he : e.TiesOnly A)
    (h : eval n env e i = some (.ok v, j)) : v.TiesOnly A := by
  cases (Expr.hereditary_tiesOnly A).eval henv he n i _ j h with
  | value hv => exact hv

end TiesOnly

namespace Task

variable {A : String → Expr → Prop} {T T' : Task} {f : String} {c : Closure}

def TiesOnly (A : String → Expr → Prop) (T : Task) : Prop :=
  T.env.All (Expr.TiesOnly A) ∧ T.expr.TiesOnly A

theorem TiesOnly.enters (h : T.TiesOnly A) (hT : Enters T T') : T'.TiesOnly A := by
  obtain ⟨henv, he⟩ := h
  cases hT with
  | func | argument => cases he with
    | app hf ha => exact ⟨henv, by assumption⟩
  | body hf hv => cases he with
    | app hf' ha' =>
      exact (Expr.hereditary_tiesOnly A).scope (tiesOnly_of_eval henv hf' hf) (tiesOnly_of_eval henv ha' hv)
  | condition => cases he with
    | ite hc _ _ => exact ⟨henv, hc⟩
  | @branch _ _ _ _ _ b => cases he with
    | ite _ ht he => cases b <;> exact ⟨henv, by assumption⟩
  | bound => cases he with
    | letIn _ hbound _ => exact ⟨henv, hbound⟩
  | rest hrun htied => cases he with
    | letIn _ hbound hbody =>
      cases (Expr.hereditary_tiesOnly A).tied (tiesOnly_of_eval henv hbound hrun) _ _ _ _ _ htied with
      | value hw => exact ⟨henv.insert hw _, hbody⟩
  | item => cases he with
    | list hes => exact ⟨henv, hes _ (by simp)⟩

theorem TiesOnly.reaches (h : T.TiesOnly A) (hT : Relation.ReflTransGen Enters T T') :
    T'.TiesOnly A := by
  induction hT with
  | refl => exact h
  | tail _ hstep ih => exact ih.enters hstep

/-- A closure that is tied is the value of what one of the `let`s in `A` binds. -/
theorem Ties.of_tiesOnly {n : Nat} {env : Env} {e : Expr} {i : Interpreter}
    (h : Ties ⟨n, env, e, i⟩ f c) (henv : env.All (Expr.TiesOnly A)) (he : e.TiesOnly A) :
    ∃ n env bound i j, A f bound ∧ eval n env bound i = some (.ok c.toExpr, j) := by
  obtain ⟨n, env, bound, body, i, j, hreach, hlam, hrun⟩ := h
  obtain ⟨-, he⟩ := TiesOnly.reaches ⟨henv, he⟩ hreach
  cases he with
  | letIn hA _ _ => exact ⟨n, env, bound, i, j, hA rfl hlam, hrun⟩

/-- Where every recursive `let` binds a lambda, no other closure is tied. -/
theorem not_ties_of_plain {n : Nat} {env : Env} {e : Expr} {i : Interpreter} (henv : env.Plain)
    (he : e.Plain) (f : String) (c : Closure) : ¬ Ties ⟨n, env, e, i⟩ f c := by
  intro hties
  obtain ⟨_, _, _, _, _, hA, -⟩ := hties.of_tiesOnly henv he
  exact hA

end Task

end LetPoly
