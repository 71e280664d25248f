import Mathlib.Logic.Basic
import LetPoly.Proofs.Adequacy
import LetPoly.Proofs.Nesting
import LetPoly.Proofs.Safety

/-! When evaluation finishes. Under a limit it always does, and a limit does nothing but stop it, below
one threshold (`limit_threshold`). Without one the evaluation of a typed program finishes if no `let` in
it is recursive (`terminates_of_typed`): a function of a type is taken for one whose calls finish
(`Expr.Reducible`), by recursion on the type, and a polymorphic value is one at all instances of its
scheme. -/

namespace LetPoly

/-! ### The threshold -/

namespace Interpreter

variable {id : Nat} {env : Env} {e : Expr} {r : Except EvalError Expr}

/-- The depth that an evaluation needs is a threshold for all limits, whatever numbers closures get. -/
theorem exists_threshold (h : Gives none id env e r) :
    ∃ d, ∀ id', ∃ r', Eval.Renumbered r r' ∧ Gives none id' env e r' ∧
      (∀ n ≥ d, Gives (some n) id' env e r') ∧
      ∀ n < d, Gives (some n) id' env e (.error (.recursionLimit n)) := by
  obtain ⟨d, hd⟩ := exists_nests h
  exact ⟨d, hd.gives⟩

end Interpreter

/-- A function whose body is a call of itself with the same argument does not come back. -/
theorem apply_loop {c : Closure} {f : String} (hself : c.self = some f) (hne : c.binder ≠ f)
    (hbody : c.body = .app (.var f) (.var c.binder)) (n : Nat) (v : Expr) {i : Interpreter}
    (hi : i.maxDepth = none) : apply n c v i = none := by
  induction n generalizing i with
  | zero => rfl
  | succ n ih =>
    have hf : (c.scope v).get? f = some c.toExpr := by
      rw [Closure.get?_scope, if_neg hne, if_pos hself]
    have hrun : eval n (c.scope v) c.body (i.enter c v) = none := by
      rw [hbody]
      simp only [eval, evalWith, hf, Closure.get?_scope_binder]
      exact ih hi
    rw [run_apply (Eval.checkDepth_unlimited hi), hrun]
    rfl

open Interpreter in
/-- Every evaluation under a limit finishes. Either there is a depth from which on a limit leaves the
outcome as it is without one, and below which every limit is hit; or every limit is hit, and without one
evaluation does not finish. Which numbers closures get makes no difference to that. -/
theorem limit_threshold (env : Env) (e : Expr) :
    (∀ n id, ∃ r, Gives (some n) id env e r) ∧
    Xor
      (∃ d r, (∀ n, r ≠ .error (.recursionLimit n)) ∧ ∀ id, ∃ r', Eval.Renumbered r r' ∧
        Gives none id env e r' ∧ (∀ n ≥ d, Gives (some n) id env e r') ∧
        ∀ n < d, Gives (some n) id env e (.error (.recursionLimit n)))
      (∀ id, (∀ n, Gives (some n) id env e (.error (.recursionLimit n))) ∧
        ∀ r, ¬ Gives none id env e r) := by
  refine ⟨fun n id => exists_gives_some n id env e, ?_⟩
  by_cases hgives : ∃ id r, Gives none id env e r
  · obtain ⟨id, r, hr⟩ := hgives
    obtain ⟨d, hd⟩ := exists_threshold hr
    refine .inl ⟨⟨d, r, ne_limit_of_gives hr, hd⟩, fun h => (h id).2 r hr⟩
  · simp only [not_exists] at hgives
    refine .inr ⟨fun id => ⟨fun n => gives_limit_of_unfinished ?_, hgives id⟩, ?_⟩
    · exact Option.eq_none_iff_forall_ne_some.2 fun p hp => hgives id p.1 ⟨n, p.2, hp⟩
    · rintro ⟨d, r, -, hd⟩
      obtain ⟨r', -, hr', -⟩ := hd 0
      exact hgives 0 r' hr'

open Interpreter in
/-- One call is the threshold of the first program. The second one calls itself without end. -/
theorem limit_threshold_both :
    let once : Expr := .app (.lam "x" (.var "x")) (.number 7)
    let forever : Expr :=
      .letIn true "f" (.lam "x" (.app (.var "f") (.var "x"))) (.app (.var "f") (.number 0))
    (∀ id, Gives none id .initial once (.ok (.number 7)) ∧
      (∀ n ≥ 1, Gives (some n) id .initial once (.ok (.number 7))) ∧
      Gives (some 0) id .initial once (.error (.recursionLimit 0))) ∧
    ∀ id, (∀ n, Gives (some n) id .initial forever (.error (.recursionLimit n))) ∧
      ∀ r, ¬ Gives none id .initial forever r := by
  intro once forever
  constructor
  · have hnone : ∀ id, Gives none id .initial once (.ok (.number 7)) := fun id => ⟨1, _, rfl⟩
    have hone : Gives (some 1) 0 .initial once (.ok (.number 7)) := ⟨_, rfl⟩
    have hzero : ∀ id, Gives (some 0) id .initial once (.error (.recursionLimit 0)) := fun id => ⟨_, rfl⟩
    rcases (limit_threshold .initial once).2 with ⟨⟨d, r, -, hd⟩, -⟩ | ⟨hnever, -⟩
    · intro id
      obtain ⟨r', -, hr', habove, -⟩ := hd id
      obtain rfl := hr'.unique (hnone id)
      refine ⟨hr', fun n hn => habove n ?_, hzero id⟩
      -- with a limit of one call it does not hit the limit
      by_contra hlt
      obtain ⟨_, -, -, -, hbelow⟩ := hd 0
      cases hone.unique (hbelow 1 (by omega))
    · exact absurd (hnone 0) ((hnever 0).2 _)
  · rcases (limit_threshold .initial forever).2 with ⟨⟨d, r, -, hd⟩, -⟩ | ⟨hnever, -⟩
    · obtain ⟨r', -, ⟨fuel, j, hrun⟩, -⟩ := hd 0
      let c : Closure := ⟨1, "x", .app (.var "f") (.var "x"), Env.initial, some "f"⟩
      rw [eval, run_letRec] at hrun
      simp only [evalWith, Bindings.get?_insert, if_true] at hrun
      change apply fuel c (.number 0) ((new none 0).tied "f") = _ at hrun
      rw [apply_loop rfl (by decide) rfl fuel _ rfl] at hrun
      cases hrun
    · exact hnever

/-! ### Typed programs -/

namespace Expr

mutual

/-- No `let` is recursive. -/
def tiesNothing : Expr → Bool
  | number _ | boolean _ | var _ | prim _ | closure .. => true
  | lam _ body => body.tiesNothing
  | app func argument => func.tiesNothing && argument.tiesNothing
  | ite c t e => c.tiesNothing && t.tiesNothing && e.tiesNothing
  | letIn recursive _ bound body => !recursive && bound.tiesNothing && body.tiesNothing
  | list items => allTieNothing items

def allTieNothing : List Expr → Bool
  | [] => true
  | e :: es => e.tiesNothing && allTieNothing es

end

theorem allTieNothing_iff {es : List Expr} :
    allTieNothing es = true ↔ ∀ e ∈ es, e.tiesNothing = true := by
  induction es with
  | nil => simp [allTieNothing]
  | cons e es ih => simp [allTieNothing, ih]

end Expr

namespace Eval

variable {α β : Type} {m : Nat → Eval α} {f : Nat → α → Eval β} {P P' : α → Prop} {Q : β → Prop}

/-- Without a limit, the run finishes once there is enough nesting, and with such a value unless it takes
an empty list apart. -/
def Finishes (m : Nat → Eval α) (P : α → Prop) : Prop := Halts m (Allowed none P)

theorem finishes_pure {a : α} (h : P a) : Finishes (fun _ => pure a) P := halts_pure (.value h)

theorem Finishes.bind (hm : Finishes m P) (hf : ∀ a, P a → Finishes (fun n => f n a) Q) :
    Finishes (fun n => m n >>= f n) Q := by
  refine Halts.bind hm (fun a ha => ?_) fun e he => ?_
  · cases ha with
    | value ha => exact hf a ha
  · cases he with
    | emptyList op => exact .emptyList op
    | limit h => cases h

/-- A run that finishes with each of several properties of its value finishes with all of them at once.
-/
theorem finishes_forall {ι : Type} [Nonempty ι] {P : ι → α → Prop} (h : ∀ k, Finishes m (P k)) :
    Finishes m fun a => ∀ k, P k a := by
  intro i hi
  obtain ⟨N, r, j, hrun, hj, hout⟩ := h (Classical.arbitrary ι) i hi
  refine ⟨N, r, j, hrun, hj, ?_⟩
  cases hout with
  | @value a _ =>
    refine .value fun k => ?_
    obtain ⟨N', r', j', hrun', -, hout'⟩ := h k i hi
    -- the two runs agree where both have enough nesting
    have hsame := hrun (max N N') (le_max_left _ _)
    rw [hrun' (max N N') (le_max_right _ _)] at hsame
    cases hsame
    cases hout' with
    | value hk => exact hk
  | emptyList op => exact .emptyList op
  | limit h => cases h

end Eval

open Eval in
/-- The values of a type, where a function is one only if its calls finish, with a value of its result
type. An unknown that is left leaves the value open. -/
def Expr.Reducible (v : Expr) : Ty → Prop
  | .number => ∃ n, v = .number n
  | .boolean => ∃ b, v = .boolean b
  | .fn a r => ∃ c : Closure, v = c.toExpr ∧
      ∀ w : Expr, w.Reducible a → Finishes (fun n => apply n c w) fun u => u.Reducible r
  | .list t => ∃ vs, v = .list vs ∧ ∀ w ∈ vs, w.Reducible t
  | .unknown _ | .var _ => True

theorem canonical_reducible : Canonical Expr.Reducible where
  number_iff := .rfl
  boolean_iff := .rfl
  list_iff := .rfl

section Walk
open Eval

variable {Γ : Context} {x : String} {e e₁ e₂ body : Expr} {items : List Expr} {a b r t : Ty}
  {op : Primitive}

/-- Where the context is met by reducible values, evaluation finishes with a reducible value. -/
def FinishesOn (Γ : Context) (e : Expr) (t : Ty) : Prop :=
  ∀ ⦃env : Env⦄, env.Meets Expr.Reducible Γ → Finishes (fun n => eval n env e) fun v => v.Reducible t

theorem finishesOn_var {s : Scheme} (hx : Γ.get? x = some s) (ρ : String → Ty) :
    FinishesOn Γ (.var x) (s.inst .unknown ρ) := by
  intro env henv
  obtain ⟨v, hv, hreducible⟩ := henv x s hx
  simp only [eval, evalWith, hv]
  exact finishes_pure (hreducible ρ)

theorem FinishesOn.lam (hbody : FinishesOn (Γ.insert x (.ofTy a)) body r) :
    FinishesOn Γ (.lam x body) (.fn a r) := by
  intro env henv
  refine halts_lam fun id => .value ⟨⟨id, x, body, env, none⟩, rfl, fun w hw => ?_⟩
  exact halts_apply (hbody (henv.insert_ofTy hw x))

theorem FinishesOn.app (hf : FinishesOn Γ e₁ (.fn a r)) (ha : FinishesOn Γ e₂ a) :
    FinishesOn Γ (.app e₁ e₂) r := by
  intro env henv
  simp only [eval, evalWith]
  refine (hf henv).bind ?_
  rintro _ ⟨c, rfl, hc⟩
  refine (ha henv).bind ?_
  intro w hw
  exact hc w hw

theorem FinishesOn.ite (hc : FinishesOn Γ e .boolean) (h₁ : FinishesOn Γ e₁ t)
    (h₂ : FinishesOn Γ e₂ t) : FinishesOn Γ (.ite e e₁ e₂) t := by
  intro env henv
  simp only [eval, evalWith]
  refine (hc henv).bind ?_
  rintro _ ⟨b, rfl⟩
  cases b with
  | true => exact h₁ henv
  | false => exact h₂ henv

/-- The one value is reducible at every instance of the scheme, as evaluating is at each of them. -/
theorem FinishesOn.letPoly {s : Scheme} (he : ∀ ρ, FinishesOn Γ e (s.inst .unknown ρ))
    (hbody : FinishesOn (Γ.insert x s) body t) : FinishesOn Γ (.letIn false x e body) t := by
  intro env henv
  simp only [eval, evalWith_letPoly]
  refine (finishes_forall fun ρ => he ρ henv).bind ?_
  intro v hv
  exact hbody (henv.insert hv x)

theorem finishes_evalItems {env : Env} (hitems : ∀ e ∈ items, FinishesOn Γ e t)
    (henv : env.Meets Expr.Reducible Γ) :
    Finishes (fun n => evalItems (apply n) env items) fun vs => ∀ v ∈ vs, v.Reducible t := by
  induction items with
  | nil =>
    simp only [evalItems]
    exact finishes_pure (by simp)
  | cons item items ih =>
    obtain ⟨hitem, hitems⟩ := List.forall_mem_cons.1 hitems
    simp only [evalItems]
    refine (hitem henv).bind ?_
    intro v hv
    refine (ih hitems).bind ?_
    intro vs hvs
    exact finishes_pure (List.forall_mem_cons.2 ⟨hv, hvs⟩)

theorem FinishesOn.list (hitems : ∀ e ∈ items, FinishesOn Γ e t) :
    FinishesOn Γ (.list items) (.list t) := by
  intro env henv
  simp only [eval, evalWith]
  refine (finishes_evalItems hitems henv).bind ?_
  intro vs hvs
  exact finishes_pure ⟨vs, rfl, hvs⟩

theorem Typed.finishesOn (h : Typed Γ e t) (hties : e.tiesNothing = true) : FinishesOn Γ e t := by
  -- on the expression: what a polymorphic `let` binds is needed at types that no subderivation has
  induction e using Expr.induct generalizing Γ t with
  | number n => cases h with
    | number =>
      intro env _
      simp only [eval, evalWith]
      exact finishes_pure ⟨n, rfl⟩
  | boolean b => cases h with
    | boolean =>
      intro env _
      simp only [eval, evalWith]
      exact finishes_pure ⟨b, rfl⟩
  | var x => cases h with
    | var ρ hx => exact finishesOn_var hx ρ
  | lam x body ih => cases h with
    | lam hbody => exact (ih hbody hties).lam
  | app e₁ e₂ ih₁ ih₂ => cases h with
    | app h₁ h₂ =>
      simp only [Expr.tiesNothing, Bool.and_eq_true] at hties
      exact (ih₁ h₁ hties.1).app (ih₂ h₂ hties.2)
  | ite e e₁ e₂ ih ih₁ ih₂ => cases h with
    | ite h h₁ h₂ =>
      simp only [Expr.tiesNothing, Bool.and_eq_true] at hties
      exact (ih h hties.1.1).ite (ih₁ h₁ hties.1.2) (ih₂ h₂ hties.2)
  | letIn recursive x e body ihe ihbody =>
    simp only [Expr.tiesNothing, Bool.and_eq_true] at hties
    obtain ⟨⟨hrecursive, he⟩, hbody⟩ := hties
    cases h with
    | letRec => cases hrecursive
    | letPoly hbound hs hrest =>
      refine FinishesOn.letPoly (fun ρ => ?_) (ihbody hrest hbody)
      obtain ⟨τ, hinst, hkept⟩ := hs.closes.of_inst .unknown ρ
      rw [hinst]
      exact ihe (hbound.subst_of_fixed hkept) he
  | list items ih => cases h with
    | list hitems =>
      have hties := Expr.allTieNothing_iff.1 hties
      exact FinishesOn.list fun e he => ih e he (hitems e he) (hties e he)
  | prim op => cases h
  | closure id x body env self => cases h

/-! The operations finish, which are called on their operands one by one. -/

theorem reducible_unary (hop : op.Operates [a] r) (harity : op.arity = 1) (id : Nat) :
    (op.closure id).toExpr.Reducible (.fn a r) := by
  refine ⟨op.closure id, rfl, fun v hv => halts_apply ?_⟩
  have hx : ((op.closure id).scope v).get? "x" = some v := Closure.get?_scope_binder _ v
  rw [Primitive.closure_body_unary harity]
  refine halts_prim ?_
  rcases Primitive.eval_of_operates_unary canonical_reducible hop hx hv with ⟨u, hu, hur⟩ | hempty
  · rw [hu]
    exact .value hur
  · rw [hempty]
    exact .emptyList op

theorem reducible_binary (hop : op.Operates [a, b] r) (harity : op.arity = 2) (id : Nat) :
    (op.closure id).toExpr.Reducible (.fn a (.fn b r)) := by
  refine ⟨op.closure id, rfl, fun v hv => halts_apply ?_⟩
  rw [Primitive.closure_body_binary harity]
  refine halts_lam fun id' => .value ?_
  let held : Closure := ⟨id', "y", .prim op, (op.closure id).scope v, none⟩
  refine ⟨held, rfl, fun w hw => halts_apply (halts_prim ?_)⟩
  have hx : (held.scope w).get? "x" = some v := by
    rw [Closure.get?_scope, if_neg (by simp [held]), if_neg (by simp [held])]
    exact Closure.get?_scope_binder (op.closure id) v
  have hy : (held.scope w).get? "y" = some w := Closure.get?_scope_binder held w
  obtain ⟨u, hu, hur⟩ := Primitive.eval_of_operates_binary canonical_reducible hop hx hv hy hw
  rw [hu]
  exact .value hur

end Walk

open Interpreter in
/-- The evaluation of a typed program without recursive `let` finishes: from some limit on, and without a
limit, it has one outcome, which is a value unless an empty list is taken apart. -/
theorem terminates_of_typed (e : Expr) (t : Ty) (hties : e.tiesNothing = true)
    (hinfer : inferType e = .ok t) :
    ∃ N r, ((∃ v, r = .ok v ∧ v.isValue = true) ∨ ∃ op, r = .error (.emptyListAccess op)) ∧
      ∀ id, ∃ r', Eval.Renumbered r r' ∧ Gives none id .initial e r' ∧
        ∀ n ≥ N, Gives (some n) id .initial e r' := by
  have htyped := (typed_of_infer Context.closed_initial (Prod.ext hinfer rfl) .unknown).2
  have hmeets : Env.initial.Meets Expr.Reducible Context.initial :=
    Env.meets_initial canonical_reducible reducible_unary reducible_binary
  obtain ⟨n, r, j, hrun, -, hout⟩ := htyped.finishesOn hties hmeets (.new none 0) rfl
  obtain ⟨N, hN⟩ := exists_threshold ⟨n, j, hrun n le_rfl⟩
  refine ⟨N, r, ?_, fun id => ?_⟩
  · have hcaptures := Expr.capturesValues_of_isSource htyped.isSource
    have hdelivered := Expr.hereditary_isFinal.eval Env.all_isFinal_initial hcaptures n _ r j (hrun n le_rfl)
    cases hout with
    | value => cases hdelivered with
      | value hfinal => exact .inl ⟨_, rfl, hfinal.1⟩
    | emptyList op => exact .inr ⟨op, rfl⟩
    | limit h => cases h
  · obtain ⟨r', hr', hnone, habove, -⟩ := hN id
    exact ⟨r', hr', hnone, habove⟩

/-- The identity is applied to itself, which no type without a scheme allows. -/
theorem terminates_of_typed_identity :
    let e : Expr := .letIn false "identity" (.lam "x" (.var "x"))
      (.app₂ (.var "identity") (.var "identity") (.number 10))
    e.tiesNothing = true ∧ inferType e = .ok .number ∧ ∃ N, ∀ n ≥ N,
      Interpreter.Gives (some n) Env.builtinCount .initial e (.ok (.number 10)) := by
  intro e
  have hties : e.tiesNothing = true := by decide
  have hinfer : inferType e = .ok .number := by cbv
  have hrun : ∃ j, eval 8 .initial e (.new none Env.builtinCount) = some (.ok (.number 10), j) :=
    ⟨_, by cbv⟩
  obtain ⟨N, r, -, hgives⟩ := terminates_of_typed e _ hties hinfer
  obtain ⟨r', -, hnone, habove⟩ := hgives Env.builtinCount
  rw [hnone.unique ⟨8, hrun⟩] at habove
  exact ⟨hties, hinfer, N, habove⟩

end LetPoly
