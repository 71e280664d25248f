import LetPoly.Proofs.Readback
import LetPoly.Proofs.Running

/-! Runs of the evaluator are matched by derivations. Without a limit, a run that finishes ends in a
value that the term of the expression evaluates to when it is read back, or fails as the term does
(`matched`): by induction on how deep calls are nested, and on the expression. -/

namespace LetPoly

namespace Eval

variable {α β : Type} {m : Eval α} {f : α → Eval β} {P : Except EvalError α → Prop}
  {Q : Except EvalError β → Prop}

/-- Without a limit, a run that finishes ends as stated. -/
def Ends (m : Eval α) (P : Except EvalError α → Prop) : Prop :=
  ∀ i r j, i.maxDepth = none → m i = some (r, j) → j.maxDepth = none ∧ P r

theorem ends_of_run {r : Except EvalError α} {g : Interpreter → Interpreter}
    (hrun : ∀ i, m i = some (r, g i)) (hg : ∀ i, (g i).maxDepth = i.maxDepth) (h : P r) :
    Ends m P := by
  intro i r' j hi hm
  rw [hrun] at hm
  cases hm
  exact ⟨(hg i).trans hi, h⟩

theorem ends_pure {a : α} (h : P (.ok a)) : Ends (pure a) P :=
  ends_of_run (g := id) (fun _ => rfl) (fun _ => rfl) h

theorem ends_throw {e : EvalError} (h : P (.error e)) : Ends (throw e) P :=
  ends_of_run (g := id) (fun _ => rfl) (fun _ => rfl) h

theorem ends_ofExcept {r : Except EvalError α} (h : P r) : Ends (ofExcept r) P := by
  cases r with
  | ok a => exact ends_pure h
  | error e => exact ends_throw h

theorem Ends.bind (hm : Ends m P) (hok : ∀ a, P (.ok a) → Ends (f a) Q)
    (herror : ∀ e, P (.error e) → Q (.error e)) : Ends (m >>= f) Q := by
  intro i r j hi hrun
  rw [run_bind] at hrun
  cases hmi : m i with
  | none =>
    rw [hmi] at hrun
    cases hrun
  | some p =>
    obtain ⟨r₁, j₁⟩ := p
    obtain ⟨hj₁, hp⟩ := hm i r₁ j₁ hi hmi
    rw [hmi] at hrun
    cases r₁ with
    | ok a => exact hok a hp j₁ r j hj₁ hrun
    | error e =>
      cases hrun
      exact ⟨hj₁, herror e hp⟩

theorem Ends.imp {P' : Except EvalError α → Prop} (hm : Ends m P) (h : ∀ r, P r → P' r) :
    Ends m P' := by
  intro i r j hi hrun
  obtain ⟨hj, hp⟩ := hm i r j hi hrun
  exact ⟨hj, h r hp⟩

theorem ends_apply {n : Nat} {c : Closure} {v : Expr} {P : Except EvalError Expr → Prop}
    (h : Ends (eval n (c.scope v) c.body) P) : Ends (apply (n + 1) c v) P := by
  intro i r j hi hrun
  rw [run_apply (checkDepth_unlimited hi)] at hrun
  obtain ⟨⟨r', j'⟩, hbody, hleave⟩ := Option.map_eq_some_iff.1 hrun
  cases hleave
  exact h (i.enter c v) r' j' hi hbody

end Eval

section Forward
open Eval

variable {n : Nat} {env : Env} {ρ : Scope Term} {e e₁ e₂ bound body : Expr} {items : List Expr}
  {x : String} {tf t : Term}

/-- The term evaluates to what is read back from the outcome, or fails in the same way. -/
def Term.Yields (t : Term) (r : Except EvalError Expr) : Prop := ∃ r', Evaluates t r' ∧ Agrees r r'

/-- Runs of calls are matched by what the function that is read back does with the argument. -/
def CallsMatched (n : Nat) : Prop :=
  ∀ (c : Closure) v tf t, Reads c.toExpr tf → Reads v t → Ends (apply n c v) fun r =>
    ∃ r', Agrees r r' ∧
      ∀ f a, Evaluates f (.ok tf) → Evaluates a (.ok t) → Evaluates (.app f a) r'

def Matched (n : Nat) (e : Expr) : Prop :=
  ∀ ⦃env : Env⦄ ⦃ρ : Scope Term⦄, env.Reads ρ → e.ClosedIn ρ →
    Ends (eval n env e) (e.term ρ).Yields

theorem Term.yields_ok {v : Expr} : t.Yields (.ok v) ↔ ∃ s, Evaluates t (.ok s) ∧ Reads v s := by
  constructor
  · rintro ⟨_, heval, hagrees⟩
    cases hagrees with
    | value hread => exact ⟨_, heval, hread⟩
  · rintro ⟨s, heval, hread⟩
    exact ⟨.ok s, heval, .value hread⟩

theorem Term.yields_error {err : EvalError} :
    t.Yields (.error err) ↔ Evaluates t (.error err.fault) := by
  constructor
  · rintro ⟨_, heval, hagrees⟩
    cases hagrees
    exact heval
  · exact fun heval => ⟨_, heval, .error err⟩

theorem matched_var (x : String) : Matched n (.var x) := by
  intro env ρ henv he
  obtain ⟨v, hv, hread⟩ := henv.var he
  unfold eval evalWith
  rw [hv]
  exact ends_pure (Term.yields_ok.2 ⟨_, hread.evaluates_iff.2 rfl, hread⟩)

theorem ends_lam {P : Except EvalError Expr → Prop}
    (h : ∀ id, P (.ok (.closure id x body env none))) : Ends (eval n env (.lam x body)) P := by
  intro i r j hi hrun
  unfold eval evalWith at hrun
  cases hrun
  exact ⟨hi, h _⟩

theorem ends_letRec {P : Except EvalError Expr → Prop} {f : String}
    (h : ∀ id, Ends (eval n (env.insert f (.closure id x body env (some f))) e) P) :
    Ends (eval n env (.letIn true f (.lam x body) e)) P := by
  intro i r j hi hrun
  rw [eval, run_letRec] at hrun
  exact h (i.nextId + 1) (i.tied f) r j hi hrun

theorem matched_lam (x : String) (body : Expr) : Matched n (.lam x body) := by
  intro env ρ henv he
  refine ends_lam fun id => Term.yields_ok.2 ⟨_, .function ?_, henv.lam he id⟩
  rw [Expr.term, Term.isFunction]

theorem Matched.app (hcall : CallsMatched n) (h₁ : Matched n e₁) (h₂ : Matched n e₂) :
    Matched n (.app e₁ e₂) := by
  intro env ρ henv he
  obtain ⟨he₁, he₂⟩ := he.app
  unfold eval evalWith
  rw [Expr.term]
  refine (h₁ henv he₁).bind (fun w hw => ?_) fun err herr => ?_
  · obtain ⟨tf, hf, hread⟩ := Term.yields_ok.1 hw
    rcases hread.shape with ⟨n, rfl, rfl⟩ | ⟨b, rfl, rfl⟩ | ⟨vs, ts, rfl, rfl⟩ | ⟨c, rfl, hfun⟩
    · exact ends_throw (Term.yields_error.2 (.notAFunction hf rfl))
    · exact ends_throw (Term.yields_error.2 (.notAFunction hf rfl))
    · exact ends_throw (Term.yields_error.2 (.notAFunction hf rfl))
    · refine (h₂ henv he₂).bind (fun v hv => ?_) fun err herr => ?_
      · obtain ⟨t, ha, hread'⟩ := Term.yields_ok.1 hv
        refine (hcall c v tf t hread hread').imp ?_
        rintro r ⟨r', hagrees, happly⟩
        exact ⟨r', happly _ _ hf ha, hagrees⟩
      · exact Term.yields_error.2 (.argumentFails hf hfun (Term.yields_error.1 herr))
  · exact Term.yields_error.2 (.funcFails (Term.yields_error.1 herr))

theorem Matched.ite (hc : Matched n e) (h₁ : Matched n e₁) (h₂ : Matched n e₂) :
    Matched n (.ite e e₁ e₂) := by
  intro env ρ henv he
  obtain ⟨hce, he₁, he₂⟩ := he.ite
  unfold eval evalWith
  rw [Expr.term]
  refine (hc henv hce).bind (fun v hv => ?_) fun err herr => ?_
  · obtain ⟨t, ht, hread⟩ := Term.yields_ok.1 hv
    rcases hread.shape with ⟨n, rfl, rfl⟩ | ⟨b, rfl, rfl⟩ | ⟨vs, ts, rfl, rfl⟩ | ⟨c, rfl, hfun⟩
    · exact ends_throw (Term.yields_error.2 (.notABoolean ht (by simp)))
    · cases b with
      | true =>
        refine (h₁ henv he₁).imp ?_
        rintro r ⟨r', heval, hagrees⟩
        exact ⟨r', .branch ht heval, hagrees⟩
      | false =>
        refine (h₂ henv he₂).imp ?_
        rintro r ⟨r', heval, hagrees⟩
        exact ⟨r', .branch ht heval, hagrees⟩
    · exact ends_throw (Term.yields_error.2 (.notABoolean ht (by simp)))
    · refine ends_throw (Term.yields_error.2 (.notABoolean ht ?_))
      rintro b rfl
      cases hfun
  · exact Term.yields_error.2 (.conditionFails (Term.yields_error.1 herr))

theorem Matched.letRec (hbody : Matched n body) : Matched n (.letIn true x bound body) := by
  intro env ρ henv he
  obtain ⟨y, inner, rfl, he', hread⟩ := henv.letRec he
  have hrest := he' (inner.function ρ (some x) y)
  rw [Expr.term]
  refine ends_letRec fun id => (hbody (henv.insert (hread id) x) hrest).imp ?_
  rintro r ⟨r', heval, hagrees⟩
  refine ⟨r', .letIn (.function (Expr.isFunction_function ρ (some x) y inner)) ?_, hagrees⟩
  rwa [Expr.subst_term_erase hrest.source hrest.ties henv.closedScope]

theorem Matched.letPoly (hbound : Matched n bound) (hbody : Matched n body) :
    Matched n (.letIn false x bound body) := by
  intro env ρ henv he
  obtain ⟨he₁, he₂⟩ := he.letPoly
  rw [eval, evalWith_letPoly, Expr.term]
  refine (hbound henv he₁).bind (fun v hv => ?_) fun err herr => ?_
  · obtain ⟨t, ht, hread⟩ := Term.yields_ok.1 hv
    refine (hbody (henv.insert hread x) (he₂ t)).imp ?_
    rintro r ⟨r', heval, hagrees⟩
    refine ⟨r', .letIn ht ?_, hagrees⟩
    rwa [Expr.subst_term_erase (he₂ t).source (he₂ t).ties henv.closedScope]
  · exact Term.yields_error.2 (.boundFails (Term.yields_error.1 herr))

theorem ends_evalItems (henv : env.Reads ρ) (hitems : ∀ e ∈ items, Matched n e)
    (hclosed : ∀ e ∈ items, e.ClosedIn ρ) : Ends (evalItems (apply n) env items) fun r =>
      (Term.list (Expr.termAll ρ items)).Yields (r.map .list) := by
  induction items with
  | nil =>
    unfold evalItems
    exact ends_pure (Term.yields_ok.2 ⟨_, .nil, .nil⟩)
  | cons item items ih =>
    obtain ⟨hitem, hitems⟩ := List.forall_mem_cons.1 hitems
    obtain ⟨he, hclosed⟩ := List.forall_mem_cons.1 hclosed
    unfold evalItems
    rw [Expr.termAll]
    refine (hitem henv he).bind (fun v hv => ?_) fun err herr => ?_
    · obtain ⟨t, ht, hread⟩ := Term.yields_ok.1 hv
      refine (ih hitems hclosed).bind (fun vs hvs => ?_) fun err herr => ?_
      · obtain ⟨s, hs, hreads⟩ := Term.yields_ok.1 hvs
        refine ends_pure (Term.yields_ok.2 ?_)
        rcases hreads.list_or with ⟨_, ts, -, rfl⟩ | ⟨hnot, -⟩
        · exact ⟨_, .cons ht hs, .cons hread hreads⟩
        · exact absurd rfl (hnot vs)
      · exact Term.yields_error.2 (.itemsFail ht (Term.yields_error.1 herr))
    · exact Term.yields_error.2 (.itemFails (Term.yields_error.1 herr))

theorem Matched.list (hitems : ∀ e ∈ items, Matched n e) : Matched n (.list items) := by
  intro env ρ henv he
  unfold eval evalWith
  rw [Expr.term]
  have hends := ends_evalItems henv hitems (Expr.ClosedIn.list_iff.1 he)
  exact hends.bind (fun vs hvs => ends_pure hvs) fun err herr => herr

theorem matched_of_calls (hcall : CallsMatched n) (e : Expr) : Matched n e := by
  induction e using Expr.induct with
  | number k =>
    intro env ρ _ _
    unfold eval evalWith
    rw [Expr.term]
    exact ends_pure (Term.yields_ok.2 ⟨_, .number k, .number k⟩)
  | boolean b =>
    intro env ρ _ _
    unfold eval evalWith
    rw [Expr.term]
    exact ends_pure (Term.yields_ok.2 ⟨_, .boolean b, .boolean b⟩)
  | var x => exact matched_var x
  | lam x body _ => exact matched_lam x body
  | app e₁ e₂ ih₁ ih₂ => exact ih₁.app hcall ih₂
  | ite e e₁ e₂ ih ih₁ ih₂ => exact ih.ite ih₁ ih₂
  | letIn recursive x bound body ih ihbody =>
    cases recursive with
    | true => exact Matched.letRec ihbody
    | false => exact ih.letPoly ihbody
  | list items ih => exact Matched.list ih
  | prim | closure =>
    intro env ρ _ he
    cases he.source

theorem ends_prim {op : Primitive} {P : Except EvalError Expr → Prop} (h : P (op.eval env)) :
    Ends (eval n env (.prim op)) P := by
  unfold eval evalWith
  exact ends_ofExcept h

/-- By induction on how deep calls may be nested. -/
theorem callsMatched (n : Nat) : CallsMatched n := by
  induction n with
  | zero =>
    intro c v tf t _ _ i r j _ hrun
    cases hrun
  | succ n ih =>
    intro c v tf t hc hv
    cases tf with
    | lam x b =>
      obtain ⟨ρ, henv, hclosed, hterm⟩ := hc.call_lam hv
      refine ends_apply ((matched_of_calls ih c.body henv hclosed).imp ?_)
      rintro r ⟨r', heval, hagrees⟩
      exact ⟨r', hagrees, fun f a hf ha => .appLam hf ha (by rwa [hterm])⟩
    | fix g x b =>
      obtain ⟨ρ, henv, hclosed, hterm⟩ := hc.call_fix hv
      refine ends_apply ((matched_of_calls ih c.body henv hclosed).imp ?_)
      rintro r ⟨r', heval, hagrees⟩
      exact ⟨r', hagrees, fun f a hf ha => .appFix hf ha (by rwa [hterm])⟩
    | op p =>
      obtain ⟨hx, hbody⟩ := hc.call_op v
      refine ends_apply ?_
      rcases p.arity_eq with harity | harity
      · rw [hbody, if_pos harity]
        refine ends_prim ⟨_, Primitive.agrees_unary hx hv harity, fun f a hf ha => ?_⟩
        exact .appUnary hf harity ha
      · rw [hbody, if_neg (by omega)]
        refine ends_lam fun id => ⟨_, .value (.held harity hx hv), fun f a hf ha => ?_⟩
        exact .appFirst hf harity ha
    | held p s =>
      obtain ⟨u, hx, hu, hy, hbody, harity⟩ := hc.call_held v
      refine ends_apply ?_
      rw [hbody]
      refine ends_prim ⟨_, Primitive.agrees_binary hx hu hy hv harity, fun f a hf ha => ?_⟩
      exact .appSecond hf ha
    | _ => cases hc.isFunction

/-- A run that finishes gives what the term evaluates to. -/
theorem matched (n : Nat) (e : Expr) : Matched n e := matched_of_calls (callsMatched n) e

end Forward

end LetPoly
