import Mathlib
import LetPoly.Proofs.Refinement
import LetPoly.Samples

/-! Derivations are matched by runs of the evaluator, with which the two come to the same
(`eval_iff_evaluates`). By induction on the derivation, wherever its term comes from, evaluation
finishes once it may nest its calls deep enough (`Eval.Halts`), and with the same outcome. -/

namespace LetPoly

namespace Eval

variable {α β : Type} {m : Nat → Eval α} {f : Nat → α → Eval β} {P : Except EvalError α → Prop}
  {Q : Except EvalError β → Prop}

/-- Without a limit, the run finishes once there is enough nesting, and ends as stated. -/
def Halts (m : Nat → Eval α) (P : Except EvalError α → Prop) : Prop :=
  ∀ i, i.maxDepth = none → ∃ N r j, (∀ n ≥ N, m n i = some (r, j)) ∧ j.maxDepth = none ∧ P r

theorem halts_of_run {r : Except EvalError α} {g : Interpreter → Interpreter}
    (hrun : ∀ n i, m n i = some (r, g i)) (hg : ∀ i, (g i).maxDepth = i.maxDepth) (h : P r) :
    Halts m P :=
  fun i hi => ⟨0, r, g i, fun n _ => hrun n i, (hg i).trans hi, h⟩

theorem halts_pure {a : α} (h : P (.ok a)) : Halts (fun _ => pure a) P :=
  halts_of_run (g := id) (fun _ _ => rfl) (fun _ => rfl) h

theorem halts_throw {e : EvalError} (h : P (.error e)) : Halts (fun _ => throw e) P :=
  halts_of_run (g := id) (fun _ _ => rfl) (fun _ => rfl) h

theorem halts_ofExcept {r : Except EvalError α} (h : P r) : Halts (fun _ => ofExcept r) P := by
  cases r with
  | ok a => exact halts_pure h
  | error e => exact halts_throw h

theorem Halts.bind (hm : Halts m P) (hok : ∀ a, P (.ok a) → Halts (fun n => f n a) Q)
    (herror : ∀ e, P (.error e) → Q (.error e)) : Halts (fun n => m n >>= f n) Q := by
  intro i hi
  obtain ⟨N, r, j, hrun, hj, hp⟩ := hm i hi
  cases r with
  | error e =>
    refine ⟨N, .error e, j, fun n hn => ?_, hj, herror e hp⟩
    change (m n >>= f n) i = _
    rw [run_bind, hrun n hn]
  | ok a =>
    obtain ⟨N', r, k, hrun', hk, hq⟩ := hok a hp j hj
    refine ⟨max N N', r, k, fun n hn => ?_, hk, hq⟩
    change (m n >>= f n) i = _
    rw [run_bind, hrun n (le_of_max_le_left hn)]
    exact hrun' n (le_of_max_le_right hn)

theorem halts_apply {c : Closure} {v : Expr} {P : Except EvalError Expr → Prop}
    (h : Halts (fun n => eval n (c.scope v) c.body) P) : Halts (fun n => apply n c v) P := by
  intro i hi
  obtain ⟨N, r, j, hrun, hj, hp⟩ := h (i.enter c v) hi
  refine ⟨N + 1, r, j.leave, fun n hn => ?_, hj, hp⟩
  obtain ⟨n, rfl⟩ : ∃ k, n = k + 1 := ⟨n - 1, by omega⟩
  have hbody : eval n (c.scope v) c.body (i.enter c v) = some (r, j) := hrun n (by omega)
  change apply (n + 1) c v i = _
  rw [run_apply (checkDepth_unlimited hi), hbody]
  rfl

end Eval

section Backward
open Eval

variable {env : Env} {ρ : Scope Term} {e e₁ e₂ bound body : Expr} {items : List Expr}
  {x g : String} {tf t b s : Term} {r : Except Fault Term} {c : Closure} {v : Expr} {op : Primitive}

/-- Wherever the term comes from, evaluation finishes with the outcome. -/
def Followed (t : Term) (r : Except Fault Term) : Prop :=
  ∀ ⦃e : Expr⦄ ⦃ρ : Scope Term⦄ ⦃env : Env⦄, t = e.term ρ → env.Reads ρ → e.ClosedIn ρ →
    Halts (fun n => eval n env e) (Agrees · r)

theorem halts_prim {P : Except EvalError Expr → Prop} (h : P (op.eval env)) :
    Halts (fun n => eval n env (.prim op)) P := by
  simpa only [eval, evalWith] using halts_ofExcept h

theorem halts_lam {P : Except EvalError Expr → Prop}
    (h : ∀ id, P (.ok (.closure id x body env none))) :
    Halts (fun n => eval n env (.lam x body)) P :=
  fun i hi => ⟨0, .ok (.closure i.nextId x body env none), { i with nextId := i.nextId + 1 },
    fun _ _ => run_lam _ _ _ _ _, hi, h _⟩

theorem halts_letRec {P : Except EvalError Expr → Prop} {f : String}
    (h : ∀ id, Halts (fun n => eval n (env.insert f (.closure id x body env (some f))) e) P) :
    Halts (fun n => eval n env (.letIn true f (.lam x body) e)) P := by
  intro i hi
  simp only [eval, run_letRec]
  exact h (i.nextId + 1) (i.tied f) hi

/-! What a call comes to, for each kind of function. -/

theorem halts_call_lam (hc : Reads c.toExpr (.lam x b)) (hv : Reads v t)
    (h : Followed (b.subst x t) r) : Halts (fun n => apply n c v) (Agrees · r) := by
  obtain ⟨ρ, henv, hclosed, hterm⟩ := hc.call_lam hv
  exact halts_apply (h hterm henv hclosed)

theorem halts_call_fix (hc : Reads c.toExpr (.fix g x b)) (hv : Reads v t)
    (h : Followed ((b.subst x t).subst g (.fix g x b)) r) :
    Halts (fun n => apply n c v) (Agrees · r) := by
  obtain ⟨ρ, henv, hclosed, hterm⟩ := hc.call_fix hv
  exact halts_apply (h hterm henv hclosed)

theorem halts_call_unary (hc : Reads c.toExpr (.op op)) (harity : op.arity = 1) (hv : Reads v t) :
    Halts (fun n => apply n c v) (Agrees · (op.unary t)) := by
  obtain ⟨hx, hbody⟩ := hc.call_op v
  refine halts_apply ?_
  rw [hbody, if_pos harity]
  exact halts_prim (Primitive.agrees_unary hx hv harity)

theorem halts_call_first (hc : Reads c.toExpr (.op op)) (harity : op.arity = 2) (hv : Reads v t) :
    Halts (fun n => apply n c v) (Agrees · (.ok (.held op t))) := by
  obtain ⟨hx, hbody⟩ := hc.call_op v
  refine halts_apply ?_
  rw [hbody, if_neg (by omega)]
  exact halts_lam fun id => .value (.held harity hx hv)

theorem halts_call_second (hc : Reads c.toExpr (.held op s)) (hv : Reads v t) :
    Halts (fun n => apply n c v) (Agrees · (op.binary s t)) := by
  obtain ⟨u, hx, hu, hy, hbody, harity⟩ := hc.call_held v
  refine halts_apply ?_
  rw [hbody]
  exact halts_prim (Primitive.agrees_binary hx hu hy hv harity)

/-! The expressions that a term comes from. -/

/-- What stands for a name is no term that is still to be evaluated. -/
theorem ne_var_of_isPending (hterm : t = e.term ρ) (ht : t.isPending = true) (henv : env.Reads ρ)
    (he : e.ClosedIn ρ) (x : String) : e ≠ .var x := by
  rintro rfl
  obtain ⟨v, -, hread⟩ := henv.var he
  rw [← hterm] at hread
  cases hread.isPending_eq_false.symm.trans ht

theorem exists_of_term_app {f a : Term} (h : .app f a = e.term ρ) (henv : env.Reads ρ)
    (he : e.ClosedIn ρ) : ∃ e₁ e₂, e = .app e₁ e₂ ∧ f = e₁.term ρ ∧ a = e₂.term ρ := by
  cases e with
  | app e₁ e₂ =>
    rw [Expr.term, Term.app.injEq] at h
    exact ⟨e₁, e₂, rfl, h.1, h.2⟩
  | var x => exact absurd rfl (ne_var_of_isPending h rfl henv he x)
  | letIn recursive => cases recursive <;> cases h
  | prim | closure => cases he.source
  | _ => cases h

theorem exists_of_term_ite {c t₁ t₂ : Term} (h : .ite c t₁ t₂ = e.term ρ) (henv : env.Reads ρ)
    (he : e.ClosedIn ρ) :
    ∃ e₀ e₁ e₂, e = .ite e₀ e₁ e₂ ∧ c = e₀.term ρ ∧ t₁ = e₁.term ρ ∧ t₂ = e₂.term ρ := by
  cases e with
  | ite e₀ e₁ e₂ =>
    rw [Expr.term, Term.ite.injEq] at h
    exact ⟨e₀, e₁, e₂, rfl, h⟩
  | var x => exact absurd rfl (ne_var_of_isPending h rfl henv he x)
  | letIn recursive => cases recursive <;> cases h
  | prim | closure => cases he.source
  | _ => cases h

/-- What a recursive `let` binds is a value at once. -/
theorem exists_of_term_letIn (h : .letIn x b t = e.term ρ) (henv : env.Reads ρ)
    (he : e.ClosedIn ρ) : ∃ recursive bound body, e = .letIn recursive x bound body ∧
      t = body.term (ρ.erase x) ∧
      if recursive then b = (bound.term (ρ.erase x)).tie x else b = bound.term ρ := by
  cases e with
  | letIn recursive y bound body =>
    cases recursive with
    | true =>
      rw [Expr.term, Term.letIn.injEq] at h
      obtain ⟨rfl, hb, ht⟩ := h
      exact ⟨true, bound, body, rfl, ht, hb⟩
    | false =>
      rw [Expr.term, Term.letIn.injEq] at h
      obtain ⟨rfl, hb, ht⟩ := h
      exact ⟨false, bound, body, rfl, ht, hb⟩
  | var y => exact absurd rfl (ne_var_of_isPending h rfl henv he y)
  | prim | closure => cases he.source
  | _ => cases h

theorem exists_of_term_list {ts : List Term} (h : .list ts = e.term ρ) (he : e.ClosedIn ρ) :
    (∃ items, e = .list items ∧ ts = Expr.termAll ρ items) ∨ ∃ x, e = .var x := by
  cases e with
  | list items =>
    rw [Expr.term, Term.list.injEq] at h
    exact .inl ⟨items, rfl, h⟩
  | var x => exact .inr ⟨x, rfl⟩
  | letIn recursive => cases recursive <;> cases h
  | prim | closure => cases he.source
  | _ => cases h

/-! One rule at a time. -/

theorem halts_var (henv : env.Reads ρ) (he : (Expr.var x).ClosedIn ρ)
    (heval : Evaluates ((Expr.var x).term ρ) r) :
    Halts (fun n => eval n env (.var x)) (Agrees · r) := by
  obtain ⟨v, hv, hread⟩ := henv.var he
  cases hread.evaluates_iff.1 heval
  simp only [eval, evalWith, hv]
  exact halts_pure (.value hread)

/-- No name is left open. -/
theorem followed_unbound (x : String) : Followed (.var x) r := by
  intro e ρ env hterm henv he
  cases e with
  | var y => exact absurd rfl (ne_var_of_isPending hterm rfl henv he y)
  | letIn recursive => cases recursive <;> cases hterm
  | prim | closure => cases he.source
  | _ => cases hterm

theorem followed_number (k : Int64) : Followed (.number k) (.ok (.number k)) := by
  intro e ρ env hterm henv he
  cases e with
  | number k' =>
    cases hterm
    simp only [eval, evalWith]
    exact halts_pure (.value (.number k))
  | var x => exact halts_var henv he (hterm ▸ .number k)
  | letIn recursive => cases recursive <;> cases hterm
  | prim | closure => cases he.source
  | _ => cases hterm

theorem followed_boolean (k : Bool) : Followed (.boolean k) (.ok (.boolean k)) := by
  intro e ρ env hterm henv he
  cases e with
  | boolean k' =>
    cases hterm
    simp only [eval, evalWith]
    exact halts_pure (.value (.boolean k))
  | var x => exact halts_var henv he (hterm ▸ .boolean k)
  | letIn recursive => cases recursive <;> cases hterm
  | prim | closure => cases he.source
  | _ => cases hterm

theorem followed_function (hfun : t.isFunction = true) : Followed t (.ok t) := by
  intro e ρ env hterm henv he
  cases e with
  | lam x body =>
    subst hterm
    exact halts_lam fun id => .value (henv.lam he id)
  | var x =>
    subst hterm
    exact halts_var henv he (.function hfun)
  | letIn recursive =>
    subst hterm
    cases recursive <;> cases hfun
  | prim | closure => cases he.source
  | _ =>
    subst hterm
    cases hfun

theorem followed_app {f a : Term} {r' : Except Fault Term} (hf : Followed f (.ok tf))
    (hfun : tf.isFunction = true) (ha : Followed a r')
    (hcall : ∀ c v, Reads c.toExpr tf → Agrees (.ok v) r' → Halts (fun n => apply n c v) (Agrees · r))
    (herror : ∀ err, Agrees (.error err) r' → Agrees (.error err) r) : Followed (.app f a) r := by
  intro e ρ env hterm henv he
  obtain ⟨e₁, e₂, rfl, rfl, rfl⟩ := exists_of_term_app hterm henv he
  obtain ⟨he₁, he₂⟩ := he.app
  simp only [eval, evalWith]
  refine (hf rfl henv he₁).bind (fun w hw => ?_) fun err herr => by cases herr
  cases hw with
  | value hread =>
    obtain ⟨c, rfl⟩ := hread.exists_closure hfun
    exact (ha rfl henv he₂).bind (fun v hv => hcall c v hread hv) herror

theorem followed_funcFails {f a : Term} {k : Fault} (hf : Followed f (.error k)) :
    Followed (.app f a) (.error k) := by
  intro e ρ env hterm henv he
  obtain ⟨e₁, e₂, rfl, rfl, rfl⟩ := exists_of_term_app hterm henv he
  simp only [eval, evalWith]
  exact (hf rfl henv he.app.1).bind (fun w hw => by cases hw) fun err herr => herr

theorem followed_notAFunction {f a : Term} (hf : Followed f (.ok t)) (hfun : t.isFunction = false) :
    Followed (.app f a) (.error .notAFunction) := by
  intro e ρ env hterm henv he
  obtain ⟨e₁, e₂, rfl, rfl, rfl⟩ := exists_of_term_app hterm henv he
  simp only [eval, evalWith]
  refine (hf rfl henv he.app.1).bind (fun w hw => ?_) fun err herr => by cases herr
  cases hw with
  | value hread =>
    rcases hread.shape with ⟨n, rfl, -⟩ | ⟨b, rfl, -⟩ | ⟨vs, ts, rfl, -⟩ | ⟨c, -, hfun'⟩
    · exact halts_throw (.error (.notAFunction _))
    · exact halts_throw (.error (.notAFunction _))
    · exact halts_throw (.error (.notAFunction _))
    · rw [hfun] at hfun'
      cases hfun'

theorem followed_ite {c t₁ t₂ : Term} {r' : Except Fault Term} (hc : Followed c r')
    (hbranch : ∀ k, r' = .ok (.boolean k) → Followed (if k then t₁ else t₂) r)
    (hother : ∀ s, r' = .ok s → (∀ k, s ≠ .boolean k) → r = .error .notABoolean)
    (herror : ∀ k, r' = .error k → r = .error k) : Followed (.ite c t₁ t₂) r := by
  intro e ρ env hterm henv he
  obtain ⟨e₀, e₁, e₂, rfl, rfl, rfl, rfl⟩ := exists_of_term_ite hterm henv he
  obtain ⟨he₀, he₁, he₂⟩ := he.ite
  simp only [eval, evalWith]
  refine (hc rfl henv he₀).bind (fun w hw => ?_) fun err herr => ?_
  · cases hw with
    | value hread =>
      rcases hread.shape with ⟨n, rfl, rfl⟩ | ⟨k, rfl, rfl⟩ | ⟨vs, ts, rfl, rfl⟩ | ⟨c, rfl, hfun⟩
      · rw [hother _ rfl (by simp)]
        exact halts_throw (.error (.notABoolean _))
      · have hnext := hbranch k rfl
        cases k with
        | true => exact hnext rfl henv he₁
        | false => exact hnext rfl henv he₂
      · rw [hother _ rfl (by simp)]
        exact halts_throw (.error (.notABoolean _))
      · rw [hother _ rfl (by rintro k rfl; cases hfun)]
        exact halts_throw (.error (.notABoolean _))
  · cases herr
    rw [herror _ rfl]
    exact .error err

theorem followed_letIn {r' : Except Fault Term} (heval : Evaluates b r') (hb : Followed b r')
    (hbody : ∀ s, r' = .ok s → Followed (t.subst x s) r)
    (herror : ∀ k, r' = .error k → r = .error k) : Followed (.letIn x b t) r := by
  intro e ρ env hterm henv he
  obtain ⟨recursive, bound, body, rfl, rfl, hbound⟩ := exists_of_term_letIn hterm henv he
  cases recursive with
  | false =>
    obtain ⟨he₁, he₂⟩ := he.letPoly
    simp only [eval, evalWith_letPoly]
    refine (hb hbound henv he₁).bind (fun v hv => ?_) fun err herr => ?_
    · cases hv with
      | @value _ s hread =>
        refine hbody s rfl ?_ (henv.insert hread x) (he₂ s)
        exact Expr.subst_term_erase (he₂ s).source (he₂ s).ties henv.closedScope x s
    · cases herr
      rw [herror _ rfl]
      exact .error err
  | true =>
    obtain ⟨y, inner, rfl, he', hread⟩ := henv.letRec he
    obtain rfl : b = inner.function ρ (some x) y := hbound
    cases (evaluates_function (Expr.isFunction_function ρ (some x) y inner)).1 heval
    have hrest := he' (inner.function ρ (some x) y)
    refine halts_letRec fun id => hbody _ rfl ?_ (henv.insert (hread id) x) hrest
    exact Expr.subst_term_erase hrest.source hrest.ties henv.closedScope x _

theorem halts_list_iff {P : Except EvalError Expr → Prop} :
    Halts (fun n => eval n env (.list items)) P ↔
      Halts (fun n => evalItems (apply n) env items) fun r => P (r.map .list) := by
  have hinjective : Function.Injective (Except.map (ε := EvalError) Expr.list) := by
    intro r₁ r₂ h
    cases r₁ <;> cases r₂ <;> cases h <;> rfl
  simp only [Halts, eval, run_list]
  refine forall₂_congr fun i hi => ⟨?_, ?_⟩
  · rintro ⟨N, r, j, hrun, hj, hp⟩
    obtain ⟨⟨r', j'⟩, hitems, hr⟩ := Option.map_eq_some_iff.1 (hrun N le_rfl)
    cases hr
    refine ⟨N, r', j', fun n hn => ?_, hj, hp⟩
    obtain ⟨⟨r'', j''⟩, hitems', hr⟩ := Option.map_eq_some_iff.1 (hrun n hn)
    obtain ⟨hr, rfl⟩ := Prod.mk.inj hr
    rw [hitems', show r'' = r' from hinjective hr]
  · rintro ⟨N, r, j, hrun, hj, hp⟩
    exact ⟨N, r.map .list, j, fun n hn => by rw [hrun n hn]; rfl, hj, hp⟩

theorem followed_nil : Followed (.list []) (.ok (.list [])) := by
  intro e ρ env hterm henv he
  rcases exists_of_term_list hterm he with ⟨items, rfl, hitems⟩ | ⟨x, rfl⟩
  · cases items with
    | nil =>
      refine halts_list_iff.2 ?_
      simp only [evalItems]
      exact halts_pure (.value .nil)
    | cons item items => cases hitems
  · exact halts_var henv he (hterm ▸ .nil)

/-- A list that is not what a name stands for is evaluated item by item. -/
theorem followed_cons {ts : List Term} {r₁ r₂ : Except Fault Term}
    (heval : Evaluates (.list (t :: ts)) r) (hitem : Followed t r₁)
    (hitems : ∀ s, r₁ = .ok s → Followed (.list ts) r₂)
    (hok : ∀ s ss, r₁ = .ok s → r₂ = .ok (.list ss) → r = .ok (.list (s :: ss)))
    (herror : ∀ k, r₁ = .error k → r = .error k)
    (herror' : ∀ s k, r₁ = .ok s → r₂ = .error k → r = .error k) :
    Followed (.list (t :: ts)) r := by
  intro e ρ env hterm henv he
  rcases exists_of_term_list hterm he with ⟨items, rfl, hitems'⟩ | ⟨x, rfl⟩
  · cases items with
    | nil => cases hitems'
    | cons item items =>
      obtain ⟨rfl, rfl⟩ := List.cons.inj hitems'
      obtain ⟨he₁, he₂⟩ := List.forall_mem_cons.1 (Expr.ClosedIn.list_iff.1 he)
      refine halts_list_iff.2 ?_
      simp only [evalItems]
      refine (hitem rfl henv he₁).bind (fun v hv => ?_) fun err herr => ?_
      · cases hv with
        | @value _ s hread =>
          have hrest := hitems s rfl (by rw [Expr.term]) henv (Expr.ClosedIn.list_iff.2 he₂)
          refine (halts_list_iff.1 hrest).bind (fun vs hvs => ?_) fun err herr => ?_
          · cases hvs with
            | value hreads =>
              rcases hreads.list_or with ⟨_, ss, -, rfl⟩ | ⟨hnot, -⟩
              · rw [hok s ss rfl rfl]
                exact halts_pure (.value (.cons hread hreads))
              · exact absurd rfl (hnot vs)
          · cases herr
            rw [herror' s _ rfl rfl]
            exact .error err
      · cases herr
        rw [herror _ rfl]
        exact .error err
  · exact halts_var henv he (hterm ▸ heval)

/-- By induction on the derivation: there is a run that finishes with its outcome. -/
theorem Evaluates.followed (h : Evaluates t r) : Followed t r := by
  induction h with
  | number k => exact followed_number k
  | boolean k => exact followed_boolean k
  | function hfun => exact followed_function hfun
  | var x => exact followed_unbound x
  | funcFails _ ihf => exact followed_funcFails ihf
  | notAFunction _ hfun ihf => exact followed_notAFunction ihf hfun
  | argumentFails _ hfun _ ihf iha =>
    exact followed_app ihf hfun iha (fun c v _ hv => by cases hv) fun _ herr => herr
  | appLam _ _ _ ihf iha ih =>
    refine followed_app ihf rfl iha (fun c v hc hv => ?_) fun err herr => by cases herr
    cases hv with
    | value hread => exact halts_call_lam hc hread ih
  | appFix _ _ _ ihf iha ih =>
    refine followed_app ihf rfl iha (fun c v hc hv => ?_) fun err herr => by cases herr
    cases hv with
    | value hread => exact halts_call_fix hc hread ih
  | appUnary _ harity _ ihf iha =>
    refine followed_app ihf rfl iha (fun c v hc hv => ?_) fun err herr => by cases herr
    cases hv with
    | value hread => exact halts_call_unary hc harity hread
  | appFirst _ harity _ ihf iha =>
    refine followed_app ihf rfl iha (fun c v hc hv => ?_) fun err herr => by cases herr
    cases hv with
    | value hread => exact halts_call_first hc harity hread
  | appSecond _ _ ihf iha =>
    refine followed_app ihf rfl iha (fun c v hc hv => ?_) fun err herr => by cases herr
    cases hv with
    | value hread => exact halts_call_second hc hread
  | conditionFails _ ih =>
    exact followed_ite ih (fun k hk => by cases hk) (fun s hs => by cases hs) fun k hk => hk
  | notABoolean _ hnot ih =>
    exact followed_ite ih (fun k hk => by cases hk; exact absurd rfl (hnot k)) (fun s hs _ => rfl)
      fun k hk => by cases hk
  | branch _ _ ih ihbranch =>
    refine followed_ite ih (fun k hk => ?_) (fun s hs hnot => ?_) fun k hk => by cases hk
    · cases hk
      exact ihbranch
    · cases hs
      exact absurd rfl (hnot _)
  | boundFails heval ih =>
    exact followed_letIn heval ih (fun s hs => by cases hs) fun k hk => hk
  | letIn heval _ ih ihbody =>
    exact followed_letIn heval ih (fun s hs => by cases hs; exact ihbody) fun k hk => by cases hk
  | nil => exact followed_nil
  | @itemFails t ts k heval ih =>
    have hnone : ∀ s : Term, Except.error k = .ok s → Followed (.list ts) (.error k) := by
      intro s hs
      cases hs
    exact followed_cons (.itemFails heval) ih hnone (fun s ss hs => by cases hs) (fun k hk => hk)
      fun s k hs => by cases hs
  | itemsFail heval hevals ih ihs =>
    exact followed_cons (.itemsFail heval hevals) ih (fun s hs => ihs) (fun s ss _ hss => by cases hss)
      (fun k hk => by cases hk) fun s k _ hk => hk
  | cons heval hevals ih ihs =>
    refine followed_cons (.cons heval hevals) ih (fun s hs => ihs) (fun s ss hs hss => ?_)
      (fun k hk => by cases hk) fun s k _ hk => by cases hk
    cases hs
    cases hss
    rfl

end Backward

/-! ### Whole programs -/

namespace Expr

mutual

/-- A value in which there is no closure. -/
def isData : Expr → Bool
  | number _ | boolean _ => true
  | list items => allData items
  | _ => false

def allData : List Expr → Bool
  | [] => true
  | e :: es => e.isData && allData es

end

end Expr

section Programs

variable {v w : Expr} {t : Term}

theorem Reads.eq_term_of_isData (h : Reads v t) (hv : v.isData = true) : t = v.term [] := by
  induction h with
  | number | boolean => rw [Expr.term]
  | nil => rw [Expr.term, Expr.termAll]
  | cons _ _ ih ihs =>
    simp only [Expr.isData, Expr.allData, Bool.and_eq_true] at hv ihs
    have hts := ihs hv.2
    rw [Expr.term, Term.list.injEq] at hts
    rw [Expr.term, Expr.termAll, ih hv.1, hts]
  | unary | binary | held | closure => cases hv

theorem isFunction_term_of_isData (hv : v.isData = true) : (v.term []).isFunction = false := by
  cases v with
  | number | boolean | list => rw [Expr.term, Term.isFunction] <;> simp
  | _ => cases hv

/-- Nothing else is read back as a value without closures. -/
theorem Reads.eq_of_isData (h : Reads w t) (ht : t = v.term []) (hv : v.isData = true) : w = v := by
  induction h generalizing v with
  | number n => cases v with
    | number => cases ht; rfl
    | boolean | list => cases ht
    | _ => cases hv
  | boolean b => cases v with
    | boolean => cases ht; rfl
    | number | list => cases ht
    | _ => cases hv
  | nil => cases v with
    | list items => cases items with
      | nil => rfl
      | cons e es => cases ht
    | number | boolean => cases ht
    | _ => cases hv
  | cons _ _ ih ihs => cases v with
    | list items => cases items with
      | nil => cases ht
      | cons e es =>
        simp only [Expr.isData, Expr.allData, Bool.and_eq_true] at hv
        simp only [Expr.term, Expr.termAll, Term.list.injEq, List.cons.injEq] at ht
        have hes := ihs (v := .list es) (by rw [Expr.term, ht.2]) hv.2
        rw [ih ht.1 hv.1, Expr.list.inj hes]
    | number | boolean => cases ht
    | _ => cases hv
  | unary | binary | held =>
    have hfun := isFunction_term_of_isData hv
    rw [← ht] at hfun
    cases hfun
  | closure =>
    have hfun := isFunction_term_of_isData hv
    rw [← ht, Expr.isFunction_function] at hfun
    cases hfun

/-- The evaluator comes to a value without closures if and only if evaluation by substitution does, to a
closure if and only if that comes to a function, and to an error if and only if that fails with one
of its kind. -/
theorem eval_iff_evaluates (e : Expr) (hsource : e.isSource = true) (hties : e.tiesLambdas = true)
    (hfree : ∀ x ∈ e.freeVars, x = "nil" ∨ ∃ op : Primitive, x = op.name) (i : Interpreter)
    (hi : i.maxDepth = none) :
    (∀ v, v.isData = true → ((∃ fuel j, eval fuel .initial e i = some (.ok v, j)) ↔
      Evaluates e.program (.ok (v.term [])))) ∧
    ((∃ fuel c j, eval fuel .initial e i = some (.ok (Closure.toExpr c), j)) ↔
      ∃ t, t.isFunction = true ∧ Evaluates e.program (.ok t)) ∧
    ∀ k, (∃ fuel err j, err.fault = k ∧ eval fuel .initial e i = some (.error err, j)) ↔
      Evaluates e.program (.error k) := by
  have he : e.ClosedIn Term.builtins := by
    refine ⟨hsource, hties, fun x hx => ?_⟩
    rcases hfree x hx with rfl | ⟨op, rfl⟩
    · rfl
    · cases op <;> rfl
  have hmatched : ∀ fuel r j, eval fuel .initial e i = some (r, j) → e.program.Yields r :=
    fun fuel r j hrun => (matched fuel e Env.reads_initial he i r j hi hrun).2
  have hfollowed : ∀ r', Evaluates e.program r' →
      ∃ fuel r j, eval fuel .initial e i = some (r, j) ∧ Agrees r r' := by
    intro r' heval
    obtain ⟨N, r, j, hrun, -, hagrees⟩ := heval.followed rfl Env.reads_initial he i hi
    exact ⟨N, r, j, hrun N le_rfl, hagrees⟩
  refine ⟨fun v hv => ⟨?_, fun heval => ?_⟩, ⟨?_, ?_⟩, fun k => ⟨?_, fun heval => ?_⟩⟩
  · rintro ⟨fuel, j, hrun⟩
    obtain ⟨t, heval, hread⟩ := Term.yields_ok.1 (hmatched fuel _ j hrun)
    rwa [hread.eq_term_of_isData hv] at heval
  · obtain ⟨fuel, r, j, hrun, hagrees⟩ := hfollowed _ heval
    cases hagrees with
    | value hread =>
      rw [hread.eq_of_isData rfl hv] at hrun
      exact ⟨fuel, j, hrun⟩
  · rintro ⟨fuel, c, j, hrun⟩
    obtain ⟨t, heval, hread⟩ := Term.yields_ok.1 (hmatched fuel _ j hrun)
    exact ⟨t, hread.isFunction, heval⟩
  · rintro ⟨t, hfun, heval⟩
    obtain ⟨fuel, r, j, hrun, hagrees⟩ := hfollowed _ heval
    cases hagrees with
    | value hread =>
      obtain ⟨c, rfl⟩ := hread.exists_closure hfun
      exact ⟨fuel, c, j, hrun⟩
  · rintro ⟨fuel, err, j, rfl, hrun⟩
    exact Term.yields_error.1 (hmatched fuel _ j hrun)
  · obtain ⟨fuel, r, j, hrun, hagrees⟩ := hfollowed _ heval
    cases hagrees with
    | error err => exact ⟨fuel, err, j, rfl, hrun⟩

/-- The definition is unfolded at every call of the factorial. -/
theorem eval_iff_evaluates_factorial :
    (Samples.factorial 3).isSource = true ∧ (Samples.factorial 3).tiesLambdas = true ∧
      Evaluates (Samples.factorial 3).program (.ok (.number 6)) := by
  have hsource : (Samples.factorial 3).isSource = true := by decide
  have hties : (Samples.factorial 3).tiesLambdas = true := by decide
  have hfree : ∀ x ∈ (Samples.factorial 3).freeVars, x = "nil" ∨ ∃ op : Primitive, x = op.name := by
    have hvars : (Samples.factorial 3).freeVars = ["equals", "multiply", "subtract"] := by decide
    rw [hvars]
    simp only [List.forall_mem_cons]
    exact ⟨.inr ⟨.equals, rfl⟩, .inr ⟨.multiply, rfl⟩, .inr ⟨.subtract, rfl⟩, by simp⟩
  have hrun : ∃ j, eval 8 .initial (Samples.factorial 3) (.new none 8) = some (.ok (.number 6), j) :=
    ⟨_, by cbv⟩
  have heval := (eval_iff_evaluates _ hsource hties hfree (.new none 8) rfl).1 (.number 6) rfl
  rw [Expr.term] at heval
  exact ⟨hsource, hties, heval.1 ⟨8, hrun⟩⟩

end Programs

end LetPoly
