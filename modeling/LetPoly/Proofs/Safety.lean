import LetPoly.Proofs.Running
import LetPoly.Proofs.Soundness
import LetPoly.Proofs.Values
import LetPoly.Samples

/-! Well-typed programs do not go wrong. Every run of a typed expression that ends, ends with a
value of its type, at the limit, or with the first item or the rest of an empty list
(`Eval.Allowed`). The walk over an expression relies on that for the calls it makes
(`Typed.safeOn`), and calls are dealt with by induction on how deep they are nested
(`safeCalls_apply`). -/

namespace LetPoly

namespace Eval

/-- How a run under the limit may end, with `P` for its value. -/
inductive Allowed {α : Type} (limit : Option Nat) (P : α → Prop) : Except EvalError α → Prop
  | value {a : α} : P a → Allowed limit P (.ok a)
  | emptyList (op : Primitive) : Allowed limit P (.error (.emptyListAccess op))
  | limit {n : Nat} : limit = some n → Allowed limit P (.error (.recursionLimit n))

variable {α β : Type} {limit : Option Nat} {m : Eval α} {f : α → Eval β}
  {P : α → Prop} {Q : β → Prop}

/-- Every run from an interpreter with the limit keeps the limit, and ends in one of the allowed
ways if it ends. -/
def Safe (limit : Option Nat) (m : Eval α) (P : α → Prop) : Prop :=
  ∀ i r j, i.maxDepth = limit → m i = some (r, j) → j.maxDepth = limit ∧ Allowed limit P r

theorem safe_of_run {r : Except EvalError α} (g : Interpreter → Interpreter)
    (hrun : ∀ i, m i = some (r, g i)) (hg : ∀ i, (g i).maxDepth = i.maxDepth)
    (h : Allowed limit P r) : Safe limit m P := by
  intro i r' j hi hm
  rw [hrun] at hm
  cases hm
  exact ⟨(hg i).trans hi, h⟩

theorem safe_pure {a : α} (h : P a) : Safe limit (pure a) P :=
  safe_of_run id (fun _ => rfl) (fun _ => rfl) (.value h)

theorem safe_note (e : Event) : Safe limit (note e) fun _ => True :=
  safe_of_run _ (fun _ => rfl) (fun _ => rfl) (.value trivial)

theorem safe_newId : Safe limit newId fun _ => True := by
  intro i r j hi hm
  cases hm
  exact ⟨hi, .value trivial⟩

theorem safe_unfinished : Safe limit (unfinished : Eval α) P := fun i r j _ hm => by cases hm

theorem Safe.bind (hm : Safe limit m P) (hf : ∀ a, P a → Safe limit (f a) Q) :
    Safe limit (m >>= f) Q := by
  intro i r j hi hrun
  rw [run_bind] at hrun
  cases hmi : m i with
  | none =>
    rw [hmi] at hrun
    cases hrun
  | some p =>
    obtain ⟨r₁, j₁⟩ := p
    obtain ⟨hj₁, hout⟩ := hm i r₁ j₁ hi hmi
    rw [hmi] at hrun
    cases hout with
    | value ha => exact hf _ ha j₁ r j hj₁ hrun
    | emptyList op =>
      cases hrun
      exact ⟨hj₁, .emptyList op⟩
    | limit hn =>
      cases hrun
      exact ⟨hj₁, .limit hn⟩

theorem Safe.imp {P' : α → Prop} (hm : Safe limit m P) (h : ∀ a, P a → P' a) : Safe limit m P' := by
  intro i r j hi hrun
  obtain ⟨hj, hout⟩ := hm i r j hi hrun
  refine ⟨hj, ?_⟩
  cases hout with
  | value ha => exact .value (h _ ha)
  | emptyList op => exact .emptyList op
  | limit hn => exact .limit hn

/-- A run that is safe for each of several properties of its value is safe for all of them at once.
-/
theorem safe_forall {ι : Type} [Nonempty ι] {P : ι → α → Prop} (h : ∀ k, Safe limit m (P k)) :
    Safe limit m fun a => ∀ k, P k a := by
  intro i r j hi hrun
  obtain ⟨hj, hout⟩ := h (Classical.arbitrary ι) i r j hi hrun
  refine ⟨hj, ?_⟩
  cases hout with
  | value _ =>
    refine .value fun k => ?_
    obtain ⟨-, hk⟩ := h k i _ j hi hrun
    cases hk with
    | value hk => exact hk
  | emptyList op => exact .emptyList op
  | limit hn => exact .limit hn

theorem safe_deeper (h : Safe limit m P) : Safe limit (deeper m) P := by
  intro i r j hi hrun
  unfold deeper at hrun
  obtain ⟨⟨r₁, j₁⟩, hm, hrest⟩ := Option.bind_eq_some_iff.1 hrun
  cases hrest
  exact h { i with depth := i.depth + 1 } r j₁ hi hm

theorem safe_checkDepth : Safe limit checkDepth fun _ => True := by
  intro i r j hi hrun
  rw [run_checkDepth, hi] at hrun
  cases limit with
  | none =>
    cases hrun
    exact ⟨hi, .value trivial⟩
  | some n =>
    simp only at hrun
    split at hrun
    · cases hrun
      exact ⟨hi, .limit rfl⟩
    · cases hrun
      exact ⟨hi, .value trivial⟩

theorem safe_ofExcept {r : Except EvalError α} (h : Allowed limit P r) :
    Safe limit (ofExcept r) P := by
  intro i r' j hi hrun
  cases r <;> cases hrun <;> exact ⟨hi, h⟩

end Eval

/-! ### Walking an expression, one typing rule at a time -/

section Walk
open Eval

variable {limit : Option Nat} {call : Closure → Expr → Eval Expr} {Γ : Context} {x : String}
  {e e₁ e₂ body : Expr} {items : List Expr} {a r t : Ty}

/-- Calls of closures with arguments of their types are safe. -/
def SafeCalls (limit : Option Nat) (call : Closure → Expr → Eval Expr) : Prop :=
  ∀ c v a r, ValueTyped c.toExpr (.fn a r) → ValueTyped v a →
    Safe limit (call c v) fun w => ValueTyped w r

/-- Where the context is supplied, evaluating the expression is safe and gives values of the type.
-/
def SafeOn (limit : Option Nat) (call : Closure → Expr → Eval Expr) (Γ : Context) (e : Expr)
    (t : Ty) : Prop :=
  ∀ ⦃env : Env⦄, env.Supplies Γ → Safe limit (evalWith call env e) fun v => ValueTyped v t

theorem safeOn_number (n : Int64) : SafeOn limit call Γ (.number n) .number := by
  intro env _
  unfold evalWith
  exact safe_pure (.number n)

theorem safeOn_boolean (b : Bool) : SafeOn limit call Γ (.boolean b) .boolean := by
  intro env _
  unfold evalWith
  exact safe_pure (.boolean b)

theorem safeOn_var {s : Scheme} (hx : Γ.get? x = some s) (ρ : String → Ty) :
    SafeOn limit call Γ (.var x) (s.inst .unknown ρ) := by
  intro env henv
  obtain ⟨v, hv, htyped⟩ := henv x s hx
  unfold evalWith
  rw [hv]
  exact safe_pure (htyped ρ)

theorem evalWith_lam_safe (env : Env) (x : String) (body : Expr) :
    Safe limit (evalWith call env (.lam x body)) fun v =>
      ∃ id, v = .closure id x body env none := by
  unfold evalWith
  refine safe_newId.bind ?_
  intro id _
  exact safe_pure ⟨id, rfl⟩

theorem safeOn_lam (hbody : Code (Γ.insert x (.ofTy a)) body r) :
    SafeOn limit call Γ (.lam x body) (.fn a r) := by
  intro env henv
  refine (evalWith_lam_safe env x body).imp ?_
  rintro _ ⟨id, rfl⟩
  exact henv.closure hbody

theorem SafeOn.app (hcall : SafeCalls limit call) (hf : SafeOn limit call Γ e₁ (.fn a r))
    (ha : SafeOn limit call Γ e₂ a) : SafeOn limit call Γ (.app e₁ e₂) r := by
  intro env henv
  unfold evalWith
  refine (hf henv).bind ?_
  intro f hf
  obtain ⟨c, rfl⟩ := hf.eq_closure
  refine (ha henv).bind ?_
  intro v hv
  exact hcall c v a r hf hv

theorem SafeOn.ite (hc : SafeOn limit call Γ e .boolean) (h₁ : SafeOn limit call Γ e₁ t)
    (h₂ : SafeOn limit call Γ e₂ t) : SafeOn limit call Γ (.ite e e₁ e₂) t := by
  intro env henv
  unfold evalWith
  refine (hc henv).bind ?_
  intro v hv
  obtain ⟨b, rfl⟩ := hv.eq_boolean
  cases b with
  | true => exact h₁ henv
  | false => exact h₂ henv

theorem safe_tie {id : Nat} {env : Env} {self : Option String} (name : String) :
    Safe limit (tie name (.closure id x body env self)) fun v =>
      ∃ id, v = .closure id x body env (some name) := by
  unfold tie
  refine (safe_note _).bind ?_
  intro _ _
  refine safe_newId.bind ?_
  intro id _
  exact safe_pure ⟨id, rfl⟩

/-- The lambda is evaluated without its name in scope, and only then tied to it. -/
theorem SafeOn.letRec {f : String} {inner : Expr}
    (hinner : Code (Bindings.insert (Γ.insert f (.ofTy (.fn a r))) x (.ofTy a)) inner r)
    (hbody : SafeOn limit call (Γ.insert f (.ofTy (.fn a r))) body t) :
    SafeOn limit call Γ (.letIn true f (.lam x inner) body) t := by
  intro env henv
  unfold evalWith
  refine (evalWith_lam_safe env x inner).bind ?_
  rintro _ ⟨id, rfl⟩
  rw [if_pos rfl]
  refine (safe_tie f).bind ?_
  rintro _ ⟨id', rfl⟩
  have hself : ValueTyped (.closure id' x inner env (some f)) (.fn a r) := henv.closure hinner
  exact hbody (henv.insert_ofTy hself f)

/-- The one value has every instance of the scheme, as evaluating is safe at each of them. -/
theorem SafeOn.letPoly {s : Scheme} (he : ∀ ρ, SafeOn limit call Γ e (s.inst .unknown ρ))
    (hbody : SafeOn limit call (Γ.insert x s) body t) :
    SafeOn limit call Γ (.letIn false x e body) t := by
  intro env henv
  unfold evalWith
  refine (safe_forall fun ρ => he ρ henv).bind ?_
  intro v hv
  rw [if_neg (by decide)]
  refine (safe_pure rfl).bind ?_
  rintro _ rfl
  exact hbody (henv.insert hv x)

theorem evalItems_safe {env : Env} (hitems : ∀ e ∈ items, SafeOn limit call Γ e t)
    (henv : env.Supplies Γ) :
    Safe limit (evalItems call env items) fun vs => ∀ v ∈ vs, ValueTyped v t := by
  induction items with
  | nil =>
    unfold evalItems
    exact safe_pure (by simp)
  | cons item items ih =>
    obtain ⟨hitem, hitems⟩ := List.forall_mem_cons.1 hitems
    unfold evalItems
    refine (hitem henv).bind ?_
    intro v hv
    refine (ih hitems).bind ?_
    intro vs hvs
    exact safe_pure (List.forall_mem_cons.2 ⟨hv, hvs⟩)

theorem SafeOn.list (hitems : ∀ e ∈ items, SafeOn limit call Γ e t) :
    SafeOn limit call Γ (.list items) (.list t) := by
  intro env henv
  unfold evalWith
  refine (evalItems_safe hitems henv).bind ?_
  intro vs hvs
  exact safe_pure (.list hvs)

theorem Typed.safeOn (h : Typed Γ e t) (hcall : SafeCalls limit call)
    (hties : e.tiesLambdas = true) : SafeOn limit call Γ e t := by
  -- on the expression: what a polymorphic `let` binds is needed at types that no subderivation has
  induction e using Expr.induct generalizing Γ t with
  | number n => cases h; exact safeOn_number n
  | boolean b => cases h; exact safeOn_boolean b
  | var x => cases h with
    | var ρ hx => exact safeOn_var hx ρ
  | lam x body _ => cases h with
    | lam hbody => exact safeOn_lam (.source hbody hties)
  | app e₁ e₂ ih₁ ih₂ => cases h with
    | app h₁ h₂ =>
      simp only [Expr.tiesLambdas, Bool.and_eq_true] at hties
      exact (ih₁ h₁ hties.1).app hcall (ih₂ h₂ hties.2)
  | ite e e₁ e₂ ih ih₁ ih₂ => cases h with
    | ite h h₁ h₂ =>
      simp only [Expr.tiesLambdas, Bool.and_eq_true] at hties
      exact (ih h hties.1.1).ite (ih₁ h₁ hties.1.2) (ih₂ h₂ hties.2)
  | letIn recursive x e body ihe ihbody =>
    simp only [Expr.tiesLambdas, Bool.and_eq_true] at hties
    obtain ⟨⟨hlam, he⟩, hbody⟩ := hties
    cases h with
    | letRec hbound hrest =>
      obtain ⟨y, inner, rfl⟩ := Expr.eq_lam_of_isLam hlam
      cases hbound with
      | lam hinner => exact SafeOn.letRec (.source hinner he) (ihbody hrest hbody)
    | letPoly hbound hs hrest =>
      refine SafeOn.letPoly (fun ρ => ?_) (ihbody hrest hbody)
      obtain ⟨τ, hinst, hkept⟩ := hs.closes.of_inst .unknown ρ
      rw [hinst]
      exact ihe (hbound.subst_of_fixed hkept) he
  | list items ih => cases h with
    | list hitems =>
      have hties := Expr.allTieLambdas_iff.1 hties
      exact SafeOn.list fun e he => ih e he (hitems e he) (hties e he)
  | prim op => cases h
  | closure id x body env self => cases h

theorem Code.safeOn (h : Code Γ body t) (hcall : SafeCalls limit call) :
    SafeOn limit call Γ body t := by
  cases h with
  | source htyped hties => exact htyped.safeOn hcall hties
  | lam hbody => exact safeOn_lam hbody
  | unary hop hx =>
    intro env henv
    obtain ⟨v, hv, hva⟩ := henv.get?_ofTy hx
    unfold evalWith
    refine safe_ofExcept ?_
    rcases Primitive.eval_of_operates_unary canonical_valueTyped hop hv hva with
      ⟨u, hu, hur⟩ | hempty
    · rw [hu]
      exact .value hur
    · rw [hempty]
      exact .emptyList _
  | binary hop hx hy =>
    intro env henv
    obtain ⟨v, hv, hva⟩ := henv.get?_ofTy hx
    obtain ⟨w, hw, hwb⟩ := henv.get?_ofTy hy
    obtain ⟨u, hu, hur⟩ :=
      Primitive.eval_of_operates_binary canonical_valueTyped hop hv hva hw hwb
    unfold evalWith
    rw [hu]
    exact safe_ofExcept (.value hur)

/-- By induction on how deep calls may be nested: the body of a closure runs with one level less. -/
theorem safeCalls_apply (limit : Option Nat) (fuel : Nat) : SafeCalls limit (apply fuel) := by
  induction fuel with
  | zero =>
    intro c v a r _ _
    exact safe_unfinished
  | succ fuel ih =>
    intro c v a r hc hv
    obtain ⟨Γ, henv, hbody⟩ := hc.scope hv
    unfold apply
    refine safe_checkDepth.bind ?_
    intro _ _
    refine (safe_note _).bind ?_
    intro _ _
    exact safe_deeper (hbody.safeOn ih henv)

end Walk

/-! ### Whole programs -/

/-- The values that are shaped as the type says. An unknown that is left leaves the value open. -/
def Expr.Inhabits (v : Expr) : Ty → Prop
  | .number => ∃ n, v = .number n
  | .boolean => ∃ b, v = .boolean b
  | .fn _ _ => ∃ c : Closure, v = c.toExpr
  | .list t => ∃ vs, v = .list vs ∧ ∀ w ∈ vs, w.Inhabits t
  | .unknown _ | .var _ => True

theorem ValueTyped.inhabits {v : Expr} {t : Ty} (h : ValueTyped v t) : v.Inhabits t := by
  induction t generalizing v with
  | number => exact h.eq_number
  | boolean => exact h.eq_boolean
  | fn a r => exact h.eq_closure
  | list t ih =>
    obtain ⟨vs, rfl, hvs⟩ := h.eq_list
    exact ⟨vs, rfl, fun w hw => ih (hvs w hw)⟩
  | unknown u => trivial
  | var name => trivial

/-- A program for which a type is inferred, and which ties lambdas only, evaluates to a value of
that type, or fails at the limit or on an empty list. -/
theorem eval_safe (e : Expr) (t : Ty) (hties : e.tiesLambdas = true) (hinfer : inferType e = .ok t)
    (i j : Interpreter) (fuel : Nat) (r : Except EvalError Expr)
    (h : eval fuel .initial e i = some (r, j)) :
    (∃ v, r = .ok v ∧ v.Inhabits t) ∨ (∃ op, r = .error (.emptyListAccess op)) ∨
      ∃ n, i.maxDepth = some n ∧ r = .error (.recursionLimit n) := by
  have htyped := (typed_of_infer Context.closed_initial (Prod.ext hinfer rfl) .unknown).2
  rw [Ty.subst_unknown] at htyped
  obtain ⟨-, hout⟩ := htyped.safeOn (safeCalls_apply i.maxDepth fuel) hties Env.supplies_initial
    i r j rfl h
  cases hout with
  | value hv => exact .inl ⟨_, rfl, hv.inhabits⟩
  | emptyList op => exact .inr (.inl ⟨op, rfl⟩)
  | limit hn => exact .inr (.inr ⟨_, hn, rfl⟩)

theorem eval_safe_listSum :
    Samples.listSum.tiesLambdas = true ∧ inferType Samples.listSum = .ok .number ∧
      ∃ v j, eval 8 .initial Samples.listSum (.new (some 100) 8) = some (.ok v, j) ∧
        v.Inhabits .number := by
  have hties : Samples.listSum.tiesLambdas = true := by decide
  have hinfer : inferType Samples.listSum = .ok .number := by cbv
  have hrun : ∃ j, eval 8 .initial Samples.listSum (.new (some 100) 8) =
      some (.ok (.number 10), j) := ⟨_, by cbv⟩
  obtain ⟨j, hj⟩ := hrun
  rcases eval_safe Samples.listSum _ hties hinfer _ j 8 _ hj with
    ⟨v, hv, hin⟩ | ⟨_, hop⟩ | ⟨_, _, hlimit⟩
  · cases hv
    exact ⟨hties, hinfer, _, j, hj, hin⟩
  · cases hop
  · cases hlimit

end LetPoly
