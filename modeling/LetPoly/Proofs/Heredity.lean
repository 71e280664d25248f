import LetPoly.Proofs.Likeness

/-! What evaluation hands on. If the parts of good code are good code, and closures and lists are good values
exactly if what is in them is good, then good code among good values comes to good values and speaks of good
values in its errors (`Hereditary.eval`). Values whose closures have captured nothing but values are a case of
that, and they are what evaluates to itself wherever it stands (`eval_values`). -/

namespace LetPoly

/-- The values that an error speaks of. -/
def EvalError.values : EvalError → List Expr
  | unboundVariable _ | emptyListAccess _ | recursionLimit _ => []
  | notAFunction v | notABoolean v | notAList v => [v]
  | invalidOperands _ vs => vs

namespace Env

/-- All names in scope have values in `V`. -/
def All (V : Expr → Prop) (env : Env) : Prop := ∀ y v, env.get? y = some v → V v

variable {V : Expr → Prop} {env : Env} {v : Expr}

theorem all_nil : All V [] := fun _ _ h => by cases h

theorem All.insert (h : env.All V) (hv : V v) (x : String) : All V (env.insert x v) := by
  intro y w hy
  rw [Bindings.get?_insert] at hy
  split at hy
  · cases hy
    exact hv
  · exact h y w hy

end Env

theorem Closure.toExpr_of_closure? {c : Closure} {v : Expr} (h : v.closure? = some c) : v = c.toExpr := by
  cases v with
  | closure => cases h; rfl
  | _ => cases h

namespace Eval

variable {α β : Type} {V : Expr → Prop} {P : α → Prop} {Q : β → Prop} {m : Eval α} {f : α → Eval β}

/-- A value as stated, or an error that speaks of values in `V`. -/
inductive Delivered (V : Expr → Prop) (P : α → Prop) : Except EvalError α → Prop
  | value {a : α} : P a → Delivered V P (.ok a)
  | error {e : EvalError} : (∀ v ∈ e.values, V v) → Delivered V P (.error e)

/-- The run ends so if it finishes, whatever interpreter it starts from. -/
def Delivers (V : Expr → Prop) (m : Eval α) (P : α → Prop) : Prop :=
  ∀ i r j, m i = some (r, j) → Delivered V P r

theorem delivers_of_run {r : Interpreter → Except EvalError α} {g : Interpreter → Interpreter}
    (hrun : ∀ i, m i = some (r i, g i)) (h : ∀ i, Delivered V P (r i)) : Delivers V m P := by
  intro i r' j hm
  rw [hrun] at hm
  cases hm
  exact h i

theorem delivers_pure {a : α} (h : P a) : Delivers V (pure a) P :=
  delivers_of_run (g := id) (fun _ => rfl) fun _ => .value h

theorem delivers_throw {e : EvalError} (h : ∀ v ∈ e.values, V v) : Delivers V (throw e) P :=
  delivers_of_run (g := id) (fun _ => rfl) fun _ => .error h

theorem delivers_ofExcept {r : Except EvalError α} (h : Delivered V P r) : Delivers V (ofExcept r) P := by
  cases h with
  | value h => exact delivers_pure h
  | error h => exact delivers_throw h

theorem Delivers.bind (hm : Delivers V m P) (hf : ∀ a, P a → Delivers V (f a) Q) :
    Delivers V (m >>= f) Q := by
  intro i r j hrun
  rw [run_bind] at hrun
  cases hmi : m i with
  | none =>
    rw [hmi] at hrun
    cases hrun
  | some p =>
    obtain ⟨r₁, j₁⟩ := p
    rw [hmi] at hrun
    cases hm i r₁ j₁ hmi with
    | value ha => exact hf _ ha j₁ r j hrun
    | error he =>
      cases hrun
      exact .error he

end Eval

/-! ### Code and values -/

/-- Code in `Q`, and values in `V`, are so by what is in them: the parts of such code are such code, and lists
and closures are such values exactly if their items, the body and what is captured are. -/
structure Hereditary (Q V : Expr → Prop) : Prop where
  number (n : Int64) : V (.number n)
  boolean (b : Bool) : V (.boolean b)
  list_iff {vs : List Expr} : V (.list vs) ↔ ∀ v ∈ vs, V v
  closure_iff {id : Nat} {x : String} {body : Expr} {env : Env} {self : Option String} :
    V (.closure id x body env self) ↔ Q body ∧ env.All V
  lam {x : String} {body : Expr} : Q (.lam x body) → Q body
  app {f a : Expr} : Q (.app f a) → Q f ∧ Q a
  ite {c t e : Expr} : Q (.ite c t e) → Q c ∧ Q t ∧ Q e
  letIn {recursive : Bool} {x : String} {bound body : Expr} :
    Q (.letIn recursive x bound body) → Q bound ∧ Q body
  items {es : List Expr} : Q (.list es) → ∀ e ∈ es, Q e
  closure {id : Nat} {x : String} {body : Expr} {env : Env} {self : Option String} :
    Q (.closure id x body env self) → V (.closure id x body env self)

theorem EvalError.Alike.values {N : String → String → Prop} {V : Expr → Prop} {e e' : EvalError}
    (h : e.Alike N (fun v w => V v ∧ v = w) e') : ∀ v ∈ e.values, V v := by
  cases h with
  | unboundVariable | emptyListAccess => exact fun _ hv => by cases hv
  | notAFunction h | notABoolean h | notAList h => exact List.forall_mem_singleton.2 h.1
  | invalidOperands op h => exact ((List.forall₂_and_left _ _).1 h).1

namespace Hereditary
open Eval

variable {Q V : Expr → Prop} {call : Closure → Expr → Eval Expr} {env : Env} {e v : Expr}
  {items : List Expr} {c : Closure}

/-- Being the same value, in `V`, is a relation that operations keep. -/
theorem likeness (h : Hereditary Q V) : Likeness fun v w => V v ∧ v = w where
  number n := ⟨h.number n, rfl⟩
  boolean b := ⟨h.boolean b, rfl⟩
  list hvs := by
    rw [List.forall₂_and_left, List.forall₂_eq_eq_eq] at hvs
    exact ⟨h.list_iff.2 hvs.1, by rw [hvs.2]⟩
  number_or {v _} hv := by
    obtain ⟨-, rfl⟩ := hv
    cases v <;> simp
  boolean_or {v _} hv := by
    obtain ⟨-, rfl⟩ := hv
    cases v <;> simp
  list_or {v _} hv := by
    obtain ⟨hv, rfl⟩ := hv
    cases v with
    | list vs =>
      exact .inl ⟨vs, vs, rfl, rfl, List.forall₂_same.2 fun w hw => ⟨h.list_iff.1 hv w hw, rfl⟩⟩
    | _ => simp

theorem prim (h : Hereditary Q V) (henv : env.All V) (op : Primitive) : Delivered V V (op.eval env) := by
  have hself : ∀ x, Option.Rel (fun v w => V v ∧ v = w) (env.get? x) (env.get? x) := by
    intro x
    cases hx : env.get? x with
    | none => exact .none
    | some v => exact .some ⟨henv x v hx, rfl⟩
  have halike : Alike (fun v w => V v ∧ v = w) (EvalError.Alike Eq fun v w => V v ∧ v = w)
      (op.eval env) (op.eval env) :=
    Primitive.eval_alike h.likeness ⟨rfl, fun _ => rfl⟩ (hself "x") fun _ => hself "y"
  cases hop : op.eval env with
  | ok v =>
    rw [hop] at halike
    cases halike with
    | value hv => exact .value hv.1
  | error err =>
    rw [hop] at halike
    cases halike with
    | error herr => exact .error herr.values

/-- The body of a good closure is good code, and has good values in scope. -/
theorem scope (h : Hereditary Q V) (hc : V c.toExpr) (hv : V v) : Env.All V (c.scope v) ∧ Q c.body := by
  obtain ⟨id, x, body, env, self⟩ := c
  obtain ⟨hbody, henv⟩ := h.closure_iff.1 hc
  refine ⟨?_, hbody⟩
  cases self with
  | none => exact henv.insert hv x
  | some f => exact (henv.insert hc f).insert hv x

/-- What a `let` binds is good also if it has been tied. -/
theorem tied (h : Hereditary Q V) (hv : V v) (recursive : Bool) (x : String) :
    Delivers V (if recursive then tie x v else pure v) V := by
  cases recursive with
  | false => exact delivers_pure hv
  | true =>
    cases v with
    | closure id y body env self =>
      exact delivers_of_run (fun _ => rfl) fun _ => .value (h.closure_iff.2 (h.closure_iff.1 hv))
    | _ => exact delivers_pure hv

theorem evalItems (hitems : ∀ e ∈ items, Delivers V (evalWith call env e) V) :
    Delivers V (evalItems call env items) fun vs => ∀ v ∈ vs, V v := by
  induction items with
  | nil =>
    unfold LetPoly.evalItems
    exact delivers_pure (by simp)
  | cons item items ih =>
    obtain ⟨hitem, hitems⟩ := List.forall_mem_cons.1 hitems
    unfold LetPoly.evalItems
    refine hitem.bind fun v hv => (ih hitems).bind fun vs hvs => ?_
    exact delivers_pure (List.forall_mem_cons.2 ⟨hv, hvs⟩)

/-- One case for each form of code; calls are taken to deliver good values. -/
theorem evalWith (h : Hereditary Q V)
    (hcall : ∀ c v, V c.toExpr → V v → Delivers V (call c v) V) (henv : env.All V) (he : Q e) :
    Delivers V (evalWith call env e) V := by
  induction e using Expr.induct generalizing env with
  | number n =>
    unfold LetPoly.evalWith
    exact delivers_pure (h.number n)
  | boolean b =>
    unfold LetPoly.evalWith
    exact delivers_pure (h.boolean b)
  | var x =>
    unfold LetPoly.evalWith
    split
    · next v hx => exact delivers_pure (henv x v hx)
    · exact delivers_throw (by simp [EvalError.values])
  | lam x body _ =>
    unfold LetPoly.evalWith
    exact delivers_of_run (fun _ => rfl) fun _ => .value (h.closure_iff.2 ⟨h.lam he, henv⟩)
  | app f a ihf iha =>
    obtain ⟨hf, ha⟩ := h.app he
    unfold LetPoly.evalWith
    refine (ihf henv hf).bind fun f hf => ?_
    split
    · exact delivers_throw (List.forall_mem_singleton.2 hf)
    · next c hc =>
      rw [Closure.toExpr_of_closure? hc] at hf
      exact (iha henv ha).bind fun v hv => hcall c v hf hv
  | ite c t e ihc iht ihe =>
    obtain ⟨hc, ht, he⟩ := h.ite he
    unfold LetPoly.evalWith
    refine (ihc henv hc).bind fun v hv => ?_
    split
    · exact iht henv ht
    · exact ihe henv he
    · exact delivers_throw (List.forall_mem_singleton.2 hv)
  | letIn recursive x bound body ih ihbody =>
    obtain ⟨hbound, hbody⟩ := h.letIn he
    rw [evalWith_letIn]
    refine (ih henv hbound).bind fun v hv => ?_
    exact (h.tied hv recursive x).bind fun w hw => ihbody (henv.insert hw x) hbody
  | list items ih =>
    unfold LetPoly.evalWith
    refine (Hereditary.evalItems fun e hmem => ih e hmem henv (h.items he e hmem)).bind fun vs hvs => ?_
    exact delivers_pure (h.list_iff.2 hvs)
  | prim op =>
    unfold LetPoly.evalWith
    exact delivers_ofExcept (h.prim henv op)
  | closure id x body captured self =>
    unfold LetPoly.evalWith
    exact delivers_pure (h.closure he)

theorem apply (h : Hereditary Q V) (n : Nat) (c : Closure) (v : Expr) (hc : V c.toExpr) (hv : V v) :
    Delivers V (apply n c v) V := by
  induction n generalizing c v with
  | zero =>
    intro i r j hrun
    cases hrun
  | succ n ih =>
    obtain ⟨henv, hbody⟩ := h.scope hc hv
    intro i r j hrun
    rcases checkDepth_cases i with hdepth | ⟨limit, -, hdepth⟩
    · rw [run_apply hdepth] at hrun
      obtain ⟨⟨r', j'⟩, hinner, hleave⟩ := Option.map_eq_some_iff.1 hrun
      cases hleave
      exact h.evalWith ih henv hbody _ r' j' hinner
    · rw [run_apply_error hdepth] at hrun
      cases hrun
      exact .error (by simp [EvalError.values])

/-- Good code among good values comes to good values, and to errors that speak of such. -/
theorem eval (h : Hereditary Q V) (henv : env.All V) (he : Q e) (n : Nat) :
    Delivers V (eval n env e) V :=
  h.evalWith (h.apply n) henv he

/-- The values of the built-in names are good if operations are good code. -/
theorem initial (h : Hereditary Q V) (hop : ∀ op, Q (.prim op))
    (hlam : ∀ x body, Q body → Q (.lam x body)) : Env.initial.All V := by
  intro x v hx
  rcases Env.get?_initial hx with ⟨-, rfl⟩ | ⟨op, id, -, rfl⟩
  · exact h.list_iff.2 (by simp)
  · refine h.closure_iff.2 ⟨?_, Env.all_nil⟩
    unfold Primitive.closure
    split
    · exact hop op
    · exact hlam "y" _ (hop op)

end Hereditary

/-! ### Values -/

namespace Expr

/-- Every closure that there is in the expression, in bodies of closures or in what closures have captured, has
captured nothing but values. -/
inductive CapturesValues : Expr → Prop
  | number (n : Int64) : CapturesValues (.number n)
  | boolean (b : Bool) : CapturesValues (.boolean b)
  | var (x : String) : CapturesValues (.var x)
  | lam {x : String} {body : Expr} : CapturesValues body → CapturesValues (.lam x body)
  | app {f a : Expr} : CapturesValues f → CapturesValues a → CapturesValues (.app f a)
  | ite {c t e : Expr} : CapturesValues c → CapturesValues t → CapturesValues e →
      CapturesValues (.ite c t e)
  | letIn {recursive : Bool} {x : String} {bound body : Expr} : CapturesValues bound →
      CapturesValues body → CapturesValues (.letIn recursive x bound body)
  | list {es : List Expr} : (∀ e ∈ es, CapturesValues e) → CapturesValues (.list es)
  | prim (op : Primitive) : CapturesValues (.prim op)
  | closure {id : Nat} {x : String} {body : Expr} {env : Env} {self : Option String} :
      CapturesValues body → (∀ y v, env.get? y = some v → v.isValue = true) →
      (∀ y v, env.get? y = some v → CapturesValues v) →
      CapturesValues (.closure id x body env self)

/-- A value whose closures have captured nothing but values. -/
def IsFinal (v : Expr) : Prop := v.isValue = true ∧ v.CapturesValues

theorem allValues_iff {es : List Expr} : allValues es = true ↔ ∀ e ∈ es, e.isValue = true := by
  induction es with
  | nil => simp [allValues]
  | cons e es ih => simp [allValues, ih]

theorem capturesValues_of_isSource {e : Expr} (h : e.isSource = true) : e.CapturesValues := by
  induction e using Expr.induct with
  | number n => exact .number n
  | boolean b => exact .boolean b
  | var x => exact .var x
  | lam x body ih => exact .lam (ih h)
  | app f a ihf iha =>
    simp only [isSource, Bool.and_eq_true] at h
    exact .app (ihf h.1) (iha h.2)
  | ite c t e ihc iht ihe =>
    simp only [isSource, Bool.and_eq_true] at h
    exact .ite (ihc h.1.1) (iht h.1.2) (ihe h.2)
  | letIn recursive x bound body ih ihbody =>
    simp only [isSource, Bool.and_eq_true] at h
    exact .letIn (ih h.1) (ihbody h.2)
  | list items ih => exact .list fun e he => ih e he (allSource_iff.1 h e he)
  | prim op => exact .prim op
  | closure id x body env self => cases h

theorem hereditary_isFinal : Hereditary CapturesValues IsFinal where
  number n := ⟨rfl, .number n⟩
  boolean b := ⟨rfl, .boolean b⟩
  list_iff := by
    intro vs
    constructor
    · rintro ⟨hvalue, hcaptures⟩ v hv
      cases hcaptures with
      | list hvs => exact ⟨allValues_iff.1 hvalue v hv, hvs v hv⟩
    · intro h
      exact ⟨allValues_iff.2 fun v hv => (h v hv).1, .list fun v hv => (h v hv).2⟩
  closure_iff := by
    intro id x body env self
    constructor
    · rintro ⟨-, hcaptures⟩
      cases hcaptures with
      | closure hbody hvalues henv => exact ⟨hbody, fun y v hy => ⟨hvalues y v hy, henv y v hy⟩⟩
    · rintro ⟨hbody, henv⟩
      exact ⟨rfl, .closure hbody (fun y v hy => (henv y v hy).1) fun y v hy => (henv y v hy).2⟩
  lam h := by cases h; assumption
  app h := by cases h; exact ⟨by assumption, by assumption⟩
  ite h := by cases h; exact ⟨by assumption, by assumption, by assumption⟩
  letIn h := by cases h; exact ⟨by assumption, by assumption⟩
  items h := by cases h; assumption
  closure h := ⟨rfl, h⟩

end Expr

theorem Env.all_isFinal_initial : Env.initial.All Expr.IsFinal :=
  Expr.hereditary_isFinal.initial .prim fun _ _ => .lam

/-- A value is what it evaluates to, in any scope and even where no call may be nested any more. -/
theorem eval_of_isValue {v : Expr} (h : v.isValue = true) (n : Nat) (env : Env) (i : Interpreter) :
    eval n env v i = some (.ok v, i) := by
  induction v using Expr.induct generalizing i with
  | number | boolean | closure =>
    unfold eval evalWith
    rfl
  | list items ih =>
    have hitems := Expr.allValues_iff.1 h
    have hrun : evalItems (apply n) env items i = some (.ok items, i) := by
      clear h
      induction items with
      | nil =>
        unfold evalItems
        rfl
      | cons item items ihitems =>
        obtain ⟨hitem, hrest⟩ := List.forall_mem_cons.1 hitems
        have hrest := ihitems (fun e he => ih e (List.mem_cons_of_mem _ he)) hrest
        unfold evalItems
        rw [Eval.run_bind, ← eval, ih item List.mem_cons_self hitem i]
        simp only [Eval.run_bind, hrest]
        rfl
    rw [eval, run_list, hrun]
    rfl
  | _ => cases h

/-- Evaluation among values comes to a value, which evaluates to itself from then on, and speaks of values in
its errors. -/
theorem eval_values (fuel : Nat) (env : Env) (e : Expr) (i j : Interpreter) (r : Except EvalError Expr)
    (henv : env.All Expr.IsFinal) (he : e.CapturesValues) (h : eval fuel env e i = some (r, j)) :
    (∀ v, r = .ok v → v.isValue = true ∧ v.CapturesValues ∧
      ∀ fuel' env' i', eval fuel' env' v i' = some (.ok v, i')) ∧
    ∀ err, r = .error err → ∀ v ∈ err.values, v.isValue = true ∧ v.CapturesValues := by
  have hdelivered := Expr.hereditary_isFinal.eval henv he fuel i r j h
  refine ⟨fun v hv => ?_, fun err herr => ?_⟩
  · subst hv
    cases hdelivered with
    | value hv => exact ⟨hv.1, hv.2, eval_of_isValue hv.1⟩
  · subst herr
    cases hdelivered with
    | error herr => exact herr

/-- A held operand, and a closure that has captured it, are evaluated again where nothing may be called. -/
theorem eval_values_captured :
    let e : Expr := .letIn false "g" (.app (.var "add") (.number 1))
      (.list [.var "g", .lam "x" (.app (.var "g") (.var "x"))])
    Env.initial.All Expr.IsFinal ∧ e.CapturesValues ∧
      ∃ v j, eval 2 .initial e (.new (some 1) Env.builtinCount) = some (.ok v, j) ∧
        v.isValue = true ∧ v.CapturesValues ∧ eval 0 [] v (.new (some 0) 0) = some (.ok v, .new (some 0) 0) := by
  intro e
  have he : e.CapturesValues := Expr.capturesValues_of_isSource (by decide)
  have hrun : ∃ v j, eval 2 .initial e (.new (some 1) Env.builtinCount) = some (.ok v, j) :=
    ⟨_, _, rfl⟩
  obtain ⟨v, j, hv⟩ := hrun
  obtain ⟨hvalue, hcaptures, hself⟩ := (eval_values 2 .initial e _ j _ Env.all_isFinal_initial he hv).1 v rfl
  exact ⟨Env.all_isFinal_initial, he, v, j, hv, hvalue, hcaptures, hself 0 [] _⟩

end LetPoly
