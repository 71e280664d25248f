import LetPoly.Proofs.Likeness

/-! The limit on nested calls. Under a limit evaluation does what it does without one if it may nest as
many calls, and where that does not finish it fails at the limit (`cutsOff_eval`). -/

namespace LetPoly

/-! ### What every run keeps -/

theorem likeness_eq : Likeness Eq where
  number _ := rfl
  boolean _ := rfl
  list h := by rw [List.forall₂_eq_eq_eq] at h; rw [h]
  number_or {v _} h := by subst h; cases v <;> simp
  boolean_or {v _} h := by subst h; cases v <;> simp
  list_or {v _} h := by subst h; cases v <;> simp [List.forall₂_eq_eq_eq]

theorem Primitive.eval_ne_limit (op : Primitive) (env : Env) (n : Nat) :
    op.eval env ≠ .error (.recursionLimit n) := by
  have hself : ∀ x, Option.Rel Eq (env.get? x) (env.get? x) := by
    intro x
    cases env.get? x with
    | none => exact .none
    | some v => exact .some rfl
  intro h
  have halike : Eval.Alike Eq (EvalError.Alike Eq Eq) (op.eval env) (op.eval env) :=
    eval_alike likeness_eq ⟨rfl, fun _ => rfl⟩ (hself "x") fun _ => hself "y"
  rw [h] at halike
  cases halike with
  | error h => cases h

namespace Eval

variable {α β : Type} {m : Eval α} {f : α → Eval β}

/-- The run keeps the limit, comes back to the depth from which it starts, and fails at no other limit
than its own. -/
def Steady (m : Eval α) : Prop :=
  ∀ i r j, m i = some (r, j) → j.maxDepth = i.maxDepth ∧ j.depth = i.depth ∧
    ∀ n, r = .error (.recursionLimit n) → i.maxDepth = some n

theorem steady_of_run {r : Interpreter → Except EvalError α} {g : Interpreter → Interpreter}
    (hrun : ∀ i, m i = some (r i, g i)) (hlimit : ∀ i, (g i).maxDepth = i.maxDepth)
    (hdepth : ∀ i, (g i).depth = i.depth)
    (hr : ∀ i n, r i = .error (.recursionLimit n) → i.maxDepth = some n) : Steady m := by
  intro i r' j hm
  rw [hrun] at hm
  cases hm
  exact ⟨hlimit i, hdepth i, hr i⟩

theorem steady_pure (a : α) : Steady (pure a : Eval α) :=
  steady_of_run (r := fun _ => .ok a) (g := id) (fun _ => rfl) (fun _ => rfl) (fun _ => rfl)
    fun _ _ h => by cases h

theorem steady_throw {e : EvalError} (h : ∀ n, e ≠ .recursionLimit n) :
    Steady (throw e : Eval α) :=
  steady_of_run (r := fun _ => .error e) (g := id) (fun _ => rfl) (fun _ => rfl) (fun _ => rfl)
    fun _ n hr => absurd (Except.error.inj hr) (h n)

theorem steady_note (e : Event) : Steady (note e) :=
  steady_of_run (r := fun _ => .ok ()) (fun _ => rfl) (fun _ => rfl) (fun _ => rfl)
    fun _ _ h => by cases h

theorem steady_newId : Steady newId :=
  steady_of_run (r := fun i => .ok i.nextId) (fun _ => rfl) (fun _ => rfl) (fun _ => rfl)
    fun _ _ h => by cases h

theorem steady_unfinished : Steady (unfinished : Eval α) := fun i r j hm => by cases hm

theorem Steady.bind (hm : Steady m) (hf : ∀ a, Steady (f a)) : Steady (m >>= f) := by
  intro i r j hrun
  rw [run_bind] at hrun
  cases hmi : m i with
  | none =>
    rw [hmi] at hrun
    cases hrun
  | some p =>
    obtain ⟨r₁, j₁⟩ := p
    obtain ⟨hlimit, hdepth, herror⟩ := hm i r₁ j₁ hmi
    rw [hmi] at hrun
    cases r₁ with
    | error e =>
      cases hrun
      exact ⟨hlimit, hdepth, fun n hn => herror n (by cases hn; rfl)⟩
    | ok a =>
      obtain ⟨hlimit', hdepth', herror'⟩ := hf a j₁ r j hrun
      exact ⟨hlimit'.trans hlimit, hdepth'.trans hdepth, fun n hn => hlimit ▸ herror' n hn⟩

theorem Steady.deeper (hm : Steady m) : Steady (deeper m) := by
  intro i r j hrun
  unfold Eval.deeper at hrun
  obtain ⟨⟨r₁, j₁⟩, hm', hrest⟩ := Option.bind_eq_some_iff.1 hrun
  cases hrest
  obtain ⟨hlimit, hdepth, herror⟩ := hm _ _ _ hm'
  exact ⟨hlimit, by simp only [hdepth, Nat.add_sub_cancel], herror⟩

theorem steady_checkDepth : Steady checkDepth := by
  intro i r j hrun
  rcases checkDepth_cases i with hdepth | ⟨n, hn, hdepth⟩
  · rw [hdepth] at hrun
    cases hrun
    exact ⟨rfl, rfl, fun n h => by cases h⟩
  · rw [hdepth] at hrun
    cases hrun
    exact ⟨rfl, rfl, fun k h => by cases h; exact hn⟩

theorem steady_ofExcept {r : Except EvalError α} (h : ∀ n, r ≠ .error (.recursionLimit n)) :
    Steady (ofExcept r) := by
  cases r with
  | ok a => exact steady_pure a
  | error e => exact steady_throw fun n he => h n (by rw [he])

theorem steady_tie (x : String) (v : Expr) : Steady (tie x v) := by
  unfold tie
  split
  · exact (steady_note _).bind fun _ => steady_newId.bind fun _ => steady_pure _
  · exact steady_pure _

end Eval

section Steadiness
open Eval

variable {call : Closure → Expr → Eval Expr}

theorem steady_evalItems {env : Env} {items : List Expr}
    (hitems : ∀ e ∈ items, Steady (evalWith call env e)) : Steady (evalItems call env items) := by
  induction items with
  | nil =>
    unfold evalItems
    exact steady_pure []
  | cons item items ih =>
    obtain ⟨hitem, hitems⟩ := List.forall_mem_cons.1 hitems
    unfold evalItems
    exact hitem.bind fun v => (ih hitems).bind fun vs => steady_pure _

theorem steady_evalWith (hcall : ∀ c v, Steady (call c v)) (env : Env) (e : Expr) :
    Steady (evalWith call env e) := by
  induction e using Expr.induct generalizing env with
  | number | boolean | closure =>
    unfold evalWith
    exact steady_pure _
  | var x =>
    unfold evalWith
    split
    · exact steady_pure _
    · exact steady_throw (by simp)
  | prim op =>
    unfold evalWith
    exact steady_ofExcept (op.eval_ne_limit env)
  | lam x body =>
    unfold evalWith
    exact steady_newId.bind fun _ => steady_pure _
  | app f a ihf iha =>
    unfold evalWith
    refine (ihf env).bind fun v => ?_
    split
    · exact steady_throw (by simp)
    · exact (iha env).bind fun w => hcall _ w
  | ite c t e ihc iht ihe =>
    unfold evalWith
    refine (ihc env).bind fun v => ?_
    split
    · exact iht env
    · exact ihe env
    · exact steady_throw (by simp)
  | letIn recursive x bound body ih ihbody =>
    rw [evalWith_letIn]
    refine (ih env).bind fun v => Steady.bind ?_ fun w => ihbody _
    split
    · exact steady_tie x v
    · exact steady_pure v
  | list items ih =>
    unfold evalWith
    exact (steady_evalItems fun e he => ih e he env).bind fun vs => steady_pure _

theorem steady_apply (n : Nat) (c : Closure) (v : Expr) : Steady (apply n c v) := by
  induction n generalizing c v with
  | zero => exact steady_unfinished
  | succ n ih =>
    unfold apply
    exact steady_checkDepth.bind fun _ => (steady_note _).bind fun _ =>
      (steady_evalWith ih _ _).deeper

theorem steady_eval (n : Nat) (env : Env) (e : Expr) : Steady (eval n env e) :=
  steady_evalWith (steady_apply n) env e

end Steadiness

/-! ### Under a limit -/

namespace Interpreter

/-- The same interpreter under a limit. -/
def under (i : Interpreter) (n : Nat) : Interpreter := { i with maxDepth := some n }

/-- Without a limit, and with `k` calls left to nest before there are `n`. -/
def Leaves (n k : Nat) (i : Interpreter) : Prop := i.maxDepth = none ∧ i.depth + k = n

theorem Leaves.of_run {α : Type} {n k : Nat} {i j : Interpreter} {m : Eval α}
    {r : Except EvalError α} (hi : i.Leaves n k) (hm : Eval.Steady m) (hrun : m i = some (r, j)) :
    j.Leaves n k := by
  obtain ⟨hlimit, hdepth, -⟩ := hm i r j hrun
  exact ⟨hlimit.trans hi.1, by rw [hdepth, hi.2]⟩

end Interpreter

namespace Eval

variable {α β : Type} {n k : Nat} {i : Interpreter} {m m' : Eval α} {f f' : α → Eval β}

/-- Under the limit the second run does what the first does without one, and it fails at the limit where
the first does not finish. -/
structure CutsOff (n : Nat) (i : Interpreter) (m m' : Eval α) : Prop where
  finished : ∀ r j, m i = some (r, j) → m' (i.under n) = some (r, j.under n)
  unfinished : m i = none → ∃ j, m' (i.under n) = some (.error (.recursionLimit n), j)

theorem cutsOff_of_run {r : Except EvalError α} {j : Interpreter} (hrun : m i = some (r, j))
    (hrun' : m (i.under n) = some (r, j.under n)) : CutsOff n i m m := by
  refine ⟨fun r' j' h => ?_, fun h => ?_⟩
  · rw [hrun] at h
    cases h
    exact hrun'
  · rw [hrun] at h
    cases h

theorem cutsOff_pure (a : α) : CutsOff n i (pure a) (pure a) :=
  cutsOff_of_run (r := .ok a) (j := i) rfl rfl

theorem cutsOff_throw (e : EvalError) : CutsOff n i (throw e : Eval α) (throw e) :=
  cutsOff_of_run (r := .error e) (j := i) rfl rfl

theorem cutsOff_newId : CutsOff n i newId newId :=
  cutsOff_of_run (r := .ok i.nextId) (j := { i with nextId := i.nextId + 1 }) rfl rfl

theorem cutsOff_ofExcept (r : Except EvalError α) : CutsOff n i (ofExcept r) (ofExcept r) := by
  cases r with
  | ok a => exact cutsOff_pure a
  | error e => exact cutsOff_throw e

theorem cutsOff_tie (x : String) (v : Expr) : CutsOff n i (tie x v) (tie x v) := by
  cases v with
  | closure id y body env self =>
    exact cutsOff_of_run (r := .ok (.closure i.nextId y body env (some x)))
      (j := { i with nextId := i.nextId + 1, log := .tied x :: i.log }) rfl rfl
  | _ => exact cutsOff_pure _

theorem CutsOff.bind (hm : CutsOff n i m m')
    (hf : ∀ a j, m i = some (.ok a, j) → CutsOff n j (f a) (f' a)) :
    CutsOff n i (m >>= f) (m' >>= f') := by
  cases hmi : m i with
  | none =>
    refine ⟨fun r j h => ?_, fun _ => ?_⟩
    · rw [run_bind, hmi] at h
      cases h
    · obtain ⟨j, hj⟩ := hm.unfinished hmi
      exact ⟨j, by rw [run_bind, hj]⟩
  | some p =>
    obtain ⟨r, j⟩ := p
    have hmi' := hm.finished r j hmi
    cases r with
    | error e =>
      refine ⟨fun r' j' h => ?_, fun h => ?_⟩
      · rw [run_bind, hmi] at h
        cases h
        rw [run_bind, hmi']
      · rw [run_bind, hmi] at h
        cases h
    | ok a =>
      have hrest := hf a j hmi
      refine ⟨fun r' j' h => ?_, fun h => ?_⟩
      · rw [run_bind, hmi] at h
        rw [run_bind, hmi']
        exact hrest.finished r' j' h
      · rw [run_bind, hmi] at h
        rw [run_bind, hmi']
        exact hrest.unfinished h

end Eval

section Cutting
open Eval

variable {n k : Nat} {call call' : Closure → Expr → Eval Expr} {env : Env} {e : Expr}
  {items : List Expr} {i : Interpreter}

/-- Calls, with `k` left to nest, are cut off. -/
def CallsCutOff (n k : Nat) (call call' : Closure → Expr → Eval Expr) : Prop :=
  ∀ c v i, i.Leaves n k → CutsOff n i (call c v) (call' c v)

theorem cutsOff_evalItems (hcall : ∀ c v, Steady (call c v)) (hi : i.Leaves n k)
    (hitems : ∀ e ∈ items, ∀ i, i.Leaves n k →
      CutsOff n i (evalWith call env e) (evalWith call' env e)) :
    CutsOff n i (evalItems call env items) (evalItems call' env items) := by
  induction items generalizing i with
  | nil =>
    unfold evalItems
    exact cutsOff_pure []
  | cons item items ih =>
    obtain ⟨hitem, hitems⟩ := List.forall_mem_cons.1 hitems
    unfold evalItems
    refine (hitem i hi).bind fun v j hv => ?_
    exact (ih (hi.of_run (steady_evalWith hcall env item) hv) hitems).bind fun vs _ _ =>
      cutsOff_pure (v :: vs)

theorem cutsOff_evalWith (hsteady : ∀ c v, Steady (call c v)) (hcall : CallsCutOff n k call call')
    (hi : i.Leaves n k) : CutsOff n i (evalWith call env e) (evalWith call' env e) := by
  have hnext : ∀ {e env i r j}, i.Leaves n k → evalWith call env e i = some (r, j) → j.Leaves n k :=
    fun hi hrun => hi.of_run (steady_evalWith hsteady _ _) hrun
  induction e using Expr.induct generalizing env i with
  | number | boolean | closure =>
    unfold evalWith
    exact cutsOff_pure _
  | var x =>
    unfold evalWith
    split
    · exact cutsOff_pure _
    · exact cutsOff_throw _
  | prim op =>
    unfold evalWith
    exact cutsOff_ofExcept _
  | lam x body =>
    unfold evalWith
    exact cutsOff_newId.bind fun _ _ _ => cutsOff_pure _
  | app f a ihf iha =>
    unfold evalWith
    refine (ihf hi).bind fun v j hv => ?_
    split
    · exact cutsOff_throw _
    · exact (iha (hnext hi hv)).bind fun w k hw => hcall _ w k (hnext (hnext hi hv) hw)
  | ite c t e ihc iht ihe =>
    unfold evalWith
    refine (ihc hi).bind fun v j hv => ?_
    split
    · exact iht (hnext hi hv)
    · exact ihe (hnext hi hv)
    · exact cutsOff_throw _
  | letIn recursive x bound body ih ihbody =>
    rw [evalWith_letIn, evalWith_letIn]
    refine (ih hi).bind fun v j hv => ?_
    have hj := hnext hi hv
    cases recursive with
    | false => exact (cutsOff_pure v).bind fun w k hw => ihbody (hj.of_run (steady_pure v) hw)
    | true => exact (cutsOff_tie x v).bind fun w k hw => ihbody (hj.of_run (steady_tie x v) hw)
  | list items ih =>
    unfold evalWith
    refine (cutsOff_evalItems hsteady hi fun e he i hi => ih e he hi).bind fun vs _ _ => ?_
    exact cutsOff_pure _

/-- By induction on how many calls are left to nest: the limit is met exactly where none is left. -/
theorem callsCutOff (n k : Nat) : CallsCutOff n k (apply k) (apply (k + 1)) := by
  induction k with
  | zero =>
    intro c v i hi
    have hlimit : checkDepth (i.under n) = some (.error (.recursionLimit n), i.under n) := by
      rw [run_checkDepth]
      exact if_pos (by rw [← hi.2]; exact le_rfl)
    refine ⟨fun r j h => ?_, fun _ => ⟨i.under n, run_apply_error hlimit 0 c v⟩⟩
    cases h
  | succ k ih =>
    intro c v i hi
    have hfree : checkDepth (i.under n) = some (.ok (), i.under n) := by
      rw [run_checkDepth]
      exact if_neg (by have := hi.2; simp only [Interpreter.under]; omega)
    have henter : (i.enter c v).Leaves n k :=
      ⟨hi.1, by have := hi.2; simp only [Interpreter.enter]; omega⟩
    have hbody : CutsOff n (i.enter c v) (eval k (c.scope v) c.body)
        (eval (k + 1) (c.scope v) c.body) := cutsOff_evalWith (steady_apply k) ih henter
    refine ⟨fun r j h => ?_, fun h => ?_⟩
    · rw [run_apply (checkDepth_unlimited hi.1)] at h
      obtain ⟨⟨r', j'⟩, hrun, hleave⟩ := Option.map_eq_some_iff.1 h
      cases hleave
      rw [run_apply hfree]
      exact congrArg (Option.map fun p => (p.1, p.2.leave)) (hbody.finished r' j' hrun)
    · rw [run_apply (checkDepth_unlimited hi.1), Option.map_eq_none_iff] at h
      obtain ⟨j, hj⟩ := hbody.unfinished h
      refine ⟨j.leave, ?_⟩
      rw [run_apply hfree]
      exact congrArg (Option.map fun p => (p.1, p.2.leave)) hj

/-- A limit is how much nesting evaluation may use. -/
theorem cutsOff_eval (hi : i.Leaves n k) (env : Env) (e : Expr) :
    CutsOff n i (eval k env e) (eval (k + 1) env e) :=
  cutsOff_evalWith (steady_apply k) (callsCutOff n k) hi

end Cutting

/-! ### New interpreters -/

namespace Interpreter

/-- What a new interpreter makes of an expression, with the number of its first closure. Without a limit
calls may be nested as deep as it takes. -/
def Gives (limit : Option Nat) (id : Nat) (env : Env) (e : Expr) (r : Except EvalError Expr) : Prop :=
  match limit with
  | some n => ∃ j, (new (some n) id).run env e = some (r, j)
  | none => ∃ fuel j, eval fuel env e (new none id) = some (r, j)

variable {n id : Nat} {env : Env} {e : Expr} {r r' : Except EvalError Expr} {j : Interpreter}

theorem gives_some_of_eval (h : eval n env e (new none id) = some (r, j)) :
    Gives (some n) id env e r :=
  ⟨_, (cutsOff_eval (n := n) ⟨rfl, Nat.zero_add n⟩ env e).finished r j h⟩

theorem gives_limit_of_unfinished (h : eval n env e (new none id) = none) :
    Gives (some n) id env e (.error (.recursionLimit n)) :=
  (cutsOff_eval (n := n) ⟨rfl, Nat.zero_add n⟩ env e).unfinished h

/-- Under a limit every evaluation comes to something. -/
theorem exists_gives_some (n id : Nat) (env : Env) (e : Expr) : ∃ r, Gives (some n) id env e r := by
  cases h : eval n env e (new none id) with
  | none => exact ⟨_, gives_limit_of_unfinished h⟩
  | some p => exact ⟨_, gives_some_of_eval h⟩

theorem ne_limit_of_gives (h : Gives none id env e r) (n : Nat) : r ≠ .error (.recursionLimit n) := by
  obtain ⟨fuel, j, hrun⟩ := h
  obtain ⟨-, -, hlimit⟩ := steady_eval fuel env e _ r j hrun
  intro hr
  cases hlimit n hr

theorem Gives.unique {limit : Option Nat} (h : Gives limit id env e r) (h' : Gives limit id env e r') :
    r = r' := by
  cases limit with
  | some n =>
    obtain ⟨j, hj⟩ := h
    obtain ⟨j', hj'⟩ := h'
    rw [hj] at hj'
    cases hj'
    rfl
  | none =>
    obtain ⟨fuel, j, hj⟩ := h
    obtain ⟨fuel', j', hj'⟩ := h'
    have hmax := eval_of_le hj (le_max_left fuel fuel')
    rw [eval_of_le hj' (le_max_right fuel fuel')] at hmax
    cases hmax
    rfl

end Interpreter

end LetPoly
