import LetPoly.Evaluation.Interpreter
import LetPoly.Proofs.Source

/-! How evaluation runs: an action after another, a call, and the same run with more nesting to use. -/

namespace LetPoly

/-- In the body of a closure that is called. -/
def Interpreter.enter (i : Interpreter) (c : Closure) (argument : Expr) : Interpreter :=
  { i with depth := i.depth + 1, log := .applied c.binder argument :: i.log }

def Interpreter.leave (i : Interpreter) : Interpreter := { i with depth := i.depth - 1 }

/-- After a lambda has become a closure that is tied to the name. -/
def Interpreter.tied (i : Interpreter) (name : String) : Interpreter :=
  { i with nextId := i.nextId + 2, log := .tied name :: i.log }

namespace Eval

variable {α β : Type}

theorem run_bind (m : Eval α) (f : α → Eval β) (i : Interpreter) :
    (m >>= f) i = match m i with
      | none => none
      | some (.ok a, j) => f a j
      | some (.error e, j) => some (.error e, j) := by
  change (m i).bind (fun p => ExceptT.bindCont f p.1 p.2) = _
  cases m i with
  | none => rfl
  | some p =>
    obtain ⟨r, j⟩ := p
    cases r <;> rfl

theorem run_checkDepth (i : Interpreter) :
    checkDepth i = match i.maxDepth with
      | some n => if n ≤ i.depth then some (.error (.recursionLimit n), i) else some (.ok (), i)
      | none => some (.ok (), i) := by
  have hget : (get : Eval Interpreter) i = some (.ok i, i) := rfl
  unfold checkDepth
  rw [run_bind, hget]
  simp only
  cases i.maxDepth with
  | none => rfl
  | some n => simp only; split <;> rfl

theorem checkDepth_unlimited {i : Interpreter} (hi : i.maxDepth = none) :
    checkDepth i = some (.ok (), i) := by
  rw [run_checkDepth, hi]

theorem checkDepth_cases (i : Interpreter) :
    checkDepth i = some (.ok (), i) ∨
      ∃ n, i.maxDepth = some n ∧ checkDepth i = some (.error (.recursionLimit n), i) := by
  rw [run_checkDepth]
  cases i.maxDepth with
  | none => exact .inl rfl
  | some n =>
    simp only
    split
    · exact .inr ⟨n, rfl, rfl⟩
    · exact .inl rfl

end Eval

open Eval

variable {call call' : Closure → Expr → Eval Expr} {env : Env} {e : Expr} {items : List Expr}
  {n m : Nat} {i : Interpreter}

theorem run_lam (call : Closure → Expr → Eval Expr) (env : Env) (x : String) (body : Expr)
    (i : Interpreter) :
    evalWith call env (.lam x body) i =
      some (.ok (.closure i.nextId x body env none), { i with nextId := i.nextId + 1 }) := by
  unfold evalWith
  rfl

theorem evalWith_letIn (call : Closure → Expr → Eval Expr) (env : Env) (recursive : Bool) (x : String)
    (bound body : Expr) :
    evalWith call env (.letIn recursive x bound body) =
      evalWith call env bound >>= fun v => (if recursive then tie x v else pure v) >>= fun w =>
        evalWith call (env.insert x w) body := by
  cases recursive <;> rfl

theorem evalWith_letPoly (call : Closure → Expr → Eval Expr) (env : Env) (x : String)
    (bound body : Expr) :
    evalWith call env (.letIn false x bound body) =
      evalWith call env bound >>= fun v => evalWith call (env.insert x v) body := by
  simp [evalWith_letIn]

/-- The closure as it is when it has been tied to the name. -/
def Closure.tiedTo (c : Closure) (name : String) (id : Nat) : Closure :=
  { c with id := id, self := some name }

theorem run_tie (name : String) (c : Closure) (i : Interpreter) :
    tie name c.toExpr i = some (.ok (c.tiedTo name i.nextId).toExpr,
      { i with nextId := i.nextId + 1, log := .tied name :: i.log }) := rfl

theorem run_tie_of_not_closure {v : Expr} (h : v.closure? = none) (name : String) (i : Interpreter) :
    tie name v i = some (.ok v, i) := by
  cases v with
  | closure => cases h
  | _ => rfl

/-- Tying makes a second closure, and the first is not seen again. -/
theorem run_letRec (call : Closure → Expr → Eval Expr) (env : Env) (f x : String) (inner body : Expr)
    (i : Interpreter) :
    evalWith call env (.letIn true f (.lam x inner) body) i =
      evalWith call (env.insert f (.closure (i.nextId + 1) x inner env (some f))) body (i.tied f) := by
  rw [evalWith_letIn, evalWith]
  rfl

/-- The function by itself. -/
theorem run_letRec_self (call : Closure → Expr → Eval Expr) (env : Env) (f x : String) (inner : Expr)
    (i : Interpreter) :
    evalWith call env (.letIn true f (.lam x inner) (.var f)) i =
      some (.ok (.closure (i.nextId + 1) x inner env (some f)), i.tied f) := by
  rw [run_letRec]
  simp only [evalWith, Bindings.get?_insert, if_true]
  rfl

theorem evalItems_append (call : Closure → Expr → Eval Expr) (env : Env) (before after : List Expr) :
    evalItems call env (before ++ after) = do
      let vs ← evalItems call env before
      return vs ++ (← evalItems call env after) := by
  induction before with
  | nil => simp [evalItems]
  | cons e before ih => simp [evalItems, ih]

theorem run_items_snoc {vs : List Expr} {v : Expr} {j k : Interpreter}
    (h : evalItems call env items i = some (.ok vs, j))
    (hlast : evalWith call env e j = some (.ok v, k)) :
    evalItems call env (items ++ [e]) i = some (.ok (vs ++ [v]), k) := by
  have hone : evalItems call env [e] j = some (.ok [v], k) := by
    unfold evalItems
    rw [run_bind, hlast]
    rfl
  rw [evalItems_append, run_bind, h]
  change (evalItems call env [e] >>= fun ws => pure (vs ++ ws)) j = _
  rw [run_bind, hone]
  rfl

theorem run_list (call : Closure → Expr → Eval Expr) (env : Env) (items : List Expr) (i : Interpreter) :
    evalWith call env (.list items) i =
      (evalItems call env items i).map fun p => (p.1.map .list, p.2) := by
  unfold evalWith
  rw [run_bind]
  cases evalItems call env items i with
  | none => rfl
  | some p =>
    obtain ⟨r, j⟩ := p
    cases r <;> rfl

theorem run_apply (hdepth : checkDepth i = some (.ok (), i)) (n : Nat) (c : Closure) (v : Expr) :
    apply (n + 1) c v i =
      (eval n (c.scope v) c.body (i.enter c v)).map fun p => (p.1, p.2.leave) := by
  unfold apply
  rw [run_bind, hdepth]
  have hnote : note (.applied c.binder v) i =
      some (.ok (), { i with log := .applied c.binder v :: i.log }) := rfl
  simp only [run_bind, hnote]
  change (eval n (c.scope v) c.body (i.enter c v)).bind _ = _
  cases eval n (c.scope v) c.body (i.enter c v) <;> rfl

theorem run_apply_error {err : EvalError} (hdepth : checkDepth i = some (.error err, i)) (n : Nat)
    (c : Closure) (v : Expr) : apply (n + 1) c v i = some (.error err, i) := by
  unfold apply
  rw [run_bind, hdepth]

/-! ### More nesting -/

namespace Eval

variable {α β : Type} {m m' : Eval α} {f f' : α → Eval β}

/-- What one action comes to, if it finishes, the other comes to as well. -/
def Below (m m' : Eval α) : Prop := ∀ i p, m i = some p → m' i = some p

theorem Below.refl (m : Eval α) : Below m m := fun _ _ h => h

theorem Below.bind (hm : Below m m') (hf : ∀ a, Below (f a) (f' a)) :
    Below (m >>= f) (m' >>= f') := by
  intro i p hrun
  rw [run_bind] at hrun ⊢
  cases hmi : m i with
  | none =>
    rw [hmi] at hrun
    cases hrun
  | some q =>
    obtain ⟨r, j⟩ := q
    rw [hmi] at hrun
    rw [hm i _ hmi]
    cases r with
    | error e => exact hrun
    | ok a => exact hf a j p hrun

theorem Below.deeper (h : Below m m') : Below (deeper m) (deeper m') := by
  intro i p hrun
  unfold Eval.deeper at hrun ⊢
  obtain ⟨q, hq, hrest⟩ := Option.bind_eq_some_iff.1 hrun
  exact Option.bind_eq_some_iff.2 ⟨q, h _ q hq, hrest⟩

end Eval

theorem below_evalItems (hitems : ∀ e ∈ items, Below (evalWith call env e) (evalWith call' env e)) :
    Below (evalItems call env items) (evalItems call' env items) := by
  induction items with
  | nil =>
    unfold evalItems
    exact .refl _
  | cons item items ih =>
    obtain ⟨hitem, hitems⟩ := List.forall_mem_cons.1 hitems
    unfold evalItems
    exact hitem.bind fun v => (ih hitems).bind fun vs => .refl _

theorem below_evalWith (hcall : ∀ c v, Below (call c v) (call' c v)) :
    Below (evalWith call env e) (evalWith call' env e) := by
  induction e using Expr.induct generalizing env with
  | number | boolean | var | lam | prim | closure =>
    unfold evalWith
    exact .refl _
  | app f a ihf iha =>
    unfold evalWith
    refine ihf.bind fun f => ?_
    split
    · exact .refl _
    · exact iha.bind fun v => hcall _ v
  | ite c t e ihc iht ihe =>
    unfold evalWith
    refine ihc.bind fun v => ?_
    split
    · exact iht
    · exact ihe
    · exact .refl _
  | letIn recursive x bound body ih ihbody =>
    rw [evalWith_letIn, evalWith_letIn]
    exact ih.bind fun v => (Below.refl _).bind fun w => ihbody
  | list items ih =>
    unfold evalWith
    exact (below_evalItems fun e he => ih e he).bind fun vs => .refl _

theorem below_apply (h : n ≤ m) (c : Closure) (v : Expr) : Below (apply n c v) (apply m c v) := by
  induction n generalizing m c v with
  | zero =>
    intro i p hrun
    cases hrun
  | succ n ih =>
    obtain ⟨k, rfl⟩ := Nat.exists_eq_add_of_le h
    rw [Nat.succ_add]
    unfold apply
    refine (Below.refl _).bind fun _ => (Below.refl _).bind fun _ => Below.deeper ?_
    exact below_evalWith (ih (by omega))

/-- A run that finishes comes to the same with more nesting to use. -/
theorem eval_of_le {p : Except EvalError Expr × Interpreter} (h : eval n env e i = some p)
    (hle : n ≤ m) : eval m env e i = some p :=
  below_evalWith (below_apply hle) i p h

end LetPoly
