import Mathlib.Data.Nat.Find
import LetPoly.Proofs.Agreement

/-! How deep an evaluation nests its calls. That is one number for each evaluation which finishes
(`exists_nests`), the threshold for all limits (`Eval.Nests.gives`); and it is counted along the expression: a
call nests one level more than the body of the closure, and what is done one after the other nests as deep as
the deepest part. -/

namespace LetPoly

namespace Eval

variable {α β : Type} {d k : Nat} {m : Nat → Eval α} {f : Nat → α → Eval β} {P : Except EvalError α → Prop}
  {V : α → Prop} {Q : Except EvalError β → Prop}

/-- A value as stated. -/
def Valued (V : α → Prop) (r : Except EvalError α) : Prop := ∃ a, r = .ok a ∧ V a

/-- A function as stated. -/
def IsClosure (C : Closure → Prop) (r : Except EvalError Expr) : Prop := ∃ c : Closure, r = .ok c.toExpr ∧ C c

/-- Without a limit the run finishes if it may nest `d` calls, and does not if it may nest fewer; it ends as
stated. -/
def Nests (d : Nat) (m : Nat → Eval α) (P : Except EvalError α → Prop) : Prop :=
  ∀ i, i.maxDepth = none → (∀ n < d, m n i = none) ∧
    ∃ r j, (∀ n ≥ d, m n i = some (r, j)) ∧ j.maxDepth = none ∧ P r

theorem nests_of_run {r : Interpreter → Except EvalError α} {g : Interpreter → Interpreter}
    (hrun : ∀ n i, m n i = some (r i, g i)) (hg : ∀ i, (g i).maxDepth = i.maxDepth) (h : ∀ i, P (r i)) :
    Nests 0 m P :=
  fun i hi => ⟨by simp, r i, g i, fun n _ => hrun n i, (hg i).trans hi, h i⟩

theorem nests_pure {a : α} (h : P (.ok a)) : Nests 0 (fun _ => pure a) P :=
  nests_of_run (g := id) (fun _ _ => rfl) (fun _ => rfl) fun _ => h

theorem nests_throw {e : EvalError} (h : P (.error e)) : Nests 0 (fun _ => throw e) P :=
  nests_of_run (g := id) (fun _ _ => rfl) (fun _ => rfl) fun _ => h

theorem Nests.imp {P' : Except EvalError α → Prop} (h : Nests d m P) (hP : ∀ r, P r → P' r) :
    Nests d m P' := by
  intro i hi
  obtain ⟨hbelow, r, j, hrun, hj, hr⟩ := h i hi
  exact ⟨hbelow, r, j, hrun, hj, hP r hr⟩

theorem Nests.bind (hm : Nests d m (Valued V)) (hf : ∀ a, V a → Nests k (fun n => f n a) Q) :
    Nests (max d k) (fun n => m n >>= f n) Q := by
  intro i hi
  obtain ⟨hbelow, _, j, hrun, hj, a, rfl, ha⟩ := hm i hi
  obtain ⟨hbelow', r, j', hrun', hj', hr⟩ := hf a ha j hj
  refine ⟨fun n hn => ?_, r, j', fun n hn => ?_, hj', hr⟩
  · change (m n >>= f n) i = none
    rw [run_bind]
    by_cases hnd : n < d
    · rw [hbelow n hnd]
    · rw [hrun n (by omega)]
      exact hbelow' n (by omega)
  · change (m n >>= f n) i = _
    rw [run_bind, hrun n (by omega)]
    exact hrun' n (by omega)

theorem nests_apply {c : Closure} {v : Expr} {P : Except EvalError Expr → Prop}
    (h : Nests d (fun n => eval n (c.scope v) c.body) P) : Nests (d + 1) (fun n => apply n c v) P := by
  intro i hi
  obtain ⟨hbelow, r, j, hrun, hj, hr⟩ := h (i.enter c v) hi
  have hdepth := checkDepth_unlimited hi
  refine ⟨fun n hn => ?_, r, j.leave, fun n hn => ?_, hj, hr⟩
  · cases n with
    | zero => rfl
    | succ n =>
      have hbody : eval n (c.scope v) c.body (i.enter c v) = none := hbelow n (by omega)
      change apply (n + 1) c v i = none
      rw [run_apply hdepth, hbody]
      rfl
  · obtain ⟨n, rfl⟩ : ∃ k, n = k + 1 := ⟨n - 1, by omega⟩
    have hbody : eval n (c.scope v) c.body (i.enter c v) = some (r, j) := hrun n (by omega)
    change apply (n + 1) c v i = _
    rw [run_apply hdepth, hbody]
    rfl

end Eval

section Expressions
open Eval

variable {d k l : Nat} {env : Env} {e₁ e₂ e body : Expr} {x f : String} {P : Except EvalError Expr → Prop}
  {C : Closure → Prop} {V : Expr → Prop} {op : Primitive}

theorem nests_number {n : Int64} (h : P (.ok (.number n))) :
    Nests 0 (fun fuel => eval fuel env (.number n)) P := by
  simpa only [eval, evalWith] using nests_pure h

theorem nests_var {v : Expr} (hx : env.get? x = some v) (h : P (.ok v)) :
    Nests 0 (fun n => eval n env (.var x)) P := by
  simpa only [eval, evalWith, hx] using nests_pure h

theorem nests_lam (h : ∀ id, P (.ok (.closure id x body env none))) :
    Nests 0 (fun n => eval n env (.lam x body)) P :=
  nests_of_run (r := fun i => .ok (.closure i.nextId x body env none))
    (g := fun i => { i with nextId := i.nextId + 1 }) (fun _ i => run_lam _ env x body i)
    (fun _ => rfl) fun i => h i.nextId

theorem nests_prim (h : P (op.eval env)) : Nests 0 (fun n => eval n env (.prim op)) P := by
  simp only [eval, evalWith]
  generalize op.eval env = r at h
  cases r with
  | ok v => exact nests_pure h
  | error err => exact nests_throw h

/-- The function nests its calls, then the argument, then the call itself. -/
theorem nests_app (hf : Nests d (fun n => eval n env e₁) (IsClosure C))
    (ha : Nests k (fun n => eval n env e₂) (Valued V))
    (hcall : ∀ c v, C c → V v → Nests l (fun n => apply n c v) P) :
    Nests (max d (max k l)) (fun n => eval n env (.app e₁ e₂)) P := by
  have hf : Nests d (fun n => eval n env e₁) (Valued fun v => ∃ c : Closure, v = c.toExpr ∧ C c) := by
    refine hf.imp ?_
    rintro _ ⟨c, rfl, hc⟩
    exact ⟨_, rfl, c, rfl, hc⟩
  simp only [eval, evalWith]
  refine hf.bind ?_
  rintro _ ⟨c, rfl, hc⟩
  exact ha.bind fun v hv => hcall c v hc hv

/-- A call of a closure by its name. -/
theorem nests_call {c : Closure} (hf : env.get? f = some c.toExpr)
    (ha : Nests k (fun n => eval n env e) (Valued V))
    (hcall : ∀ v, V v → Nests l (fun n => apply n c v) P) :
    Nests (max k l) (fun n => eval n env (.app (.var f) e)) P := by
  rw [show max k l = max 0 (max k l) by omega]
  refine nests_app (C := (· = c)) (nests_var hf ⟨c, rfl, rfl⟩) ha ?_
  rintro _ v rfl hv
  exact hcall v hv

theorem nests_ite {b : Bool} (hc : Nests d (fun n => eval n env e) (Valued (· = .boolean b)))
    (hbranch : Nests k (fun n => eval n env (if b then e₁ else e₂)) P) :
    Nests (max d k) (fun n => eval n env (.ite e e₁ e₂)) P := by
  simp only [eval, evalWith]
  refine hc.bind ?_
  rintro _ rfl
  cases b with
  | true => exact hbranch
  | false => exact hbranch

theorem nests_letRec
    (h : ∀ id, Nests d (fun n => eval n (env.insert f (.closure id x body env (some f))) e) P) :
    Nests d (fun n => eval n env (.letIn true f (.lam x body) e)) P := by
  intro i hi
  simp only [eval, run_letRec]
  exact h (i.nextId + 1) (i.tied f) hi

end Expressions

/-! ### Limits -/

section Limits
open Eval Interpreter

variable {d id : Nat} {env : Env} {e : Expr} {r : Except EvalError Expr} {P : Except EvalError Expr → Prop}

/-- What is nested is the threshold for all limits. -/
theorem Eval.Nests.gives (h : Nests d (fun n => eval n env e) P) (id : Nat) :
    ∃ r, P r ∧ Gives none id env e r ∧ (∀ n ≥ d, Gives (some n) id env e r) ∧
      ∀ n < d, Gives (some n) id env e (.error (.recursionLimit n)) := by
  obtain ⟨hbelow, r, j, hrun, -, hr⟩ := h (new none id) rfl
  refine ⟨r, hr, ⟨d, j, hrun d le_rfl⟩, fun n hn => ?_, fun n hn => ?_⟩
  · exact gives_some_of_eval (hrun n hn)
  · exact gives_limit_of_unfinished (hbelow n hn)

/-- An evaluation that finishes nests its calls as deep from every interpreter, and comes to the same but for
the numbers of closures. -/
theorem exists_nests (h : Gives none id env e r) :
    ∃ d, Nests d (fun n => eval n env e) (Eval.Renumbered r) := by
  classical
  have hex : ∃ n p, eval n env e (new none id) = some p := by
    obtain ⟨n, j, hrun⟩ := h
    exact ⟨n, _, hrun⟩
  refine ⟨Nat.find hex, fun i hi => ?_⟩
  have hmeet : ∀ n, Meet Expr.Renumbered (EvalError.Alike Eq Expr.Renumbered)
      (eval n env e (new none id)) (eval n env e i) := fun n => meet_unlimited rfl hi n env e
  constructor
  · intro n hn
    have hnone : eval n env e (new none id) = none :=
      Option.eq_none_iff_forall_ne_some.2 fun p hp => Nat.find_min hex hn ⟨p, hp⟩
    have hn := hmeet n
    rw [hnone] at hn
    change eval n env e i = none
    generalize eval n env e i = o at hn
    cases hn
    rfl
  · obtain ⟨⟨r', j⟩, hp⟩ := Nat.find_spec hex
    have hgives : Gives none id env e r' := ⟨_, j, hp⟩
    obtain rfl := hgives.unique h
    have hd := hmeet (Nat.find hex)
    rw [hp] at hd
    generalize ho : eval (Nat.find hex) env e i = o at hd
    cases hd with
    | @finished _ s _ k hs =>
      exact ⟨s, k, fun n hn => eval_of_le ho hn, (steady_eval _ env e i s k ho).1.trans hi, hs⟩

end Limits

end LetPoly
