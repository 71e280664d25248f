import Mathlib.Data.Int.ModEq
import LetPoly.Proofs.Nesting

/-! What the built-in names compute. `Primitive.Computes` says what an operation is to make of its operands, in
terms of the integers that numbers stand for, and of lists and their items. The value of its name is a curried
closure that finds the operands under the names `x` and `y`; these are its own, so that it computes the
operation whatever the program binds, and wherever the closure that holds the first operand is applied
(`builtins_compute`). -/

namespace LetPoly

/-! ### Operands and results -/

namespace Primitive

/-- The operation on integers that an arithmetic one is to agree with. -/
def integer? : Primitive → Option (Int → Int → Int)
  | add => some (· + ·)
  | subtract => some (· - ·)
  | multiply => some (· * ·)
  | _ => none

/-- What the operations are to make of their operands. Arithmetic is that of the integers modulo `2 ^ 64`. -/
inductive Computes : Primitive → List Expr → Except EvalError Expr → Prop
  | arithmetic {op : Primitive} {f : Int → Int → Int} {m n k : Int64} : op.integer? = some f →
      k.toInt ≡ f m.toInt n.toInt [ZMOD 2 ^ 64] →
      Computes op [.number m, .number n] (.ok (.number k))
  | notNumbers {op : Primitive} {f : Int → Int → Int} {v w : Expr} : op.integer? = some f →
      (∀ n, v ≠ .number n) ∨ (∀ n, w ≠ .number n) →
      Computes op [v, w] (.error (.invalidOperands op [v, w]))
  | equalNumbers (m n : Int64) : Computes equals [.number m, .number n] (.ok (.boolean (decide (m = n))))
  | equalBooleans (a b : Bool) :
      Computes equals [.boolean a, .boolean b] (.ok (.boolean (decide (a = b))))
  | notComparable {v w : Expr} : (∀ n, v ≠ .number n) ∨ (∀ n, w ≠ .number n) →
      (∀ b, v ≠ .boolean b) ∨ (∀ b, w ≠ .boolean b) →
      Computes equals [v, w] (.error (.invalidOperands equals [v, w]))
  | cons (v : Expr) (ws : List Expr) : Computes cons [v, .list ws] (.ok (.list (v :: ws)))
  | consToNoList (v : Expr) {w : Expr} : (∀ ws, w ≠ .list ws) →
      Computes cons [v, w] (.error (.notAList w))
  | isEmpty (vs : List Expr) : Computes isEmpty [.list vs] (.ok (.boolean (decide (vs = []))))
  | head (v : Expr) (vs : List Expr) : Computes head [.list (v :: vs)] (.ok v)
  | tail (v : Expr) (vs : List Expr) : Computes tail [.list (v :: vs)] (.ok (.list vs))
  | headOfEmpty : Computes head [.list []] (.error (.emptyListAccess head))
  | tailOfEmpty : Computes tail [.list []] (.error (.emptyListAccess tail))
  | noList {op : Primitive} {v : Expr} : op.arity = 1 → (∀ vs, v ≠ .list vs) →
      Computes op [v] (.error (.notAList v))

variable {op : Primitive} {v w : Expr} {vs : List Expr} {r r' : Except EvalError Expr}

theorem eq_of_toInt_modEq {m n : Int64} (h : m.toInt ≡ n.toInt [ZMOD 2 ^ 64]) : m = n := by
  have hmod : m.toInt.bmod 18446744073709551616 = n.toInt.bmod 18446744073709551616 := by
    rw [← Int.emod_bmod m.toInt, ← Int.emod_bmod n.toInt]
    exact congrArg (Int.bmod · 18446744073709551616) h
  rwa [Int64.toInt_bmod, Int64.toInt_bmod, Int64.toInt_inj] at hmod

theorem eval_of_integer? {f : Int → Int → Int} (hf : op.integer? = some f) :
    ∃ g : Int64 → Int64 → Int64, (∀ m n, (g m n).toInt ≡ f m.toInt n.toInt [ZMOD 2 ^ 64]) ∧
      ∀ v w, op.eval [("x", v), ("y", w)] = arithmetic op g v w := by
  cases op with
  | add =>
    cases hf
    exact ⟨(· + ·), fun m n => (Int64.toInt_add m n).symm ▸ Int.bmod_emod .., fun _ _ => rfl⟩
  | subtract =>
    cases hf
    exact ⟨(· - ·), fun m n => (Int64.toInt_sub m n).symm ▸ Int.bmod_emod .., fun _ _ => rfl⟩
  | multiply =>
    cases hf
    exact ⟨(· * ·), fun m n => (Int64.toInt_mul m n).symm ▸ Int.bmod_emod .., fun _ _ => rfl⟩
  | _ => cases hf

theorem eval_of_not_list (harity : op.arity = 1) (hv : ∀ vs, v ≠ .list vs) :
    op.eval [("x", v)] = .error (.notAList v) := by
  have hx : operand [("x", v)] "x" = .ok v := rfl
  unfold eval
  rw [hx]
  cases op with
  | isEmpty | head | tail =>
    simp only [bind, Except.bind, asList_of_not_list hv]
  | _ => cases harity

theorem eval_cons_of_not_list (hw : ∀ ws, w ≠ .list ws) :
    cons.eval [("x", v), ("y", w)] = .error (.notAList w) := by
  have hx : operand [("x", v), ("y", w)] "x" = .ok v := rfl
  have hy : operand [("x", v), ("y", w)] "y" = .ok w := rfl
  unfold eval
  rw [hx, hy]
  simp only [bind, Except.bind, asList_of_not_list hw]

/-- What an operation computes is what it does with its operands. -/
theorem Computes.eq_eval (h : op.Computes vs r) : r = op.eval (["x", "y"].zip vs) := by
  cases h with
  | arithmetic hf hk =>
    obtain ⟨g, hg, heval⟩ := eval_of_integer? hf
    refine Eq.trans ?_ (heval _ _).symm
    rw [eq_of_toInt_modEq (hk.trans (hg _ _).symm)]
    rfl
  | notNumbers hf hnot =>
    obtain ⟨g, -, heval⟩ := eval_of_integer? hf
    exact ((heval _ _).trans (arithmetic_of_not_number g hnot)).symm
  | equalNumbers | equalBooleans => rfl
  | notComparable hn hb => exact (compare_of_mixed hn hb).symm
  | cons => rfl
  | consToNoList v hw => exact (eval_cons_of_not_list hw).symm
  | isEmpty vs => cases vs <;> rfl
  | head | tail | headOfEmpty | tailOfEmpty => rfl
  | noList harity hv => exact (eval_of_not_list harity hv).symm

/-- An operation makes one thing of its operands. -/
theorem Computes.unique (h : op.Computes vs r) (h' : op.Computes vs r') : r = r' :=
  h.eq_eval.trans h'.eq_eval.symm

theorem computes_arithmetic {f : Int → Int → Int} (hf : op.integer? = some f) (v w : Expr) :
    op.Computes [v, w] (op.eval [("x", v), ("y", w)]) := by
  obtain ⟨g, hg, heval⟩ := eval_of_integer? hf
  rw [heval]
  have hinvalid : (∀ n, v ≠ .number n) ∨ (∀ n, w ≠ .number n) →
      op.Computes [v, w] (arithmetic op g v w) := by
    intro h
    rw [arithmetic_of_not_number g h]
    exact .notNumbers hf h
  rcases em (∃ n, v = .number n) with ⟨m, rfl⟩ | hv
  · rcases em (∃ n, w = .number n) with ⟨n, rfl⟩ | hw
    · exact .arithmetic hf (hg m n)
    · exact hinvalid (.inr (not_exists.1 hw))
  · exact hinvalid (.inl (not_exists.1 hv))

theorem computes_compare : equals.Computes [v, w] (compare v w) := by
  have hinvalid : (∀ n, v ≠ .number n) ∨ (∀ n, w ≠ .number n) →
      (∀ b, v ≠ .boolean b) ∨ (∀ b, w ≠ .boolean b) → equals.Computes [v, w] (compare v w) := by
    intro hn hb
    rw [compare_of_mixed hn hb]
    exact .notComparable hn hb
  rcases em (∃ n, v = .number n) with ⟨m, rfl⟩ | hvn
  · rcases em (∃ n, w = .number n) with ⟨n, rfl⟩ | hwn
    · exact .equalNumbers m n
    · exact hinvalid (.inr (not_exists.1 hwn)) (.inl (by simp))
  · rcases em (∃ b, v = .boolean b) with ⟨a, rfl⟩ | hvb
    · rcases em (∃ b, w = .boolean b) with ⟨b, rfl⟩ | hwb
      · exact .equalBooleans a b
      · exact hinvalid (.inl (not_exists.1 hvn)) (.inr (not_exists.1 hwb))
    · exact hinvalid (.inl (not_exists.1 hvn)) (.inl (not_exists.1 hvb))

theorem computes_binary (harity : op.arity = 2) (v w : Expr) :
    op.Computes [v, w] (op.eval [("x", v), ("y", w)]) := by
  cases op with
  | add | subtract | multiply => exact computes_arithmetic rfl v w
  | equals => exact computes_compare
  | cons =>
    rcases em (∃ ws, w = .list ws) with ⟨ws, rfl⟩ | hw
    · exact .cons v ws
    · rw [eval_cons_of_not_list (not_exists.1 hw)]
      exact .consToNoList v (not_exists.1 hw)
  | isEmpty | head | tail => cases harity

theorem computes_unary (harity : op.arity = 1) (v : Expr) : op.Computes [v] (op.eval [("x", v)]) := by
  rcases em (∃ vs, v = .list vs) with ⟨vs, rfl⟩ | hv
  · cases op with
    | isEmpty => cases vs with
      | nil => exact .isEmpty []
      | cons v vs => exact .isEmpty (v :: vs)
    | head => cases vs with
      | nil => exact .headOfEmpty
      | cons v vs => exact .head v vs
    | tail => cases vs with
      | nil => exact .tailOfEmpty
      | cons v vs => exact .tail v vs
    | _ => cases harity
  · rw [eval_of_not_list harity (not_exists.1 hv)]
    exact .noList harity (not_exists.1 hv)

end Primitive

/-! ### Values that differ in the numbers of closures -/

section Renumbered

variable {v w u : Expr} {r : Except EvalError Expr}

theorem likeness_renumbered : Likeness Expr.Renumbered where
  number n := .same _
  boolean b := .same _
  list h := .list h
  number_or {v w} h := by cases h <;> (try cases v) <;> simp
  boolean_or {v w} h := by cases h <;> (try cases v) <;> simp
  list_or {v w} h := by
    cases h with
    | same => cases v <;> simp [List.forall₂_same, Expr.Renumbered.same]
    | list h => exact .inl ⟨_, _, rfl, rfl, h⟩
    | closure => simp

namespace Expr

theorem Renumbered.trans (h : v.Renumbered w) (h' : w.Renumbered u) : v.Renumbered u := by
  -- By recursion on the first relation, which is nested in those of lists and of what scopes bind.
  refine @Renumbered.rec (fun v w _ => ∀ u, w.Renumbered u → v.Renumbered u)
    (fun vs ws _ => ∀ us, List.Forall₂ Renumbered ws us → List.Forall₂ Renumbered vs us)
    (fun o o' _ => ∀ o'', Option.Rel Renumbered o' o'' → Option.Rel Renumbered o o'')
    (fun _ _ => id) ?list ?closure ?nil ?cons ?some ?none v w h u h'
  case list =>
    intro vs ws hvs ih u h'
    cases h' with
    | same => exact .list hvs
    | list hws => exact .list (ih _ hws)
  case closure =>
    intro id id' x body env env' self henv ih u h'
    cases h' with
    | same => exact .closure henv
    | closure henv' => exact .closure fun y => ih y _ (henv' y)
  case nil => exact fun _ => id
  case cons =>
    intro v w vs ws _ _ ihv ihvs us h'
    cases h' with
    | cons hw hws => exact .cons (ihv _ hw) (ihvs _ hws)
  case some =>
    intro v w _ ih o h'
    cases h' with
    | some hw => exact .some (ih _ hw)
  case none => exact fun _ => id

theorem renumbered_number_iff {n : Int64} : (number n).Renumbered w ↔ w = .number n := by
  constructor
  · intro h
    cases h
    rfl
  · rintro rfl
    exact .same _

theorem renumbered_boolean_iff {b : Bool} : (boolean b).Renumbered w ↔ w = .boolean b := by
  constructor
  · intro h
    cases h
    rfl
  · rintro rfl
    exact .same _

end Expr

theorem Eval.renumbered_ok_iff : Eval.Renumbered (.ok v) r ↔ Eval.Valued v.Renumbered r := by
  constructor
  · rintro ⟨h⟩
    exact ⟨_, rfl, h⟩
  · rintro ⟨w, rfl, h⟩
    exact .value h

end Renumbered

/-! ### The closures of the built-in names -/

section Builtins
open Eval

variable {d k id : Nat} {env : Env} {e e₁ e₂ : Expr} {v v₁ v₂ w : Expr} {op : Primitive} {c : Closure}
  {r : Except EvalError Expr}

/-- The name of the operation has the value that it starts with. -/
def Env.HasBuiltin (env : Env) (op : Primitive) : Prop :=
  ∃ id, env.get? op.name = (Env.builtins id).get? op.name

namespace Env.HasBuiltin

theorem get? (h : env.HasBuiltin op) : ∃ id, env.get? op.name = some (op.closure id).toExpr := by
  obtain ⟨id, h⟩ := h
  have hget : ∃ id', (Env.builtins id).get? op.name = some (op.closure id').toExpr := by
    cases op <;> exact ⟨_, rfl⟩
  obtain ⟨id', hget⟩ := hget
  exact ⟨id', h.trans hget⟩

theorem insert (h : env.HasBuiltin op) {x : String} (hx : x ≠ op.name) (v : Expr) :
    Env.HasBuiltin (env.insert x v) op := by
  obtain ⟨id, h⟩ := h
  exact ⟨id, by rw [Bindings.get?_insert, if_neg hx, h]⟩

end Env.HasBuiltin

/-- An operation of two operands is left to do, the first of which is known. -/
structure Closure.Holds (c : Closure) (op : Primitive) (v : Expr) : Prop where
  binder : c.binder = "y"
  body : c.body = .prim op
  self : c.self = none
  first : ∃ w, c.env.get? "x" = some w ∧ v.Renumbered w

theorem Closure.Holds.of_renumbered (hc : c.Holds op v) (hw : c.toExpr.Renumbered w) :
    ∃ c' : Closure, w = c'.toExpr ∧ c'.Holds op v := by
  obtain ⟨cid, binder, body, env, self⟩ := c
  obtain ⟨hbinder, hbody, hself, u, hu, hv⟩ := hc
  cases hw with
  | same => exact ⟨_, rfl, hbinder, hbody, hself, u, hu, hv⟩
  | @closure _ id' _ _ _ env' _ henv =>
    refine ⟨⟨id', binder, body, env', self⟩, rfl, hbinder, hbody, hself, ?_⟩
    have hx := henv "x"
    rw [show env.get? "x" = some u from hu] at hx
    generalize Bindings.get? env' "x" = o at hx ⊢
    obtain ⟨huw⟩ := hx
    exact ⟨_, rfl, hv.trans huw⟩

theorem Primitive.Computes.binary (h : op.Computes [v₁, v₂] r) (hx : env.get? "x" = some v)
    (hv : v₁.Renumbered v) (hy : env.get? "y" = some w) (hw : v₂.Renumbered w) :
    Eval.Renumbered r (op.eval env) := by
  obtain rfl : r = op.eval [("x", v₁), ("y", v₂)] := h.eq_eval
  refine eval_alike likeness_renumbered ⟨rfl, fun _ => rfl⟩ ?_ fun _ => ?_
  · rw [hx]
    exact .some hv
  · rw [hy]
    exact .some hw

theorem Primitive.Computes.unary (h : op.Computes [v₁] r) (harity : op.arity = 1)
    (hx : env.get? "x" = some v) (hv : v₁.Renumbered v) : Eval.Renumbered r (op.eval env) := by
  obtain rfl : r = op.eval [("x", v₁)] := h.eq_eval
  refine eval_alike likeness_renumbered ⟨rfl, fun _ => rfl⟩ ?_ fun harity' => ?_
  · rw [hx]
    exact .some hv
  · rw [harity] at harity'
    cases harity'

/-- The call with the first of two operands. -/
theorem nests_first (harity : op.arity = 2) (hv : v₁.Renumbered v) :
    Nests 1 (fun n => apply n (op.closure id) v) (IsClosure (·.Holds op v₁)) := by
  refine nests_apply ?_
  rw [Primitive.closure_body_binary harity]
  exact nests_lam fun id' => ⟨⟨id', "y", .prim op, (op.closure id).scope v, none⟩, rfl, rfl, rfl, rfl, v,
    Closure.get?_scope_binder (op.closure id) v, hv⟩

/-- The call with the second operand. -/
theorem nests_second (hc : c.Holds op v₁) (hw : v₂.Renumbered w) (hr : op.Computes [v₁, v₂] r) :
    Nests 1 (fun n => apply n c w) (Eval.Renumbered r) := by
  obtain ⟨v, hx, hv⟩ := hc.first
  have hx : (c.scope w).get? "x" = some v := by simp [Closure.get?_scope, hc.binder, hc.self, hx]
  have hy : (c.scope w).get? "y" = some w := by simp [Closure.get?_scope, hc.binder]
  refine nests_apply ?_
  rw [hc.body]
  exact nests_prim (hr.binary hx hv hy hw)

/-- The call with the only operand. -/
theorem nests_only (harity : op.arity = 1) (hv : v₁.Renumbered v) (hr : op.Computes [v₁] r) :
    Nests 1 (fun n => apply n (op.closure id) v) (Eval.Renumbered r) := by
  refine nests_apply ?_
  rw [Primitive.closure_body_unary harity]
  exact nests_prim (hr.unary harity (Closure.get?_scope_binder (op.closure id) v) hv)

/-- A built-in name applied to an expression: what is left is the call of its closure. -/
theorem nests_builtin {P : Except EvalError Expr → Prop} (hop : env.HasBuiltin op)
    (h : Nests d (fun n => eval n env e) (Eval.Renumbered (.ok v)))
    (hcall : ∀ id w, v.Renumbered w → Nests 1 (fun n => apply n (op.closure id) w) P) :
    Nests (max d 1) (fun n => eval n env (.app (.var op.name) e)) P := by
  obtain ⟨id, hget⟩ := hop.get?
  exact nests_call hget (h.imp fun _ => renumbered_ok_iff.1) (hcall id)

theorem nests_partial (hop : env.HasBuiltin op) (harity : op.arity = 2)
    (h₁ : Nests d (fun n => eval n env e₁) (Eval.Renumbered (.ok v₁))) :
    Nests (max d 1) (fun n => eval n env (.app (.var op.name) e₁)) (IsClosure (·.Holds op v₁)) :=
  nests_builtin hop h₁ fun _ _ => nests_first harity

theorem nests_unary (hop : env.HasBuiltin op) (harity : op.arity = 1)
    (h : Nests d (fun n => eval n env e) (Eval.Renumbered (.ok v))) (hr : op.Computes [v] r) :
    Nests (max d 1) (fun n => eval n env (.app (.var op.name) e)) (Eval.Renumbered r) :=
  nests_builtin hop h fun _ _ hw => nests_only harity hw hr

/-- A call whose function holds the first operand, wherever it comes from. -/
theorem nests_completed (h₁ : Nests d (fun n => eval n env e₁) (IsClosure (·.Holds op v₁)))
    (h₂ : Nests k (fun n => eval n env e₂) (Eval.Renumbered (.ok v₂))) (hr : op.Computes [v₁, v₂] r) :
    Nests (max d (max k 1)) (fun n => eval n env (.app e₁ e₂)) (Eval.Renumbered r) :=
  nests_app h₁ (h₂.imp fun _ => renumbered_ok_iff.1) fun _ _ hc hw => nests_second hc hw hr

theorem nests_binary (hop : env.HasBuiltin op) (harity : op.arity = 2)
    (h₁ : Nests d (fun n => eval n env e₁) (Eval.Renumbered (.ok v₁)))
    (h₂ : Nests k (fun n => eval n env e₂) (Eval.Renumbered (.ok v₂))) (hr : op.Computes [v₁, v₂] r) :
    Nests (max 1 (max d k)) (fun n => eval n env (.binary op.name e₁ e₂)) (Eval.Renumbered r) := by
  rw [show max 1 (max d k) = max (max d 1) (max k 1) by omega]
  exact nests_completed (nests_partial hop harity h₁) h₂ hr

end Builtins

/-! ### Evaluation of calls -/

section Calls
open Eval Interpreter

variable {d : Nat} {env : Env} {e : Expr} {op : Primitive} {operands : List Expr} {r : Except EvalError Expr}

/-- Without a limit evaluation comes to `r`, but for the numbers of closures, whatever those begin with. -/
def ComesTo (env : Env) (e : Expr) (r : Except EvalError Expr) : Prop :=
  ∀ id, ∃ r', Eval.Renumbered r r' ∧ Gives none id env e r'

/-- Evaluation comes to what the operation makes of the operands, and that is one thing. -/
def Primitive.Settles (op : Primitive) (operands : List Expr) (env : Env) (e : Expr) : Prop :=
  ∃ r, (∀ r', op.Computes operands r' ↔ r' = r) ∧ ComesTo env e r

theorem Eval.Nests.comesTo (h : Nests d (fun n => eval n env e) (Eval.Renumbered r)) : ComesTo env e r := by
  intro id
  obtain ⟨r', hr, hgives, -⟩ := h.gives id
  exact ⟨r', hr, hgives⟩

theorem Primitive.Computes.settles (hr : op.Computes operands r)
    (h : Nests d (fun n => LetPoly.eval n env e) (Eval.Renumbered r)) : op.Settles operands env e := by
  refine ⟨r, fun r' => ⟨fun hr' => hr'.unique hr, ?_⟩, h.comesTo⟩
  rintro rfl
  exact hr

/-- The built-in names compute their operations on the values of two expressions, whatever else the
environment binds: applied to both at once, to the only operand, and to the second one anywhere after the
first. What `cons` puts together `head` and `tail` take apart. -/
theorem builtins_compute (env : Env) (e₁ e₂ v₁ v₂ : Expr) (id₁ id₂ : Nat)
    (h₁ : Gives none id₁ env e₁ (.ok v₁)) (h₂ : Gives none id₂ env e₂ (.ok v₂)) :
    (∀ op, op.arity = 2 → env.HasBuiltin op →
      op.Settles [v₁, v₂] env (.binary op.name e₁ e₂)) ∧
    (∀ op, op.arity = 1 → env.HasBuiltin op → op.Settles [v₁] env (.app (.var op.name) e₁)) ∧
    (∀ vs, v₂ = .list vs → env.HasBuiltin .cons →
      (env.HasBuiltin .head → ComesTo env (.app (.var "head") (.binary "cons" e₁ e₂)) (.ok v₁)) ∧
      (env.HasBuiltin .tail → ComesTo env (.app (.var "tail") (.binary "cons" e₁ e₂)) (.ok v₂)) ∧
      (env.HasBuiltin .isEmpty →
        ComesTo env (.app (.var "isEmpty") (.binary "cons" e₁ e₂)) (.ok (.boolean false)))) ∧
    ∀ op, op.arity = 2 → env.HasBuiltin op → ∀ id, ∃ c : Closure,
      Gives none id env (.app (.var op.name) e₁) (.ok c.toExpr) ∧
      ∀ env' f e v id₃ id₄, Gives none id₃ env' f (.ok c.toExpr) → Gives none id₄ env' e (.ok v) →
        op.Settles [v₁, v] env' (.app f e) := by
  obtain ⟨d, h₁⟩ := exists_nests h₁
  obtain ⟨k, h₂⟩ := exists_nests h₂
  refine ⟨fun op harity hop => ?_, fun op harity hop => ?_, ?_, fun op harity hop id => ?_⟩
  · have hr := Primitive.computes_binary harity v₁ v₂
    exact hr.settles (nests_binary hop harity h₁ h₂ hr)
  · have hr := Primitive.computes_unary harity v₁
    exact hr.settles (nests_unary hop harity h₁ hr)
  · rintro vs rfl hcons
    have hlist := nests_binary hcons rfl h₁ h₂ (.cons v₁ vs)
    refine ⟨fun hhead => ?_, fun htail => ?_, fun hempty => ?_⟩
    · exact (nests_unary hhead rfl hlist (.head v₁ vs)).comesTo
    · exact (nests_unary htail rfl hlist (.tail v₁ vs)).comesTo
    · exact (nests_unary hempty rfl hlist (.isEmpty (v₁ :: vs))).comesTo
  · obtain ⟨_, ⟨c, rfl, hc⟩, hgives, -⟩ := (nests_partial hop harity h₁).gives id
    refine ⟨c, hgives, fun env' f e v id₃ id₄ hf he => ?_⟩
    obtain ⟨d', hf⟩ := exists_nests hf
    obtain ⟨k', he⟩ := exists_nests he
    have hf : Nests d' (fun n => eval n env' f) (IsClosure (·.Holds op v₁)) := by
      refine hf.imp fun _ hr => ?_
      obtain ⟨w, rfl, hw⟩ := renumbered_ok_iff.1 hr
      obtain ⟨c', rfl, hc'⟩ := hc.of_renumbered hw
      exact ⟨c', rfl, hc'⟩
    have hr := Primitive.computes_binary harity v₁ v
    exact hr.settles (nests_completed hf he hr)

/-- Where a program binds `x` and `y` itself, the difference of `y` and `x`, below the least number. -/
theorem builtins_compute_shadowed :
    let env : Env := (Env.initial.insert "x" (.number 1)).insert "y" (.number Int64.minValue)
    Gives none 0 env (.var "y") (.ok (.number Int64.minValue)) ∧
      Gives none 0 env (.var "x") (.ok (.number 1)) ∧ env.HasBuiltin .subtract ∧
      ComesTo env (.binary "subtract" (.var "y") (.var "x")) (.ok (.number Int64.maxValue)) := by
  intro env
  have hy : Gives none 0 env (.var "y") (.ok (.number Int64.minValue)) := ⟨0, _, rfl⟩
  have hx : Gives none 0 env (.var "x") (.ok (.number 1)) := ⟨0, _, rfl⟩
  have hsubtract : env.HasBuiltin .subtract := ⟨0, rfl⟩
  refine ⟨hy, hx, hsubtract, ?_⟩
  obtain ⟨r, hunique, hr⟩ := (builtins_compute env _ _ _ _ 0 0 hy hx).1 .subtract rfl hsubtract
  have hdifference : Primitive.subtract.Computes [.number Int64.minValue, .number 1]
      (.ok (.number Int64.maxValue)) := .arithmetic rfl (by decide)
  rw [(hunique _).1 hdifference]
  exact hr

end Calls

end LetPoly
