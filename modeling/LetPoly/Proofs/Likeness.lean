import LetPoly.Proofs.Readback
import LetPoly.Proofs.Running

/-! Two evaluations side by side. Whatever the values are that count as alike, if numbers, booleans and
lists are told apart (`Likeness`), the operations give values that are alike on operands that are, or
fail in the same way (`Primitive.eval_alike`); and two runs that keep step both come to outcomes, which
are alike, or neither does (`Eval.Meet`). -/

namespace LetPoly

/-- Relations that hold of numbers and booleans with themselves only, and of lists item by item. -/
structure Likeness (V : Expr → Expr → Prop) : Prop where
  number (n : Int64) : V (.number n) (.number n)
  boolean (b : Bool) : V (.boolean b) (.boolean b)
  list {vs ws : List Expr} : List.Forall₂ V vs ws → V (.list vs) (.list ws)
  number_or {v w : Expr} : V v w →
    (∃ n, v = .number n ∧ w = .number n) ∨ (∀ n, v ≠ .number n) ∧ ∀ n, w ≠ .number n
  boolean_or {v w : Expr} : V v w →
    (∃ b, v = .boolean b ∧ w = .boolean b) ∨ (∀ b, v ≠ .boolean b) ∧ ∀ b, w ≠ .boolean b
  list_or {v w : Expr} : V v w →
    (∃ vs ws, v = .list vs ∧ w = .list ws ∧ List.Forall₂ V vs ws) ∨
      (∀ vs, v ≠ .list vs) ∧ ∀ ws, w ≠ .list ws

/-- Errors of one kind, about names related by `N` or values related by `V`. That of the limit is not
among them: it is no error of the program. -/
inductive EvalError.Alike (N : String → String → Prop) (V : Expr → Expr → Prop) :
    EvalError → EvalError → Prop
  | unboundVariable {x y : String} : N x y → Alike N V (.unboundVariable x) (.unboundVariable y)
  | notAFunction {v w : Expr} : V v w → Alike N V (.notAFunction v) (.notAFunction w)
  | notABoolean {v w : Expr} : V v w → Alike N V (.notABoolean v) (.notABoolean w)
  | notAList {v w : Expr} : V v w → Alike N V (.notAList v) (.notAList w)
  | emptyListAccess (op : Primitive) : Alike N V (.emptyListAccess op) (.emptyListAccess op)
  | invalidOperands (op : Primitive) {vs ws : List Expr} : List.Forall₂ V vs ws →
      Alike N V (.invalidOperands op vs) (.invalidOperands op ws)

namespace Eval

/-- Outcomes with values related by `P`, or with errors related by `E`. -/
inductive Alike {α β : Type} (P : α → β → Prop) (E : EvalError → EvalError → Prop) :
    Except EvalError α → Except EvalError β → Prop
  | value {a : α} {b : β} : P a b → Alike P E (.ok a) (.ok b)
  | error {e e' : EvalError} : E e e' → Alike P E (.error e) (.error e')

end Eval

/-! ### Operations -/

namespace Primitive
open Eval

variable {N : String → String → Prop} {V : Expr → Expr → Prop} {v v' w w' : Expr} {env env' : Env}
  {x : String} {op : Primitive}

theorem alike_operand (hname : N x x) (hx : Option.Rel V (env.get? x) (env'.get? x))
    {f f' : Expr → Except EvalError Expr}
    (hf : ∀ v v', V v v' → Alike V (EvalError.Alike N V) (f v) (f' v')) :
    Alike V (EvalError.Alike N V) (operand env x >>= f) (operand env' x >>= f') := by
  unfold operand
  generalize env.get? x = o, env'.get? x = o' at hx
  cases hx with
  | none => exact .error (.unboundVariable hname)
  | some hv => exact hf _ _ hv

theorem alike_arithmetic (hV : Likeness V) (op : Primitive) (f : Int64 → Int64 → Int64)
    (hv : V v v') (hw : V w w') :
    Alike V (EvalError.Alike N V) (arithmetic op f v w) (arithmetic op f v' w') := by
  have hinvalid : (∀ n, v ≠ .number n) ∨ (∀ n, w ≠ .number n) →
      (∀ n, v' ≠ .number n) ∨ (∀ n, w' ≠ .number n) →
      Alike V (EvalError.Alike N V) (arithmetic op f v w) (arithmetic op f v' w') := by
    intro h h'
    rw [arithmetic_of_not_number f h, arithmetic_of_not_number f h']
    exact .error (.invalidOperands op (.cons hv (.cons hw .nil)))
  rcases hV.number_or hv with ⟨m, rfl, rfl⟩ | ⟨hv, hv'⟩
  · rcases hV.number_or hw with ⟨n, rfl, rfl⟩ | ⟨hw, hw'⟩
    · exact .value (hV.number _)
    · exact hinvalid (.inr hw) (.inr hw')
  · exact hinvalid (.inl hv) (.inl hv')

theorem alike_compare (hV : Likeness V) (hv : V v v') (hw : V w w') :
    Alike V (EvalError.Alike N V) (compare v w) (compare v' w') := by
  have hinvalid : (∀ n, v ≠ .number n) ∨ (∀ n, w ≠ .number n) →
      (∀ b, v ≠ .boolean b) ∨ (∀ b, w ≠ .boolean b) →
      (∀ n, v' ≠ .number n) ∨ (∀ n, w' ≠ .number n) →
      (∀ b, v' ≠ .boolean b) ∨ (∀ b, w' ≠ .boolean b) →
      Alike V (EvalError.Alike N V) (compare v w) (compare v' w') := by
    intro h₁ h₂ h₃ h₄
    rw [compare_of_mixed h₁ h₂, compare_of_mixed h₃ h₄]
    exact .error (.invalidOperands equals (.cons hv (.cons hw .nil)))
  rcases hV.number_or hv with ⟨m, rfl, rfl⟩ | ⟨hvn, hvn'⟩
  · rcases hV.number_or hw with ⟨n, rfl, rfl⟩ | ⟨hwn, hwn'⟩
    · exact .value (hV.boolean _)
    · exact hinvalid (.inr hwn) (.inl (by simp)) (.inr hwn') (.inl (by simp))
  · rcases hV.boolean_or hv with ⟨a, rfl, rfl⟩ | ⟨hvb, hvb'⟩
    · rcases hV.boolean_or hw with ⟨b, rfl, rfl⟩ | ⟨hwb, hwb'⟩
      · exact .value (hV.boolean _)
      · exact hinvalid (.inl hvn) (.inr hwb) (.inl hvn') (.inr hwb')
    · exact hinvalid (.inl hvn) (.inl hvb) (.inl hvn') (.inl hvb')

theorem alike_asList (hV : Likeness V) (hv : V v v') {f f' : List Expr → Except EvalError Expr}
    (hf : ∀ vs vs', List.Forall₂ V vs vs' → Alike V (EvalError.Alike N V) (f vs) (f' vs')) :
    Alike V (EvalError.Alike N V) (asList v >>= f) (asList v' >>= f') := by
  rcases hV.list_or hv with ⟨vs, vs', rfl, rfl, hvs⟩ | ⟨hnot, hnot'⟩
  · exact hf vs vs' hvs
  · rw [asList_of_not_list hnot, asList_of_not_list hnot']
    exact .error (.notAList hv)

/-- An operation finds its operands under the names `x` and `y`, and does the same with operands that
are alike. -/
theorem eval_alike (hV : Likeness V) (hnames : N "x" "x" ∧ (op.arity = 2 → N "y" "y"))
    (hx : Option.Rel V (env.get? "x") (env'.get? "x"))
    (hy : op.arity = 2 → Option.Rel V (env.get? "y") (env'.get? "y")) :
    Alike V (EvalError.Alike N V) (op.eval env) (op.eval env') := by
  unfold eval
  refine alike_operand hnames.1 hx fun v v' hv => ?_
  cases op with
  | add | subtract | multiply =>
    exact alike_operand (hnames.2 rfl) (hy rfl) fun w w' hw => alike_arithmetic hV _ _ hv hw
  | equals => exact alike_operand (hnames.2 rfl) (hy rfl) fun w w' hw => alike_compare hV hv hw
  | cons =>
    refine alike_operand (hnames.2 rfl) (hy rfl) fun w w' hw => alike_asList hV hw fun vs vs' hvs => ?_
    exact .value (hV.list (.cons hv hvs))
  | isEmpty =>
    refine alike_asList hV hv fun vs vs' hvs => ?_
    cases hvs with
    | nil => exact .value (hV.boolean true)
    | cons => exact .value (hV.boolean false)
  | head =>
    refine alike_asList hV hv fun vs vs' hvs => ?_
    cases hvs with
    | nil => exact .error (.emptyListAccess _)
    | cons hu _ => exact .value hu
  | tail =>
    refine alike_asList hV hv fun vs vs' hvs => ?_
    cases hvs with
    | nil => exact .error (.emptyListAccess _)
    | cons _ hus => exact .value (hV.list hus)

end Primitive

/-! ### Runs -/

namespace Eval

/-- Both runs finish, with outcomes that are alike, or neither does. -/
inductive Meet {α β : Type} (P : α → β → Prop) (E : EvalError → EvalError → Prop) :
    Option (Except EvalError α × Interpreter) → Option (Except EvalError β × Interpreter) → Prop
  | unfinished : Meet P E none none
  | finished {r : Except EvalError α} {r' : Except EvalError β} {j j' : Interpreter} :
      Alike P E r r' → Meet P E (some (r, j)) (some (r', j'))

variable {α β γ δ : Type} {P : α → β → Prop} {Q : γ → δ → Prop} {E : EvalError → EvalError → Prop}
  {m : Eval α} {m' : Eval β} {f : α → Eval γ} {f' : β → Eval δ} {i i' : Interpreter}

theorem Meet.bind (hm : Meet P E (m i) (m' i'))
    (hf : ∀ a b j j', m i = some (.ok a, j) → m' i' = some (.ok b, j') → P a b →
      Meet Q E (f a j) (f' b j')) : Meet Q E ((m >>= f) i) ((m' >>= f') i') := by
  rw [run_bind, run_bind]
  generalize hr : m i = r, hr' : m' i' = r' at hm hf
  cases hm with
  | unfinished => exact .unfinished
  | finished h => cases h with
    | value hab => exact hf _ _ _ _ rfl rfl hab
    | error he => exact .finished (.error he)

theorem meet_pure {a : α} {b : β} (h : P a b) : Meet P E ((pure a : Eval α) i) ((pure b : Eval β) i') :=
  .finished (.value h)

theorem meet_throw {e e' : EvalError} (h : E e e') :
    Meet P E ((throw e : Eval α) i) ((throw e' : Eval β) i') :=
  .finished (.error h)

theorem meet_ofExcept {r : Except EvalError α} {r' : Except EvalError β} (h : Alike P E r r') :
    Meet P E (ofExcept r i) (ofExcept r' i') := by
  cases h with
  | value h => exact meet_pure h
  | error h => exact meet_throw h

theorem Meet.imp {P' : α → β → Prop} {E' : EvalError → EvalError → Prop}
    {o : Option (Except EvalError α × Interpreter)} {o' : Option (Except EvalError β × Interpreter)}
    (h : Meet P E o o') (hP : ∀ a b, P a b → P' a b) (hE : ∀ e e', E e e' → E' e e') :
    Meet P' E' o o' := by
  cases h with
  | unfinished => exact .unfinished
  | finished h => cases h with
    | value h => exact .finished (.value (hP _ _ h))
    | error h => exact .finished (.error (hE _ _ h))

/-- Of two runs that keep step both come to the same number, or neither does to that number. -/
theorem Meet.number_iff {V : Expr → Expr → Prop} {o o' : Option (Except EvalError Expr × Interpreter)}
    (h : Meet V E o o') (hV : Likeness V) (n : Int64) :
    (∃ j, o = some (.ok (.number n), j)) ↔ ∃ j, o' = some (.ok (.number n), j) := by
  cases h with
  | unfinished => simp
  | @finished r r' j j' h => cases h with
    | error => simp
    | value hv =>
      rcases hV.number_or hv with ⟨m, rfl, rfl⟩ | ⟨hnot, hnot'⟩
      · simp
      · simp [hnot, hnot']

end Eval

end LetPoly
