import Mathlib.Data.Nat.Factorial.Basic
import Mathlib.Data.Nat.Fib.Basic
import LetPoly.Proofs.Operations
import LetPoly.Samples

/-! Functions that call themselves. One call of the function is followed through its body, and all that it
nests by induction on the argument; the two ways to tie the knot, `let rec` and the fixed-point combinator,
differ in what a closure calls to come back to its body. -/

namespace LetPoly

/-! ### Numbers -/

namespace Eval

/-- The number `n`, as far as it goes into 64 bits. -/
def IsNumber (n : Nat) (r : Except EvalError Expr) : Prop := r = .ok (.number (.ofNat n))

theorem renumbered_ofNat_iff {n : Nat} {r : Except EvalError Expr} :
    Eval.Renumbered (.ok (.number (.ofNat n))) r ↔ IsNumber n r := by
  simp [renumbered_ok_iff, Valued, Expr.renumbered_number_iff, IsNumber]

end Eval

section Arithmetic
open Eval

variable {d k m n u : Nat} {env : Env} {e₁ e₂ : Expr}

theorem toInt_ofNat_modEq (n : Nat) : (Int64.ofNat n).toInt ≡ n [ZMOD 2 ^ 64] := by
  rw [Int64.toInt_ofNat']
  exact Int.bmod_emod ..

theorem ofNat_inj_of_lt (hm : m < 2 ^ 63) (hn : n < 2 ^ 63) : Int64.ofNat m = Int64.ofNat n ↔ m = n := by
  rw [← Int64.toInt_inj, Int64.toInt_ofNat_of_lt hm, Int64.toInt_ofNat_of_lt hn, Int.natCast_inj]

theorem computes_add (m n : Nat) :
    Primitive.add.Computes [.number (.ofNat m), .number (.ofNat n)] (.ok (.number (.ofNat (m + n)))) := by
  refine .arithmetic rfl ((toInt_ofNat_modEq _).trans ?_)
  rw [Nat.cast_add]
  exact (toInt_ofNat_modEq m).symm.add (toInt_ofNat_modEq n).symm

theorem computes_subtract (m n : Nat) :
    Primitive.subtract.Computes [.number (.ofNat (m + n)), .number (.ofNat n)] (.ok (.number (.ofNat m))) := by
  refine .arithmetic rfl ((toInt_ofNat_modEq _).trans ?_)
  have h : (m : Int) = ((m + n : Nat) : Int) - n := by omega
  rw [h]
  exact (toInt_ofNat_modEq _).symm.sub (toInt_ofNat_modEq n).symm

theorem computes_multiply (m n : Nat) :
    Primitive.multiply.Computes [.number (.ofNat m), .number (.ofNat n)] (.ok (.number (.ofNat (m * n)))) := by
  refine .arithmetic rfl ((toInt_ofNat_modEq _).trans ?_)
  rw [Nat.cast_mul]
  exact (toInt_ofNat_modEq m).symm.mul (toInt_ofNat_modEq n).symm

/-- The built-in names have the values that they start with. -/
def Env.HasBuiltins (env : Env) : Prop := ∀ op, env.HasBuiltin op

theorem Env.hasBuiltins_initial : Env.HasBuiltins .initial := fun _ => ⟨0, rfl⟩

theorem Env.HasBuiltins.insert (h : env.HasBuiltins) {x : String} (hx : Primitive.ofName? x = none) (v : Expr) :
    Env.HasBuiltins (env.insert x v) := by
  intro op
  refine (h op).insert ?_ v
  rintro rfl
  cases op <;> cases hx

theorem nests_arithmetic (op : Primitive) (henv : env.HasBuiltins) (harity : op.arity = 2)
    (h₁ : Nests d (fun fuel => eval fuel env e₁) (IsNumber m))
    (h₂ : Nests k (fun fuel => eval fuel env e₂) (IsNumber n))
    (hu : op.Computes [.number (.ofNat m), .number (.ofNat n)] (.ok (.number (.ofNat u)))) :
    Nests (max 1 (max d k)) (fun fuel => eval fuel env (.binary op.name e₁ e₂)) (IsNumber u) :=
  (nests_binary (henv op) harity (h₁.imp fun _ => renumbered_ofNat_iff.2)
    (h₂.imp fun _ => renumbered_ofNat_iff.2) hu).imp fun _ => renumbered_ofNat_iff.1

theorem nests_numeral (n : Nat) : Nests 0 (fun fuel => eval fuel env (.number (.ofNat n))) (IsNumber n) :=
  nests_number rfl

/-- A variable compared with a numeral. -/
theorem nests_test (henv : env.HasBuiltins) {x : String} (hx : env.get? x = some (.number (.ofNat n)))
    (hn : n < 2 ^ 63) (hm : m < 2 ^ 63) :
    Nests 1 (fun fuel => eval fuel env (.binary "equals" (.var x) (.number (.ofNat m))))
      (Valued (· = .boolean (decide (n = m)))) := by
  have h := nests_binary (henv .equals) rfl (nests_var hx (renumbered_ofNat_iff.2 rfl))
    (nests_number (renumbered_ofNat_iff.2 rfl)) (.equalNumbers (.ofNat n) (.ofNat m))
  refine h.imp fun r hr => ?_
  obtain ⟨v, rfl, hv⟩ := renumbered_ok_iff.1 hr
  rw [Expr.renumbered_boolean_iff] at hv
  exact ⟨v, rfl, by rw [hv, decide_eq_decide.2 (ofNat_inj_of_lt hn hm)]⟩

/-- A function applied to a variable less a numeral. -/
theorem nests_back (henv : env.HasBuiltins) {x f : String} {c : Closure} {P : Except EvalError Expr → Prop}
    (hx : env.get? x = some (.number (.ofNat (n + m)))) (hf : env.get? f = some c.toExpr)
    (hcall : Nests d (fun fuel => apply fuel c (.number (.ofNat n))) P) :
    Nests (max 1 d)
      (fun fuel => eval fuel env (.app (.var f) (.binary "subtract" (.var x) (.number (.ofNat m))))) P := by
  have h := nests_arithmetic .subtract henv rfl (nests_var hx rfl) (nests_number rfl)
    (computes_subtract n m)
  refine nests_call (V := (· = .number (.ofNat n))) hf (h.imp fun r hr => ⟨_, hr, rfl⟩) ?_
  rintro _ rfl
  exact hcall

end Arithmetic

/-! ### One call -/

section Bodies
open Eval

variable {d k n : Nat} {env : Env} {c : Closure} {f : String}

/-- The body of the factorial that is called `f`. -/
def factorialBody (f : String) : Expr :=
  .ite (.binary "equals" (.var "x") (.number 0)) (.number 1)
    (.binary "multiply" (.var "x") (.app (.var f) (.binary "subtract" (.var "x") (.number 1))))

theorem nests_factorialBody_zero (henv : env.HasBuiltins) (hx : env.get? "x" = some (.number (.ofNat 0))) :
    Nests 1 (fun fuel => eval fuel env (factorialBody f)) (IsNumber (Nat.factorial 0)) :=
  nests_ite (nests_test (m := 0) henv hx (by omega) (by omega)) (nests_numeral 1)

theorem nests_factorialBody_succ (henv : env.HasBuiltins) (hn : n + 1 < 2 ^ 63)
    (hx : env.get? "x" = some (.number (.ofNat (n + 1)))) (hf : env.get? f = some c.toExpr)
    (hcall : Nests d (fun fuel => apply fuel c (.number (.ofNat n))) (IsNumber n.factorial)) :
    Nests (max 1 d) (fun fuel => eval fuel env (factorialBody f)) (IsNumber (n + 1).factorial) := by
  have hproduct := nests_arithmetic .multiply henv rfl (nests_var hx rfl)
    (nests_back henv hx hf hcall) (computes_multiply (n + 1) n.factorial)
  rw [show max 1 d = max 1 (max 1 (max 0 (max 1 d))) by omega, Nat.factorial_succ]
  exact nests_ite (nests_test (m := 0) henv hx hn (by omega)) hproduct

/-- The body of the function of the Fibonacci numbers, which is called `fib`. -/
def fibonacciBody : Expr :=
  .ite (.binary "equals" (.var "n") (.number 0)) (.number 1)
    (.ite (.binary "equals" (.var "n") (.number 1)) (.number 1)
      (.binary "add" (.app (.var "fib") (.binary "subtract" (.var "n") (.number 1)))
        (.app (.var "fib") (.binary "subtract" (.var "n") (.number 2)))))

theorem nests_fibonacciBody_zero (henv : env.HasBuiltins) (hx : env.get? "n" = some (.number (.ofNat 0))) :
    Nests 1 (fun fuel => eval fuel env fibonacciBody) (IsNumber (Nat.fib 1)) :=
  nests_ite (nests_test (m := 0) henv hx (by omega) (by omega)) (nests_numeral 1)

theorem nests_fibonacciBody_one (henv : env.HasBuiltins) (hx : env.get? "n" = some (.number (.ofNat 1))) :
    Nests 1 (fun fuel => eval fuel env fibonacciBody) (IsNumber (Nat.fib 2)) :=
  nests_ite (k := 1) (nests_test (m := 0) henv hx (by omega) (by omega))
    (nests_ite (nests_test (m := 1) henv hx (by omega) (by omega)) (nests_numeral 1))

theorem nests_fibonacciBody_add_two (henv : env.HasBuiltins) (hn : n + 2 < 2 ^ 63)
    (hx : env.get? "n" = some (.number (.ofNat (n + 2)))) (hf : env.get? "fib" = some c.toExpr)
    (hcall₁ : Nests d (fun fuel => apply fuel c (.number (.ofNat (n + 1)))) (IsNumber (Nat.fib (n + 2))))
    (hcall₂ : Nests k (fun fuel => apply fuel c (.number (.ofNat n))) (IsNumber (Nat.fib (n + 1)))) :
    Nests (max 1 (max d k)) (fun fuel => eval fuel env fibonacciBody) (IsNumber (Nat.fib (n + 3))) := by
  have hsum := nests_arithmetic .add henv rfl (nests_back (n := n + 1) (m := 1) henv hx hf hcall₁)
    (nests_back (n := n) (m := 2) henv hx hf hcall₂) (computes_add _ _)
  rw [show max 1 (max d k) = max 1 (max 1 (max 1 (max (max 1 d) (max 1 k)))) by omega, Nat.fib_add_two, add_comm]
  exact nests_ite (nests_test (m := 0) henv hx hn (by omega))
    (nests_ite (nests_test (m := 1) henv hx hn (by omega)) hsum)

end Bodies

/-! ### Recursive bindings -/

theorem Closure.hasBuiltins_scope {c : Closure} (henv : Env.HasBuiltins c.env)
    (hbinder : Primitive.ofName? c.binder = none) (hself : ∀ f, c.self = some f → Primitive.ofName? f = none)
    (v : Expr) : Env.HasBuiltins (c.scope v) := by
  unfold scope
  cases hc : c.self with
  | none => exact henv.insert hbinder v
  | some f => exact (henv.insert (hself f hc) _).insert hbinder v

section LetRec
open Eval

variable {n : Nat}

/-- The factorial among the built-in names, where it calls itself. -/
def recursiveFactorial (id : Nat) : Closure := ⟨id, "x", factorialBody "fak", Env.initial, some "fak"⟩

theorem nests_recursiveFactorial (id : Nat) (hn : n < 2 ^ 63) :
    Nests (n + 2) (fun fuel => apply fuel (recursiveFactorial id) (.number (.ofNat n)))
      (IsNumber n.factorial) := by
  have henv := Closure.hasBuiltins_scope (c := recursiveFactorial id) Env.hasBuiltins_initial rfl
    (by rintro _ ⟨⟩; rfl)
  induction n with
  | zero => exact nests_apply (nests_factorialBody_zero (henv _) (Closure.get?_scope_binder _ _))
  | succ n ih =>
    have hbody := nests_factorialBody_succ (henv _) hn (Closure.get?_scope_binder _ _)
      (Closure.get?_scope (recursiveFactorial id) _ "fak") (ih (by omega))
    exact nests_apply ((by omega : max 1 (n + 2) = n + 2) ▸ hbody)

/-- The function of the Fibonacci numbers among the built-in names, where it calls itself. -/
def recursiveFibonacci (id : Nat) : Closure := ⟨id, "n", fibonacciBody, Env.initial, some "fib"⟩

theorem nests_recursiveFibonacci (id : Nat) (hn : n < 2 ^ 63) :
    Nests (max 2 (n + 1)) (fun fuel => apply fuel (recursiveFibonacci id) (.number (.ofNat n)))
      (IsNumber (Nat.fib (n + 1))) := by
  have henv := Closure.hasBuiltins_scope (c := recursiveFibonacci id) Env.hasBuiltins_initial rfl
    (by rintro _ ⟨⟩; rfl)
  induction n using Nat.twoStepInduction with
  | zero => exact nests_apply (nests_fibonacciBody_zero (henv _) (Closure.get?_scope_binder _ _))
  | one => exact nests_apply (nests_fibonacciBody_one (henv _) (Closure.get?_scope_binder _ _))
  | more n ih ih' =>
    have hbody := nests_fibonacciBody_add_two (henv _) hn (Closure.get?_scope_binder _ _)
      (Closure.get?_scope (recursiveFibonacci id) _ "fib") (ih' (by omega)) (ih (by omega))
    rw [show max 2 (n + 2 + 1) = max 1 (max (max 2 (n + 2)) (max 2 (n + 1))) + 1 by omega]
    exact nests_apply hbody

end LetRec

/-! ### The fixed-point combinator -/

section FixedPoint
open Eval

variable {k l n id : Nat} {env : Env} {g w : Closure} {e v : Expr} {P : Except EvalError Expr → Prop}
  {C : Closure → Prop}

/-- The body of the function that the combinator applies to itself, with `x` for that function. -/
def halfBody : Expr := .app (.var "f") (.lam "v" (.app₂ (.var "x") (.var "x") (.var "v")))

/-- What the combinator does with the function `f`. -/
def fixedPointBody : Expr := .app (.lam "x" halfBody) (.lam "x" halfBody)

/-- The function that is applied to itself for the fixed point of `g`. -/
def Closure.half (env : Env) (g : Closure) (id : Nat) : Closure :=
  ⟨id, "x", halfBody, env.insert "f" g.toExpr, none⟩

/-- What `g` gets for its own fixed point: a function that applies the half to itself once more. -/
def Closure.Unrolls (env : Env) (g w : Closure) : Prop :=
  ∃ id id' id'', w = ⟨id, "v", .app₂ (.var "x") (.var "x") (.var "v"),
    (half env g id').scope (half env g id'').toExpr, none⟩

theorem nests_half (hg : ∀ w, Closure.Unrolls env g w → Nests l (fun fuel => apply fuel g w.toExpr) P)
    (id id' : Nat) :
    Nests (l + 1) (fun fuel => apply fuel (.half env g id) (Closure.half env g id').toExpr) P := by
  have hf : ((Closure.half env g id).scope (Closure.half env g id').toExpr).get? "f" = some g.toExpr := by
    simp [Closure.get?_scope, Closure.half, Bindings.get?_insert]
  refine nests_apply ?_
  rw [show l = max 0 l by omega]
  refine nests_call (V := fun v => ∃ w : Closure, v = w.toExpr ∧ Closure.Unrolls env g w) hf
    (nests_lam fun id₀ => ⟨_, rfl, ⟨id₀, _, _, _, none⟩, rfl, id₀, id, id', rfl⟩) ?_
  rintro _ ⟨w, rfl, hw⟩
  exact hg w hw

theorem nests_unrolled
    (hg : ∀ w, Closure.Unrolls env g w → Nests l (fun fuel => apply fuel g w.toExpr) (IsClosure C))
    (hC : ∀ c, C c → Nests k (fun fuel => apply fuel c v) P) (hw : Closure.Unrolls env g w) :
    Nests (max (l + 1) k + 1) (fun fuel => apply fuel w v) P := by
  obtain ⟨id, id', id'', rfl⟩ := hw
  refine nests_apply ?_
  -- The body is `x x v`: the half applied to itself comes to a function, which is then called.
  generalize hscope : Closure.scope _ v = env'
  have hx : env'.get? "x" = some (Closure.half env g id'').toExpr := by
    rw [← hscope, Closure.get?_scope]
    exact Closure.get?_scope_binder (.half env g id') _
  have hv : env'.get? "v" = some v := by
    rw [← hscope]
    exact Closure.get?_scope_binder _ v
  have hself : Nests (l + 1) (fun fuel => eval fuel env' (.app (.var "x") (.var "x"))) (IsClosure C) := by
    rw [show l + 1 = max 0 (l + 1) by omega]
    refine nests_call (V := (· = (Closure.half env g id'').toExpr)) hx (nests_var hx ⟨_, rfl, rfl⟩) ?_
    rintro _ rfl
    exact nests_half hg id'' id''
  rw [show max (l + 1) k = max (l + 1) (max 0 k) by omega]
  refine nests_app (V := (· = v)) hself (nests_var hv ⟨_, rfl, rfl⟩) ?_
  rintro c _ hc rfl
  exact hC c hc

theorem nests_fixedPoint
    (he : Nests 0 (fun fuel => eval fuel env e) (Valued fun v => ∃ g : Closure, v = g.toExpr ∧ C g))
    (hg : ∀ g w, C g → Closure.Unrolls env g w → Nests l (fun fuel => apply fuel g w.toExpr) P) :
    Nests (l + 2) (fun fuel => eval fuel env (.app (.lam "f" fixedPointBody) e)) P := by
  rw [show l + 2 = max 0 (max 0 (l + 1 + 1)) by omega]
  refine nests_app (C := fun z => ∃ id, z = ⟨id, "f", fixedPointBody, env, none⟩)
    (nests_lam fun id => ⟨⟨id, _, _, _, none⟩, rfl, id, rfl⟩) he ?_
  rintro _ _ ⟨id, rfl⟩ ⟨g, rfl, hC⟩
  refine nests_apply ?_
  rw [show l + 1 = max 0 (max 0 (l + 1)) by omega]
  refine nests_app (C := fun h => ∃ id, h = .half env g id)
    (V := fun v => ∃ id, v = (Closure.half env g id).toExpr)
    (nests_lam fun id => ⟨.half env g id, rfl, id, rfl⟩) (nests_lam fun id => ⟨_, rfl, id, rfl⟩) ?_
  rintro _ _ ⟨id, rfl⟩ ⟨id', rfl⟩
  exact nests_half (fun w => hg g w hC) id id'

/-- The function of which the factorial is the fixed point. -/
def generator (id : Nat) : Closure := ⟨id, "fac", .lam "x" (factorialBody "fac"), Env.initial, none⟩

/-- The factorial that calls what is `fac` in its environment. -/
def iterate (id : Nat) (env : Env) : Closure := ⟨id, "x", factorialBody "fac", env, none⟩

/-- The factorial that calls an unrolled fixed point. -/
def Closure.IsIterate (c : Closure) : Prop :=
  ∃ id id' w, Closure.Unrolls .initial (generator id') w ∧ c = iterate id ((generator id').scope w.toExpr)

theorem nests_generator (hw : Closure.Unrolls .initial (generator id) w) :
    Nests 1 (fun fuel => apply fuel (generator id) w.toExpr) (IsClosure Closure.IsIterate) :=
  nests_apply (nests_lam fun id' => ⟨iterate id' _, rfl, id', id, w, hw, rfl⟩)

theorem hasBuiltins_iterate (id id' : Nat) (u v : Expr) :
    Env.HasBuiltins ((iterate id ((generator id').scope u)).scope v) := by
  have hgenerator := Closure.hasBuiltins_scope (c := generator id') Env.hasBuiltins_initial rfl nofun u
  exact Closure.hasBuiltins_scope (c := iterate id _) hgenerator rfl nofun v

theorem nests_iterate (hn : n < 2 ^ 63) (c : Closure) (hc : c.IsIterate) :
    Nests (2 * n + 2) (fun fuel => apply fuel c (.number (.ofNat n))) (IsNumber n.factorial) := by
  induction n generalizing c with
  | zero =>
    obtain ⟨id, id', w, hw, rfl⟩ := hc
    have henv := hasBuiltins_iterate id id' w.toExpr (.number (.ofNat 0))
    exact nests_apply (nests_factorialBody_zero henv (Closure.get?_scope_binder _ _))
  | succ n ih =>
    obtain ⟨id, id', w, hw, rfl⟩ := hc
    have henv := hasBuiltins_iterate id id' w.toExpr (.number (.ofNat (n + 1)))
    have hcall := nests_unrolled (fun w hw => nests_generator hw) (ih (by omega)) hw
    have hfac : ((iterate id ((generator id').scope w.toExpr)).scope
        (.number (.ofNat (n + 1)))).get? "fac" = some w.toExpr := by
      rw [Closure.get?_scope]
      exact Closure.get?_scope_binder (generator id') w.toExpr
    have hbody := nests_factorialBody_succ henv hn (Closure.get?_scope_binder _ _) hfac hcall
    -- Each number costs two calls, of the iterate and of the unrolled function in it.
    exact nests_apply ((by omega : max 1 (max (1 + 1) (2 * n + 2) + 1) = 2 * (n + 1) + 1) ▸ hbody)

end FixedPoint

/-! ### The samples -/

section Programs
open Eval Interpreter

variable {n : Nat}

theorem nests_factorial (hn : n < 2 ^ 63) :
    Nests (n + 2) (fun fuel => eval fuel .initial (Samples.factorial (.ofNat n))) (IsNumber n.factorial) := by
  refine nests_letRec fun id => ?_
  rw [show n + 2 = max 0 (n + 2) by omega]
  refine nests_call (V := (· = .number (.ofNat n))) (c := recursiveFactorial id) (Bindings.get?_insert ..)
    (nests_number ⟨_, rfl, rfl⟩) ?_
  rintro _ rfl
  exact nests_recursiveFactorial id hn

theorem nests_fibonacci (hn : n < 2 ^ 63) :
    Nests (max 2 (n + 1)) (fun fuel => eval fuel .initial (Samples.fibonacci (.ofNat n)))
      (IsNumber (Nat.fib (n + 1))) := by
  refine nests_letRec fun id => ?_
  rw [show max 2 (n + 1) = max 0 (max 2 (n + 1)) by omega]
  refine nests_call (V := (· = .number (.ofNat n))) (c := recursiveFibonacci id) (Bindings.get?_insert ..)
    (nests_number ⟨_, rfl, rfl⟩) ?_
  rintro _ rfl
  exact nests_recursiveFibonacci id hn

theorem nests_zFactorial (hn : n < 2 ^ 63) :
    Nests (max 3 (2 * n + 2)) (fun fuel => eval fuel .initial (Samples.zFactorial (.ofNat n)))
      (IsNumber n.factorial) := by
  let e : Expr := .lam "fac" (.lam "x" (factorialBody "fac"))
  have hfix : Nests 3 (fun fuel => eval fuel .initial (.app (.lam "f" fixedPointBody) e))
      (IsClosure Closure.IsIterate) := by
    refine nests_fixedPoint (C := fun g => ∃ id, g = generator id)
      (nests_lam fun id => ⟨_, rfl, generator id, rfl, id, rfl⟩) ?_
    rintro _ w ⟨id, rfl⟩ hw
    exact nests_generator hw
  rw [show max 3 (2 * n + 2) = max 3 (max 0 (2 * n + 2)) by omega]
  refine nests_app (V := (· = .number (.ofNat n))) hfix (nests_number ⟨_, rfl, rfl⟩) ?_
  rintro c _ hc rfl
  exact nests_iterate hn c hc

/-- The sample programs that call themselves compute the factorial, and the Fibonacci numbers after the two
ones that they begin with, as far as those go into 64 bits, on every number that is not negative. The factorial
nests its calls two deeper than its number. -/
theorem samples_compute (n id : Nat) (hn : n < 2 ^ 63) :
    Gives none id .initial (Samples.factorial (.ofNat n)) (.ok (.number (.ofNat n.factorial))) ∧
      Gives none id .initial (Samples.zFactorial (.ofNat n)) (.ok (.number (.ofNat n.factorial))) ∧
      Gives none id .initial (Samples.fibonacci (.ofNat n)) (.ok (.number (.ofNat (Nat.fib (n + 1))))) ∧
      (∀ limit ≥ n + 2, Gives (some limit) id .initial (Samples.factorial (.ofNat n))
        (.ok (.number (.ofNat n.factorial)))) ∧
      ∀ limit < n + 2, Gives (some limit) id .initial (Samples.factorial (.ofNat n))
        (.error (.recursionLimit limit)) := by
  obtain ⟨_, rfl, hfactorial, hlimit⟩ := (nests_factorial hn).gives id
  obtain ⟨_, rfl, hzFactorial, -⟩ := (nests_zFactorial hn).gives id
  obtain ⟨_, rfl, hfibonacci, -⟩ := (nests_fibonacci hn).gives id
  exact ⟨hfactorial, hzFactorial, hfibonacci, hlimit⟩

/-- The factorial of 21 is beyond 64 bits. -/
theorem samples_compute_overflow :
    (21 : Nat) < 2 ^ 63 ∧
      Gives none 0 .initial (Samples.factorial 21) (.ok (.number (-4249290049419214848))) ∧
      Gives (some 22) 0 .initial (Samples.factorial 21) (.error (.recursionLimit 22)) := by
  have hfactorial : Int64.ofNat (Nat.factorial 21) = -4249290049419214848 := by decide
  obtain ⟨h, -, -, -, hlimit⟩ := samples_compute 21 0 (by decide)
  rw [hfactorial] at h
  exact ⟨by decide, h, hlimit 22 (by decide)⟩

end Programs

end LetPoly
