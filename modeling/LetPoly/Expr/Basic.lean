import LetPoly.Bindings

/-! Expressions, which the values of evaluation are a part of: literals, lists of values and closures.
Closures carry a number that tells one from another. -/

namespace LetPoly

/-- The built-in operations. They read their operands from the names `x` and `y`. -/
inductive Primitive where
  | add | subtract | multiply | equals | cons | isEmpty | head | tail
deriving DecidableEq, Repr, Inhabited

namespace Primitive

def all : List Primitive := [add, subtract, multiply, equals, cons, isEmpty, head, tail]

def name : Primitive → String
  | add => "add"
  | subtract => "subtract"
  | multiply => "multiply"
  | equals => "equals"
  | cons => "cons"
  | isEmpty => "isEmpty"
  | head => "head"
  | tail => "tail"

def arity : Primitive → Nat
  | add | subtract | multiply | equals | cons => 2
  | isEmpty | head | tail => 1

def ofName? (name : String) : Option Primitive := all.find? fun p => p.name = name

def render (p : Primitive) : String := "#" ++ p.name

end Primitive

inductive Expr where
  | number (value : Int64)
  | boolean (value : Bool)
  | var (name : String)
  | lam (binder : String) (body : Expr)
  | app (func argument : Expr)
  | ite (condition thenBranch elseBranch : Expr)
  | letIn (recursive : Bool) (binder : String) (bound body : Expr)
  | list (items : List Expr)
  | prim (op : Primitive)
  | closure (id : Nat) (binder : String) (body : Expr) (env : List (String × Expr))
      (self : Option String)
deriving Inhabited

/-- A function value: a lambda with the environment it was made in, and the name by which a recursive
`let` lets it call itself. -/
structure Closure where
  id : Nat
  binder : String
  body : Expr
  env : Scope Expr
  self : Option String

def Closure.toExpr (c : Closure) : Expr := .closure c.id c.binder c.body c.env c.self

namespace Expr

def closure? : Expr → Option Closure
  | closure id binder body env self => some ⟨id, binder, body, env, self⟩
  | _ => none

/-- The curried application to two arguments. -/
def app₂ (func first second : Expr) : Expr := .app (.app func first) second

/-- The application of a named operation to two arguments. -/
def binary (op : String) (left right : Expr) : Expr := app₂ (.var op) left right

mutual

def isValue : Expr → Bool
  | number _ | boolean _ | closure .. => true
  | list items => allValues items
  | _ => false

def allValues : List Expr → Bool
  | [] => true
  | e :: es => e.isValue && allValues es

end

mutual

/-- Equality of expressions: closures are equal if they are the same one. -/
def same : Expr → Expr → Bool
  | number m, number n => m == n
  | boolean a, boolean b => a == b
  | var x, var y => x == y
  | lam x b, lam y c => x == y && b.same c
  | app f a, app g b => f.same g && a.same b
  | ite c t e, ite c' t' e' => c.same c' && t.same t' && e.same e'
  | letIn r x a b, letIn r' x' a' b' => r == r' && x == x' && a.same a' && b.same b'
  | list xs, list ys => sameAll xs ys
  | prim p, prim q => p == q
  | closure i .., closure j .. => i == j
  | _, _ => false

def sameAll : List Expr → List Expr → Bool
  | [], [] => true
  | x :: xs, y :: ys => x.same y && sameAll xs ys
  | _, _ => false

end

end Expr
end LetPoly
