import LetPoly.Expr.Basic

/-! The programs that come with the language, with their text in surface syntax. -/

namespace LetPoly

structure Sample where
  name : String
  source : String
  program : Expr

namespace Samples

open LetPoly.Expr (app₂ binary)

def constant : Expr := .letIn false "x" (.number 42) (.boolean true)

def factorial (n : Int64) : Expr :=
  .letIn true "fak"
    (.lam "x"
      (.ite (binary "equals" (.var "x") (.number 0)) (.number 1)
        (binary "multiply" (.var "x")
          (.app (.var "fak") (binary "subtract" (.var "x") (.number 1))))))
    (.app (.var "fak") (.number n))

def fibonacci (n : Int64) : Expr :=
  let back (k : Int64) := Expr.app (.var "fib") (binary "subtract" (.var "n") (.number k))
  .letIn true "fib"
    (.lam "n"
      (.ite (binary "equals" (.var "n") (.number 0)) (.number 1)
        (.ite (binary "equals" (.var "n") (.number 1)) (.number 1)
          (binary "add" (back 1) (back 2)))))
    (.app (.var "fib") (.number n))

def identity : Expr :=
  .letIn false "identity" (.lam "x" (.var "x")) (.app (.var "identity") (.var "identity"))

def polymorphic : Expr :=
  .letIn false "identity" (.lam "x" (.var "x"))
    (.letIn false "a" (.app (.var "identity") (.number 10))
      (.letIn false "b" (.app (.var "identity") (.boolean true))
        (.ite (.var "b") (.var "a") (.number 0))))

def listHead : Expr :=
  .letIn false "empty" (.var "nil")
    (.letIn false "listOne"
      (binary "cons" (binary "add" (.number 10) (.number 20)) (.var "empty"))
      (.app (.var "head") (.var "listOne")))

def listSum : Expr :=
  .letIn true "sum"
    (.lam "xs"
      (.ite (.app (.var "isEmpty") (.var "xs")) (.number 0)
        (binary "add" (.app (.var "head") (.var "xs"))
          (.app (.var "sum") (.app (.var "tail") (.var "xs"))))))
    (.app (.var "sum") (.list [.number 1, .number 2, .number 3, .number 4]))

def headNil : Expr := .app (.var "head") (.var "nil")

/-- The factorial through a fixed-point combinator. Its self-application has no finite type. -/
def zFactorial (n : Int64) : Expr :=
  let half := Expr.lam "x" (.app (.var "f") (.lam "v" (app₂ (.var "x") (.var "x") (.var "v"))))
  app₂ (.lam "f" (.app half half))
    (.lam "fac"
      (.lam "x"
        (.ite (binary "equals" (.var "x") (.number 0)) (.number 1)
          (binary "multiply" (.var "x")
            (.app (.var "fac") (binary "subtract" (.var "x") (.number 1)))))))
    (.number n)

def mixedBranches : Expr :=
  .ite (.app (.lam "x1" (binary "equals" (.number 20) (.var "x1"))) (.number 25)) (.boolean true)
    (binary "add" (.number 3) (binary "multiply" (.number 4) (.number 5)))

def badAdd : Expr := .app (.lam "x" (binary "add" (.var "x") (.number 1))) (.boolean true)

def all : List Sample :=
  [⟨"constant", "let x = 42 in true", constant⟩,
   ⟨"factorial", "let rec fak = \\x -> if x == 0 then 1 else x * fak (x - 1) in fak 5", factorial 5⟩,
   ⟨"fibonacci",
    "let rec fib = \\n -> if n == 0 then 1 else if n == 1 then 1 else fib (n - 1) + fib (n - 2) in fib 10",
    fibonacci 10⟩,
   ⟨"identity", "let identity = \\x -> x in identity identity", identity⟩,
   ⟨"polymorphic",
    "let identity = \\x -> x in let a = identity 10 in let b = identity true in if b then a else 0",
    polymorphic⟩,
   ⟨"list", "let empty = nil in let listOne = cons (10 + 20) empty in head listOne", listHead⟩,
   ⟨"list-sum",
    "let rec sum = \\xs -> if isEmpty xs then 0 else head xs + sum (tail xs) in sum [1, 2, 3, 4]",
    listSum⟩,
   ⟨"head-nil", "head nil", headNil⟩,
   ⟨"z-factorial",
    "(\\f -> (\\x -> f \\v -> x x v) (\\x -> f \\v -> x x v)) (\\fac -> \\x -> if equals x 0 then 1 else multiply x (fac (subtract x 1))) 5",
    zFactorial 5⟩,
   ⟨"mixed-branches", "if (\\x1 -> equals 20 x1) 25 then true else add 3 (multiply 4 5)",
    mixedBranches⟩,
   ⟨"bad-add", "(\\x -> x + 1) true", badAdd⟩]

def find? (name : String) : Option Sample := all.find? fun s => s.name = name

/-- The samples that are functions of a number. -/
def ofNumber? (name : String) (n : Int64) : Option Expr :=
  match name with
  | "factorial" => some (factorial n)
  | "fibonacci" => some (fibonacci n)
  | "z-factorial" => some (zFactorial n)
  | _ => none

end Samples
end LetPoly
