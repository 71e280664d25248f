import LetPoly.Proofs.Substitution
import LetPoly.Proofs.Values

/-! Values of the evaluator read back as terms. A closure is its function with the values of its
environment put for their names; the closures of the built-in operations are the operations, and what
is left of one that has its first operand is held (`Reads`). Terms that values are read back as are
closed values themselves. -/

namespace LetPoly

inductive Reads : Expr → Term → Prop
  | number (n : Int64) : Reads (.number n) (.number n)
  | boolean (b : Bool) : Reads (.boolean b) (.boolean b)
  | nil : Reads (.list []) (.list [])
  | cons {v : Expr} {vs : List Expr} {t : Term} {ts : List Term} : Reads v t →
      Reads (.list vs) (.list ts) → Reads (.list (v :: vs)) (.list (t :: ts))
  | unary {op : Primitive} {id : Nat} : op.arity = 1 →
      Reads (.closure id "x" (.prim op) [] none) (.op op)
  | binary {op : Primitive} {id : Nat} : op.arity = 2 →
      Reads (.closure id "x" (.lam "y" (.prim op)) [] none) (.op op)
  | held {op : Primitive} {id : Nat} {env : Env} {v : Expr} {t : Term} : op.arity = 2 →
      env.get? "x" = some v → Reads v t → Reads (.closure id "y" (.prim op) env none) (.held op t)
  | closure {id : Nat} {x : String} {body : Expr} {env : Env} {self : Option String}
      {ρ : Scope Term} : (∀ y, (env.get? y).isSome = (ρ.get? y).isSome) →
      (∀ y v t, env.get? y = some v → ρ.get? y = some t → Reads v t) →
      body.isSource = true → body.tiesLambdas = true →
      (∀ y ∈ body.freeVars, y = x ∨ self = some y ∨ (ρ.get? y).isSome) →
      Reads (.closure id x body env self) (body.function ρ self x)

/-- The scope has what the values of the environment are read back as. -/
structure Env.Reads (env : Env) (ρ : Scope Term) : Prop where
  names : ∀ y, (env.get? y).isSome = (ρ.get? y).isSome
  values : ∀ y v t, env.get? y = some v → ρ.get? y = some t → LetPoly.Reads v t

section Reads

variable {v w : Expr} {t s : Term} {env : Env} {ρ : Scope Term} {x : String} {op : Primitive}
  {r : Except Fault Term}

theorem Reads.closed (h : Reads v t) : t.Closed := by
  induction h with
  | number | boolean | unary | binary =>
    intro x v
    simp only [Term.subst]
  | nil =>
    intro x v
    simp only [Term.subst, Term.substAll]
  | cons _ _ ih ihs =>
    intro x v
    have hts := ihs x v
    simp only [Term.subst, Term.list.injEq] at hts
    simp only [Term.subst, Term.substAll, ih x v, hts]
  | held _ _ _ ih =>
    intro x v
    simp only [Term.subst, ih x v]
  | @closure id x body env self ρ hnames hvalues hsource hties hbound ih =>
    refine Expr.closed_function hsource hties hbound fun y t ht => ?_
    have hv : (env.get? y).isSome := by rw [hnames, ht]; rfl
    obtain ⟨v, hv⟩ := Option.isSome_iff_exists.1 hv
    exact ih y v t hv ht

theorem Env.Reads.closedScope (h : env.Reads ρ) : Term.ClosedScope ρ := by
  intro y t ht
  have hv : (env.get? y).isSome := by rw [h.names, ht]; rfl
  obtain ⟨v, hv⟩ := Option.isSome_iff_exists.1 hv
  exact (h.values y v t hv ht).closed

theorem Env.Reads.insert (h : env.Reads ρ) (hv : LetPoly.Reads v t) (x : String) :
    Env.Reads (env.insert x v) (ρ.insert x t) := by
  refine ⟨fun y => ?_, fun y w s hw hs => ?_⟩
  · rw [Bindings.get?_insert, Bindings.get?_insert]
    split
    · rfl
    · exact h.names y
  · rw [Bindings.get?_insert] at hw hs
    split at hw
    · next hy =>
      rw [if_pos hy] at hs
      cases hw
      cases hs
      exact hv
    · next hy =>
      rw [if_neg hy] at hs
      exact h.values y w s hw hs

theorem Env.Reads.lam {body : Expr} (h : env.Reads ρ) (he : (Expr.lam x body).ClosedIn ρ) (id : Nat) :
    LetPoly.Reads (.closure id x body env none) ((Expr.lam x body).term ρ) := by
  refine .closure h.names h.values he.source he.ties fun y hy => ?_
  by_cases hyx : y = x
  · exact .inl hyx
  · exact .inr (.inr (he.bound y (by simp [Expr.freeVars, hy, hyx])))

/-- A recursive `let` of a program binds a lambda. -/
theorem Env.Reads.letRec {bound body : Expr} (h : env.Reads ρ)
    (he : (Expr.letIn true x bound body).ClosedIn ρ) :
    ∃ y inner, bound = .lam y inner ∧ (∀ t, body.ClosedIn (ρ.insert x t)) ∧
      ∀ id, LetPoly.Reads (.closure id y inner env (some x)) (inner.function ρ (some x) y) := by
  obtain ⟨⟨y, inner, rfl, hsource, hties, hbound⟩, hbody⟩ := he.letRec
  exact ⟨y, inner, rfl, hbody, fun id => .closure h.names h.values hsource hties hbound⟩

theorem Env.Reads.var (h : env.Reads ρ) (he : (Expr.var x).ClosedIn ρ) :
    ∃ v, env.get? x = some v ∧ LetPoly.Reads v ((Expr.var x).term ρ) := by
  have hx : (ρ.get? x).isSome := he.bound x (by simp [Expr.freeVars])
  obtain ⟨t, ht⟩ := Option.isSome_iff_exists.1 hx
  obtain ⟨v, hv⟩ := Option.isSome_iff_exists.1 ((h.names x).trans hx)
  refine ⟨v, hv, ?_⟩
  simpa only [Expr.term, ht, Option.getD_some] using h.values x v t hv ht

theorem evaluates_function (h : t.isFunction = true) : Evaluates t r ↔ r = .ok t := by
  constructor
  · intro heval
    cases heval with
    | function => rfl
    | _ => cases h
  · rintro rfl
    exact .function h

/-- What a value has been read back as evaluates to itself, and to nothing else. -/
theorem Reads.evaluates_iff (h : Reads v t) : Evaluates t r ↔ r = .ok t := by
  induction h generalizing r with
  | unary | binary | held => exact evaluates_function rfl
  | closure => exact evaluates_function (Expr.isFunction_function _ _ _ _)
  | number n =>
    constructor
    · intro heval
      cases heval with
      | number => rfl
      | function h => cases h
    · rintro rfl
      exact .number n
  | boolean b =>
    constructor
    · intro heval
      cases heval with
      | boolean => rfl
      | function h => cases h
    · rintro rfl
      exact .boolean b
  | nil =>
    constructor
    · intro heval
      cases heval with
      | nil => rfl
      | function h => cases h
    · rintro rfl
      exact .nil
  | cons _ _ ih ihs =>
    constructor
    · intro heval
      cases heval with
      | function h => cases h
      | itemFails hitem => cases ih.1 hitem
      | itemsFail _ hitems => cases ihs.1 hitems
      | cons hitem hitems =>
        cases ih.1 hitem
        cases ihs.1 hitems
        rfl
    · rintro rfl
      exact .cons (ih.2 rfl) (ihs.2 rfl)

theorem isSome_get?_iff {α : Type} {m : Scope α} {y : String} :
    (m.get? y).isSome ↔ y ∈ m.map Prod.fst := by
  rw [← not_iff_not, Bool.not_eq_true, Option.isSome_eq_false_iff, Option.isNone_iff_eq_none,
    Bindings.get?_eq_none_iff]
  simp only [List.mem_map, not_exists, not_and, ne_eq]

theorem Env.reads_initial : Env.initial.Reads Term.builtins := by
  have hkeys : (Env.initial.map Prod.fst).Perm (Term.builtins.map Prod.fst) := by decide
  refine ⟨fun y => ?_, fun y v t hv ht => ?_⟩
  · rw [Bool.eq_iff_iff, isSome_get?_iff, isSome_get?_iff, hkeys.mem_iff]
  · rcases Env.get?_initial hv with ⟨rfl, rfl⟩ | ⟨op, id, rfl, rfl⟩
    · cases ht
      exact .nil
    · have hop : Term.builtins.get? op.name = some (.op op) := by cases op <;> rfl
      rw [hop] at ht
      cases ht
      unfold Primitive.closure
      rcases op.arity_eq with harity | harity
      · rw [if_pos harity]
        exact .unary harity
      · rw [if_neg (by rw [harity]; decide)]
        exact .binary harity

/-! ### Outcomes -/

/-- A value that is read back as the other, or an error of the same kind. -/
inductive Agrees : Except EvalError Expr → Except Fault Term → Prop
  | value {v : Expr} {t : Term} : Reads v t → Agrees (.ok v) (.ok t)
  | error (err : EvalError) : Agrees (.error err) (.error err.fault)

/-- Both are of one kind. -/
theorem Reads.shape (h : Reads v t) :
    (∃ n, v = .number n ∧ t = .number n) ∨ (∃ b, v = .boolean b ∧ t = .boolean b) ∨
      (∃ vs ts, v = .list vs ∧ t = .list ts) ∨ ∃ c : Closure, v = c.toExpr ∧ t.isFunction = true := by
  cases h with
  | number n => exact .inl ⟨n, rfl, rfl⟩
  | boolean b => exact .inr (.inl ⟨b, rfl, rfl⟩)
  | nil => exact .inr (.inr (.inl ⟨_, _, rfl, rfl⟩))
  | cons => exact .inr (.inr (.inl ⟨_, _, rfl, rfl⟩))
  | unary | binary | held => exact .inr (.inr (.inr ⟨⟨_, _, _, _, _⟩, rfl, rfl⟩))
  | closure =>
    exact .inr (.inr (.inr ⟨⟨_, _, _, _, _⟩, rfl, Expr.isFunction_function _ _ _ _⟩))

theorem Reads.isPending_eq_false (h : Reads v t) : t.isPending = false := by
  rcases h.shape with ⟨n, -, rfl⟩ | ⟨b, -, rfl⟩ | ⟨vs, ts, -, rfl⟩ | ⟨c, -, hfun⟩
  · rfl
  · rfl
  · rfl
  · cases t with
    | lam | fix | op | held => rfl
    | _ => cases hfun

theorem Reads.isFunction {c : Closure} (h : Reads c.toExpr t) : t.isFunction = true := by
  rcases h.shape with ⟨n, hn, -⟩ | ⟨b, hb, -⟩ | ⟨vs, ts, hvs, -⟩ | ⟨_, -, hfun⟩
  · cases hn
  · cases hb
  · cases hvs
  · exact hfun

theorem Reads.exists_closure (h : Reads v t) (hfun : t.isFunction = true) :
    ∃ c : Closure, v = c.toExpr := by
  rcases h.shape with ⟨n, -, rfl⟩ | ⟨b, -, rfl⟩ | ⟨vs, ts, -, rfl⟩ | ⟨c, hc, -⟩
  · cases hfun
  · cases hfun
  · cases hfun
  · exact ⟨c, hc⟩

theorem Reads.number_or (h : Reads v t) :
    (∃ n, v = .number n ∧ t = .number n) ∨ (∀ n, v ≠ .number n) ∧ ∀ n, t ≠ .number n := by
  rcases h.shape with hn | ⟨b, rfl, rfl⟩ | ⟨vs, ts, rfl, rfl⟩ | ⟨c, rfl, hfun⟩
  · exact .inl hn
  · exact .inr ⟨by simp, by simp⟩
  · exact .inr ⟨by simp, by simp⟩
  · exact .inr ⟨by simp [Closure.toExpr], by rintro n rfl; cases hfun⟩

theorem Reads.boolean_or (h : Reads v t) :
    (∃ b, v = .boolean b ∧ t = .boolean b) ∨ (∀ b, v ≠ .boolean b) ∧ ∀ b, t ≠ .boolean b := by
  rcases h.shape with ⟨n, rfl, rfl⟩ | hb | ⟨vs, ts, rfl, rfl⟩ | ⟨c, rfl, hfun⟩
  · exact .inr ⟨by simp, by simp⟩
  · exact .inl hb
  · exact .inr ⟨by simp, by simp⟩
  · exact .inr ⟨by simp [Closure.toExpr], by rintro n rfl; cases hfun⟩

theorem Reads.list_or (h : Reads v t) :
    (∃ vs ts, v = .list vs ∧ t = .list ts) ∨ (∀ vs, v ≠ .list vs) ∧ ∀ ts, t ≠ .list ts := by
  rcases h.shape with ⟨n, rfl, rfl⟩ | ⟨b, rfl, rfl⟩ | hl | ⟨c, rfl, hfun⟩
  · exact .inr ⟨by simp, by simp⟩
  · exact .inr ⟨by simp, by simp⟩
  · exact .inl hl
  · exact .inr ⟨by simp [Closure.toExpr], by rintro ts rfl; cases hfun⟩

namespace Primitive

theorem arithmetic_of_not_number (f : Int64 → Int64 → Int64)
    (h : (∀ n, v ≠ .number n) ∨ ∀ n, w ≠ .number n) :
    arithmetic op f v w = .error (.invalidOperands op [v, w]) := by
  unfold arithmetic
  split
  · simp_all
  · rfl

theorem compare_of_mixed (hn : (∀ n, v ≠ .number n) ∨ ∀ n, w ≠ .number n)
    (hb : (∀ b, v ≠ .boolean b) ∨ ∀ b, w ≠ .boolean b) :
    compare v w = .error (.invalidOperands equals [v, w]) := by
  unfold compare
  split
  · simp_all
  · simp_all
  · rfl

theorem binary_equals_of_mixed (hn : (∀ n, t ≠ .number n) ∨ ∀ n, s ≠ .number n)
    (hb : (∀ b, t ≠ .boolean b) ∨ ∀ b, s ≠ .boolean b) :
    equals.binary t s = .error (.invalidOperands equals) := by
  unfold binary
  split <;> simp_all

theorem binary_cons_of_not_list (h : ∀ ts, s ≠ .list ts) : cons.binary t s = .error .notAList := by
  unfold binary
  split <;> simp_all

theorem asList_of_not_list (h : ∀ vs, v ≠ .list vs) : asList v = .error (.notAList v) := by
  unfold asList
  split
  · simp_all
  · rfl

theorem unary_of_not_list (h : ∀ ts, t ≠ .list ts) : op.unary t = .error .notAList := by
  unfold unary
  split <;> simp_all

theorem binary_of_not_number (hop : op = add ∨ op = subtract ∨ op = multiply)
    (h : (∀ n, t ≠ .number n) ∨ ∀ n, s ≠ .number n) :
    op.binary t s = .error (.invalidOperands op) := by
  unfold binary
  split <;> simp_all

theorem agrees_arithmetic (f : Int64 → Int64 → Int64) (hop : op = add ∨ op = subtract ∨ op = multiply)
    (hf : ∀ m n, op.binary (.number m) (.number n) = .ok (.number (f m n))) (hv : Reads v t)
    (hw : Reads w s) : Agrees (arithmetic op f v w) (op.binary t s) := by
  have hinvalid : (∀ n, v ≠ .number n) ∨ (∀ n, w ≠ .number n) →
      (∀ n, t ≠ .number n) ∨ (∀ n, s ≠ .number n) →
      Agrees (arithmetic op f v w) (op.binary t s) := by
    intro h h'
    rw [arithmetic_of_not_number f h, binary_of_not_number hop h']
    exact .error (.invalidOperands op [v, w])
  rcases hv.number_or with ⟨m, rfl, rfl⟩ | ⟨hv, ht⟩
  · rcases hw.number_or with ⟨n, rfl, rfl⟩ | ⟨hw, hs⟩
    · rw [hf]
      exact .value (.number _)
    · exact hinvalid (.inr hw) (.inr hs)
  · exact hinvalid (.inl hv) (.inl ht)

theorem agrees_compare (hv : Reads v t) (hw : Reads w s) :
    Agrees (compare v w) (equals.binary t s) := by
  have hinvalid : (∀ n, v ≠ .number n) ∨ (∀ n, w ≠ .number n) →
      (∀ b, v ≠ .boolean b) ∨ (∀ b, w ≠ .boolean b) →
      (∀ n, t ≠ .number n) ∨ (∀ n, s ≠ .number n) →
      (∀ b, t ≠ .boolean b) ∨ (∀ b, s ≠ .boolean b) →
      Agrees (compare v w) (equals.binary t s) := by
    intro h₁ h₂ h₃ h₄
    rw [compare_of_mixed h₁ h₂, binary_equals_of_mixed h₃ h₄]
    exact .error (.invalidOperands equals [v, w])
  rcases hv.number_or with ⟨m, rfl, rfl⟩ | ⟨hvn, htn⟩
  · rcases hw.number_or with ⟨n, rfl, rfl⟩ | ⟨hwn, hsn⟩
    · exact .value (.boolean _)
    · exact hinvalid (.inr hwn) (.inl (by simp)) (.inr hsn) (.inl (by simp))
  · rcases hv.boolean_or with ⟨a, rfl, rfl⟩ | ⟨hvb, htb⟩
    · rcases hw.boolean_or with ⟨b, rfl, rfl⟩ | ⟨hwb, hsb⟩
      · exact .value (.boolean _)
      · exact hinvalid (.inl hvn) (.inr hwb) (.inl htn) (.inr hsb)
    · exact hinvalid (.inl hvn) (.inl hvb) (.inl htn) (.inl htb)

theorem agrees_unary (hx : env.get? "x" = some v) (hv : Reads v t) (harity : op.arity = 1) :
    Agrees (op.eval env) (op.unary t) := by
  have hx : operand env "x" = .ok v := by rw [operand, hx]
  unfold eval
  rw [hx]
  rcases hv.list_or with ⟨vs, ts, rfl, rfl⟩ | ⟨hv, ht⟩
  · cases op with
    | add | subtract | multiply | equals | cons => cases harity
    | isEmpty => cases hv with
      | nil => exact .value (.boolean _)
      | cons => exact .value (.boolean _)
    | head => cases hv with
      | nil => exact .error (.emptyListAccess _)
      | cons hv _ => exact .value hv
    | tail => cases hv with
      | nil => exact .error (.emptyListAccess _)
      | cons _ hvs => exact .value hvs
  · rw [unary_of_not_list ht]
    cases op with
    | add | subtract | multiply | equals | cons => cases harity
    | isEmpty | head | tail =>
      simp only [bind, Except.bind, asList_of_not_list hv]
      exact .error (.notAList v)

theorem agrees_binary (hx : env.get? "x" = some v) (hv : Reads v t) (hy : env.get? "y" = some w)
    (hw : Reads w s) (harity : op.arity = 2) : Agrees (op.eval env) (op.binary t s) := by
  have hx : operand env "x" = .ok v := by rw [operand, hx]
  have hy : operand env "y" = .ok w := by rw [operand, hy]
  unfold eval
  rw [hx, hy]
  cases op with
  | isEmpty | head | tail => cases harity
  | add => exact agrees_arithmetic (· + ·) (by simp) (fun _ _ => rfl) hv hw
  | subtract => exact agrees_arithmetic (· - ·) (by simp) (fun _ _ => rfl) hv hw
  | multiply => exact agrees_arithmetic (· * ·) (by simp) (fun _ _ => rfl) hv hw
  | equals => exact agrees_compare hv hw
  | cons =>
    rcases hw.list_or with ⟨vs, ts, rfl, rfl⟩ | ⟨hnot, hnot'⟩
    · exact .value (.cons hv hw)
    · rw [binary_cons_of_not_list hnot']
      simp only [bind, Except.bind, asList_of_not_list hnot]
      exact .error (.notAList w)

end Primitive

end Reads

/-! ### Calls -/

theorem Closure.toExpr_injective {c c' : Closure} (h : c.toExpr = c'.toExpr) : c = c' := by
  cases c
  cases c'
  cases h
  rfl

section Calls

variable {c : Closure} {v : Expr} {t b s : Term} {g x : String} {op : Primitive}

/-- The body of the closure, with the argument in its scope, is the body of the function with the
argument put for its parameter. -/
theorem Reads.call_lam (h : Reads c.toExpr (.lam x b)) (hv : Reads v t) :
    ∃ ρ, (c.scope v).Reads ρ ∧ c.body.ClosedIn ρ ∧ b.subst x t = c.body.term ρ := by
  generalize hw : c.toExpr = w, hf : Term.lam x b = f at h
  cases h with
  | @closure id y body env self ρ hnames hvalues hsource hties hbound =>
    have henv : Env.Reads env ρ := ⟨hnames, hvalues⟩
    obtain rfl : c = ⟨id, y, body, env, self⟩ := Closure.toExpr_injective hw
    cases self with
    | some f => simp only [Expr.function, Expr.term, Term.tie, reduceCtorEq] at hf
    | none =>
      simp only [Expr.function, Expr.term, Term.lam.injEq] at hf
      obtain ⟨rfl, rfl⟩ := hf
      refine ⟨ρ.insert x t, henv.insert hv x, ?_, ?_⟩
      · refine .of_insert hsource hties fun y hy hne => ?_
        simpa [hne] using hbound y hy
      · exact Expr.subst_term_erase hsource hties henv.closedScope x t
  | _ => cases hf

theorem Reads.call_fix (h : Reads c.toExpr (.fix g x b)) (hv : Reads v t) :
    ∃ ρ, (c.scope v).Reads ρ ∧ c.body.ClosedIn ρ ∧
      (b.subst x t).subst g (.fix g x b) = c.body.term ρ := by
  have hself := h
  generalize hw : c.toExpr = w, hf : Term.fix g x b = f at h
  cases h with
  | @closure id y body env self ρ hnames hvalues hsource hties hbound =>
    have henv : Env.Reads env ρ := ⟨hnames, hvalues⟩
    obtain rfl : c = ⟨id, y, body, env, self⟩ := Closure.toExpr_injective hw
    cases self with
    | none => simp only [Expr.function, Expr.term, reduceCtorEq] at hf
    | some g' =>
      simp only [Expr.function, Expr.term, Term.tie, Term.fix.injEq] at hf
      obtain ⟨rfl, rfl, rfl⟩ := hf
      refine ⟨_, (henv.insert hself g).insert hv x, ?_, ?_⟩
      · refine .of_insert hsource hties fun y hy hne => ?_
        rw [Bindings.get?_insert]
        split
        · rfl
        · next hg => simpa [hne, hg] using hbound y hy
      · exact Expr.subst_term_erase_erase hsource hties henv.closedScope g x _ hv.closed
  | _ => cases hf

theorem Reads.call_op (h : Reads c.toExpr (.op op)) (v : Expr) :
    (c.scope v).get? "x" = some v ∧
      c.body = if op.arity = 1 then .prim op else .lam "y" (.prim op) := by
  generalize hw : c.toExpr = w, hf : Term.op op = f at h
  cases h with
  | @unary op' id harity =>
    cases hf
    obtain rfl : c = ⟨id, "x", .prim op, [], none⟩ := Closure.toExpr_injective hw
    exact ⟨rfl, by rw [if_pos harity]⟩
  | @binary op' id harity =>
    cases hf
    obtain rfl : c = ⟨id, "x", .lam "y" (.prim op), [], none⟩ := Closure.toExpr_injective hw
    exact ⟨rfl, by rw [if_neg (by omega)]⟩
  | @closure id y body env self ρ =>
    cases self <;> simp only [Expr.function, Expr.term, Term.tie, reduceCtorEq] at hf
  | _ => cases hf

theorem Reads.call_held (h : Reads c.toExpr (.held op s)) (v : Expr) :
    ∃ u, (c.scope v).get? "x" = some u ∧ Reads u s ∧ (c.scope v).get? "y" = some v ∧
      c.body = .prim op ∧ op.arity = 2 := by
  generalize hw : c.toExpr = w, hf : Term.held op s = f at h
  cases h with
  | @held op' id env u s' harity hx hu =>
    cases hf
    obtain rfl : c = ⟨id, "y", .prim op, env, none⟩ := Closure.toExpr_injective hw
    refine ⟨u, ?_, hu, ?_, rfl, harity⟩
    · exact (Bindings.get?_insert env "y" "x" v).trans hx
    · exact Bindings.get?_insert env "y" "y" v
  | @closure id y body env self ρ =>
    cases self <;> simp only [Expr.function, Expr.term, Term.tie, reduceCtorEq] at hf
  | _ => cases hf

end Calls

end LetPoly
