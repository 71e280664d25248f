import LetPoly.Evaluation.Interpreter
import LetPoly.Proofs.Typing

/-! Types of values. A closure has a type if its environment supplies some context under which its
body is typed, and a built-in operation is no exception: its body is the operation, which is typed
by the operands in scope. The names of `Context.initial` are supplied by `Env.initial`. -/

namespace LetPoly

/-- The types of the operands, that of `x` before that of `y`, and of the result. -/
inductive Primitive.Operates : Primitive → List Ty → Ty → Prop
  | add : Operates add [.number, .number] .number
  | subtract : Operates subtract [.number, .number] .number
  | multiply : Operates multiply [.number, .number] .number
  | equals : Operates equals [.number, .number] .boolean
  | cons (t : Ty) : Operates cons [t, .list t] (.list t)
  | isEmpty (t : Ty) : Operates isEmpty [.list t] .boolean
  | head (t : Ty) : Operates head [.list t] t
  | tail (t : Ty) : Operates tail [.list t] (.list t)

/-- What the body of a closure is: an expression of the program, or an operation with its operands
in scope. -/
inductive Code : Context → Expr → Ty → Prop
  | source {Γ : Context} {e : Expr} {t : Ty} : Typed Γ e t → e.tiesLambdas = true → Code Γ e t
  | lam {Γ : Context} {x : String} {body : Expr} {a r : Ty} :
      Code (Γ.insert x (.ofTy a)) body r → Code Γ (.lam x body) (.fn a r)
  | unary {Γ : Context} {op : Primitive} {a r : Ty} : op.Operates [a] r →
      Γ.get? "x" = some (.ofTy a) → Code Γ (.prim op) r
  | binary {Γ : Context} {op : Primitive} {a b r : Ty} : op.Operates [a, b] r →
      Γ.get? "x" = some (.ofTy a) → Γ.get? "y" = some (.ofTy b) → Code Γ (.prim op) r

/-- The context of a closure's body, but for the parameter: the closure itself has its type there.
-/
def Context.tie (Γ : Context) (self : Option String) (t : Ty) : Context :=
  match self with
  | none => Γ
  | some name => Γ.insert name (.ofTy t)

inductive ValueTyped : Expr → Ty → Prop
  | number (n : Int64) : ValueTyped (.number n) .number
  | boolean (b : Bool) : ValueTyped (.boolean b) .boolean
  | list {vs : List Expr} {t : Ty} : (∀ v ∈ vs, ValueTyped v t) → ValueTyped (.list vs) (.list t)
  | closure {id : Nat} {x : String} {body : Expr} {env : Env} {self : Option String} {Γ : Context}
      {a r : Ty} : (∀ y s, Γ.get? y = some s → (env.get? y).isSome) →
      (∀ y s v, Γ.get? y = some s → env.get? y = some v → ∀ ρ, ValueTyped v (s.inst .unknown ρ)) →
      Code ((Γ.tie self (.fn a r)).insert x (.ofTy a)) body r →
      ValueTyped (.closure id x body env self) (.fn a r)

theorem valueTyped_inst_ofTy {v : Expr} {t : Ty} {ρ : String → Ty} :
    ValueTyped v ((Scheme.ofTy t).inst .unknown ρ) ↔ ValueTyped v t := by
  rw [Scheme.inst_ofTy, Ty.subst_unknown]

/-- Every name of the context has a value, which is in `V` at all instances of the name's scheme. -/
def Env.Meets (V : Expr → Ty → Prop) (env : Env) (Γ : Context) : Prop :=
  ∀ x s, Γ.get? x = some s → ∃ v, env.get? x = some v ∧ ∀ ρ, V v (s.inst .unknown ρ)

namespace Env.Meets

variable {V : Expr → Ty → Prop} {env : Env} {Γ : Context} {v : Expr} {t : Ty}

theorem insert {s : Scheme} (h : env.Meets V Γ) (hv : ∀ ρ, V v (s.inst .unknown ρ)) (x : String) :
    Meets V (env.insert x v) (Γ.insert x s) := by
  intro y r hy
  rw [Bindings.get?_insert] at hy
  rw [Bindings.get?_insert]
  split at hy
  · next e =>
    cases hy
    exact ⟨v, if_pos e, hv⟩
  · next e =>
    rw [if_neg e]
    exact h y r hy

theorem insert_ofTy (h : env.Meets V Γ) (hv : V v t) (x : String) :
    Meets V (env.insert x v) (Γ.insert x (.ofTy t)) := by
  refine h.insert (fun ρ => ?_) x
  rwa [Scheme.inst_ofTy, Ty.subst_unknown]

end Env.Meets

/-- Every name of the context has a value, which has all instances of the name's scheme. -/
def Env.Supplies (env : Env) (Γ : Context) : Prop :=
  ∀ x s, Γ.get? x = some s → ∃ v, env.get? x = some v ∧ ∀ ρ, ValueTyped v (s.inst .unknown ρ)

namespace Env.Supplies

variable {env : Env} {Γ : Context} {v : Expr} {t : Ty}

theorem insert {s : Scheme} (h : env.Supplies Γ) (hv : ∀ ρ, ValueTyped v (s.inst .unknown ρ))
    (x : String) : Supplies (env.insert x v) (Γ.insert x s) :=
  Env.Meets.insert h hv x

theorem insert_ofTy (h : env.Supplies Γ) (hv : ValueTyped v t) (x : String) :
    Supplies (env.insert x v) (Γ.insert x (.ofTy t)) :=
  Env.Meets.insert_ofTy h hv x

theorem get?_ofTy (h : env.Supplies Γ) {x : String} (hx : Γ.get? x = some (.ofTy t)) :
    ∃ v, env.get? x = some v ∧ ValueTyped v t := by
  obtain ⟨v, hv, htyped⟩ := h x _ hx
  exact ⟨v, hv, valueTyped_inst_ofTy.1 (htyped fun _ => .number)⟩

theorem closure (h : env.Supplies Γ) {id : Nat} {x : String} {body : Expr} {self : Option String}
    {a r : Ty} (hbody : Code ((Γ.tie self (.fn a r)).insert x (.ofTy a)) body r) :
    ValueTyped (.closure id x body env self) (.fn a r) := by
  refine .closure (fun y s hy => ?_) (fun y s v hy hv => ?_) hbody
  · obtain ⟨v, hv, -⟩ := h y s hy
    rw [hv]
    rfl
  · obtain ⟨w, hw, htyped⟩ := h y s hy
    rw [hv] at hw
    cases hw
    exact htyped

end Env.Supplies

/-! ### Canonical forms -/

/-- The values at the types of numbers, booleans and lists are the ones shaped so. -/
structure Canonical (V : Expr → Ty → Prop) : Prop where
  number_iff {v : Expr} : V v .number ↔ ∃ n, v = .number n
  boolean_iff {v : Expr} : V v .boolean ↔ ∃ b, v = .boolean b
  list_iff {v : Expr} {t : Ty} : V v (.list t) ↔ ∃ vs, v = .list vs ∧ ∀ w ∈ vs, V w t

namespace ValueTyped

variable {v : Expr} {t a r : Ty}

theorem eq_number (h : ValueTyped v .number) : ∃ n, v = .number n := by
  cases h with
  | number n => exact ⟨n, rfl⟩

theorem eq_boolean (h : ValueTyped v .boolean) : ∃ b, v = .boolean b := by
  cases h with
  | boolean b => exact ⟨b, rfl⟩

theorem eq_list (h : ValueTyped v (.list t)) : ∃ vs, v = .list vs ∧ ∀ w ∈ vs, ValueTyped w t := by
  cases h with
  | list hvs => exact ⟨_, rfl, hvs⟩

theorem eq_closure (h : ValueTyped v (.fn a r)) : ∃ c : Closure, v = c.toExpr := by
  cases h with
  | closure => exact ⟨⟨_, _, _, _, _⟩, rfl⟩

/-- The body of a closure is typed under a context that its scope supplies for every argument. -/
theorem scope {c : Closure} (hc : ValueTyped c.toExpr (.fn a r)) (hv : ValueTyped v a) :
    ∃ Γ, (c.scope v).Supplies Γ ∧ Code Γ c.body r := by
  obtain ⟨id, x, body, env, self⟩ := c
  have hself := hc
  cases hc with
  | @closure _ _ _ _ _ Γ _ _ hbound hvals hbody =>
    have henv : Env.Supplies env Γ := by
      intro y s hy
      obtain ⟨w, hw⟩ := Option.isSome_iff_exists.1 (hbound y s hy)
      exact ⟨w, hw, hvals y s w hy hw⟩
    refine ⟨_, ?_, hbody⟩
    cases self with
    | none => exact henv.insert_ofTy hv x
    | some name => exact (henv.insert_ofTy hself name).insert_ofTy hv x

end ValueTyped

theorem canonical_valueTyped : Canonical ValueTyped where
  number_iff := ⟨ValueTyped.eq_number, by rintro ⟨n, rfl⟩; exact .number n⟩
  boolean_iff := ⟨ValueTyped.eq_boolean, by rintro ⟨b, rfl⟩; exact .boolean b⟩
  list_iff := ⟨ValueTyped.eq_list, by rintro ⟨vs, rfl, hvs⟩; exact .list hvs⟩

/-! ### The built-in names -/

namespace Primitive

variable {V : Expr → Ty → Prop} {op : Primitive} {env : Env} {v w : Expr} {a b r : Ty}

theorem arity_eq (op : Primitive) : op.arity = 1 ∨ op.arity = 2 := by
  cases op with
  | isEmpty | head | tail => exact .inl rfl
  | add | subtract | multiply | equals | cons => exact .inr rfl

theorem closure_body_unary (harity : op.arity = 1) (id : Nat) : (op.closure id).body = .prim op := if_pos harity

theorem closure_body_binary (harity : op.arity = 2) (id : Nat) :
    (op.closure id).body = .lam "y" (.prim op) := if_neg (by omega)

/-- With operands of its types an operation has a value, unless it takes an empty list apart. -/
theorem eval_of_operates_unary (hV : Canonical V) (hop : op.Operates [a] r)
    (hx : env.get? "x" = some v) (hv : V v a) :
    (∃ u, op.eval env = .ok u ∧ V u r) ∨ op.eval env = .error (.emptyListAccess op) := by
  have hx : operand env "x" = .ok v := by rw [operand, hx]
  unfold eval
  rw [hx]
  cases hop with
  | isEmpty t =>
    obtain ⟨vs, rfl, -⟩ := hV.list_iff.1 hv
    exact .inl ⟨_, rfl, hV.boolean_iff.2 ⟨_, rfl⟩⟩
  | head t =>
    obtain ⟨vs, rfl, hvs⟩ := hV.list_iff.1 hv
    cases vs with
    | nil => exact .inr rfl
    | cons u us => exact .inl ⟨u, rfl, hvs u List.mem_cons_self⟩
  | tail t =>
    obtain ⟨vs, rfl, hvs⟩ := hV.list_iff.1 hv
    cases vs with
    | nil => exact .inr rfl
    | cons u us =>
      have hus : V (.list us) (.list t) :=
        hV.list_iff.2 ⟨us, rfl, fun w hw => hvs w (List.mem_cons_of_mem _ hw)⟩
      exact .inl ⟨_, rfl, hus⟩

theorem eval_of_operates_binary (hV : Canonical V) (hop : op.Operates [a, b] r)
    (hx : env.get? "x" = some v) (hv : V v a) (hy : env.get? "y" = some w) (hw : V w b) :
    ∃ u, op.eval env = .ok u ∧ V u r := by
  have hx : operand env "x" = .ok v := by rw [operand, hx]
  have hy : operand env "y" = .ok w := by rw [operand, hy]
  unfold eval
  rw [hx, hy]
  cases hop with
  | add | subtract | multiply =>
    obtain ⟨m, rfl⟩ := hV.number_iff.1 hv
    obtain ⟨n, rfl⟩ := hV.number_iff.1 hw
    exact ⟨_, rfl, hV.number_iff.2 ⟨_, rfl⟩⟩
  | equals =>
    obtain ⟨m, rfl⟩ := hV.number_iff.1 hv
    obtain ⟨n, rfl⟩ := hV.number_iff.1 hw
    exact ⟨_, rfl, hV.boolean_iff.2 ⟨_, rfl⟩⟩
  | cons t =>
    obtain ⟨vs, rfl, hvs⟩ := hV.list_iff.1 hw
    exact ⟨_, rfl, hV.list_iff.2 ⟨_, rfl, List.forall_mem_cons.2 ⟨hv, hvs⟩⟩⟩

theorem valueTyped_closure_unary (hop : op.Operates [a] r) (harity : op.arity = 1) (id : Nat) :
    ValueTyped (op.closure id).toExpr (.fn a r) := by
  have hempty : Env.Supplies [] [] := fun _ _ h => by cases h
  unfold Primitive.closure
  rw [if_pos harity]
  exact hempty.closure (.unary hop rfl)

theorem valueTyped_closure_binary (hop : op.Operates [a, b] r) (harity : op.arity = 2) (id : Nat) :
    ValueTyped (op.closure id).toExpr (.fn a (.fn b r)) := by
  have hempty : Env.Supplies [] [] := fun _ _ h => by cases h
  unfold Primitive.closure
  rw [harity, if_neg (by decide)]
  exact hempty.closure (.lam (.binary hop rfl rfl))

end Primitive

theorem Context.initial_eq : Context.initial =
    let a : Ty := .var "a"
    [("tail", ⟨["a"], .fn (.list a) (.list a)⟩),
     ("head", ⟨["a"], .fn (.list a) a⟩),
     ("isEmpty", ⟨["a"], .fn (.list a) .boolean⟩),
     ("cons", ⟨["a"], .fn a (.fn (.list a) (.list a))⟩),
     ("nil", ⟨["a"], .list a⟩),
     ("equals", .ofTy (.fn .number (.fn .number .boolean))),
     ("multiply", .ofTy (.fn .number (.fn .number .number))),
     ("subtract", .ofTy (.fn .number (.fn .number .number))),
     ("add", .ofTy (.fn .number (.fn .number .number)))] := by decide

/-- The values of the built-in names are in `V` at all their types, if the operations are. -/
theorem Env.meets_initial {V : Expr → Ty → Prop} (hV : Canonical V)
    (hunary : ∀ {op : Primitive} {a r : Ty}, op.Operates [a] r → op.arity = 1 → ∀ id,
      V (op.closure id).toExpr (.fn a r))
    (hbinary : ∀ {op : Primitive} {a b r : Ty}, op.Operates [a, b] r → op.arity = 2 → ∀ id,
      V (op.closure id).toExpr (.fn a (.fn b r))) : Env.initial.Meets V Context.initial := by
  have hall : ∀ b ∈ Context.initial, ∃ v, Env.initial.get? b.1 = some v ∧
      ∀ ρ, V v (b.2.inst .unknown ρ) := by
    rw [Context.initial_eq]
    simp only [List.forall_mem_cons]
    refine ⟨⟨_, rfl, fun ρ => ?tail⟩, ⟨_, rfl, fun ρ => ?head⟩, ⟨_, rfl, fun ρ => ?isEmpty⟩,
      ⟨_, rfl, fun ρ => ?cons⟩, ⟨_, rfl, fun ρ => ?nil⟩, ⟨_, rfl, fun ρ => ?equals⟩,
      ⟨_, rfl, fun ρ => ?multiply⟩, ⟨_, rfl, fun ρ => ?subtract⟩, ⟨_, rfl, fun ρ => ?add⟩, by simp⟩
    case tail => exact hunary (.tail (ρ "a")) rfl _
    case head => exact hunary (.head (ρ "a")) rfl _
    case isEmpty => exact hunary (.isEmpty (ρ "a")) rfl _
    case cons => exact hbinary (.cons (ρ "a")) rfl _
    case nil => exact hV.list_iff.2 ⟨[], rfl, by simp⟩
    case equals => exact hbinary .equals rfl _
    case multiply => exact hbinary .multiply rfl _
    case subtract => exact hbinary .subtract rfl _
    case add => exact hbinary .add rfl _
  intro x s hx
  exact hall (x, s) (Bindings.mem_of_get? hx)

theorem Env.supplies_initial : Env.initial.Supplies Context.initial :=
  Env.meets_initial canonical_valueTyped Primitive.valueTyped_closure_unary
    Primitive.valueTyped_closure_binary

theorem Env.get?_initial {x : String} {v : Expr} (h : Env.initial.get? x = some v) :
    x = "nil" ∧ v = .list [] ∨
      ∃ (op : Primitive) (id : Nat), x = op.name ∧ v = (op.closure id).toExpr := by
  have hinitial : Env.initial = (Primitive.all.zipIdx.reverse.map fun p =>
      (p.1.name, (p.1.closure p.2).toExpr)) ++ [("nil", .list [])] := rfl
  have hmem := Bindings.mem_of_get? h
  rw [hinitial, List.mem_append, List.mem_map, List.mem_singleton] at hmem
  rcases hmem with ⟨p, -, hp⟩ | hnil
  · cases hp
    exact .inr ⟨p.1, p.2, rfl, rfl⟩
  · cases hnil
    exact .inl ⟨rfl, rfl⟩

end LetPoly
