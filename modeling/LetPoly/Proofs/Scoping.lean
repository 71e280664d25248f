import Mathlib.Data.Set.Insert
import LetPoly.Proofs.Safety
import LetPoly.Proofs.Tying

/-! The names that evaluation looks up in vain. A recursive `let` has its name in scope where its type is
inferred, but what it binds is evaluated without that name, which is added to a closure that comes out.
So a name of a checked program is not found only if a recursive `let` speaks of it in something else than
a lambda, or if a closure that calls itself by the name has been tied to another
(`eval_unboundVariable`). -/

namespace LetPoly

namespace Expr

/-- All names that evaluation comes upon are in scope, that of a recursive `let` in a lambda which it
binds, but not in anything else. An operation reads its operands. -/
inductive Scoped : Set String → Expr → Prop
  | number {D : Set String} (n : Int64) : Scoped D (.number n)
  | boolean {D : Set String} (b : Bool) : Scoped D (.boolean b)
  | var {D : Set String} {x : String} : x ∈ D → Scoped D (.var x)
  | lam {D : Set String} {x : String} {body : Expr} : Scoped (insert x D) body → Scoped D (.lam x body)
  | app {D : Set String} {f a : Expr} : Scoped D f → Scoped D a → Scoped D (.app f a)
  | ite {D : Set String} {c t e : Expr} : Scoped D c → Scoped D t → Scoped D e →
      Scoped D (.ite c t e)
  | letIn {D : Set String} {recursive : Bool} {x : String} {bound body : Expr} :
      Scoped D bound → Scoped (insert x D) body → Scoped D (.letIn recursive x bound body)
  | letRec {D : Set String} {f x : String} {inner body : Expr} :
      Scoped (insert x (insert f D)) inner → Scoped (insert f D) body →
      Scoped D (.letIn true f (.lam x inner) body)
  | list {D : Set String} {items : List Expr} : (∀ e ∈ items, Scoped D e) → Scoped D (.list items)
  | prim {D : Set String} {op : Primitive} : "x" ∈ D → (op.arity = 2 → "y" ∈ D) → Scoped D (.prim op)

/-- Of the names in scope only those count that are looked up. -/
theorem Scoped.mono {D D' : Set String} {e : Expr} (h : Scoped D e)
    (hD : ∀ y ∈ e.reads, y ∈ D → y ∈ D') : Scoped D' e := by
  -- a name that is read below a binder is the binder or is read outside
  have under : ∀ {D D' : Set String} {x y : String}, (y ≠ x → y ∈ D → y ∈ D') →
      y ∈ insert x D → y ∈ insert x D' :=
    fun h hmem => (em _).imp id fun hne => h hne (hmem.resolve_left hne)
  induction h generalizing D' with
  | number n => exact .number n
  | boolean b => exact .boolean b
  | @var _ x hx => exact .var (hD x (by simp [reads]) hx)
  | lam _ ih =>
    simp only [reads, List.mem_filter, decide_eq_true_eq, and_imp] at hD
    exact .lam (ih fun y hy => under (hD y hy))
  | app _ _ ihf iha =>
    simp only [reads, List.forall_mem_append] at hD
    exact .app (ihf hD.1) (iha hD.2)
  | ite _ _ _ ihc iht ihe =>
    simp only [reads, List.forall_mem_append] at hD
    exact .ite (ihc hD.1.1) (iht hD.1.2) (ihe hD.2)
  | @letIn _ recursive x bound body _ _ ih ihbody =>
    simp only [reads, List.forall_mem_append] at hD
    obtain ⟨hbound, hbody⟩ := hD
    simp only [List.mem_filter, decide_eq_true_eq, and_imp] at hbody
    by_cases hown : (recursive && bound.isLam) = true
    · simp only [hown, if_true, List.mem_filter, decide_eq_true_eq, and_imp] at hbound
      obtain ⟨rfl, hlam⟩ := Bool.and_eq_true_iff.1 hown
      obtain ⟨y, inner, rfl⟩ := eq_lam_of_isLam hlam
      have hscoped : Scoped (insert x D') (.lam y inner) :=
        ih fun z hz hmem => under (hbound z hz) (.inr hmem)
      cases hscoped with
      | lam hinner => exact .letRec hinner (ihbody fun y hy => under (hbody y hy))
    · rw [if_neg hown] at hbound
      exact .letIn (ih hbound) (ihbody fun y hy => under (hbody y hy))
  | @letRec _ f x inner body _ _ ih ihbody =>
    simp only [reads, isLam, Bool.and_self, if_true, List.forall_mem_append, List.mem_filter,
      decide_eq_true_eq, and_imp] at hD
    refine .letRec (ih fun y hy => ?_) (ihbody fun y hy => under (hD.2 y hy))
    exact under fun hne => under (hD.1 y hy hne)
  | list _ ih =>
    simp only [reads, mem_readsAll] at hD
    exact .list fun e he => ih e he fun y hy => hD y ⟨e, he, hy⟩
  | @prim _ op hx hy =>
    have hread : "x" ∈ (Expr.prim op).reads := by
      unfold reads
      split <;> simp
    refine .prim (hD _ hread hx) fun harity => ?_
    exact hD _ (by simp [reads, harity]) (hy harity)

theorem scoped_univ {e : Expr} (hsource : e.isSource = true) : Scoped Set.univ e := by
  have under : ∀ {e : Expr} (x : String), Scoped Set.univ e → Scoped (insert x Set.univ) e :=
    fun _ h => h.mono fun _ _ _ => .inr trivial
  induction e using Expr.induct with
  | number n => exact .number n
  | boolean b => exact .boolean b
  | var x => exact .var trivial
  | lam x body ih => exact .lam (under x (ih hsource))
  | app f a ihf iha =>
    simp only [isSource, Bool.and_eq_true] at hsource
    exact .app (ihf hsource.1) (iha hsource.2)
  | ite c t e ihc iht ihe =>
    simp only [isSource, Bool.and_eq_true] at hsource
    exact .ite (ihc hsource.1.1) (iht hsource.1.2) (ihe hsource.2)
  | letIn recursive x bound body ih ihbody =>
    simp only [isSource, Bool.and_eq_true] at hsource
    exact .letIn (ih hsource.1) (under x (ihbody hsource.2))
  | list items ih => exact .list fun e he => ih e he (allSource_iff.1 hsource e he)
  | prim op => cases hsource
  | closure id x body env self => cases hsource

/-- The checker's scopes are enough for the evaluator once the loose binders are in scope too. -/
theorem scoped_of_freeVars {e : Expr} {D : Set String} (hsource : e.isSource = true)
    (hfree : ∀ y ∈ e.freeVars, y ∈ D) (hloose : ∀ y ∈ e.looseBinders, y ∈ D) : Scoped D e :=
  (scoped_univ hsource).mono fun y hread _ =>
    (mem_freeVars_or_looseBinders hsource hread).elim (hfree y) (hloose y)

end Expr

/-! ### Values -/

def Env.names (env : Env) : Set String := {y | (env.get? y).isSome}

/-- The names in scope in the body of a closure with this environment, parameter and own name. -/
def Env.inner (env : Env) (x : String) (self : Option String) : Set String :=
  insert x ({y | self = some y} ∪ env.names)

/-- All names in the bodies of closures are in scope there, or are among those in `R`. -/
inductive Grounded (R : Set String) : Expr → Prop
  | number (n : Int64) : Grounded R (.number n)
  | boolean (b : Bool) : Grounded R (.boolean b)
  | list {vs : List Expr} : (∀ v ∈ vs, Grounded R v) → Grounded R (.list vs)
  | closure {id : Nat} {x : String} {body : Expr} {env : Env} {self : Option String} :
      (∀ y v, env.get? y = some v → Grounded R v) → body.Scoped (env.inner x self ∪ R) →
      Grounded R (.closure id x body env self)

def Env.Grounded (R : Set String) (env : Env) : Prop :=
  ∀ y v, env.get? y = some v → LetPoly.Grounded R v

section Values

variable {R : Set String} {env : Env} {v : Expr} {x : String} {op : Primitive}

theorem Env.names_insert (env : Env) (x : String) (v : Expr) :
    Env.names (env.insert x v) = insert x env.names := by
  ext y
  by_cases hy : x = y
  · simp [Env.names, Bindings.get?_insert, hy]
  · simp [Env.names, Bindings.get?_insert, hy, Ne.symm hy]

theorem Env.Grounded.insert (h : env.Grounded R) (hv : LetPoly.Grounded R v) (x : String) :
    Env.Grounded R (env.insert x v) :=
  Env.All.insert h hv x

/-- A call extends the environment of the closure by all the names that its body has in scope. -/
theorem Grounded.scope {c : Closure} (hc : Grounded R c.toExpr) (hv : Grounded R v) :
    Env.Grounded R (c.scope v) ∧ c.body.Scoped ((c.scope v).names ∪ R) := by
  obtain ⟨id, x, body, env, self⟩ := c
  have hself := hc
  cases hc with
  | closure henv hbody =>
    replace henv : Env.Grounded R env := henv
    cases self with
    | none =>
      refine ⟨henv.insert hv x, hbody.mono fun y _ => ?_⟩
      simp [Closure.scope, Env.names_insert, Env.inner]
    | some f =>
      refine ⟨(henv.insert hself f).insert hv x, hbody.mono fun y _ => ?_⟩
      simp [Closure.scope, Env.names_insert, Env.inner]

/-- A value about names in scope, or an error that is not about another name than those in `R`. -/
def Primitive.Answers (R : Set String) (r : Except EvalError Expr) : Prop :=
  (∃ u, r = .ok u ∧ Grounded R u) ∨
    ∃ err, r = .error err ∧ ∀ name, err = .unboundVariable name → name ∈ R

theorem Primitive.answers_operand (henv : env.Grounded R) (hx : x ∈ env.names ∪ R)
    {f : Expr → Except EvalError Expr} (hf : ∀ v, Grounded R v → Answers R (f v)) :
    Answers R (operand env x >>= f) := by
  unfold operand
  cases hv : env.get? x with
  | some v => exact hf v (henv x v hv)
  | none =>
    refine .inr ⟨_, rfl, fun name hname => ?_⟩
    cases hname
    exact hx.resolve_left (by simp [Env.names, hv])

theorem Primitive.answers_arithmetic (op : Primitive) (f : Int64 → Int64 → Int64) (v w : Expr) :
    Answers R (arithmetic op f v w) := by
  unfold arithmetic
  split
  · exact .inl ⟨_, rfl, .number _⟩
  · exact .inr ⟨_, rfl, by simp⟩

theorem Primitive.answers_compare (v w : Expr) : Answers R (compare v w) := by
  unfold compare
  split
  · exact .inl ⟨_, rfl, .boolean _⟩
  · exact .inl ⟨_, rfl, .boolean _⟩
  · exact .inr ⟨_, rfl, by simp⟩

/-- An operation looks up its operands, and no other name. -/
theorem Primitive.answers_eval (henv : env.Grounded R) (hx : "x" ∈ env.names ∪ R)
    (hy : op.arity = 2 → "y" ∈ env.names ∪ R) : Answers R (op.eval env) := by
  unfold eval
  refine answers_operand henv hx fun v hv => ?_
  cases op with
  | add | subtract | multiply =>
    exact answers_operand henv (hy rfl) fun w _ => answers_arithmetic _ _ v w
  | equals => exact answers_operand henv (hy rfl) fun w _ => answers_compare v w
  | cons =>
    refine answers_operand henv (hy rfl) fun w hw => ?_
    cases hw with
    | list hvs => exact .inl ⟨_, rfl, .list (List.forall_mem_cons.2 ⟨hv, hvs⟩)⟩
    | number | boolean | closure => exact .inr ⟨_, rfl, by simp⟩
  | isEmpty => cases hv with
    | list => exact .inl ⟨_, rfl, .boolean _⟩
    | number | boolean | closure => exact .inr ⟨_, rfl, by simp⟩
  | head => cases hv with
    | @list vs hvs => cases vs with
      | nil => exact .inr ⟨_, rfl, by simp⟩
      | cons u us => exact .inl ⟨u, rfl, hvs u List.mem_cons_self⟩
    | number | boolean | closure => exact .inr ⟨_, rfl, by simp⟩
  | tail => cases hv with
    | @list vs hvs => cases vs with
      | nil => exact .inr ⟨_, rfl, by simp⟩
      | cons u us => exact .inl ⟨_, rfl, .list (List.forall_mem_cons.1 hvs).2⟩
    | number | boolean | closure => exact .inr ⟨_, rfl, by simp⟩

theorem grounded_builtin (op : Primitive) (id : Nat) : Grounded R (op.closure id).toExpr := by
  unfold Primitive.closure
  rcases op.arity_eq with h | h
  · rw [if_pos h]
    refine .closure (fun y v hy => by cases hy) (.prim (.inl (.inl rfl)) fun h' => ?_)
    rw [h] at h'
    cases h'
  · rw [if_neg (by rw [h]; decide)]
    refine .closure (fun y v hy => by cases hy) (.lam (.prim ?_ fun _ => .inl rfl))
    exact .inr (.inl (.inl rfl))

theorem Env.grounded_initial (R : Set String) : Env.initial.Grounded R := by
  intro x v hx
  rcases Env.get?_initial hx with ⟨-, rfl⟩ | ⟨op, id, -, rfl⟩
  · exact .list (by simp)
  · exact grounded_builtin op id

end Values

/-! ### Closures that are lost -/

namespace Task

/-- The evaluation comes to a recursive `let` that ties to its name a closure which is then lost under its
old one: its body looks that up, and does not find the closure any more. -/
def Reties (T : Task) (name : String) : Prop := ∃ f c, T.Ties f c ∧ c.Loses f name

/-- All names under which closures are lost are among those in `R`. -/
def Keeps (R : Set String) (T : Task) : Prop := ∀ name, T.Reties name → name ∈ R

theorem Keeps.enters {R : Set String} {T T' : Task} (h : T.Keeps R) (hT : Enters T T') :
    T'.Keeps R := by
  rintro name ⟨f, c, htie, hloses⟩
  exact h name ⟨f, c, htie.head hT, hloses⟩

end Task

namespace Eval

variable {α β : Type} {R : Set String} {i j : Interpreter} {m : Eval α} {f : α → Eval β}
  {P : α → Prop} {Q : β → Prop}

/-- A value that the run returns is as stated, and a name that it has not found is among those in
`R`. -/
def Leads (R : Set String) (i : Interpreter) (m : Eval α) (P : α → Prop) : Prop :=
  ∀ r j, m i = some (r, j) →
    (∀ a, r = .ok a → P a) ∧ ∀ name, r = .error (.unboundVariable name) → name ∈ R

theorem leads_of_run {r : Except EvalError α} (hrun : m i = some (r, j)) (h : ∀ a, r = .ok a → P a)
    (herror : ∀ name, r = .error (.unboundVariable name) → name ∈ R) : Leads R i m P := by
  intro r' j' hm
  rw [hrun] at hm
  cases hm
  exact ⟨h, herror⟩

theorem leads_pure {a : α} (h : P a) : Leads R i (pure a) P :=
  leads_of_run (j := i) rfl (fun _ ha => by cases ha; exact h) fun _ he => by cases he

theorem leads_throw {e : EvalError} (h : ∀ name, e = .unboundVariable name → name ∈ R) :
    Leads R i (throw e : Eval α) P :=
  leads_of_run (j := i) rfl (fun _ ha => by cases ha) fun name he => h name (by cases he; rfl)

theorem Leads.bind (hm : Leads R i m P)
    (hf : ∀ a j, m i = some (.ok a, j) → P a → Leads R j (f a) Q) : Leads R i (m >>= f) Q := by
  intro r j hrun
  rw [run_bind] at hrun
  cases hmi : m i with
  | none =>
    rw [hmi] at hrun
    cases hrun
  | some p =>
    obtain ⟨r₁, j₁⟩ := p
    obtain ⟨hvalue, herror⟩ := hm r₁ j₁ hmi
    rw [hmi] at hrun
    cases r₁ with
    | ok a => exact hf a j₁ hmi (hvalue a rfl) r j hrun
    | error e =>
      cases hrun
      refine ⟨fun a ha => ?_, fun name he => herror name ?_⟩
      · cases ha
      · cases he
        rfl

end Eval

/-! ### One expression at a time -/

section Walk
open Eval

variable {R : Set String} {n : Nat} {env : Env} {e e₁ e₂ bound body : Expr} {x : String}
  {items before after : List Expr}

/-- Calls from any interpreter lead to values about names in scope, when no closure is taken from a
name outside `R` in the body. -/
def CallsLead (R : Set String) (n : Nat) : Prop :=
  ∀ c v i, Grounded R c.toExpr → Grounded R v →
    (∀ m, n = m + 1 → checkDepth i = some (.ok (), i) →
      Task.Keeps R ⟨m, c.scope v, c.body, i.enter c v⟩) →
    Leads R i (apply n c v) (Grounded R)

/-- Evaluation of the expression where all its names are in scope, or in `R`. -/
def LeadsOn (R : Set String) (n : Nat) (e : Expr) : Prop :=
  ∀ ⦃env : Env⦄ ⦃i : Interpreter⦄, Task.Keeps R ⟨n, env, e, i⟩ → env.Grounded R →
    e.Scoped (env.names ∪ R) → Leads R i (eval n env e) (Grounded R)

theorem leadsOn_var (x : String) : LeadsOn R n (.var x) := by
  intro env i _ henv hscoped
  unfold eval evalWith
  cases hx : env.get? x with
  | some v => exact leads_pure (henv x v hx)
  | none =>
    refine leads_throw fun name hname => ?_
    cases hname
    cases hscoped with
    | var hmem => exact hmem.resolve_left (by simp [Env.names, hx])

theorem LeadsOn.app (hcall : CallsLead R n) (h₁ : LeadsOn R n e₁) (h₂ : LeadsOn R n e₂) :
    LeadsOn R n (.app e₁ e₂) := by
  intro env i hkeeps henv hscoped
  cases hscoped with
  | app hs₁ hs₂ =>
    unfold eval evalWith
    refine (h₁ (hkeeps.enters .func) henv hs₁).bind ?_
    intro f j hrun hf
    cases hf with
    | number | boolean | list => exact leads_throw fun _ he => by cases he
    | @closure id x body captured self hcaptured hbody =>
      refine (h₂ (hkeeps.enters (.argument (c := ⟨id, x, body, captured, self⟩) hrun)) henv hs₂).bind ?_
      intro v k hrun' hv
      refine hcall ⟨id, x, body, captured, self⟩ v k (.closure hcaptured hbody) hv ?_
      rintro m rfl hdepth
      exact hkeeps.enters (.body (c := ⟨id, x, body, captured, self⟩) hrun hrun' hdepth)

theorem LeadsOn.ite (hc : LeadsOn R n e) (h₁ : LeadsOn R n e₁) (h₂ : LeadsOn R n e₂) :
    LeadsOn R n (.ite e e₁ e₂) := by
  intro env i hkeeps henv hscoped
  cases hscoped with
  | ite hs hs₁ hs₂ =>
    unfold eval evalWith
    refine (hc (hkeeps.enters .condition) henv hs).bind ?_
    intro v j hrun hv
    cases hv with
    | boolean b =>
      have hbranch := hkeeps.enters (.branch hrun)
      cases b with
      | true => exact h₁ hbranch henv hs₁
      | false => exact h₂ hbranch henv hs₂
    | number | list | closure => exact leads_throw fun _ he => by cases he

/-- A closure is scoped under its new name, and if it is lost under the old one, that is in `R`. -/
theorem leads_tie {v : Expr} {i : Interpreter} (hv : Grounded R v)
    (hold : ∀ c : Closure, v = c.toExpr → ∀ name, c.Loses x name → name ∈ R) :
    Leads R i (tie x v) (Grounded R) := by
  cases hv with
  | number n => exact leads_pure (.number n)
  | boolean b => exact leads_pure (.boolean b)
  | list hvs => exact leads_pure (.list hvs)
  | @closure id y inner captured self hcaptured hinner =>
    refine leads_of_run rfl (fun a ha => ?_) fun _ he => by cases he
    cases ha
    refine .closure hcaptured (hinner.mono fun z hread hz => ?_)
    by_cases hzx : z = x
    · exact .inl (.inr (.inl (by rw [hzx]; rfl)))
    · by_cases hzy : z = y
      · exact .inl (.inl hzy)
      · rcases hz with (hz | hself | hz) | hz
        · exact absurd hz hzy
        · exact .inr (hold ⟨id, y, inner, captured, self⟩ rfl z ⟨hself, hzx, hzy, hread⟩)
        · exact .inl (.inr (.inr hz))
        · exact .inr hz

/-- A lambda has no name yet. -/
theorem isLam_eq_false_of_self {c : Closure} {f : String} {env : Env} {i j : Interpreter}
    (hrun : eval n env bound i = some (.ok c.toExpr, j)) (hself : c.self = some f) :
    bound.isLam = false := by
  cases bound with
  | lam y inner =>
    rw [eval, run_lam] at hrun
    obtain ⟨id, x, body, captured, self⟩ := c
    cases hrun
    cases hself
  | _ => rfl

theorem scoped_insert {env : Env} {v : Expr} (h : e.Scoped (insert x (env.names ∪ R))) :
    e.Scoped (Env.names (env.insert x v) ∪ R) := by
  rwa [Env.names_insert, Set.insert_union]

theorem LeadsOn.letIn {recursive : Bool} (hbound : LeadsOn R n bound) (hbody : LeadsOn R n body) :
    LeadsOn R n (.letIn recursive x bound body) := by
  intro env i hkeeps henv hscoped
  cases hscoped with
  | letIn hs hs' =>
    rw [eval, evalWith_letIn]
    refine (hbound (hkeeps.enters .bound) henv hs).bind ?_
    intro v j hrun hv
    have htied : Leads R j (if recursive then tie x v else pure v) (Grounded R) := by
      cases recursive with
      | false => exact leads_pure hv
      | true =>
        refine leads_tie hv fun c hc name hloses => hkeeps name ⟨x, c, ?_, hloses⟩
        subst hc
        exact ⟨n, env, bound, body, i, j, .refl, isLam_eq_false_of_self hrun hloses.self, hrun⟩
    refine htied.bind ?_
    intro w k hrun' hw
    exact hbody (hkeeps.enters (.rest hrun hrun')) (henv.insert hw x) (scoped_insert hs')
  | @letRec _ _ y inner _ hinner hs' =>
    -- the lambda is scoped where its closure has been tied, not where it becomes one
    intro r j hrun
    rw [eval, run_letRec] at hrun
    have htied : Grounded R (.closure (i.nextId + 1) y inner env (some x)) := by
      refine .closure henv (hinner.mono fun z _ hz => ?_)
      rcases hz with hz | hz | hz | hz
      · exact .inl (.inl hz)
      · exact .inl (.inr (.inl (by rw [hz]; rfl)))
      · exact .inl (.inr (.inr hz))
      · exact .inr hz
    exact hbody (hkeeps.enters .recursiveRest) (henv.insert htied x) (scoped_insert hs') r j hrun

/-- The items that are left, after some whose evaluation has come to the interpreter. -/
theorem leads_evalItems {i j : Interpreter} {vs : List Expr} (before : List Expr)
    (hkeeps : Task.Keeps R ⟨n, env, .list (before ++ after), i⟩) (henv : env.Grounded R)
    (hitems : ∀ e ∈ after, LeadsOn R n e) (hscoped : ∀ e ∈ after, e.Scoped (env.names ∪ R))
    (hrun : evalItems (apply n) env before i = some (.ok vs, j)) :
    Leads R j (evalItems (apply n) env after) fun vs => ∀ v ∈ vs, Grounded R v := by
  induction after generalizing before vs j with
  | nil =>
    unfold evalItems
    exact leads_pure (by simp)
  | cons item after ih =>
    obtain ⟨hitem, hafter⟩ := List.forall_mem_cons.1 hitems
    obtain ⟨hs, hs'⟩ := List.forall_mem_cons.1 hscoped
    unfold evalItems
    refine (hitem (hkeeps.enters (.item hrun)) henv hs).bind ?_
    intro v k hrun₁ hv
    have hdone := run_items_snoc hrun hrun₁
    rw [← List.singleton_append, ← List.append_assoc] at hkeeps
    refine (ih (before ++ [item]) hkeeps hafter hs' hdone).bind ?_
    intro vs' _ _ hvs'
    exact leads_pure (List.forall_mem_cons.2 ⟨hv, hvs'⟩)

theorem LeadsOn.list (hitems : ∀ e ∈ items, LeadsOn R n e) : LeadsOn R n (.list items) := by
  intro env i hkeeps henv hscoped
  cases hscoped with
  | list hs =>
    unfold eval evalWith
    refine (leads_evalItems [] hkeeps henv hitems hs (by unfold evalItems; rfl)).bind ?_
    intro vs j _ hvs
    exact leads_pure (.list hvs)

theorem leadsOn_of_calls (hcall : CallsLead R n) (e : Expr) : LeadsOn R n e := by
  induction e using Expr.induct with
  | number k =>
    intro env i _ _ _
    unfold eval evalWith
    exact leads_pure (.number k)
  | boolean b =>
    intro env i _ _ _
    unfold eval evalWith
    exact leads_pure (.boolean b)
  | var x => exact leadsOn_var x
  | lam x body _ =>
    intro env i _ henv hscoped
    cases hscoped with
    | lam hs =>
      refine leads_of_run (run_lam _ _ _ _ _) (fun a ha => ?_) fun _ he => by cases he
      cases ha
      refine .closure henv (hs.mono fun z _ hz => ?_)
      rcases hz with hz | hz | hz
      · exact .inl (.inl hz)
      · exact .inl (.inr (.inr hz))
      · exact .inr hz
  | app e₁ e₂ ih₁ ih₂ => exact ih₁.app hcall ih₂
  | ite e e₁ e₂ ih ih₁ ih₂ => exact ih.ite ih₁ ih₂
  | letIn recursive x bound body ih ihbody => exact ih.letIn ihbody
  | list items ih => exact LeadsOn.list ih
  | prim op =>
    intro env i _ henv hscoped
    cases hscoped with
    | prim hx hy =>
      unfold eval evalWith
      rcases Primitive.answers_eval henv hx hy with ⟨u, hu, hgrounded⟩ | ⟨err, herr, hname⟩
      · rw [hu]
        exact leads_pure hgrounded
      · rw [herr]
        exact leads_throw hname
  | closure id x body captured self =>
    intro env i _ _ hscoped
    cases hscoped

theorem callsLead (R : Set String) (n : Nat) : CallsLead R n := by
  induction n with
  | zero =>
    intro c v i _ _ _ r j hrun
    cases hrun
  | succ n ih =>
    intro c v i hc hv hkeeps
    obtain ⟨henv, hscoped⟩ := hc.scope hv
    have hbody := leadsOn_of_calls ih c.body
    rcases checkDepth_cases i with hdepth | ⟨limit, -, hdepth⟩
    · intro r j hrun
      rw [run_apply hdepth] at hrun
      obtain ⟨⟨r', j'⟩, hinner, hleave⟩ := Option.map_eq_some_iff.1 hrun
      cases hleave
      exact hbody (hkeeps n rfl hdepth) henv hscoped r' j' hinner
    · exact leads_of_run (run_apply_error hdepth n c v) (fun _ ha => by cases ha)
        fun _ he => by cases he

end Walk

/-- A program that has a type looks up a name in vain only if a recursive `let` speaks of the name in
what it binds, which is no lambda, or if a closure that calls itself by the name is tied to another. -/
theorem eval_unboundVariable (e : Expr) (t : Ty) (hinfer : inferType e = .ok t) (fuel : Nat)
    (i j : Interpreter) (name : String)
    (h : eval fuel .initial e i = some (.error (.unboundVariable name), j)) :
    name ∈ e.looseBinders ∨ Task.Reties ⟨fuel, .initial, e, i⟩ name := by
  have htyped := (typed_of_infer Context.closed_initial (Prod.ext hinfer rfl) .unknown).2
  let R : Set String := {y | y ∈ e.looseBinders ∨ Task.Reties ⟨fuel, .initial, e, i⟩ y}
  have hscoped : e.Scoped (Env.initial.names ∪ R) := by
    refine Expr.scoped_of_freeVars htyped.isSource (fun y hy => .inl ?_) fun y hy => .inr (.inl hy)
    obtain ⟨s, hs⟩ := Option.isSome_iff_exists.1 (htyped.bound_of_mem_freeVars hy)
    obtain ⟨v, hv, -⟩ := Env.supplies_initial y s hs
    exact Option.isSome_iff_exists.2 ⟨v, hv⟩
  have hleads : LeadsOn R fuel e := leadsOn_of_calls (callsLead R fuel) e
  exact (hleads (fun _ => .inr) (Env.grounded_initial R) hscoped _ j h).2 name rfl

theorem eval_unboundVariable_self :
    let e : Expr := .letIn true "x" (.var "x") (.number 1)
    inferType e = .ok .number ∧
      ∃ j, eval 1 .initial e (.new none 8) = some (.error (.unboundVariable "x"), j) ∧
        ("x" ∈ e.looseBinders ∨ Task.Reties ⟨1, .initial, e, .new none 8⟩ "x") := by
  intro e
  have hinfer : inferType e = .ok .number := by cbv
  have hrun : ∃ j, eval 1 .initial e (.new none 8) = some (.error (.unboundVariable "x"), j) :=
    ⟨_, by cbv⟩
  obtain ⟨j, hj⟩ := hrun
  exact ⟨hinfer, j, hj, eval_unboundVariable e _ hinfer 1 _ j "x" hj⟩

/-- A helper that calls the function under definition is closed over an environment without it. -/
theorem unboundVariable_of_typed_helper :
    let e : Expr := .letIn true "f"
      (.letIn false "g"
        (.lam "x" (.ite (.binary "equals" (.var "x") (.number 0)) (.number 0)
          (.app (.var "f") (.binary "subtract" (.var "x") (.number 1)))))
        (.lam "y" (.app (.var "g") (.var "y"))))
      (.app (.var "f") (.number 3))
    e.isSource = true ∧ inferType e = .ok .number ∧
      ∃ j, eval 8 .initial e (.new none Env.builtinCount) =
        some (.error (.unboundVariable "f"), j) := by
  dsimp only
  exact ⟨by decide, by cbv, _, by cbv⟩

end LetPoly
