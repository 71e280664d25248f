import LetPoly.Proofs.Agreement

/-! Evaluation depends on what the free names stand for, and on nothing else that is in scope. Closures carry
all of their scope along, so values that come of two scopes are compared by what their bodies look up
(`Expr.Agrees`). The two evaluations keep step as a program next to itself, in scopes that need not agree on
any name (`meet_of_agreeing`); under a limit they are stopped together. -/

namespace LetPoly

namespace Expr

/-- The same value, or closures that are the same but for their numbers and for what their environments
have for names that the body does not look up there. -/
inductive Agrees : Expr → Expr → Prop
  | same (v : Expr) : Agrees v v
  | list {vs vs' : List Expr} : List.Forall₂ Agrees vs vs' → Agrees (.list vs) (.list vs')
  | closure {id id' : Nat} {x : String} {body : Expr} {env env' : Env} {self : Option String} :
      (∀ y ∈ body.reads, y ≠ x → self ≠ some y → Option.Rel Agrees (env.get? y) (env'.get? y)) →
      Agrees (.closure id x body env self) (.closure id' x body env' self)

/-- Closures agree if they have the same binder, body and own name, and environments that agree on what the
body looks up there. -/
theorem agrees_closure_iff {id id' : Nat} {x x' : String} {body body' : Expr} {env env' : Env}
    {self self' : Option String} :
    Agrees (.closure id x body env self) (.closure id' x' body' env' self') ↔
      x = x' ∧ body = body' ∧ self = self' ∧
        ∀ y ∈ body.reads, y ≠ x → self ≠ some y → Option.Rel Agrees (env.get? y) (env'.get? y) := by
  constructor
  · intro h
    cases h with
    | same =>
      refine ⟨rfl, rfl, rfl, fun y _ _ _ => ?_⟩
      cases env.get? y with
      | none => exact .none
      | some v => exact .some (.same v)
    | closure h => exact ⟨rfl, rfl, rfl, h⟩
  · rintro ⟨rfl, rfl, rfl, h⟩
    exact .closure h

/-- A free variable is looked up. -/
theorem mem_reads_of_mem_freeVars {e : Expr} {y : String} (h : y ∈ e.freeVars) : y ∈ e.reads := by
  induction e using Expr.induct with
  | number | boolean | prim | closure => cases h
  | var x => exact h
  | lam x body ih =>
    simp only [freeVars, reads, List.mem_filter] at h ⊢
    exact ⟨ih h.1, h.2⟩
  | app f a ihf iha =>
    simp only [freeVars, reads, List.mem_append] at h ⊢
    exact h.imp ihf iha
  | ite c t e ihc iht ihe =>
    simp only [freeVars, reads, List.mem_append] at h ⊢
    exact h.imp (Or.imp ihc iht) ihe
  | letIn recursive x bound body ih ihbody =>
    simp only [reads, List.mem_append, List.mem_filter, decide_eq_true_eq]
    cases recursive with
    | false =>
      simp only [freeVars, List.mem_append, List.mem_filter, decide_eq_true_eq] at h
      exact h.imp ih fun hy => ⟨ihbody hy.1, hy.2⟩
    | true =>
      simp only [freeVars, List.mem_append, List.mem_filter, decide_eq_true_eq] at h
      obtain ⟨h, hne⟩ := h
      refine h.imp (fun hy => ?_) fun hy => ⟨ihbody hy, hne⟩
      split
      · exact List.mem_filter.2 ⟨ih hy, decide_eq_true hne⟩
      · exact ih hy
  | list items ih =>
    obtain ⟨e, he, hy⟩ := mem_freeVarsAll.1 h
    exact mem_readsAll.2 ⟨e, he, ih e he hy⟩

/-- In a program whose recursive `let`s bind lambdas, evaluation looks up the free variables. -/
theorem mem_reads_iff {e : Expr} {y : String} (hsource : e.isSource = true)
    (hties : e.tiesLambdas = true) : y ∈ e.reads ↔ y ∈ e.freeVars := by
  refine ⟨fun h => ?_, mem_reads_of_mem_freeVars⟩
  refine (mem_freeVars_or_looseBinders hsource h).resolve_right fun hloose => ?_
  rw [looseBinders_of_tiesLambdas hties] at hloose
  cases hloose

/-- Each name that is looked up stands for one. -/
theorem Matches.exists_of_mem_reads {B N : Naming} {e e' : Expr} (h : Matches B N e e') {y : String}
    (hy : y ∈ e.reads) : ∃ y', N y y' := by
  -- below a binder the name stands for one that is none of the binders
  have under : ∀ {N : Naming} {x x' : String}, y ≠ x → (∃ y', N.bind x x' y y') → ∃ y', N y y' := by
    rintro N x x' hne ⟨y', ⟨rfl, -⟩ | ⟨-, -, h⟩⟩
    · exact absurd rfl hne
    · exact ⟨y', h⟩
  induction h with
  | number | boolean | nil | closure => cases hy
  | @var N x x' hx =>
    rw [reads, List.mem_singleton] at hy
    exact ⟨x', hy ▸ hx⟩
  | lam _ _ ih =>
    simp only [reads, List.mem_filter, decide_eq_true_eq] at hy
    exact under hy.2 (ih hy.1)
  | app _ _ ihf iha =>
    rcases List.mem_append.1 hy with hy | hy
    · exact ihf hy
    · exact iha hy
  | ite _ _ _ ihc iht ihe =>
    simp only [reads, List.mem_append] at hy
    rcases hy with (hy | hy) | hy
    · exact ihc hy
    · exact iht hy
    · exact ihe hy
  | @letIn N recursive x x' bound bound' body body' hlam _ _ _ ih ihbody =>
    have hbare : (recursive && bound.isLam) = false := by
      cases recursive with
      | false => rfl
      | true => exact hlam rfl
    simp only [reads, hbare, Bool.false_eq_true, if_false, List.mem_append, List.mem_filter,
      decide_eq_true_eq] at hy
    rcases hy with hy | ⟨hy, hne⟩
    · exact ih hy
    · exact under hne (ihbody hy)
  | letRec hlam _ _ _ ih ihbody =>
    simp only [reads, hlam, Bool.and_self, if_true, List.mem_append, List.mem_filter,
      decide_eq_true_eq] at hy
    rcases hy with ⟨hy, hne⟩ | ⟨hy, hne⟩
    · exact under hne (ih hy)
    · exact under hne (ihbody hy)
  | cons _ _ ih ihes =>
    simp only [reads, readsAll, List.mem_append] at hy ihes
    rcases hy with hy | hy
    · exact ih hy
    · exact ihes hy
  | @prim N op hx hy' =>
    simp only [reads] at hy
    split at hy
    · next harity =>
      simp only [List.mem_cons, List.not_mem_nil, or_false] at hy
      rcases hy with rfl | rfl
      · exact ⟨_, hx⟩
      · exact ⟨_, hy' harity⟩
    · rw [List.mem_singleton] at hy
      exact ⟨_, hy ▸ hx⟩

end Expr

/-! ### Values that agree are values that match -/

namespace Correspondence

variable {N : Naming} {v v' : Expr} {err err' : EvalError}

theorem names_except_univ : (except Set.univ).names N ↔ ∀ y y', N y y' → y = y' :=
  ⟨fun h => h.1, fun h => ⟨h, fun y hy => absurd (Set.mem_univ y) hy⟩⟩

theorem selves_eq {self self' : Option String} :
    Option.Rel (except Set.univ).binders self self' ↔ self = self' := by
  constructor
  · intro h
    cases h with
    | none => rfl
    | some h => exact congrArg some h
  · rintro rfl
    cases self with
    | none => exact .none
    | some f => exact .some rfl

theorem Values.of_agrees (h : v.Agrees v') : (except Set.univ).Values v v' := by
  refine @Expr.Agrees.rec (fun v v' _ => (except Set.univ).Values v v')
    (fun vs vs' _ => List.Forall₂ (except Set.univ).Values vs vs')
    (fun o o' _ => Option.Rel (except Set.univ).Values o o')
    .same (fun _ => .list) ?closure .nil (fun _ _ => .cons) (fun _ => .some) .none v v' h
  case closure =>
    intro id id' x body env env' self _ henv
    let N : Naming := fun y y' => y = y' ∧ y ∈ body.reads ∧ y ≠ x ∧ self ≠ some y
    have hN : (except Set.univ).names N := names_except_univ.2 fun y y' h => h.1
    refine .closure hN rfl (selves_eq.2 rfl) ?_ ?_
    · refine (Expr.matches_refl (fun _ => rfl) body).mono fun y hy y' _ hyy' => ?_
      subst hyy'
      by_cases hx : y = x
      · exact .inl ⟨hx, hx⟩
      · refine .inr ⟨hx, hx, ?_⟩
        cases self with
        | none => exact ⟨rfl, hy, hx, nofun⟩
        | some f =>
          by_cases hf : y = f
          · exact .inl ⟨hf, hf⟩
          · exact .inr ⟨hf, hf, rfl, hy, hx, fun h => hf (Option.some.inj h).symm⟩
    · rintro y _ ⟨rfl, hy, hx, hself⟩
      exact henv y hy hx hself

theorem Values.agrees (h : (except Set.univ).Values v v') : v.Agrees v' := by
  refine @Values.rec (except Set.univ) (fun v v' _ => v.Agrees v')
    (fun vs vs' _ => List.Forall₂ Expr.Agrees vs vs') (fun o o' _ => Option.Rel Expr.Agrees o o')
    .same (fun _ => .list) ?closure .nil (fun _ _ => .cons) (fun _ => .some) .none v v' h
  case closure =>
    intro N id id' x x' body body' env env' self self' hN hx hself hbody _ henv
    obtain rfl : x = x' := hx
    obtain rfl := selves_eq.1 hself
    have hsame : ∀ y y', (N.tie self self).bind x x y y' → y = y' := by
      refine names_except_univ.1 ((except Set.univ).bind ?_ rfl)
      cases self with
      | none => exact hN
      | some f => exact (except Set.univ).bind hN rfl
    obtain rfl := Expr.Matches.eq (hbody.mono fun y _ y' _ => hsame y y')
    refine .closure fun y hy hne hown => ?_
    -- the name is looked up in what the closure has captured
    obtain ⟨y', hyy'⟩ := hbody.exists_of_mem_reads hy
    obtain rfl := hsame y y' hyy'
    rcases hyy' with ⟨h, -⟩ | ⟨-, -, htie⟩
    · exact absurd h hne
    · rcases Naming.tie_cases hself htie with ⟨h, -⟩ | ⟨-, -, hNy⟩
      · exact absurd h hown
      · exact henv y y hNy

theorem Errors.agrees (h : (except Set.univ).Errors err err') :
    EvalError.Alike Eq Expr.Agrees err err' := by
  cases h with
  | unboundVariable h =>
    obtain ⟨N, hN, h⟩ := h
    exact .unboundVariable (names_except_univ.1 hN _ _ h)
  | notAFunction h => exact .notAFunction h.agrees
  | notABoolean h => exact .notABoolean h.agrees
  | notAList h => exact .notAList h.agrees
  | emptyListAccess op => exact .emptyListAccess op
  | invalidOperands op h => exact .invalidOperands op (h.imp fun _ _ => Values.agrees)

end Correspondence

/-! ### Evaluations in scopes that agree -/

/-- Outcomes that agree: values that do, or errors of one kind about the same names or about values that
do, or the same limit. -/
inductive Eval.Agrees : Except EvalError Expr → Except EvalError Expr → Prop
  | alike {r r' : Except EvalError Expr} :
      Eval.Alike Expr.Agrees (EvalError.Alike Eq Expr.Agrees) r r' → Agrees r r'
  | limit (n : Nat) : Agrees (.error (.recursionLimit n)) (.error (.recursionLimit n))

variable {env env' : Env} {e : Expr}

theorem meet_of_agreeing (he : e.Plain) (henv : env.Plain)
    (h : ∀ y ∈ e.reads, Option.Rel Expr.Agrees (env.get? y) (env'.get? y)) (n id id' : Nat) :
    Eval.Meet Expr.Agrees (EvalError.Alike Eq Expr.Agrees) (eval n env e (.new none id))
      (eval n env' e (.new none id')) := by
  let K := Correspondence.except Set.univ
  let N : Naming := fun y y' => y = y' ∧ y ∈ e.reads
  have hscopes : K.Scopes N env env' := by
    rintro y _ ⟨rfl, hy⟩
    have hagrees := h y hy
    generalize env.get? y = o, env'.get? y = o' at hagrees
    cases hagrees with
    | none => exact .none
    | some hv => exact .some (.of_agrees hv)
  have hmatch : e.Matches K.binders N e :=
    (Expr.matches_refl (fun _ => rfl) e).mono fun y hy y' _ hyy' => ⟨hyy', hy⟩
  have hnames : K.names N := Correspondence.names_except_univ.2 fun y y' h => h.1
  have hleft : Task.Confined K.left ⟨n, env, e, .new none id⟩ :=
    ⟨rfl, fun f c hties => absurd hties (Task.not_ties_of_plain henv he f c)⟩
  have hright : Task.Confined K.right ⟨n, env', e, .new none id'⟩ := ⟨rfl, fun _ _ _ => trivial⟩
  have hmeet := K.meet_eval hnames hscopes hmatch hleft hright
  exact hmeet.imp (fun _ _ => Correspondence.Values.agrees) fun _ _ => Correspondence.Errors.agrees

namespace Interpreter

/-- New interpreters with the same limit come to outcomes that agree, or neither comes to one. -/
theorem gives_of_agreeing (he : e.Plain) (henv : env.Plain)
    (h : ∀ y ∈ e.reads, Option.Rel Expr.Agrees (env.get? y) (env'.get? y)) (limit : Option Nat)
    (id id' : Nat) :
    (∃ r r', Gives limit id env e r ∧ Gives limit id' env' e r' ∧ Eval.Agrees r r') ∨
      (∀ r, ¬ Gives limit id env e r) ∧ ∀ r, ¬ Gives limit id' env' e r := by
  have hmeet := meet_of_agreeing he henv h
  have hfinished : ∀ {n r j}, eval n env e (new none id) = some (r, j) →
      ∃ r' j', eval n env' e (new none id') = some (r', j') ∧ Eval.Agrees r r' := by
    intro n r j hrun
    have hn := hmeet n id id'
    rw [hrun] at hn
    generalize eval n env' e (new none id') = o at hn
    cases hn with
    | finished hr => exact ⟨_, _, rfl, .alike hr⟩
  have hunfinished : ∀ {n}, eval n env e (new none id) = none →
      eval n env' e (new none id') = none := by
    intro n hrun
    have hn := hmeet n id id'
    rw [hrun] at hn
    generalize eval n env' e (new none id') = o at hn
    cases hn
    rfl
  cases limit with
  | some n =>
    cases hrun : eval n env e (new none id) with
    | none =>
      exact .inl ⟨_, _, gives_limit_of_unfinished hrun, gives_limit_of_unfinished (hunfinished hrun),
        .limit n⟩
    | some p =>
      obtain ⟨r', j', hrun', hr⟩ := hfinished hrun
      exact .inl ⟨_, _, gives_some_of_eval hrun, gives_some_of_eval hrun', hr⟩
  | none =>
    by_cases hgives : ∃ r, Gives none id env e r
    · obtain ⟨r, n, j, hrun⟩ := hgives
      obtain ⟨r', j', hrun', hr⟩ := hfinished hrun
      exact .inl ⟨r, r', ⟨n, j, hrun⟩, ⟨n, j', hrun'⟩, hr⟩
    · refine .inr ⟨fun r hr => hgives ⟨r, hr⟩, ?_⟩
      rintro r ⟨n, j, hrun⟩
      rw [hunfinished (Option.eq_none_iff_forall_ne_some.2 fun p hp => hgives ⟨p.1, n, p.2, hp⟩)] at hrun
      cases hrun

end Interpreter

/-- A program whose recursive `let`s bind lambdas comes to outcomes that agree, or to none, in any two
scopes that have values that agree for its free variables. The closures in scope are of such programs or of
the built-in names, as are all that evaluation makes there (`tiesOnly_of_eval`). -/
theorem eval_of_free (e : Expr) (hsource : e.isSource = true) (hties : e.tiesLambdas = true)
    (env env' : Env) (henv : env.Plain)
    (h : ∀ y ∈ e.freeVars, Option.Rel Expr.Agrees (env.get? y) (env'.get? y)) (limit : Option Nat)
    (id id' : Nat) :
    (∃ r r', Interpreter.Gives limit id env e r ∧ Interpreter.Gives limit id' env' e r' ∧
        Eval.Agrees r r') ∨
      (∀ r, ¬ Interpreter.Gives limit id env e r) ∧ ∀ r, ¬ Interpreter.Gives limit id' env' e r := by
  refine Interpreter.gives_of_agreeing (Expr.tiesOnly_of_isSource hsource hties) henv ?_ limit id id'
  exact fun y hy => h y ((Expr.mem_reads_iff hsource hties).1 hy)

/-- The functions called `f` have captured scopes that agree on `k`, and `g` is in one of the scopes only. -/
theorem eval_of_free_captured :
    let body : Expr := .list [.var "x", .var "k"]
    let captured : Env := [("k", .number 5)]
    let captured' : Env := [("y", .boolean true), ("k", .number 5), ("x", .number 0)]
    let env : Env := [("f", .closure 20 "x" body captured none), ("g", .number 3)]
    let env' : Env := [("f", .closure 21 "x" body captured' none)]
    let e : Expr := .app (.lam "g" (.app (.var "f") (.var "g"))) (.number 1)
    Interpreter.Gives (some 2) 30 env e (.ok (.list [.number 1, .number 5])) ∧
      ∃ r, Interpreter.Gives (some 2) 40 env' e r ∧
        Eval.Agrees (.ok (.list [.number 1, .number 5])) r := by
  intro body captured captured' env env' e
  have hgives : Interpreter.Gives (some 2) 30 env e (.ok (.list [.number 1, .number 5])) :=
    ⟨_, by cbv⟩
  have hnil : Env.Plain [] := fun y v h => by cases h
  have hcaptured : Env.Plain captured := hnil.insert (.number 5) "k"
  have hplain : env.Plain := by
    have hbody : body.Plain := Expr.tiesOnly_of_isSource (by decide) (by decide)
    exact (hnil.insert (.number 3) "g").insert (.closure hbody hcaptured) "f"
  have hagrees : Expr.Agrees (.closure 20 "x" body captured none)
      (.closure 21 "x" body captured' none) := by
    refine Expr.agrees_closure_iff.2 ⟨rfl, rfl, rfl, fun y hy hne _ => ?_⟩
    have hy : y = "x" ∨ y = "k" := by simpa [body, Expr.reads, Expr.readsAll] using hy
    rcases hy with rfl | rfl
    · exact absurd rfl hne
    · exact .some (.same _)
  have hfree : ∀ y ∈ e.freeVars, Option.Rel Expr.Agrees (env.get? y) (env'.get? y) := by
    intro y hy
    have hy : y = "f" := by simpa [e, Expr.freeVars] using hy
    subst hy
    exact .some hagrees
  rcases eval_of_free e (by decide) (by decide) env env' hplain hfree (some 2) 30 40 with
    ⟨r, r', hr, hr', h⟩ | ⟨hnone, -⟩
  · obtain rfl := hr.unique hgives
    exact ⟨hgives, r', hr', h⟩
  · exact absurd hgives (hnone _)

end LetPoly
