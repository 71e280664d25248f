import LetPoly.Proofs.Alpha
import LetPoly.Proofs.Tying

/-! Two evaluations in which names stand for one another. A name counts where evaluation looks it up, and
expressions match that differ in names which stand for one another (`Expr.Matches`). Evaluations of such
expressions keep step, and come to values that match, as long as a closure which a recursive `let` ties
matches under its new name as it did under the old one (`Correspondence.meet_eval`). When it does is what
a `Correspondence` is about. -/

namespace LetPoly

namespace Naming

variable {N : Naming} {y y' : String}

/-- The naming in the scope of the own names of two closures. -/
def tie (N : Naming) : Option String → Option String → Naming
  | some f, some f' => N.bind f f'
  | _, _ => N

/-- Names stand for one another as own names of the closures, or as they did before. -/
theorem tie_cases {B : Naming} {self self' : Option String} (hself : Option.Rel B self self')
    (h : N.tie self self' y y') :
    self = some y ∧ self' = some y' ∨ self ≠ some y ∧ self' ≠ some y' ∧ N y y' := by
  cases hself with
  | none => exact .inr ⟨nofun, nofun, h⟩
  | some =>
    rcases h with ⟨rfl, rfl⟩ | ⟨hy, hy', hN⟩
    · exact .inl ⟨rfl, rfl⟩
    · exact .inr ⟨fun h => hy (Option.some.inj h).symm, fun h => hy' (Option.some.inj h).symm, hN⟩

theorem eq_tie (self : Option String) : tie Eq self self = Eq := by
  cases self with
  | none => rfl
  | some f => exact eq_bind f

end Naming

namespace Expr

/-- Expressions that are the same but for names: `B` says which binders may stand for one another, and
`N` which names that evaluation looks up. -/
inductive Matches (B : Naming) : Naming → Expr → Expr → Prop
  | number {N : Naming} (n : Int64) : Matches B N (.number n) (.number n)
  | boolean {N : Naming} (b : Bool) : Matches B N (.boolean b) (.boolean b)
  | var {N : Naming} {x x' : String} : N x x' → Matches B N (.var x) (.var x')
  | lam {N : Naming} {x x' : String} {body body' : Expr} : B x x' →
      Matches B (N.bind x x') body body' → Matches B N (.lam x body) (.lam x' body')
  | app {N : Naming} {f f' a a' : Expr} : Matches B N f f' → Matches B N a a' →
      Matches B N (.app f a) (.app f' a')
  | ite {N : Naming} {c c' t t' e e' : Expr} : Matches B N c c' → Matches B N t t' →
      Matches B N e e' → Matches B N (.ite c t e) (.ite c' t' e')
  | letIn {N : Naming} {recursive : Bool} {x x' : String} {bound bound' body body' : Expr} :
      (recursive = true → bound.isLam = false) → B x x' → Matches B N bound bound' →
      Matches B (N.bind x x') body body' →
      Matches B N (.letIn recursive x bound body) (.letIn recursive x' bound' body')
  | letRec {N : Naming} {f f' : String} {bound bound' body body' : Expr} : bound.isLam = true →
      B f f' → Matches B (N.bind f f') bound bound' → Matches B (N.bind f f') body body' →
      Matches B N (.letIn true f bound body) (.letIn true f' bound' body')
  | nil {N : Naming} : Matches B N (.list []) (.list [])
  | cons {N : Naming} {e e' : Expr} {es es' : List Expr} : Matches B N e e' →
      Matches B N (.list es) (.list es') → Matches B N (.list (e :: es)) (.list (e' :: es'))
  | prim {N : Naming} {op : Primitive} : N "x" "x" → (op.arity = 2 → N "y" "y") →
      Matches B N (.prim op) (.prim op)
  | closure {N : Naming} (id : Nat) (x : String) (body : Expr) (env : Env) (self : Option String) :
      Matches B N (.closure id x body env self) (.closure id x body env self)

variable {B N N' : Naming} {e e' : Expr} {es : List Expr}

theorem matches_list_iff :
    Matches B N (.list es) e' ↔ ∃ es', e' = .list es' ∧ List.Forall₂ (Matches B N) es es' := by
  induction es generalizing e' with
  | nil =>
    constructor
    · intro h
      cases h
      exact ⟨[], rfl, .nil⟩
    · rintro ⟨es', rfl, h⟩
      cases h
      exact .nil
  | cons e es ih =>
    constructor
    · intro h
      cases h with
      | cons he hes =>
        obtain ⟨es', hlist, hes'⟩ := ih.1 hes
        cases hlist
        exact ⟨_, rfl, .cons he hes'⟩
    · rintro ⟨es', rfl, h⟩
      cases h with
      | cons he hes => exact .cons he (ih.2 ⟨_, rfl, hes⟩)

/-- Every expression matches itself. -/
theorem matches_refl (hB : ∀ x, B x x) (e : Expr) : Matches B Eq e e := by
  induction e using Expr.induct with
  | number n => exact .number n
  | boolean b => exact .boolean b
  | var x => exact .var rfl
  | lam x body ih => exact .lam (hB x) (by rwa [Naming.eq_bind])
  | app f a ihf iha => exact .app ihf iha
  | ite c t e ihc iht ihe => exact .ite ihc iht ihe
  | letIn recursive x bound body ih ihbody =>
    have hbody : Matches B (Naming.bind Eq x x) body body := by rwa [Naming.eq_bind]
    by_cases hlam : recursive = true ∧ bound.isLam = true
    · obtain ⟨rfl, hlam⟩ := hlam
      exact .letRec hlam (hB x) (by rwa [Naming.eq_bind]) hbody
    · exact .letIn (by simpa using hlam) (hB x) ih hbody
  | list items ih =>
    exact matches_list_iff.2 ⟨items, rfl, List.forall₂_same.2 ih⟩
  | prim op => exact .prim rfl fun _ => rfl
  | closure id x body env self => exact .closure id x body env self

theorem Matches.isLam_eq (h : Matches B N e e') : e.isLam = e'.isLam := by
  cases h <;> rfl

/-- Only the names that are looked up have to stand for one another. -/
theorem Matches.mono (h : Matches B N e e')
    (hN : ∀ y ∈ e.reads, ∀ y' ∈ e'.reads, N y y' → N' y y') : Matches B N' e e' := by
  -- a name that is read below a binder is the binder or is read outside
  have under : ∀ {N N' : Naming} {x x' : String} {ys ys' : List String},
      (∀ y ∈ ys, y ≠ x → ∀ y' ∈ ys', y' ≠ x' → N y y' → N' y y') →
      ∀ y ∈ ys, ∀ y' ∈ ys', N.bind x x' y y' → N'.bind x x' y y' :=
    fun h y hy y' hy' => Naming.bind_imp fun hne hne' => h y hy hne y' hy' hne'
  induction e using Expr.induct generalizing N N' e' with
  | number n => cases h; exact .number n
  | boolean b => cases h; exact .boolean b
  | var x => cases h with
    | var hx => exact .var (hN x (by simp [reads]) _ (by simp [reads]) hx)
  | lam x body ih => cases h with
    | lam hx hbody =>
      simp only [reads, List.mem_filter, decide_eq_true_eq, and_imp] at hN
      exact .lam hx (ih hbody (under hN))
  | app f a ihf iha => cases h with
    | app hf ha =>
      simp only [reads, List.mem_append] at hN
      exact .app (ihf hf fun y hy y' hy' => hN y (.inl hy) y' (.inl hy'))
        (iha ha fun y hy y' hy' => hN y (.inr hy) y' (.inr hy'))
  | ite c t e ihc iht ihe => cases h with
    | ite hc ht he =>
      simp only [reads, List.mem_append] at hN
      exact .ite (ihc hc fun y hy y' hy' => hN y (.inl (.inl hy)) y' (.inl (.inl hy')))
        (iht ht fun y hy y' hy' => hN y (.inl (.inr hy)) y' (.inl (.inr hy')))
        (ihe he fun y hy y' hy' => hN y (.inr hy) y' (.inr hy'))
  | letIn recursive x bound body ih ihbody =>
    cases h with
    | letIn hlam hx hbound hbody =>
      have hbare : (recursive && bound.isLam) = false := by
        cases recursive with
        | false => rfl
        | true => exact hlam rfl
      have hbare' := hbare
      rw [hbound.isLam_eq] at hbare'
      simp only [reads, hbare, hbare', Bool.false_eq_true, if_false, List.mem_append,
        List.mem_filter, decide_eq_true_eq] at hN
      refine .letIn hlam hx (ih hbound fun y hy y' hy' => hN y (.inl hy) y' (.inl hy')) ?_
      exact ihbody hbody (under fun y hy hne y' hy' hne' => hN y (.inr ⟨hy, hne⟩) y' (.inr ⟨hy', hne'⟩))
    | letRec hlam hx hbound hbody =>
      have hlam' := hlam
      rw [hbound.isLam_eq] at hlam'
      simp only [reads, hlam, hlam', Bool.and_self, if_true, List.mem_append, List.mem_filter,
        decide_eq_true_eq] at hN
      refine .letRec hlam hx (ih hbound (under fun y hy hne y' hy' hne' => ?_)) ?_
      · exact hN y (.inl ⟨hy, hne⟩) y' (.inl ⟨hy', hne'⟩)
      · exact ihbody hbody
          (under fun y hy hne y' hy' hne' => hN y (.inr ⟨hy, hne⟩) y' (.inr ⟨hy', hne'⟩))
  | list items ih =>
    obtain ⟨items', rfl, hitems⟩ := matches_list_iff.1 h
    refine matches_list_iff.2 ⟨items', rfl, ?_⟩
    simp only [reads, mem_readsAll] at hN
    refine List.forall₂_iff_zip.2 ⟨hitems.length_eq, fun hmem => ?_⟩
    obtain ⟨he, he'⟩ := List.of_mem_zip hmem
    exact ih _ he ((List.forall₂_iff_zip.1 hitems).2 hmem)
      fun y hy y' hy' => hN y ⟨_, he, hy⟩ y' ⟨_, he', hy'⟩
  | prim op => cases h with
    | prim hx hy =>
      have hmem : "x" ∈ (Expr.prim op).reads := by
        unfold reads
        split <;> simp
      refine .prim (hN _ hmem _ hmem hx) fun harity => ?_
      have hmem : "y" ∈ (Expr.prim op).reads := by simp [reads, harity]
      exact hN _ hmem _ hmem (hy harity)
  | closure id x body env self => cases h; exact .closure id x body env self

end Expr

/-- What two evaluations keep to, for names to stand for one another throughout: which binders may go
together, which namings come up, and which closures the one and the other may tie to a name. Tying has to
keep bodies that match under the old names of their closures matching. -/
structure Correspondence where
  binders : Naming
  names : Naming → Prop
  left : String → Closure → Prop
  right : String → Closure → Prop
  refl (x : String) : binders x x
  eq : names Eq
  bind {N : Naming} {x x' : String} : names N → binders x x' → names (N.bind x x')
  tie {N : Naming} {f f' : String} {c c' : Closure} : names N → binders f f' →
    binders c.binder c'.binder → Option.Rel binders c.self c'.self → left f c → right f' c' →
    c.body.Matches binders ((N.tie c.self c'.self).bind c.binder c'.binder) c'.body →
    c.body.Matches binders ((N.bind f f').bind c.binder c'.binder) c'.body

namespace Correspondence

/-- Values that match: closures with bodies that match, under some naming, in environments with values
that match for the names which stand for one another. -/
inductive Values (K : Correspondence) : Expr → Expr → Prop
  | same (v : Expr) : Values K v v
  | list {vs vs' : List Expr} : List.Forall₂ (Values K) vs vs' → Values K (.list vs) (.list vs')
  | closure {N : Naming} {id id' : Nat} {x x' : String} {body body' : Expr} {env env' : Env}
      {self self' : Option String} : K.names N → K.binders x x' → Option.Rel K.binders self self' →
      body.Matches K.binders ((N.tie self self').bind x x') body' →
      (∀ y y', N y y' → Option.Rel (Values K) (env.get? y) (env'.get? y')) →
      Values K (.closure id x body env self) (.closure id' x' body' env' self')

/-- Names that stand for one another have values that match, or none of them has a value. -/
def Scopes (K : Correspondence) (N : Naming) (env env' : Env) : Prop :=
  ∀ y y', N y y' → Option.Rel K.Values (env.get? y) (env'.get? y')

/-- Errors about names that may stand for one another, or about values that match. -/
abbrev Errors (K : Correspondence) : EvalError → EvalError → Prop :=
  EvalError.Alike (fun y y' => ∃ N, K.names N ∧ N y y') K.Values

variable {K : Correspondence} {N : Naming} {env env' : Env} {v v' w w' : Expr} {c c' : Closure}
  {x x' f f' : String}

theorem likeness_values (K : Correspondence) : Likeness K.Values where
  number n := .same _
  boolean b := .same _
  list h := .list h
  number_or {v w} h := by cases h <;> (try cases v) <;> simp
  boolean_or {v w} h := by cases h <;> (try cases v) <;> simp
  list_or {v w} h := by
    cases h with
    | same => cases v <;> simp [List.forall₂_same, Values.same]
    | list h => exact .inl ⟨_, _, rfl, rfl, h⟩
    | closure => simp

theorem scopes_same (env : Env) : K.Scopes Eq env env := by
  rintro y _ rfl
  cases env.get? y with
  | none => exact .none
  | some v => exact .some (.same v)

theorem Scopes.insert (h : K.Scopes N env env') (hv : K.Values v v') (x x' : String) :
    K.Scopes (N.bind x x') (env.insert x v) (env'.insert x' v') := by
  rintro y y' (⟨rfl, rfl⟩ | ⟨hy, hy', hN⟩)
  · rw [Bindings.get?_insert, Bindings.get?_insert, if_pos rfl, if_pos rfl]
    exact .some hv
  · rw [Bindings.get?_insert, Bindings.get?_insert, if_neg (Ne.symm hy), if_neg (Ne.symm hy')]
    exact h y y' hN

/-- What makes two closures match. -/
structure Closures (K : Correspondence) (N : Naming) (c c' : Closure) : Prop where
  names : K.names N
  binders : K.binders c.binder c'.binder
  selves : Option.Rel K.binders c.self c'.self
  bodies : c.body.Matches K.binders ((N.tie c.self c'.self).bind c.binder c'.binder) c'.body
  scopes : K.Scopes N c.env c'.env

theorem Closures.values (h : K.Closures N c c') : K.Values c.toExpr c'.toExpr :=
  .closure h.names h.binders h.selves h.bodies h.scopes

theorem closures_same (K : Correspondence) (c : Closure) : K.Closures Eq c c where
  names := K.eq
  binders := K.refl _
  selves := by
    cases c.self with
    | none => exact .none
    | some f => exact .some (K.refl f)
  bodies := by
    rw [Naming.eq_tie, Naming.eq_bind]
    exact Expr.matches_refl K.refl c.body
  scopes := scopes_same c.env

/-- Either of two values that match is a closure if the other is. -/
theorem Values.closure_or (h : K.Values v v') :
    (∃ N c c', v = c.toExpr ∧ v' = c'.toExpr ∧ K.Closures N c c') ∨
      v.closure? = none ∧ v'.closure? = none := by
  cases h with
  | same => cases v with
    | closure id x body env self =>
      exact .inl ⟨Eq, ⟨id, x, body, env, self⟩, _, rfl, rfl, closures_same K _⟩
    | _ => exact .inr ⟨rfl, rfl⟩
  | list => exact .inr ⟨rfl, rfl⟩
  | @closure N id id' x x' body body' env env' self self' hN hx hself hbody henv =>
    exact .inl ⟨N, ⟨id, x, body, env, self⟩, ⟨id', x', body', env', self'⟩, rfl, rfl,
      ⟨hN, hx, hself, hbody, henv⟩⟩

/-- The bodies of closures that match are evaluated in scopes that match. -/
theorem Closures.scope (h : K.Closures N c c') (hv : K.Values v v') :
    ∃ N', K.names N' ∧ K.Scopes N' (c.scope v) (c'.scope v') ∧
      c.body.Matches K.binders N' c'.body := by
  have hselves := h.selves
  refine ⟨_, ?names, ?scopes, h.bodies⟩
  case names =>
    refine K.bind ?_ h.binders
    generalize c.self = self, c'.self = self' at hselves
    cases hselves with
    | none => exact h.names
    | some hf => exact K.bind h.names hf
  case scopes =>
    unfold Closure.scope
    refine Scopes.insert ?_ hv _ _
    generalize c.self = self, c'.self = self' at hselves
    cases hselves with
    | none => exact h.scopes
    | some hf => exact h.scopes.insert h.values _ _

/-- A closure that either evaluation may tie to a name still matches under the new name. -/
theorem Closures.tiedTo (h : K.Closures N c c') (hf : K.binders f f') (hleft : K.left f c)
    (hright : K.right f' c') (id id' : Nat) :
    K.Closures N (c.tiedTo f id) (c'.tiedTo f' id') := by
  have hbodies := K.tie h.names hf h.binders h.selves hleft hright h.bodies
  exact ⟨h.names, h.binders, .some hf, hbodies, h.scopes⟩

end Correspondence

/-! ### Keeping step -/

section Walk
open Eval

variable {K : Correspondence} {N : Naming} {n : Nat} {e e₁ e₂ bound body : Expr} {x : String}
  {items before after : List Expr}

/-- Calls of closures that match, with arguments that match, keep step. -/
def CallsMeet (K : Correspondence) (n : Nat) : Prop :=
  ∀ ⦃N c c' v v' i i'⦄, K.Closures N c c' → K.Values v v' →
    (∀ m, n = m + 1 → Task.Confined K.left ⟨m, c.scope v, c.body, i.enter c v⟩) →
    (∀ m, n = m + 1 → Task.Confined K.right ⟨m, c'.scope v', c'.body, i'.enter c' v'⟩) →
    Meet K.Values K.Errors (apply n c v i) (apply n c' v' i')

/-- Evaluation of the expression keeps step with that of every expression that it matches. -/
def MeetsOn (K : Correspondence) (n : Nat) (e : Expr) : Prop :=
  ∀ ⦃N e' env env' i i'⦄, K.names N → K.Scopes N env env' → e.Matches K.binders N e' →
    Task.Confined K.left ⟨n, env, e, i⟩ → Task.Confined K.right ⟨n, env', e', i'⟩ →
    Meet K.Values K.Errors (eval n env e i) (eval n env' e' i')

theorem meetsOn_var (x : String) : MeetsOn K n (.var x) := by
  intro N e' env env' i i' hN henv hmatch _ _
  cases hmatch with
  | @var _ _ x' hx =>
    unfold eval evalWith
    have hxs := henv x x' hx
    generalize env.get? x = o, env'.get? x' = o' at hxs
    cases hxs with
    | none => exact meet_throw (.unboundVariable ⟨N, hN, hx⟩)
    | some hv => exact meet_pure hv

theorem meetsOn_lam (x : String) (body : Expr) : MeetsOn K n (.lam x body) := by
  intro N e' env env' i i' hN henv hmatch _ _
  cases hmatch with
  | lam hx hbody =>
    unfold eval evalWith
    exact .finished (.value (.closure hN hx .none hbody henv))

theorem MeetsOn.app (hcall : CallsMeet K n) (h₁ : MeetsOn K n e₁) (h₂ : MeetsOn K n e₂) :
    MeetsOn K n (.app e₁ e₂) := by
  intro N e' env env' i i' hN henv hmatch hleft hright
  cases hmatch with
  | app hm₁ hm₂ =>
    unfold eval evalWith
    refine (h₁ hN henv hm₁ (hleft.enters .func) (hright.enters .func)).bind ?_
    intro f f' j j' hrun hrun' hf
    rcases hf.closure_or with ⟨N', c, c', rfl, rfl, hc⟩ | ⟨hnot, hnot'⟩
    · have hleft₂ := hleft.enters (.argument hrun)
      have hright₂ := hright.enters (.argument hrun')
      refine (h₂ hN henv hm₂ hleft₂ hright₂).bind ?_
      intro v v' k k' hrun₂ hrun₂' hv
      refine hcall hc hv ?_ ?_
      · rintro m rfl
        exact hleft.enters (.body hrun hrun₂ (checkDepth_unlimited (hleft₂.after hrun₂)))
      · rintro m rfl
        exact hright.enters (.body hrun' hrun₂' (checkDepth_unlimited (hright₂.after hrun₂')))
    · rw [hnot, hnot']
      exact meet_throw (.notAFunction hf)

theorem MeetsOn.ite (hc : MeetsOn K n e) (h₁ : MeetsOn K n e₁) (h₂ : MeetsOn K n e₂) :
    MeetsOn K n (.ite e e₁ e₂) := by
  intro N e' env env' i i' hN henv hmatch hleft hright
  cases hmatch with
  | ite hm hm₁ hm₂ =>
    unfold eval evalWith
    refine (hc hN henv hm (hleft.enters .condition) (hright.enters .condition)).bind ?_
    intro v v' j j' hrun hrun' hv
    rcases K.likeness_values.boolean_or hv with ⟨b, rfl, rfl⟩ | ⟨hnot, hnot'⟩
    · have hleft := hleft.enters (.branch hrun)
      have hright := hright.enters (.branch hrun')
      cases b with
      | true => exact h₁ hN henv hm₁ hleft hright
      | false => exact h₂ hN henv hm₂ hleft hright
    · split
      · exact absurd rfl (hnot true)
      · exact absurd rfl (hnot false)
      · split
        · exact absurd rfl (hnot' true)
        · exact absurd rfl (hnot' false)
        · exact meet_throw (.notABoolean hv)

/-- The values are tied if they are closures, and pass if they are not. -/
theorem meet_tie {f f' : String} {v v' : Expr} {i i' : Interpreter} (hv : K.Values v v')
    (hf : K.binders f f') (hleft : ∀ c, v = c.toExpr → K.left f c)
    (hright : ∀ c, v' = c.toExpr → K.right f' c) :
    Meet K.Values K.Errors (tie f v i) (tie f' v' i') := by
  rcases hv.closure_or with ⟨N, c, c', rfl, rfl, hc⟩ | ⟨hnot, hnot'⟩
  · rw [run_tie, run_tie]
    exact .finished (.value (hc.tiedTo hf (hleft c rfl) (hright c' rfl) _ _).values)
  · rw [run_tie_of_not_closure hnot, run_tie_of_not_closure hnot']
    exact .finished (.value hv)

theorem MeetsOn.letIn {recursive : Bool} (hbound : MeetsOn K n bound) (hbody : MeetsOn K n body) :
    MeetsOn K n (.letIn recursive x bound body) := by
  intro N e' env env' i i' hN henv hmatch hleft hright
  cases hmatch with
  | @letIn _ _ _ x' _ bound' _ body' hlam hx hm hm' =>
    rw [eval, evalWith_letIn, eval, evalWith_letIn]
    refine (hbound hN henv hm (hleft.enters .bound) (hright.enters .bound)).bind ?_
    intro v v' j j' hrun hrun' hv
    have htied : Meet K.Values K.Errors ((if recursive then tie x v else pure v : Eval Expr) j)
        ((if recursive then tie x' v' else pure v' : Eval Expr) j') := by
      cases recursive with
      | false => exact meet_pure hv
      | true =>
        have hlam := hlam rfl
        have hlam' := hlam
        rw [hm.isLam_eq] at hlam'
        refine meet_tie hv hx (fun c hc => ?_) fun c hc => ?_
        · exact hleft.2 x c ⟨n, env, bound, body, i, j, .refl, hlam, by rw [← hc]; exact hrun⟩
        · exact hright.2 x' c ⟨n, env', bound', body', i', j', .refl, hlam', by rw [← hc]; exact hrun'⟩
    refine htied.bind ?_
    intro w w' k k' hrun₂ hrun₂' hw
    have hleft := hleft.enters (.rest hrun hrun₂)
    have hright := hright.enters (.rest hrun' hrun₂')
    exact hbody (K.bind hN hx) (henv.insert hw x x') hm' hleft hright
  | @letRec _ _ f' _ bound' _ body' hlam hf hm hm' =>
    -- the lambdas match where their closures have been tied, not where they become closures
    obtain ⟨y, inner, rfl⟩ := Expr.eq_lam_of_isLam hlam
    cases hm with
    | @lam _ _ y' _ inner' hy hinner =>
      rw [eval, run_letRec, eval, run_letRec]
      have hclosures : K.Values (.closure (i.nextId + 1) y inner env (some x))
          (.closure (i'.nextId + 1) y' inner' env' (some f')) :=
        .closure hN hy (.some hf) hinner henv
      exact hbody (K.bind hN hf) (henv.insert hclosures x f') hm' (hleft.enters .recursiveRest)
        (hright.enters .recursiveRest)

/-- The items that are left, after some whose evaluation has come to the interpreters. -/
theorem meet_evalItems {env env' : Env} {i i' j j' : Interpreter} {vs vs' after' : List Expr}
    (before before' : List Expr) (hitems : ∀ e ∈ after, MeetsOn K n e) (hN : K.names N)
    (henv : K.Scopes N env env')
    (hmatch : List.Forall₂ (Expr.Matches K.binders N) after after')
    (hleft : Task.Confined K.left ⟨n, env, .list (before ++ after), i⟩)
    (hright : Task.Confined K.right ⟨n, env', .list (before' ++ after'), i'⟩)
    (hrun : evalItems (apply n) env before i = some (.ok vs, j))
    (hrun' : evalItems (apply n) env' before' i' = some (.ok vs', j')) :
    Meet (List.Forall₂ K.Values) K.Errors (evalItems (apply n) env after j)
      (evalItems (apply n) env' after' j') := by
  induction hmatch generalizing before before' vs vs' j j' with
  | nil =>
    unfold evalItems
    exact meet_pure .nil
  | @cons e e' after after' he _ ih =>
    obtain ⟨hitem, hitems⟩ := List.forall_mem_cons.1 hitems
    unfold evalItems
    refine (hitem hN henv he (hleft.enters (.item hrun)) (hright.enters (.item hrun'))).bind ?_
    intro v v' k k' hv hv' hmeet
    rw [← List.singleton_append, ← List.append_assoc] at hleft hright
    refine (ih _ _ hitems hleft hright (run_items_snoc hrun hv) (run_items_snoc hrun' hv')).bind ?_
    intro ws ws' _ _ _ _ hws
    exact meet_pure (.cons hmeet hws)

theorem MeetsOn.list (hitems : ∀ e ∈ items, MeetsOn K n e) : MeetsOn K n (.list items) := by
  intro N e' env env' i i' hN henv hmatch hleft hright
  obtain ⟨items', rfl, hitems'⟩ := Expr.matches_list_iff.1 hmatch
  unfold eval evalWith
  have hstart : ∀ env i, evalItems (apply n) env [] i = some (.ok [], i) := by
    intro env i
    unfold evalItems
    rfl
  refine (meet_evalItems [] [] hitems hN henv hitems' hleft hright (hstart env i) (hstart env' i')).bind
    ?_
  intro vs vs' _ _ _ _ hvs
  exact meet_pure (.list hvs)

theorem meetsOn_of_calls (hcall : CallsMeet K n) (e : Expr) : MeetsOn K n e := by
  induction e using Expr.induct with
  | number k =>
    intro N e' env env' i i' _ _ hmatch _ _
    cases hmatch
    unfold eval evalWith
    exact meet_pure (.same _)
  | boolean b =>
    intro N e' env env' i i' _ _ hmatch _ _
    cases hmatch
    unfold eval evalWith
    exact meet_pure (.same _)
  | var x => exact meetsOn_var x
  | lam x body _ => exact meetsOn_lam x body
  | app f a ihf iha => exact ihf.app hcall iha
  | ite c t e ihc iht ihe => exact ihc.ite iht ihe
  | letIn recursive x bound body ih ihbody => exact ih.letIn ihbody
  | list items ih => exact MeetsOn.list ih
  | prim op =>
    intro N e' env env' i i' hN henv hmatch _ _
    cases hmatch with
    | prim hx hy =>
      unfold eval evalWith
      refine meet_ofExcept (Primitive.eval_alike K.likeness_values ?_ (henv _ _ hx) ?_)
      · exact ⟨⟨N, hN, hx⟩, fun harity => ⟨N, hN, hy harity⟩⟩
      · exact fun harity => henv _ _ (hy harity)
  | closure id x body captured self =>
    intro N e' env env' i i' _ _ hmatch _ _
    cases hmatch
    unfold eval evalWith
    exact meet_pure (.same _)

theorem callsMeet (K : Correspondence) (n : Nat) : CallsMeet K n := by
  induction n with
  | zero =>
    intro N c c' v v' i i' _ _ _ _
    exact .unfinished
  | succ n ih =>
    intro N c c' v v' i i' hc hv hleft hright
    obtain ⟨N', hN', henv, hmatch⟩ := hc.scope hv
    have hleft := hleft n rfl
    have hright := hright n rfl
    have hi : i.maxDepth = none := hleft.1
    have hi' : i'.maxDepth = none := hright.1
    rw [run_apply (checkDepth_unlimited hi), run_apply (checkDepth_unlimited hi')]
    have hbody := meetsOn_of_calls ih c.body hN' henv hmatch hleft hright
    generalize eval n (c.scope v) c.body (i.enter c v) = o,
      eval n (c'.scope v') c'.body (i'.enter c' v') = o' at hbody
    cases hbody with
    | unfinished => exact .unfinished
    | finished h => exact .finished h

end Walk

/-- Unlimited evaluations of expressions that match, in scopes that match, keep step, as long as the
one and the other tie such closures only as they may. -/
theorem Correspondence.meet_eval (K : Correspondence) {N : Naming} {n : Nat} {env env' : Env}
    {e e' : Expr} {i i' : Interpreter} (hN : K.names N) (henv : K.Scopes N env env')
    (hmatch : e.Matches K.binders N e') (hleft : Task.Confined K.left ⟨n, env, e, i⟩)
    (hright : Task.Confined K.right ⟨n, env', e', i'⟩) :
    Eval.Meet K.Values K.Errors (eval n env e i) (eval n env' e' i') :=
  meetsOn_of_calls (callsMeet K n) e hN henv hmatch hleft hright

end LetPoly
