import LetPoly.Proofs.Footprint
import LetPoly.Proofs.Soundness

/-! An unknown that a `let` generalizes is never touched again. Inference comes to a `let` through calls
of itself (`Calls`, `Reaches`); while it infers what the `let` binds, it gives out every unknown that it
then turns into a variable, and nothing that is still in use reaches one of these. -/

namespace LetPoly

open Infer

/-- Inferring an expression in a context and from a session infers one of its parts, in the context
and from the session that it has come to. -/
inductive Calls : Context → Expr → Session → Context → Expr → Session → Prop
  | lamBody {ctx : Context} {x : String} {body : Expr} {S : Session} :
      Calls ctx (.lam x body) S (ctx.insert x (.ofTy (.unknown (S.supply + 1)))) body
        { S with supply := S.supply + 1 }
  | func {ctx : Context} {f a : Expr} {S : Session} : Calls ctx (.app f a) S ctx f S
  | argument {ctx : Context} {f a : Expr} {t : Ty} {S S₁ : Session} :
      (inferExpr ctx f).run S = (.ok t, S₁) → Calls ctx (.app f a) S ctx a S₁
  | condition {ctx : Context} {c e₁ e₂ : Expr} {S : Session} : Calls ctx (.ite c e₁ e₂) S ctx c S
  | thenBranch {ctx : Context} {c e₁ e₂ : Expr} {t : Ty} {S S₁ : Session} :
      (inferExpr ctx c).run S = (.ok t, S₁) → Calls ctx (.ite c e₁ e₂) S ctx e₁ S₁
  | elseBranch {ctx : Context} {c e₁ e₂ : Expr} {t t₁ : Ty} {S S₁ S₂ : Session} :
      (inferExpr ctx c).run S = (.ok t, S₁) → (inferExpr ctx e₁).run S₁ = (.ok t₁, S₂) →
      Calls ctx (.ite c e₁ e₂) S ctx e₂ S₂
  | recBound {ctx : Context} {x : String} {bound body : Expr} {S : Session} :
      Calls ctx (.letIn true x bound body) S (ctx.insert x (.ofTy (.unknown (S.supply + 1)))) bound
        { S with supply := S.supply + 1 }
  | recBody {ctx inner : Context} {x : String} {bound body : Expr} {t : Ty} {S S₁ S₂ : Session} :
      inner = ctx.insert x (.ofTy (.unknown (S.supply + 1))) →
      (inferExpr inner bound).run { S with supply := S.supply + 1 } = (.ok t, S₁) →
      (unify (.unknown (S.supply + 1)) t).run S₁ = (.ok (), S₂) →
      Calls ctx (.letIn true x bound body) S inner body S₂
  | letBound {ctx : Context} {x : String} {bound body : Expr} {S : Session} :
      Calls ctx (.letIn false x bound body) S ctx bound S
  | letBody {ctx : Context} {x : String} {bound body : Expr} {s : Scheme} {S S₁ : Session} :
      (bindScheme ctx x bound).run S = (.ok s, S₁) →
      Calls ctx (.letIn false x bound body) S (ctx.insert x s) body S₁
  | item {ctx : Context} {before after : List Expr} {e : Expr} {S S₁ : Session} :
      (inferItems ctx (.unknown (S.supply + 1)) before).run { S with supply := S.supply + 1 } =
        (.ok (), S₁) →
      Calls ctx (.list (before ++ e :: after)) S ctx e S₁

/-- Calls within calls, to any depth. -/
inductive Reaches : Context → Expr → Session → Context → Expr → Session → Prop
  | here {ctx : Context} {e : Expr} {S : Session} : Reaches ctx e S ctx e S
  | call {ctx ctx₁ ctx₂ : Context} {e e₁ e₂ : Expr} {S S₁ S₂ : Session} :
      Calls ctx e S ctx₁ e₁ S₁ → Reaches ctx₁ e₁ S₁ ctx₂ e₂ S₂ → Reaches ctx e S ctx₂ e₂ S₂

/-- The run comes to a `let` that gives `x` the scheme `s` when the log is `before`; `k` is unsolved
then, and was given out while the bound expression was inferred. -/
def Origin (ctx : Context) (e : Expr) (S : Session) (before : Log) (x : String) (s : Scheme)
    (k : Nat) : Prop :=
  ∃ ctx₁ bound body S₁ t S₂, Reaches ctx e S ctx₁ (.letIn false x bound body) S₁ ∧
    (inferExpr ctx₁ bound).run S₁ = (.ok t, S₂) ∧ S₂.log = before ∧
    s = generalize S₂.solution ctx₁ t ∧ S₂.solution.get? k = none ∧ S₁.supply < k ∧ k ≤ S₂.supply

section Walk

variable {ctx ctx₁ : Context} {S S₁ : Session} {x : String} {e e₁ e₂ body : Expr}
  {items before after : List Expr} {held : List Scheme}

theorem origin_of_calls (hcall : Calls ctx e S ctx₁ e₁ S₁) (log : Log) (x : String) (s : Scheme)
    (k : Nat) : Origin ctx₁ e₁ S₁ log x s k → Origin ctx e S log x s k := by
  rintro ⟨ctx₂, bound, body, S₂, t, S₃, hreach, hrest⟩
  exact ⟨ctx₂, bound, body, S₂, t, S₃, .call hcall hreach, hrest⟩

theorem schemes_insert (ctx : Context) (x : String) (s : Scheme) :
    Context.schemes (ctx.insert x s) ⊆ s :: ctx.schemes := by
  intro r hr
  obtain ⟨b, hb, rfl⟩ := List.mem_map.1 hr
  rcases Context.mem_insert hb with rfl | ⟨hb, -⟩
  · exact List.mem_cons_self
  · exact List.mem_cons_of_mem _ (List.mem_map_of_mem hb)

/-- Inference of the expression holds its context, whatever that is. -/
def ActsOn (e : Expr) : Prop :=
  ∀ ctx S, Acts (Origin ctx e S) ctx.schemes (inferExpr ctx e) S fun t => [.ofTy t]

theorem ActsOn.call (h : ActsOn e₁) (hcall : Calls ctx e S ctx₁ e₁ S₁) (hheld : ctx₁.schemes ⊆ held) :
    Acts (Origin ctx e S) held (inferExpr ctx₁ e₁) S₁ fun t => [.ofTy t] :=
  (h ctx₁ S₁).weaken hheld (origin_of_calls hcall)

theorem actsOn_var (x : String) : ActsOn (.var x) := by
  intro ctx S
  unfold inferExpr
  split
  · next s hx => exact acts_instantiate (List.mem_map_of_mem (Bindings.mem_of_get? hx))
  · exact acts_throw rfl

theorem ActsOn.lam (hbody : ActsOn body) : ActsOn (.lam x body) := by
  intro ctx S
  unfold inferExpr
  refine acts_fresh.bind ?_
  rintro _ _ ⟨⟩
  refine (hbody.call .lamBody (schemes_insert ctx x _)).bind ?_
  intro r S₁ _
  refine acts_pure fun A n hin => ?_
  simp only [List.cons_append, List.nil_append, List.forall_mem_cons, Scheme.inside_ofTy] at hin
  obtain ⟨hr, ha, -⟩ := hin
  exact List.forall_mem_singleton.2 (Scheme.inside_ofTy.2 (Ty.inside_fn.2 ⟨ha, hr⟩))

theorem ActsOn.app (hf : ActsOn e₁) (ha : ActsOn e₂) : ActsOn (.app e₁ e₂) := by
  intro ctx S
  unfold inferExpr
  refine (hf.call .func (List.Subset.refl _)).bind ?_
  intro f S₁ hrun
  refine (ha.call (.argument hrun) (List.subset_append_right _ _)).bind ?_
  intro a S₂ _
  refine acts_fresh.bind ?_
  intro r S₃ _
  refine (acts_unify fun A n hin => ?_).bind ?_
  · simp only [List.cons_append, List.nil_append, List.forall_mem_cons, Scheme.inside_ofTy] at hin
    obtain ⟨hr, ha, hf, -⟩ := hin
    exact ⟨hf, Ty.inside_fn.2 ⟨ha, hr⟩⟩
  · intro _ S₄ _
    refine acts_pure fun A n hin => ?_
    exact List.forall_mem_singleton.2 (hin _ (by simp))

theorem ActsOn.ite (hc : ActsOn e) (h₁ : ActsOn e₁) (h₂ : ActsOn e₂) : ActsOn (.ite e e₁ e₂) := by
  intro ctx S
  unfold inferExpr
  refine (hc.call .condition (List.Subset.refl _)).bind ?_
  intro c S₁ hrun
  refine (h₁.call (.thenBranch hrun) (List.subset_append_right _ _)).bind ?_
  intro t S₂ hrun'
  refine (h₂.call (.elseBranch hrun hrun') (by simp)).bind ?_
  intro r S₃ _
  refine (acts_unify fun A n hin => ?_).bind ?_
  · exact ⟨Scheme.inside_ofTy.1 (hin (.ofTy c) (by simp)), Ty.inside_boolean⟩
  intro _ S₄ _
  refine (acts_unify fun A n hin => ?_).bind ?_
  · exact ⟨Scheme.inside_ofTy.1 (hin (.ofTy t) (by simp)),
      Scheme.inside_ofTy.1 (hin (.ofTy r) (by simp))⟩
  intro _ S₅ _
  exact acts_pure fun A n hin => List.forall_mem_singleton.2 (hin _ (by simp))

theorem ActsOn.letRec (hbound : ActsOn e) (hbody : ActsOn body) :
    ActsOn (.letIn true x e body) := by
  intro ctx S
  unfold inferExpr
  refine acts_fresh.bind ?_
  rintro _ _ ⟨⟩
  refine (hbound.call .recBound (schemes_insert ctx x _)).bind ?_
  intro t S₁ hrun
  refine (acts_unify fun A n hin => ?_).bind ?_
  · exact ⟨Scheme.inside_ofTy.1 (hin _ (by simp)), Scheme.inside_ofTy.1 (hin (.ofTy t) (by simp))⟩
  intro _ S₂ hrun'
  exact hbody.call (.recBody rfl hrun hrun')
    (List.Subset.trans (schemes_insert ctx x _) (List.subset_append_right _ _))

theorem ActsOn.letPoly (hbound : ActsOn e) (hbody : ActsOn body) :
    ActsOn (.letIn false x e body) := by
  intro ctx S
  rw [inferExpr_letPoly]
  refine (acts_bindScheme (hbound.call .letBound (List.Subset.refl _)) ?_).bind ?_
  · intro t S₁ k hrun hseals
    exact ⟨ctx, e, body, S, t, S₁, .here, hrun, rfl, rfl, hseals.unsolved, hseals.after, hseals.given⟩
  · intro s S₁ hrun
    exact hbody.call (.letBody hrun) (schemes_insert ctx x s)

theorem inferItems_append (ctx : Context) (element : Ty) (before after : List Expr) :
    inferItems ctx element (before ++ after) =
      inferItems ctx element before >>= fun _ => inferItems ctx element after := by
  induction before with
  | nil => simp [inferItems]
  | cons e before ih => simp [inferItems, ih]

/-- The items that are left, after some for which the run has come to the session. -/
theorem acts_inferItems (before : List Expr) {S₀ : Session} (hitems : ∀ e ∈ after, ActsOn e)
    (hrun : (inferItems ctx (.unknown (S.supply + 1)) before).run { S with supply := S.supply + 1 } =
      (.ok (), S₀)) :
    Acts (Origin ctx (.list (before ++ after)) S) (.ofTy (.unknown (S.supply + 1)) :: ctx.schemes)
      (inferItems ctx (.unknown (S.supply + 1)) after) S₀ fun _ => [] := by
  induction after generalizing before S₀ with
  | nil =>
    unfold inferItems
    exact acts_pure (by simp)
  | cons item after ih =>
    obtain ⟨hitem, hafter⟩ := List.forall_mem_cons.1 hitems
    unfold inferItems
    refine (hitem.call (.item hrun) (List.subset_cons_self _ _)).bind ?_
    intro t S₁ hrun₁
    refine (acts_unify fun A n hin => ?_).bind ?_
    · exact ⟨Scheme.inside_ofTy.1 (hin _ (by simp)), Scheme.inside_ofTy.1 (hin (.ofTy t) (by simp))⟩
    intro _ S₂ hrun₂
    have hdone : (inferItems ctx (.unknown (S.supply + 1)) (before ++ [item])).run
        { S with supply := S.supply + 1 } = (.ok (), S₂) := by
      rw [inferItems_append, run_bind_ok hrun, inferItems, run_bind_ok hrun₁, run_bind_ok hrun₂,
        inferItems, run_pure]
    have hrest := ih (before ++ [item]) hafter hdone
    rw [List.append_assoc, List.singleton_append] at hrest
    exact hrest.weaken (List.subset_append_right _ _) fun _ _ _ _ h => h

theorem ActsOn.list (hitems : ∀ e ∈ items, ActsOn e) : ActsOn (.list items) := by
  intro ctx S
  unfold inferExpr
  refine acts_fresh.bind ?_
  rintro _ _ ⟨⟩
  refine (acts_inferItems [] hitems rfl).bind ?_
  intro _ S₁ _
  refine acts_pure fun A n hin => List.forall_mem_singleton.2 (Scheme.inside_ofTy.2 ?_)
  exact Ty.inside_list.2 (Scheme.inside_ofTy.1 (hin _ (by simp)))

theorem actsOn (e : Expr) : ActsOn e := by
  induction e using Expr.induct with
  | number n | boolean b =>
    intro ctx S
    unfold inferExpr
    exact acts_pure fun A n _ => List.forall_mem_singleton.2 (Scheme.inside_ofTy.2 (by simp))
  | var x => exact actsOn_var x
  | lam x body ih => exact ih.lam
  | app e₁ e₂ ih₁ ih₂ => exact ih₁.app ih₂
  | ite e e₁ e₂ ih ih₁ ih₂ => exact ih.ite ih₁ ih₂
  | letIn recursive x e body ihe ihbody =>
    cases recursive with
    | true => exact ihe.letRec ihbody
    | false => exact ihe.letPoly ihbody
  | list items ih => exact ActsOn.list ih
  | prim op | closure =>
    intro ctx S
    unfold inferExpr
    exact acts_throw rfl

end Walk

/-- Whenever a run that starts anew gives a name a scheme in which the unknown `k` has become a
variable, `k` is unsolved, and was given out while what the name is bound to was inferred. It is not
solved in any step of the run, and is not in the type that a run without an error returns. -/
theorem generalized_never_solved (ctx : Context) (hctx : ctx.Closed) (e : Expr)
    (r : Except TypeError Ty) (S : Session) (hrun : (inferExpr ctx e).run .new = (r, S))
    (before after : Log) (x : String) (s : Scheme)
    (hlog : S.log = after ++ .generalized x s :: before) (k : Nat) (hk : generalizedName k ∈ s.vars) :
    (∃ ctx₁ bound body S₁ t S₂, Reaches ctx e .new ctx₁ (.letIn false x bound body) S₁ ∧
      (inferExpr ctx₁ bound).run S₁ = (.ok t, S₂) ∧ S₂.log = before ∧
      s = generalize S₂.solution ctx₁ t ∧ S₂.solution.get? k = none ∧
      S₁.supply < k ∧ k ≤ S₂.supply) ∧
    (∀ t, .unification (.solve k t) ∉ S.log) ∧ S.solution.get? k = none ∧
    ∀ t, r = .ok t → k ∉ (S.solution.apply t).unknowns := by
  have hschemes : ∀ r ∈ ctx.schemes, r.Within 0 := by
    intro r hr
    obtain ⟨b, hb, rfl⟩ := List.mem_map.1 hr
    exact hctx.within 0 b hb
  have hacts := actsOn e ctx .new
  have hadv := (hacts.confined _ (Session.area_univ Session.valid_new)
    fun r hr => Scheme.inside_univ (hschemes r hr)).advances
  have hnote : Notes (inferExpr ctx e) .new before x s :=
    ⟨List.nil_suffix, after, by rw [hrun, hlog]⟩
  obtain ⟨horigin, hseals, hresult⟩ := hacts.seals Session.valid_new hschemes before x s k hnote hk
  rw [hrun] at hadv hseals
  refine ⟨horigin, fun t hsolve => ?_, hseals.unsolved, fun t ht hmem => ?_⟩
  · have hrecorded := hadv.recorded Session.recorded_new
    have hsolved := hrecorded.get?_eq_some.2 (Session.mem_solved.2 hsolve)
    rw [hseals.unsolved] at hsolved
    cases hsolved
  · obtain ⟨u, hu, hreach⟩ := (S.mem_apply_iff t k).1 hmem
    exact hreach (hresult t S (by rw [hrun, ht]) _ (List.mem_singleton_self _) u hu)

/-- The parameter of a function that makes lists becomes a variable, while the list around the `let`
waits for the type of its elements. -/
theorem generalized_never_solved_single :
    let single : Expr := .letIn false "single" (.lam "x" (.list [.var "x"]))
      (.app (.var "single") (.number 5))
    let S := ((inferExpr .initial (.list [single])).run .new).2
    .generalized "single" ⟨["a2"], .fn (.var "a2") (.list (.var "a2"))⟩ ∈ S.log ∧
      S.solution.get? 2 = none ∧ ∀ t, .unification (.solve 2 t) ∉ S.log := by
  intro single S
  have hnote : .generalized "single" ⟨["a2"], .fn (.var "a2") (.list (.var "a2"))⟩ ∈ S.log := by
    have hentry : ((inferExpr .initial (.list [single])).run .new).2.log[7]? =
        some (.generalized "single" ⟨["a2"], .fn (.var "a2") (.list (.var "a2"))⟩) := by cbv
    exact List.mem_of_getElem? hentry
  obtain ⟨after, before, hlog⟩ := List.append_of_mem hnote
  obtain ⟨-, hsteps, hunsolved, -⟩ := generalized_never_solved .initial Context.closed_initial
    (.list [single]) _ S rfl before after _ _ hlog 2 (List.mem_singleton.2 (by decide))
  exact ⟨hnote, hunsolved, hsteps⟩

end LetPoly
