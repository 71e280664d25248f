import Mathlib
import LetPoly.Proofs.Correspondence

/-! The same program evaluated twice, in scopes that agree on the names it looks up, and with other
numbers for its closures. The numbers make no difference (`meet_unlimited`), and neither does it if a closure is
tied to one more name, as long as nothing looks up that name or the one it had
(`returns_number_tiedTo`). -/

namespace LetPoly

/-- A program next to itself, in scopes that need not agree on the names in `D`. No closure may lose one
of those, by which the one is found and perhaps not the other. -/
def Correspondence.except (D : Set String) : Correspondence where
  binders := Eq
  names N := (∀ y y', N y y' → y = y') ∧ ∀ y ∉ D, N y y
  left f c := ∀ g, c.Loses f g → g ∉ D
  right _ _ := True
  refl _ := rfl
  eq := ⟨fun _ _ => id, fun _ _ => rfl⟩
  bind {N x x'} hN hx := by
    subst hx
    refine ⟨?_, fun y hy => ?_⟩
    · rintro y y' (⟨rfl, rfl⟩ | ⟨-, -, h⟩)
      · rfl
      · exact hN.1 y y' h
    · by_cases h : y = x
      · exact .inl ⟨h, h⟩
      · exact .inr ⟨h, h, hN.2 y hy⟩
  tie {N f f' c c'} hN hf hx hself hleft _ h := by
    subst hf
    refine h.mono fun y hread y' _ => Naming.bind_imp fun hbinder _ hy => ?_
    rcases Naming.tie_cases hself hy with ⟨hown, hown'⟩ | ⟨-, -, hy⟩
    · obtain rfl : y = y' := by
        rw [hown, hown'] at hself
        cases hself with
        | some h => exact h
      by_cases hyf : y = f
      · exact .inl ⟨hyf, hyf⟩
      · exact .inr ⟨hyf, hyf, hN.2 y (hleft y ⟨hown, hyf, hbinder, hread⟩)⟩
    · obtain rfl := hN.1 y y' hy
      by_cases hyf : y = f
      · exact .inl ⟨hyf, hyf⟩
      · exact .inr ⟨hyf, hyf, hy⟩

/-- The same value, but for the numbers of the closures in it. -/
inductive Expr.Renumbered : Expr → Expr → Prop
  | same (v : Expr) : Renumbered v v
  | list {vs vs' : List Expr} : List.Forall₂ Renumbered vs vs' → Renumbered (.list vs) (.list vs')
  | closure {id id' : Nat} {x : String} {body : Expr} {env env' : Env} {self : Option String} :
      (∀ y, Option.Rel Renumbered (env.get? y) (env'.get? y)) →
      Renumbered (.closure id x body env self) (.closure id' x body env' self)

/-- Outcomes that are the same but for the numbers of closures. -/
abbrev Eval.Renumbered : Except EvalError Expr → Except EvalError Expr → Prop :=
  Eval.Alike Expr.Renumbered (EvalError.Alike Eq Expr.Renumbered)

theorem Expr.Matches.eq {e e' : Expr} (h : e.Matches Eq Eq e') : e = e' := by
  induction e using Expr.induct generalizing e' with
  | number n => cases h; rfl
  | boolean b => cases h; rfl
  | var x => cases h with
    | var hx => rw [hx]
  | lam x body ih => cases h with
    | lam hx hbody =>
      subst hx
      rw [Naming.eq_bind] at hbody
      rw [ih hbody]
  | app f a ihf iha => cases h with
    | app hf ha => rw [ihf hf, iha ha]
  | ite c t e ihc iht ihe => cases h with
    | ite hc ht he => rw [ihc hc, iht ht, ihe he]
  | letIn recursive x bound body ih ihbody => cases h with
    | letIn hlam hx hbound hbody =>
      subst hx
      rw [Naming.eq_bind] at hbody
      rw [ih hbound, ihbody hbody]
    | letRec hlam hx hbound hbody =>
      subst hx
      rw [Naming.eq_bind] at hbound hbody
      rw [ih hbound, ihbody hbody]
  | list items ih =>
    obtain ⟨items', rfl, hitems⟩ := matches_list_iff.1 h
    rw [list.injEq, ← List.forall₂_eq_eq_eq]
    refine List.forall₂_iff_zip.2 ⟨hitems.length_eq, fun hmem => ?_⟩
    exact ih _ (List.of_mem_zip hmem).1 ((List.forall₂_iff_zip.1 hitems).2 hmem)
  | prim op => cases h; rfl
  | closure id x body env self => cases h; rfl

namespace Correspondence

theorem names_except_empty {N : Naming} (h : (except ∅).names N) : N = Eq := by
  ext y y'
  constructor
  · exact h.1 y y'
  · rintro rfl
    exact h.2 y (Set.notMem_empty y)

/-- Where scopes agree on all names, values that match differ in the numbers of closures. -/
theorem Values.renumbered {v v' : Expr} (h : (except ∅).Values v v') : v.Renumbered v' := by
  refine @Values.rec (except ∅) (fun v v' _ => v.Renumbered v')
    (fun vs vs' _ => List.Forall₂ Expr.Renumbered vs vs')
    (fun o o' _ => Option.Rel Expr.Renumbered o o')
    .same (fun _ => .list) ?closure .nil (fun _ _ => .cons) (fun _ => .some) .none v v' h
  case closure =>
    intro N id id' x x' body body' env env' self self' hN hx hself hbody _ henv
    obtain rfl := names_except_empty hN
    obtain rfl : x = x' := hx
    obtain rfl : self = self' := by
      cases hself with
      | none => rfl
      | some h => exact congrArg some h
    rw [Naming.eq_tie, Naming.eq_bind] at hbody
    obtain rfl := Expr.Matches.eq hbody
    exact .closure fun y => henv y y rfl

theorem Errors.renumbered {err err' : EvalError} (h : (except ∅).Errors err err') :
    EvalError.Alike Eq Expr.Renumbered err err' := by
  cases h with
  | unboundVariable h =>
    obtain ⟨N, hN, h⟩ := h
    rw [names_except_empty hN] at h
    exact .unboundVariable h
  | notAFunction h => exact .notAFunction h.renumbered
  | notABoolean h => exact .notABoolean h.renumbered
  | notAList h => exact .notAList h.renumbered
  | emptyListAccess op => exact .emptyListAccess op
  | invalidOperands op h => exact .invalidOperands op (h.imp fun _ _ => Values.renumbered)

end Correspondence

/-- Without a limit an evaluation does the same from every interpreter, but for the numbers of closures. -/
theorem meet_unlimited {i i' : Interpreter} (hi : i.maxDepth = none) (hi' : i'.maxDepth = none) (n : Nat)
    (env : Env) (e : Expr) :
    Eval.Meet Expr.Renumbered (EvalError.Alike Eq Expr.Renumbered) (eval n env e i) (eval n env e i') := by
  let K := Correspondence.except ∅
  have hmeet : Eval.Meet K.Values K.Errors (eval n env e i) (eval n env e i') :=
    K.meet_eval K.eq (Correspondence.scopes_same env) (Expr.matches_refl (fun _ => rfl) e)
      ⟨hi, fun _ _ _ g _ => Set.notMem_empty g⟩ ⟨hi', fun _ _ _ => trivial⟩
  exact hmeet.imp (fun _ _ => Correspondence.Values.renumbered) fun _ _ =>
    Correspondence.Errors.renumbered

/-! ### Closures under another name -/

/-- What a call comes to without a limit, where closures are numbered from `id` on. -/
def Closure.Returns (c : Closure) (v : Expr) (id : Nat) (r : Except EvalError Expr) : Prop :=
  ∃ fuel j, apply fuel c v (.new none id) = some (r, j)

section
variable {c : Closure} {v : Expr} {id : Nat} {r : Except EvalError Expr} {y : String}

/-- A call returns what evaluating the body does. -/
theorem Closure.returns_iff :
    c.Returns v id r ↔
      ∃ fuel j, eval fuel (c.scope v) c.body ((Interpreter.new none id).enter c v) = some (r, j) := by
  constructor
  · rintro ⟨fuel, j, hrun⟩
    cases fuel with
    | zero => cases hrun
    | succ fuel =>
      rw [run_apply (Eval.checkDepth_unlimited rfl)] at hrun
      obtain ⟨⟨r', j'⟩, hbody, hleave⟩ := Option.map_eq_some_iff.1 hrun
      cases hleave
      exact ⟨fuel, j', hbody⟩
  · rintro ⟨fuel, j, hrun⟩
    refine ⟨fuel + 1, j.leave, ?_⟩
    rw [run_apply (Eval.checkDepth_unlimited rfl), hrun]
    rfl

end

namespace Closure

variable {c : Closure} {b : String}

/-- The names that are in the same way in the scopes of the closure and of its copy that is tied to `b`.
-/
def common (c : Closure) (b : String) : Naming :=
  fun y y' => y = y' ∧ (y = c.binder ∨ y ≠ b ∧ c.self ≠ some y)

theorem scopes_tiedTo {K : Correspondence} (c : Closure) (b : String) (number : Nat) (v : Expr) :
    K.Scopes (c.common b) (c.scope v) ((c.tiedTo b number).scope v) := by
  rintro y _ ⟨rfl, hy⟩
  have hsame : (c.scope v).get? y = ((c.tiedTo b number).scope v).get? y := by
    rw [get?_scope, get?_scope]
    rcases hy with rfl | ⟨hyb, hself⟩
    · simp [tiedTo]
    · simp [tiedTo, Ne.symm hyb, hself]
  rw [hsame]
  exact Correspondence.scopes_same _ y y rfl

theorem matches_common (hb : b ∉ c.body.reads) (hself : ∀ g, ¬ c.Loses b g) :
    c.body.Matches Eq (c.common b) c.body := by
  refine (Expr.matches_refl (fun _ => rfl) c.body).mono fun y hy y' _ hyy' => ⟨hyy', ?_⟩
  by_cases hbinder : y = c.binder
  · exact .inl hbinder
  · have hyb : y ≠ b := fun h => hb (h ▸ hy)
    exact .inr ⟨hyb, fun hc => hself y ⟨hc, hyb, hbinder, hy⟩⟩

end Closure

/-- Tying a closure to a name leaves what it computes as it is, if its body looks up neither that name
nor the one by which it knows itself, and no closure loses one of these names in the call. -/
theorem returns_number_tiedTo (c : Closure) (b : String) (number : Nat) (v : Expr) (id id' : Nat)
    (n : Int64) (hb : b ∉ c.body.reads) (hself : ∀ g, ¬ c.Loses b g)
    (hties : ∀ fuel f c',
      Task.Ties ⟨fuel, c.scope v, c.body, (Interpreter.new none id).enter c v⟩ f c' →
        ∀ g, c'.Loses f g → g ≠ b ∧ c.self ≠ some g) :
    (c.tiedTo b number).Returns v id' (.ok (.number n)) ↔ c.Returns v id (.ok (.number n)) := by
  let K := Correspondence.except {y | y = b ∨ c.self = some y}
  have hnames : K.names (c.common b) :=
    ⟨fun _ _ h => h.1, fun y hy => ⟨rfl, .inr ⟨fun h => hy (.inl h), fun h => hy (.inr h)⟩⟩⟩
  have hleft : ∀ fuel, Task.Confined K.left
      ⟨fuel, c.scope v, c.body, (Interpreter.new none id).enter c v⟩ := by
    refine fun fuel => ⟨rfl, fun f c' hc' g hg hD => ?_⟩
    obtain ⟨hgb, hgc⟩ := hties fuel f c' hc' g hg
    exact hD.elim hgb hgc
  have hright : ∀ fuel, Task.Confined K.right ⟨fuel, (c.tiedTo b number).scope v, c.body,
      (Interpreter.new none id').enter (c.tiedTo b number) v⟩ := fun _ => ⟨rfl, fun _ _ _ => trivial⟩
  rw [Closure.returns_iff, Closure.returns_iff]
  refine exists_congr fun fuel => Iff.symm ?_
  have hmeet := K.meet_eval hnames (c.scopes_tiedTo b number v) (Closure.matches_common hb hself)
    (hleft fuel) (hright fuel)
  exact hmeet.number_iff K.likeness_values n

/-- A function that has been tied to `f`, but does not call itself. Its body ties to `h` a closure that is
lost under `k`. -/
theorem returns_number_tiedTo_inner :
    let step : Expr := .ite (.var "y") (.number 5) (.app (.var "k") (.var "y"))
    let inner : Expr := .letIn true "k" (.lam "y" step) (.var "k")
    let c : Closure :=
      ⟨8, "x", .letIn true "h" inner (.app (.var "h") (.var "x")), Env.initial, some "f"⟩
    let v : Expr := .boolean true
    let called (fuel : Nat) : Task := ⟨fuel, c.scope v, c.body, (Interpreter.new none 10).enter c v⟩
    "g" ∉ c.body.reads ∧ (∀ g, ¬ c.Loses "g" g) ∧
      (∃ fuel c', (called fuel).Ties "h" c' ∧ c'.Loses "h" "k") ∧
      c.Returns v 10 (.ok (.number 5)) ∧ (c.tiedTo "g" 9).Returns v 10 (.ok (.number 5)) := by
  intro step inner c v called
  have hb : "g" ∉ c.body.reads := by decide
  have hself : ∀ g, ¬ c.Loses "g" g := by
    rintro g ⟨hself, -, -, hreads⟩
    cases hself
    exact absurd hreads (by decide)
  let A : String → Expr → Prop := fun f bound => f = "h" ∧ bound = inner
  have hbody : c.body.TiesOnly A :=
    .letIn (fun _ _ => ⟨rfl, rfl⟩) (Expr.tiesOnly_of_isSource (by decide) (by decide))
      (.app (.var "h") (.var "x"))
  have hcalled : Env.All (Expr.TiesOnly A) (c.scope v) ∧ c.body.TiesOnly A :=
    (Expr.hereditary_tiesOnly A).scope (.closure hbody Env.tiesOnly_initial) (.boolean true)
  have hties : ∀ fuel f c', (called fuel).Ties f c' →
      ∀ g, c'.Loses f g → g ≠ "g" ∧ c.self ≠ some g := by
    intro fuel f c' h g hloses
    obtain ⟨n, env, _, i, j, ⟨-, rfl⟩, hrun⟩ := h.of_tiesOnly hcalled.1 hcalled.2
    rw [eval, run_letRec_self, Option.some.injEq, Prod.mk.injEq, Except.ok.injEq] at hrun
    obtain rfl : c' = ⟨i.nextId + 1, "y", step, env, some "k"⟩ := Closure.toExpr_injective hrun.1.symm
    cases hloses.self
    decide
  have hlost : ∃ fuel c', (called fuel).Ties "h" c' ∧ c'.Loses "h" "k" := by
    refine ⟨0, ⟨11, "y", step, c.scope v, some "k"⟩, ?_, rfl, by decide, by decide, by decide⟩
    exact ⟨0, c.scope v, inner, _, _, _, .refl, rfl, run_letRec_self _ _ _ _ _ _⟩
  have hreturns : c.Returns v 10 (.ok (.number 5)) := ⟨4, _, by cbv⟩
  exact ⟨hb, hself, hlost, hreturns,
    (returns_number_tiedTo c "g" 9 v 10 10 5 hb hself hties).2 hreturns⟩

/-- A recursive function that is tied to a second name is not found under the first any more. -/
theorem unboundVariable_of_tiedTo :
    let c : Closure := ⟨8, "x", .ite (.binary "equals" (.var "x") (.number 0)) (.number 0)
      (.app (.var "f") (.binary "subtract" (.var "x") (.number 1))), Env.initial, some "f"⟩
    "g" ≠ c.binder ∧ "g" ∉ c.body.freeVars ∧ c.Returns (.number 3) 10 (.ok (.number 0)) ∧
      (c.tiedTo "g" 9).Returns (.number 3) 10 (.error (.unboundVariable "f")) := by
  dsimp only
  exact ⟨by decide, by decide, ⟨8, _, by cbv⟩, ⟨8, _, by cbv⟩⟩

end LetPoly
