import LetPoly.Proofs.Termination

/-! Renaming of bound variables. Programs that are the same but for the names of their binders compute the
same numbers where a recursive `let` does to the closure that it ties what it does to a lambda
(`gives_number_alpha`). Elsewhere names matter: what such a `let` binds is evaluated without its name, and
a closure that is tied hides under the name what was there when it was made
(`renaming_changes_results`). -/

namespace LetPoly

namespace Alpha

variable {N : Naming} {e e' : Expr}

/-- Where recursive `let`s do not speak of their names outside lambdas, the evaluator's scopes are the
usual ones. -/
theorem toMatches (h : Alpha N e e') (hloose : e.looseBinders = []) :
    e.Matches (fun _ _ => True) N e' := by
  induction h with
  | number n => exact .number n
  | boolean b => exact .boolean b
  | var hx => exact .var hx
  | lam _ ih => exact .lam trivial (ih hloose)
  | app _ _ ihf iha =>
    simp only [Expr.looseBinders, List.append_eq_nil_iff] at hloose
    exact .app (ihf hloose.1) (iha hloose.2)
  | ite _ _ _ ihc iht ihe =>
    simp only [Expr.looseBinders, List.append_eq_nil_iff] at hloose
    exact .ite (ihc hloose.1.1) (iht hloose.1.2) (ihe hloose.2)
  | letIn _ _ ih ihbody =>
    simp only [Expr.looseBinders, List.append_eq_nil_iff] at hloose
    exact .letIn (fun h => by cases h) trivial (ih hloose.1.2) (ihbody hloose.2)
  | @letRec N x x' bound bound' body body' hbound _ ih ihbody =>
    simp only [Expr.looseBinders, List.append_eq_nil_iff] at hloose
    obtain ⟨⟨hown, hloose⟩, hloose'⟩ := hloose
    by_cases hlam : bound.isLam = true
    · exact .letRec hlam trivial (ih hloose) (ihbody hloose')
    · refine .letIn (fun _ => by simpa using hlam) trivial ?_ (ihbody hloose')
      refine (ih hloose).mono fun y hy y' _ hyy' => ?_
      rcases hyy' with ⟨rfl, -⟩ | ⟨-, -, hN⟩
      · exfalso
        rcases Expr.mem_freeVars_or_looseBinders hbound.isSource.1 hy with hfree | hloose'
        · simp [hlam, hfree] at hown
        · simp [hloose] at hloose'
      · exact hN
  | nil => exact .nil
  | cons _ _ ih ihes =>
    simp only [Expr.looseBinders, Expr.looseBindersAll, List.append_eq_nil_iff] at hloose ihes
    exact .cons (ih hloose.1) (ihes hloose.2)

end Alpha

/-- Tying the closure to the name changes nothing about the names that its body looks up. -/
structure Closure.Settled (c : Closure) (f : String) : Prop where
  gains : ¬ c.Gains f
  loses : ∀ g, ¬ c.Loses f g

/-- A name that its body looks up is the closure's own name if it is the new one. -/
theorem Closure.Settled.self_iff {c : Closure} {f y : String} (h : c.Settled f)
    (hread : y ∈ c.body.reads) (hbinder : y ≠ c.binder) : c.self = some y ↔ y = f := by
  constructor
  · intro hself
    by_contra hne
    exact h.loses y ⟨hself, hne, hbinder, hread⟩
  · rintro rfl
    by_contra hself
    exact h.gains ⟨hself, hbinder, hread⟩

/-- A program next to one with other names. -/
def Correspondence.renaming : Correspondence where
  binders _ _ := True
  names _ := True
  left f c := c.Settled f
  right f c := c.Settled f
  refl _ := trivial
  eq := trivial
  bind _ _ := trivial
  tie {N f f' c c'} _ _ _ hself hleft hright h := by
    refine h.mono fun y hread y' hread' => Naming.bind_imp fun hbinder hbinder' hy => ?_
    have hown := hleft.self_iff hread hbinder
    have hown' := hright.self_iff hread' hbinder'
    rcases Naming.tie_cases hself hy with ⟨hy, hy'⟩ | ⟨hne, hne', hN⟩
    · exact .inl ⟨hown.1 hy, hown'.1 hy'⟩
    · exact .inr ⟨fun h => hne (hown.2 h), fun h => hne' (hown'.2 h), hN⟩

/-- Programs that differ in the names of binders keep step. -/
theorem meet_of_alpha {e e' : Expr} (h : Alpha Eq e e') (hloose : e.looseBinders = []) {fuel id id' : Nat}
    (hleft : ∀ f c, Task.Ties ⟨fuel, .initial, e, .new none id⟩ f c → c.Settled f)
    (hright : ∀ f c, Task.Ties ⟨fuel, .initial, e', .new none id'⟩ f c → c.Settled f) :
    Eval.Meet Correspondence.renaming.Values Correspondence.renaming.Errors
      (eval fuel .initial e (.new none id)) (eval fuel .initial e' (.new none id')) := by
  let K := Correspondence.renaming
  exact K.meet_eval K.eq (Correspondence.scopes_same _) (h.toMatches hloose) ⟨rfl, hleft⟩ ⟨rfl, hright⟩

open Interpreter in
/-- Programs that differ in the names of binders compute the same numbers, if recursive `let`s do not
speak of their names in what they bind, outside lambdas, and tie no other closures than such whose bodies
look up the same under the new name. -/
theorem gives_number_alpha (e e' : Expr) (h : Alpha Eq e e') (hloose : e.looseBinders = [])
    (id id' : Nat)
    (hleft : ∀ fuel f c, Task.Ties ⟨fuel, .initial, e, .new none id⟩ f c → c.Settled f)
    (hright : ∀ fuel f c, Task.Ties ⟨fuel, .initial, e', .new none id'⟩ f c → c.Settled f)
    (n : Int64) :
    Gives none id .initial e (.ok (.number n)) ↔ Gives none id' .initial e' (.ok (.number n)) := by
  refine exists_congr fun fuel => ?_
  have hmeet := meet_of_alpha h hloose (hleft fuel) (hright fuel)
  exact hmeet.number_iff (Correspondence.likeness_values _) n

theorem settled_of_tiesLambdas {e : Expr} (hsource : e.isSource = true) (hties : e.tiesLambdas = true)
    (fuel id : Nat) (f : String) (c : Closure) (h : Task.Ties ⟨fuel, .initial, e, .new none id⟩ f c) :
    c.Settled f :=
  absurd h (Task.not_ties_of_plain Env.tiesOnly_initial (Expr.tiesOnly_of_isSource hsource hties) f c)

open Interpreter in
/-- Where recursive `let`s bind lambdas only, names of binders make no difference. -/
theorem gives_number_iff_of_tiesLambdas {e e' : Expr} (h : Alpha Eq e e')
    (hties : e.tiesLambdas = true) (id id' : Nat) (n : Int64) :
    Gives none id .initial e (.ok (.number n)) ↔ Gives none id' .initial e' (.ok (.number n)) := by
  refine exists_congr fun fuel => ?_
  have hleft := settled_of_tiesLambdas h.isSource.1 hties fuel id
  have hright := settled_of_tiesLambdas h.isSource.2 (h.tiesLambdas_eq ▸ hties) fuel id'
  have hmeet := meet_of_alpha h (Expr.looseBinders_of_tiesLambdas hties) hleft hright
  exact hmeet.number_iff (Correspondence.likeness_values _) n

/-- A function that calls itself once, and a recursive `let` that ties a closure which calls it. -/
theorem gives_number_alpha_once :
    let through (f y : String) : Expr :=
      .ite (.boolean true) (.lam y (.app (.var f) (.var y))) (.var f)
    let program (f g x y : String) : Expr := .letIn true f
      (.lam x (.ite (.var x) (.app (.var f) (.boolean false)) (.number 7)))
      (.letIn true g (through f y) (.app (.var g) (.boolean true)))
    let e := program "f" "g" "x" "y"
    let e' := program "again" "h" "b" "b"
    Alpha Eq e e' ∧ (∃ c, Task.Ties ⟨0, .initial, e, .new none 8⟩ "g" c) ∧
      Interpreter.Gives none 8 .initial e (.ok (.number 7)) ∧
      Interpreter.Gives none 8 .initial e' (.ok (.number 7)) := by
  intro through program e e'
  have halpha : Alpha Eq e e' := by
    refine .letRec (.lam (.ite (.var ?_) (.app (.var ?_) (.boolean false)) (.number 7)))
      (.letRec (.ite (.boolean true) (.lam (.app (.var ?_) (.var ?_))) (.var ?_))
        (.app (.var ?_) (.boolean true)))
    all_goals simp [Naming.bind]
  have hthrough : ∀ n env f y i, eval n env (through f y) i =
      some (.ok (.closure i.nextId y (.app (.var f) (.var y)) env none),
        { i with nextId := i.nextId + 1 }) := fun _ _ _ _ _ => rfl
  have hsettled : ∀ f g x y, g ≠ f → ∀ fuel k c,
      Task.Ties ⟨fuel, .initial, program f g x y, .new none 8⟩ k c → c.Settled k := by
    intro f g x y hne fuel k c h
    have hprogram : (program f g x y).TiesOnly fun k bound => k = g ∧ bound = through f y := by
      refine .letIn nofun (Expr.tiesOnly_of_isSource rfl rfl) (.letIn (fun _ _ => ⟨rfl, rfl⟩) ?_ ?_)
      · exact Expr.tiesOnly_of_isSource rfl rfl
      · exact .app (.var g) (.boolean true)
    obtain ⟨n, env, _, i, j, ⟨rfl, rfl⟩, hrun⟩ := h.of_tiesOnly Env.tiesOnly_initial hprogram
    rw [hthrough, Option.some.injEq, Prod.mk.injEq, Except.ok.injEq] at hrun
    obtain rfl : c = ⟨i.nextId, y, .app (.var f) (.var y), env, none⟩ :=
      Closure.toExpr_injective hrun.1.symm
    refine ⟨fun hgains => ?_, fun _ hloses => nomatch hloses.self⟩
    have hread : k = f ∨ k = y := by simpa [Expr.reads] using hgains.reads
    exact hread.elim hne hgains.ne_binder
  have hties : ∃ c, Task.Ties ⟨0, .initial, e, .new none 8⟩ "g" c :=
    ⟨⟨10, "y", .app (.var "f") (.var "y"), _, none⟩, 0, _, _, _, _, _,
      .head .recursiveRest .refl, rfl, hthrough _ _ _ _ _⟩
  have hiff := gives_number_alpha e e' halpha (by decide) 8 8
    (hsettled "f" "g" "x" "y" (by decide)) (hsettled "again" "h" "b" "b" (by decide)) 7
  have hgives : Interpreter.Gives none 8 .initial e (.ok (.number 7)) := ⟨4, _, by cbv⟩
  exact ⟨halpha, hties, hgives, hiff.1 hgives⟩

/-- Names make a difference: what a recursive `let` binds is evaluated where its name stands for what it
stood for before, and a closure that it ties hides what its body looked up under the name. -/
theorem renaming_changes_results :
    let loose (x : String) : Expr := .letIn false "x" (.number 5) (.letIn true x (.var x) (.var x))
    let hidden (g : String) : Expr := .letIn false "g" (.number 10)
      (.letIn false "f" (.lam "x" (.var "g")) (.letIn true g (.var "f") (.app (.var g) (.number 0))))
    (Alpha Eq (loose "x") (loose "y") ∧
      Interpreter.Gives none 8 .initial (loose "x") (.ok (.number 5)) ∧
      ¬ Interpreter.Gives none 8 .initial (loose "y") (.ok (.number 5))) ∧
    (Alpha Eq (hidden "h") (hidden "g") ∧
      Interpreter.Gives none 8 .initial (hidden "h") (.ok (.number 10)) ∧
      ¬ Interpreter.Gives none 8 .initial (hidden "g") (.ok (.number 10))) := by
  have hloose : Interpreter.Gives none 8 .initial
      (.letIn false "x" (.number 5) (.letIn true "y" (.var "y") (.var "y")))
      (.error (.unboundVariable "y")) := ⟨1, _, by cbv⟩
  have hhidden : ∃ id x body env self, Interpreter.Gives none 8 .initial
      (.letIn false "g" (.number 10) (.letIn false "f" (.lam "x" (.var "g"))
        (.letIn true "g" (.var "f") (.app (.var "g") (.number 0)))))
      (.ok (.closure id x body env self)) := ⟨_, _, _, _, _, 2, _, by cbv⟩
  refine ⟨⟨?_, ⟨1, _, by cbv⟩, fun h => ?_⟩, ?_, ⟨2, _, by cbv⟩, fun h => ?_⟩
  · refine .letIn (.number 5) (.letRec (.var ?_) (.var ?_))
    all_goals simp [Naming.bind]
  · cases hloose.unique h
  · refine .letIn (.number 10) (.letIn (.lam (.var ?_)) (.letRec (.var ?_) (.app (.var ?_) (.number 0))))
    all_goals simp [Naming.bind]
  · obtain ⟨id, x, body, env, self, hhidden⟩ := hhidden
    cases hhidden.unique h

end LetPoly
