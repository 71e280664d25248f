import LetPoly.Proofs.Termination

/-! Many evaluations on one interpreter. An evaluation leaves the interpreter at the depth at which it has
found it, also where it fails, and what it comes to depends on nothing of the interpreter but how many calls it
may still nest (`Interpreter.Returns.of_level`). So each of many evaluations comes to what it comes to on a new
interpreter, and one that starts deep inside others to what it comes to under the limit that is left there
(`evaluations_independent`). -/

namespace LetPoly

/-- Outcomes that are the same but for the numbers of closures, or for the limits where both are stopped by
theirs. -/
inductive Eval.Similar (limit limit' : Option Nat) : Except EvalError Expr → Except EvalError Expr → Prop
  | alike {r r' : Except EvalError Expr} : Eval.Renumbered r r' → Similar limit limit' r r'
  | stopped {n n' : Nat} : limit = some n → limit' = some n' →
      Similar limit limit' (.error (.recursionLimit n)) (.error (.recursionLimit n'))

namespace Interpreter

/-- With as much nesting as it takes, the evaluation comes to the outcome, and leaves the interpreter as the
second one. -/
def Returns (i : Interpreter) (env : Env) (e : Expr) (r : Except EvalError Expr) (j : Interpreter) : Prop :=
  ∃ fuel, eval fuel env e i = some (r, j)

/-- Evaluations one after the other, each on the interpreter that the one before it has left. -/
inductive Performs : Interpreter → List (Env × Expr) → List (Except EvalError Expr) → Interpreter → Prop
  | nil (i : Interpreter) : Performs i [] [] i
  | cons {i j k : Interpreter} {env : Env} {e : Expr} {r : Except EvalError Expr}
      {calls : List (Env × Expr)} {rs : List (Except EvalError Expr)} : i.Returns env e r j →
      Performs j calls rs k → Performs i ((env, e) :: calls) (r :: rs) k

/-- Neither interpreter has a limit, or both may nest as many calls more. -/
inductive Level : Interpreter → Interpreter → Prop
  | unlimited {i i' : Interpreter} : i.maxDepth = none → i'.maxDepth = none → Level i i'
  | limited {i i' : Interpreter} (k : Nat) : i.maxDepth = some (i.depth + k) →
      i'.maxDepth = some (i'.depth + k) → Level i i'

variable {i i' j j' : Interpreter} {env : Env} {e : Expr} {r r' : Except EvalError Expr} {k n id : Nat}
  {limit : Option Nat}

theorem Level.symm (h : i.Level i') : i'.Level i := by
  cases h with
  | unlimited hi hi' => exact .unlimited hi' hi
  | limited k hi hi' => exact .limited k hi' hi

/-- An interpreter between evaluations is at the level of a new one. -/
theorem level_new (hlimit : i.maxDepth = limit) (hdepth : i.depth = 0) (id : Nat) :
    i.Level (new limit id) := by
  cases limit with
  | none => exact .unlimited hlimit rfl
  | some n => exact .limited n (by rw [hlimit, hdepth, Nat.zero_add]) (by simp [new])

theorem Returns.unique (h : i.Returns env e r j) (h' : i.Returns env e r' j') : r = r' ∧ j = j' := by
  obtain ⟨fuel, hrun⟩ := h
  obtain ⟨fuel', hrun'⟩ := h'
  have hmax := eval_of_le hrun (le_max_left fuel fuel')
  rw [eval_of_le hrun' (le_max_right fuel fuel')] at hmax
  cases hmax
  exact ⟨rfl, rfl⟩

theorem Returns.steady (h : i.Returns env e r j) : j.depth = i.depth ∧ j.maxDepth = i.maxDepth := by
  obtain ⟨fuel, hrun⟩ := h
  obtain ⟨hlimit, hdepth, -⟩ := steady_eval fuel env e i r j hrun
  exact ⟨hdepth, hlimit⟩

/-- Under a limit that leaves `k` calls to nest, the run is the one without a limit that may nest `k` calls, and
where that does not finish it is stopped. -/
theorem run_cases (hi : i.maxDepth = some (i.depth + k)) (env : Env) (e : Expr) :
    (∃ r j, eval k env e { i with maxDepth := none } = some (r, j) ∧
        i.run env e = some (r, j.under (i.depth + k))) ∨
      eval k env e { i with maxDepth := none } = none ∧
        ∃ j, i.run env e = some (.error (.recursionLimit (i.depth + k)), j) := by
  have hcut := cutsOff_eval (i := { i with maxDepth := none }) (n := i.depth + k) ⟨rfl, rfl⟩ env e
  have hunder : under { i with maxDepth := none } (i.depth + k) = i := by rw [under, ← hi]
  rw [run, fuel, hi]
  simp only [Nat.add_sub_cancel_left]
  cases hrun : eval k env e { i with maxDepth := none } with
  | none =>
    obtain ⟨j, hj⟩ := hcut.unfinished hrun
    rw [hunder] at hj
    exact .inr ⟨rfl, j, hj⟩
  | some p =>
    have hp := hcut.finished p.1 p.2 hrun
    rw [hunder] at hp
    exact .inl ⟨p.1, p.2, rfl, hp⟩

theorem returns_of_run (h : i.run env e = some (r, j)) : i.Returns env e r j := ⟨i.fuel, h⟩

/-- Where a limit leaves calls to nest, running the interpreter is evaluating with as much nesting as it takes.
-/
theorem returns_iff_run (hi : i.maxDepth = some (i.depth + k)) :
    i.Returns env e r j ↔ i.run env e = some (r, j) := by
  refine ⟨fun h => ?_, returns_of_run⟩
  have hfinished : ∃ p, i.run env e = some p := by
    rcases run_cases hi env e with ⟨r', j', -, hrun⟩ | ⟨-, j', hrun⟩
    · exact ⟨_, hrun⟩
    · exact ⟨_, hrun⟩
  obtain ⟨⟨r', j'⟩, hrun⟩ := hfinished
  obtain ⟨rfl, rfl⟩ := h.unique (returns_of_run hrun)
  exact hrun

theorem gives_iff_returns : Gives limit id env e r ↔ ∃ j, (new limit id).Returns env e r j := by
  cases limit with
  | none => exact exists_comm
  | some n => exact exists_congr fun j => (returns_iff_run (k := n) (by simp [new])).symm

/-- Interpreters that may nest as many calls more come to similar outcomes. -/
theorem Returns.of_level (h : i.Returns env e r j) (hlevel : i.Level i') :
    ∃ r' j', i'.Returns env e r' j' ∧ Eval.Similar i.maxDepth i'.maxDepth r r' := by
  cases hlevel with
  | unlimited hi hi' =>
    obtain ⟨fuel, hrun⟩ := h
    have hmeet := meet_unlimited hi hi' fuel env e
    rw [hrun] at hmeet
    generalize ho : eval fuel env e i' = o at hmeet
    cases hmeet with
    | finished hr => exact ⟨_, _, ⟨fuel, ho⟩, .alike hr⟩
  | limited k hi hi' =>
    have hunlimited : { i with maxDepth := none }.maxDepth = none := rfl
    have hunlimited' : { i' with maxDepth := none }.maxDepth = none := rfl
    have hmeet := meet_unlimited hunlimited hunlimited' k env e
    rw [returns_iff_run hi] at h
    rcases run_cases hi env e with ⟨s, l, hfree, hrun⟩ | ⟨hfree, l, hrun⟩
    · rw [h] at hrun
      cases hrun
      rw [hfree] at hmeet
      rcases run_cases hi' env e with ⟨s', l', hfree', hrun'⟩ | ⟨hfree', -⟩
      · rw [hfree'] at hmeet
        cases hmeet with
        | finished hr => exact ⟨_, _, returns_of_run hrun', .alike hr⟩
      · rw [hfree'] at hmeet
        cases hmeet
    · rw [h] at hrun
      cases hrun
      rw [hfree] at hmeet
      rcases run_cases hi' env e with ⟨s', l', hfree', -⟩ | ⟨-, l', hrun'⟩
      · rw [hfree'] at hmeet
        cases hmeet
      · exact ⟨_, _, returns_of_run hrun', .stopped hi hi'⟩

/-- Evaluations leave the interpreter at the depth and under the limit that they have found. -/
theorem Performs.steady {calls : List (Env × Expr)} {rs : List (Except EvalError Expr)}
    (h : i.Performs calls rs j) : j.depth = i.depth ∧ j.maxDepth = i.maxDepth := by
  induction h with
  | nil => exact ⟨rfl, rfl⟩
  | cons hcall _ ih =>
    obtain ⟨hdepth, hlimit⟩ := hcall.steady
    exact ⟨ih.1.trans hdepth, ih.2.trans hlimit⟩

/-- Each of the outcomes is similar to that of a new interpreter. -/
theorem Performs.similar {calls : List (Env × Expr)} {rs : List (Except EvalError Expr)}
    (h : i.Performs calls rs j) (hlimit : i.maxDepth = limit) (hdepth : i.depth = 0) :
    List.Forall₂ (fun call r => ∀ id, ∃ r', Gives limit id call.1 call.2 r' ∧
      Eval.Similar limit limit r r') calls rs := by
  induction h with
  | nil => exact .nil
  | cons hcall _ ih =>
    obtain ⟨hd, hl⟩ := hcall.steady
    refine .cons (fun id => ?_) (ih (hl.trans hlimit) (hd.trans hdepth))
    obtain ⟨r', j', hreturns, hsimilar⟩ := hcall.of_level (level_new hlimit hdepth id)
    rw [hlimit] at hsimilar
    exact ⟨r', gives_iff_returns.2 ⟨j', hreturns⟩, hsimilar⟩

end Interpreter

open Interpreter in
/-- An evaluation that returns, with a value or with an error, leaves the interpreter at its depth. So of many
evaluations on an interpreter each comes to what it comes to on a new one under the same limit, and the next one
returns if it does on a new one. And where `i.depth` of at most `n` calls are under way already, evaluation
comes to what it comes to on a new interpreter with a limit of what is left. -/
theorem evaluations_independent :
    (∀ (i j : Interpreter) env e r, i.Returns env e r j → j.depth = i.depth ∧ j.maxDepth = i.maxDepth) ∧
    (∀ limit id calls rs j, (new limit id).Performs calls rs j →
      List.Forall₂ (fun call r => ∀ id', ∃ r', Gives limit id' call.1 call.2 r' ∧
        Eval.Similar limit limit r r') calls rs ∧
      ∀ env e id' r, Gives limit id' env e r →
        ∃ r' k, j.Returns env e r' k ∧ Eval.Similar limit limit r r') ∧
    ∀ (i : Interpreter) n, i.maxDepth = some n → i.depth ≤ n → ∀ env e id, ∃ r r' j,
      Gives (some (n - i.depth)) id env e r ∧ i.run env e = some (r', j) ∧
        Eval.Similar (some (n - i.depth)) (some n) r r' := by
  refine ⟨fun i j env e r h => h.steady, fun limit id calls rs j h => ?_, fun i n hi hle env e id => ?_⟩
  · refine ⟨h.similar rfl rfl, fun env e id' r hr => ?_⟩
    obtain ⟨hdepth, hlimit⟩ : j.depth = 0 ∧ j.maxDepth = limit := h.steady
    obtain ⟨k, hr⟩ := gives_iff_returns.1 hr
    obtain ⟨r', j', hreturns, hsimilar⟩ := hr.of_level (level_new hlimit hdepth id').symm
    rw [hlimit] at hsimilar
    exact ⟨r', j', hreturns, hsimilar⟩
  · have hroom : i.maxDepth = some (i.depth + (n - i.depth)) := by rw [hi, Nat.add_sub_cancel' hle]
    obtain ⟨r, hr⟩ := exists_gives_some (n - i.depth) id env e
    obtain ⟨k, hk⟩ := gives_iff_returns.1 hr
    have hlevel : (new (some (n - i.depth)) id).Level i :=
      .limited (n - i.depth) (by simp [new]) hroom
    obtain ⟨r', j, hreturns, hsimilar⟩ := hk.of_level hlevel
    rw [hi] at hsimilar
    exact ⟨r, r', j, hr, (returns_iff_run hroom).1 hreturns, hsimilar⟩

open Interpreter in
/-- The second of three evaluations is stopped by the limit of one call, and the third one is not; two calls deep
under a limit of three the second one is stopped as well. -/
theorem evaluations_independent_stopped :
    let sum : Expr := .binary "add" (.number 20) (.number 22)
    let nested : Expr := .app (.lam "x" (.app (.lam "y" (.var "y")) (.var "x"))) (.number 1)
    let calls : List (Env × Expr) := [(.initial, sum), (.initial, nested), (.initial, sum)]
    let rs : List (Except EvalError Expr) :=
      [.ok (.number 42), .error (.recursionLimit 1), .ok (.number 42)]
    (∃ j, (new (some 1) Env.builtinCount).Performs calls rs j ∧ j.depth = 0) ∧
      List.Forall₂ (fun call r => ∀ id, ∃ r', Gives (some 1) id call.1 call.2 r' ∧
        Eval.Similar (some 1) (some 1) r r') calls rs ∧
      ∃ r r' j, Gives (some 1) 0 .initial nested r ∧
        (Interpreter.mk (some 3) 2 Env.builtinCount []).run .initial nested = some (r', j) ∧
        Eval.Similar (some 1) (some 3) r r' := by
  intro sum nested calls rs
  have hperforms : ∃ j, (new (some 1) Env.builtinCount).Performs calls rs j :=
    ⟨_, .cons ⟨2, by cbv⟩ (.cons ⟨2, by cbv⟩ (.cons ⟨2, by cbv⟩ (.nil _)))⟩
  obtain ⟨j, hj⟩ := hperforms
  obtain ⟨hrestores, hsequence, hoffset⟩ := evaluations_independent
  exact ⟨⟨j, hj, hj.steady.1⟩, (hsequence (some 1) Env.builtinCount calls rs j hj).1,
    hoffset ⟨some 3, 2, Env.builtinCount, []⟩ 3 rfl (by decide) .initial nested 0⟩

end LetPoly
