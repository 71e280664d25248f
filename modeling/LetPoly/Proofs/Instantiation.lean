import Mathlib
import LetPoly.Proofs.Footprint

/-! What comes of instantiating a generalized type: the type itself, with fresh unknowns for those on which
no binding of the context depends (`generic_generalize`). The variables in between have names made of
numbers, and a named variable that is already in the type may be taken for one of them
(`instantiate_generalize_captures`). -/

namespace LetPoly

/-- The unknowns of the resolved type that generalizing turns into variables, in ascending order. -/
def Context.quantified (ctx : Context) (σ : Solution) (t : Ty) : List Nat :=
  (σ.apply t).freeUnknowns.filter fun u => u ∉ ctx.freeUnknowns σ

variable {σ : Solution} {ctx : Context} {t : Ty} {u : Nat}

theorem mem_quantified :
    u ∈ ctx.quantified σ t ↔ u ∈ (σ.apply t).unknowns ∧ u ∉ ctx.freeUnknowns σ := by
  simp [Context.quantified, Ty.freeUnknowns, mem_ascending]

theorem pairwise_quantified (ctx : Context) (σ : Solution) (t : Ty) :
    (ctx.quantified σ t).Pairwise (· < ·) :=
  (pairwise_ascending _).filter _

theorem quantified_eq {ks : List Nat} (hks : ks.Pairwise (· < ·))
    (hmem : ∀ u, u ∈ ks ↔ u ∈ (σ.apply t).unknowns ∧ u ∉ ctx.freeUnknowns σ) :
    ctx.quantified σ t = ks :=
  (pairwise_quantified ctx σ t).eq_of_mem_iff hks fun u => mem_quantified.trans (hmem u).symm

theorem vars_generalize (σ : Solution) (ctx : Context) (t : Ty) :
    (generalize σ ctx t).vars = (ctx.quantified σ t).map generalizedName := rfl

/-- Putting variables for unknowns one after the other puts them all at once: a variable that has been put
has no unknowns for the next ones. -/
theorem Ty.foldl_replace_var (name : Nat → String) (ks : List Nat) (t : Ty) :
    ks.foldl (fun r k => r.replace k (.var (name k))) t =
      t.subst fun u => if u ∈ ks then .var (name u) else .unknown u := by
  induction ks generalizing t with
  | nil => simp [Ty.subst_unknown]
  | cons k ks ih =>
    rw [List.foldl_cons, ih, Ty.replace, Ty.subst_subst]
    refine Ty.subst_congr fun u _ => ?_
    by_cases hu : u = k
    · simp [hu, Ty.subst]
    · simp [hu, Ty.subst]

/-- What is generalized is replaced unknown by unknown, in ascending order. -/
theorem body_generalize (σ : Solution) (ctx : Context) (t : Ty) :
    (generalize σ ctx t).body =
      (ctx.quantified σ t).foldl (fun r u => r.replace u (.var (generalizedName u))) (σ.apply t) :=
  (Ty.foldl_replace_var generalizedName _ _).symm

theorem idxOf_map_of_injective {α β : Type} [DecidableEq α] [DecidableEq β] {f : α → β}
    (hf : Function.Injective f) (l : List α) (a : α) : (l.map f).idxOf (f a) = l.idxOf a := by
  induction l with
  | nil => rfl
  | cons b l ih => simp only [List.map_cons, List.idxOf_cons, ih, hf.beq_eq]

/-- The variables of a generalized type give way to the unknowns that they come from, in their order,
if the type has no variables of these names itself. -/
theorem generic_generalize (h : ∀ u ∈ ctx.quantified σ t, generalizedName u ∉ (σ.apply t).vars)
    (n : Nat) :
    (generalize σ ctx t).generic n .unknown =
      (σ.apply t).subst fun u =>
        if u ∈ ctx.quantified σ t then .unknown (n + (ctx.quantified σ t).idxOf u) else .unknown u := by
  change ((σ.apply t).subst fun u =>
    if u ∈ ctx.quantified σ t then .var (generalizedName u) else .unknown u).inst _ _ = _
  rw [Ty.subst_eq_inst, Ty.inst_inst, Ty.subst_eq_inst, vars_generalize]
  refine Ty.inst_congr (fun u _ => ?_) fun v hv => ?_
  · split
    · next hu =>
      rw [Ty.inst, if_pos (List.mem_map_of_mem hu)]
      simp only [idxOf_map_of_injective generalizedName_injective]
    · rfl
  · refine if_neg fun hmem => ?_
    obtain ⟨u, hu, rfl⟩ := List.mem_map.1 hmem
    exact h u hu hv

/-- An unknown of an instance is one that the context depends on, or it is fresh. -/
theorem mem_unknowns_generic_generalize {n : Nat}
    (hu : u ∈ ((generalize σ ctx t).generic n .unknown).unknowns) :
    u ∈ ctx.freeUnknowns σ ∨ n ≤ u ∧ u < n + (ctx.quantified σ t).length := by
  rcases Ty.mem_unknowns_inst.1 hu with ⟨v, hv, hu⟩ | ⟨v, -, hu⟩
  · rw [Ty.unknowns, List.mem_singleton] at hu
    exact .inl (hu ▸ (Infer.mem_unknowns_generalize.1 hv).2)
  · split at hu
    · next hv =>
      have hlt := List.idxOf_lt_length_iff.2 hv
      rw [vars_generalize, List.length_map] at hlt
      simp only [Ty.unknowns, List.mem_singleton, vars_generalize] at hu
      exact .inr (by omega)
    · cases hu

/-- Generalizing quantifies over the unknowns `ks` of the resolved type that the context does not depend
on, by one name for each. An instance has the next unknowns in their places, one after the other, unless
the type has a variable of such a name itself; another instance has none of these. -/
theorem instantiate_generalize (S : Session) (ctx : Context) (t : Ty) (ks : List Nat)
    (hks : ks.Pairwise (· < ·))
    (hmem : ∀ u, u ∈ ks ↔
      u ∈ (S.solution.apply t).unknowns ∧ u ∉ ctx.freeUnknowns S.solution) :
    let r := S.solution.apply t
    let s := generalize S.solution ctx t
    s.vars = ks.map generalizedName ∧ s.vars.Nodup ∧
      (∀ u ∈ s.body.unknowns, u ∈ ctx.freeUnknowns S.solution) ∧
      (∃ a, (Infer.instantiate s).run S = (.ok a, { S with supply := S.supply + ks.length }) ∧
        ((∀ k ∈ ks, generalizedName k ∉ r.vars) →
          a = r.subst fun u => if u ∈ ks then .unknown (S.supply + (ks.idxOf u + 1)) else .unknown u)) ∧
      ∀ a b S₁ S₂, (Infer.instantiate s).run S = (.ok a, S₁) →
        (Infer.instantiate s).run S₁ = (.ok b, S₂) →
        ∀ u ∈ a.unknowns, u ∈ b.unknowns → u ∈ ctx.freeUnknowns S.solution := by
  intro r s
  obtain rfl := quantified_eq hks hmem
  have hnodup : (ctx.quantified S.solution t).Nodup := hks.imp fun h => Nat.ne_of_lt h
  have hlength : s.vars.length = (ctx.quantified S.solution t).length := by
    rw [vars_generalize, List.length_map]
  refine ⟨rfl, hnodup.map generalizedName_injective, fun u hu => (Infer.mem_unknowns_generalize.1 hu).2, ?_, ?_⟩
  · refine ⟨_, (Infer.run_instantiate s S).trans (by rw [hlength]), fun hnames => ?_⟩
    rw [generic_generalize hnames]
    simp only [Nat.add_assoc, Nat.add_comm 1]
    rfl
  · intro a b S₁ S₂ ha hb u hu hu'
    rw [Infer.run_instantiate] at ha
    cases ha
    rw [Infer.run_instantiate] at hb
    cases hb
    -- the fresh unknowns of the second instance come after those of the first
    rcases mem_unknowns_generic_generalize hu with hkept | ⟨-, hlt⟩
    · exact hkept
    · rcases mem_unknowns_generic_generalize hu' with hkept | ⟨hle, -⟩
      · exact hkept
      · simp only [hlength] at hle
        omega

/-- The context depends on unknown 3, and the type on 2, 3 and 5, which take some resolving. -/
theorem instantiate_generalize_two :
    let S : Session := ⟨[(4, .fn (.unknown 3) (.unknown 5)), (1, .fn (.unknown 2) (.unknown 4))], 5, []⟩
    let ctx : Context := [("y", .ofTy (.unknown 3))]
    let s := generalize S.solution ctx (.unknown 1)
    s = ⟨["a2", "a5"], .fn (.var "a2") (.fn (.unknown 3) (.var "a5"))⟩ ∧
      (Infer.instantiate s).run S =
        (.ok (.fn (.unknown 6) (.fn (.unknown 3) (.unknown 7))), { S with supply := 7 }) := by
  intro S ctx s
  have hmem : ∀ u, u ∈ [2, 5] ↔
      u ∈ (S.solution.apply (.unknown 1)).unknowns ∧ u ∉ ctx.freeUnknowns S.solution := by
    have hresolved : (S.solution.apply (.unknown 1)).unknowns = [2, 3, 5] := by decide
    have hkept : ctx.freeUnknowns S.solution = [3] := by decide
    intro u
    rw [hresolved, hkept]
    simp only [List.mem_cons, List.not_mem_nil, or_false]
    omega
  obtain ⟨-, -, -, ⟨a, hrun, ha⟩, -⟩ := instantiate_generalize S ctx (.unknown 1) [2, 5] (by decide) hmem
  refine ⟨by decide, ?_⟩
  rw [hrun, ha (by decide)]
  rfl

/-- Where a context has let a named variable into the solution, one of the names made for generalizing
may be the same, and the variable is taken along: an instance does not have it any more. -/
theorem instantiate_generalize_captures :
    let e : Expr := .app (.lam "y" (.var "y")) (.var "x")
    let S₀ := ((inferExpr [("x", .ofTy (.var "a3"))] e).run .new).2
    let S := ((Infer.instantiate ⟨["b"], .var "b"⟩).run S₀).2
    let t : Ty := .fn (.unknown 1) (.unknown 3)
    S.solution.Acyclic ∧ t.vars = [] ∧ (∀ u ∈ t.unknowns, u ≤ S.supply) ∧
      (∀ b ∈ S.solution, b.1 ≤ S.supply ∧ ∀ u ∈ b.2.unknowns, u ≤ S.supply) ∧
      S.solution.apply t = .fn (.var "a3") (.unknown 3) ∧
      (∀ u, u ∈ [3] ↔ u ∈ (S.solution.apply t).unknowns ∧ u ∉ Context.freeUnknowns [] S.solution) ∧
      ((Infer.instantiate (generalize S.solution [] t)).run S).1 = .ok (.fn (.unknown 4) (.unknown 4)) ∧
      ((Infer.instantiate (generalize S.solution [] t)).run S).1 ≠
        .ok ((S.solution.apply t).subst fun u => if u = 3 then .unknown (S.supply + 1) else .unknown u) := by
  intro e S₀ S t
  have hsupply : S.supply = 3 := by
    dsimp only [S, S₀]
    cbv
  have hsolution : S.solution = [(2, .var "a3"), (1, .var "a3")] := by
    dsimp only [S, S₀]
    cbv
  have hrun : ((Infer.instantiate (generalize S.solution [] t)).run S).1 =
      .ok (.fn (.unknown 4) (.unknown 4)) := by
    dsimp only [S, S₀]
    cbv
  rw [hrun, hsupply, hsolution]
  refine ⟨Solution.acyclic_of_rank (fun _ => 0) ?_, rfl, by decide, by decide, by decide, ?_, rfl, by decide⟩
  · rintro u v ⟨r, hr, hv⟩
    have hmem := Bindings.mem_of_get? hr
    simp only [List.mem_cons, Prod.mk.injEq, List.not_mem_nil, or_false] at hmem
    rcases hmem with ⟨-, rfl⟩ | ⟨-, rfl⟩ <;> cases hv
  · have hfree : (Solution.apply [(2, .var "a3"), (1, .var "a3")] t).unknowns = [3] := by decide
    have hkept : Context.freeUnknowns [] [(2, .var "a3"), (1, .var "a3")] = [] := by decide
    simp [hfree, hkept]

end LetPoly
