import Mathlib.Data.Fintype.EquivFin
import Mathlib.Data.List.GetD
import Mathlib.Data.Set.Finite.Basic
import LetPoly.Proofs.Source
import LetPoly.Ty.Context

/-! The type system that inference decides, stated by rules. Unknowns are its type variables, and a
named variable outside its scheme is a constant. Types are closed under substitution, also into a
context whose schemes are more general (`Typed.subst`); a `let` needs only that its bound expression
has every instance of a scheme (`typed_let_iff`), and the context only has to have the free names
(`typed_congr`). -/

namespace LetPoly

namespace Ty

/-- The named variables from left to right. -/
def vars : Ty → List String
  | number | boolean | unknown _ => []
  | fn a r => a.vars ++ r.vars
  | list e => e.vars
  | var name => [name]

/-- Puts `σ u` for every unknown `u` and `ρ v` for every named variable `v`. -/
def inst (σ : Nat → Ty) (ρ : String → Ty) : Ty → Ty
  | number => number
  | boolean => boolean
  | fn a r => fn (a.inst σ ρ) (r.inst σ ρ)
  | list e => list (e.inst σ ρ)
  | var v => ρ v
  | unknown u => σ u

variable {σ τ : Nat → Ty} {ρ π : String → Ty} {t : Ty}

theorem inst_congr (hσ : ∀ u ∈ t.unknowns, σ u = τ u) (hρ : ∀ v ∈ t.vars, ρ v = π v) :
    t.inst σ ρ = t.inst τ π := by
  induction t with
  | number | boolean => rfl
  | var v => exact hρ v (by simp [vars])
  | unknown u => exact hσ u (by simp [unknowns])
  | fn a r iha ihr =>
    simp only [unknowns, vars, List.mem_append] at hσ hρ
    rw [inst, inst, iha (fun u hu => hσ u (.inl hu)) (fun v hv => hρ v (.inl hv)),
      ihr (fun u hu => hσ u (.inr hu)) (fun v hv => hρ v (.inr hv))]
  | list e ih => rw [inst, inst, ih hσ hρ]

theorem subst_eq_inst (σ : Nat → Ty) (t : Ty) : t.subst σ = t.inst σ .var := by
  induction t with
  | number | boolean | var | unknown => rfl
  | fn a r iha ihr => rw [subst, inst, iha, ihr]
  | list e ih => rw [subst, inst, ih]

theorem inst_inst (σ τ : Nat → Ty) (ρ π : String → Ty) (t : Ty) :
    (t.inst σ ρ).inst τ π = t.inst (fun u => (σ u).inst τ π) fun v => (ρ v).inst τ π := by
  induction t with
  | number | boolean | var | unknown => rfl
  | fn a r iha ihr => rw [inst, inst, inst, iha, ihr]
  | list e ih => rw [inst, inst, inst, ih]

theorem inst_subst (σ τ : Nat → Ty) (ρ : String → Ty) (t : Ty) :
    (t.inst σ ρ).subst τ = t.inst (fun u => (σ u).subst τ) fun v => (ρ v).subst τ := by
  simp only [subst_eq_inst, inst_inst]

theorem mem_unknowns_inst {w : Nat} :
    w ∈ (t.inst σ ρ).unknowns ↔
      (∃ u ∈ t.unknowns, w ∈ (σ u).unknowns) ∨ ∃ v ∈ t.vars, w ∈ (ρ v).unknowns := by
  induction t with
  | number | boolean => simp [inst, unknowns, vars]
  | var v => simp [inst, unknowns, vars]
  | unknown u => simp [inst, unknowns, vars]
  | fn a r iha ihr =>
    simp only [inst, unknowns, vars, List.mem_append, iha, ihr, or_and_right, exists_or]
    exact or_or_or_comm
  | list e ih => simpa [inst, unknowns, vars] using ih

end Ty

namespace Scheme

/-- The body of a scheme with `σ` for its unknowns and `ρ` for its own variables. -/
def inst (s : Scheme) (σ : Nat → Ty) (ρ : String → Ty) : Ty :=
  s.body.inst σ fun v => if v ∈ s.vars then ρ v else .var v

variable {s s' : Scheme} {σ τ : Nat → Ty} {ρ : String → Ty}

theorem inst_ofTy (t : Ty) (σ : Nat → Ty) (ρ : String → Ty) : (ofTy t).inst σ ρ = t.subst σ := by
  rw [inst, Ty.subst_eq_inst]
  exact Ty.inst_congr (fun _ _ => rfl) fun v _ => if_neg List.not_mem_nil

theorem inst_congr (h : ∀ u ∈ s.body.unknowns, σ u = τ u) : s.inst σ ρ = s.inst τ ρ :=
  Ty.inst_congr h fun _ _ => rfl

theorem inst_subst (s : Scheme) (σ τ : Nat → Ty) (ρ : String → Ty) :
    (s.inst σ ρ).subst τ = s.inst (fun u => (σ u).subst τ) fun v => (ρ v).subst τ := by
  rw [inst, Ty.inst_subst]
  refine Ty.inst_congr (fun _ _ => rfl) fun v _ => ?_
  split <;> rfl

/-- The instance that has the unknowns from `n` on in the places of the variables. -/
def generic (s : Scheme) (n : Nat) (σ : Nat → Ty) : Ty :=
  s.inst σ fun v => .unknown (n + s.vars.idxOf v)

/-- Puts `ρ` for the unknowns that a generic instance has for the variables. -/
def choice (s : Scheme) (n : Nat) (σ : Nat → Ty) (ρ : String → Ty) : Nat → Ty :=
  fun u => if u < n then σ u else ρ (s.vars.getD (u - n) "")

theorem choice_of_lt {n u : Nat} (h : u < n) : s.choice n σ ρ u = σ u := if_pos h

theorem generic_subst_choice (s : Scheme) (n : Nat) (σ τ : Nat → Ty) (ρ : String → Ty) :
    (s.generic n σ).subst (s.choice n τ ρ) = s.inst (fun u => (σ u).subst (s.choice n τ ρ)) ρ := by
  rw [generic, inst_subst]
  refine Ty.inst_congr (fun _ _ => rfl) fun v _ => ?_
  split
  · next hv =>
    have hge : ¬ n + s.vars.idxOf v < n := by omega
    simp only [Ty.subst, choice, if_neg hge, Nat.add_sub_cancel_left]
    rw [List.getD_eq_getElem _ _ (List.idxOf_lt_length_iff.2 hv), List.getElem_idxOf]
  · rfl

/-- Each instance of the one scheme is one of the other, which may be more general. -/
def LessGeneral (σ : Nat → Ty) (s : Scheme) (τ : Nat → Ty) (s' : Scheme) : Prop :=
  ∀ ρ, ∃ ρ', s.inst σ ρ = s'.inst τ ρ'

theorem LessGeneral.refl (h : ∀ u ∈ s.body.unknowns, σ u = τ u) : LessGeneral σ s τ s :=
  fun ρ => ⟨ρ, inst_congr h⟩

theorem lessGeneral_ofTy {t t' : Ty} (h : t.subst σ = t'.subst τ) :
    LessGeneral σ (ofTy t) τ (ofTy t') := by
  intro ρ
  exact ⟨ρ, by rw [inst_ofTy, inst_ofTy, h]⟩

/-- The instances of the scheme are those of the type that leave the kept unknowns alone. -/
structure Closes (s : Scheme) (t : Ty) (kept : List Nat) : Prop where
  of_inst : ∀ σ ρ, ∃ τ, s.inst σ ρ = t.subst τ ∧ ∀ u ∈ kept, τ u = σ u
  inst_of : ∀ σ τ, (∀ u ∈ kept, τ u = σ u) → ∃ ρ, t.subst τ = s.inst σ ρ

/-- A scheme that has a variable of its own in the place of every unknown not kept. -/
theorem closes_of_names {t : Ty} {kept : List Nat} {name : Nat → String}
    (hinj : Function.Injective name) (hfresh : ∀ u, name u ∉ t.vars)
    (hvars : ∀ v, v ∈ s.vars ↔ ∃ u ∈ t.unknowns, u ∉ kept ∧ name u = v)
    (hbody : s.body = t.subst fun u => if u ∈ kept then .unknown u else .var (name u)) :
    s.Closes t kept := by
  have hinst : ∀ σ ρ, s.inst σ ρ = t.subst fun u => if u ∈ kept then σ u else ρ (name u) := by
    intro σ ρ
    rw [inst, hbody, Ty.subst_eq_inst, Ty.inst_inst, Ty.subst_eq_inst]
    refine Ty.inst_congr (fun u hu => ?_) fun v hv => ?_
    · split
      · rfl
      · next hk => exact if_pos ((hvars _).2 ⟨u, hu, hk, rfl⟩)
    · refine if_neg fun hmem => ?_
      obtain ⟨u, -, -, rfl⟩ := (hvars v).1 hmem
      exact hfresh u hv
  constructor
  · intro σ ρ
    exact ⟨_, hinst σ ρ, fun u hu => if_pos hu⟩
  · intro σ τ h
    refine ⟨fun v => τ (Function.invFun name v), ?_⟩
    rw [hinst]
    refine Ty.subst_congr fun u _ => ?_
    split
    · next hk => exact h u hk
    · rw [Function.leftInverse_invFun hinj u]

end Scheme

namespace Context

variable {Γ Γ' : Context} {σ τ : Nat → Ty} {s s' : Scheme}

/-- The type variables that are free in a context. -/
def unknowns (Γ : Context) : List Nat := Γ.flatMap fun b => b.2.body.unknowns

theorem mem_unknowns {x : String} {u : Nat} (h : Γ.get? x = some s) (hu : u ∈ s.body.unknowns) :
    u ∈ Γ.unknowns :=
  List.mem_flatMap.2 ⟨(x, s), Bindings.mem_of_get? h, hu⟩

/-- The scheme quantifies over every unknown of the type that is not free in the context. Each has a
name of its own, which does not occur in the type. -/
def Generalizes (Γ : Context) (t : Ty) (s : Scheme) : Prop :=
  ∃ name : Nat → String, Function.Injective name ∧ (∀ u, name u ∉ t.vars) ∧
    (∀ v, v ∈ s.vars ↔ ∃ u ∈ t.unknowns, u ∉ Γ.unknowns ∧ name u = v) ∧
    s.body = t.subst fun u => if u ∈ Γ.unknowns then .unknown u else .var (name u)

theorem Generalizes.closes {t : Ty} (h : Γ.Generalizes t s) : s.Closes t Γ.unknowns := by
  obtain ⟨name, hinj, hfresh, hvars, hbody⟩ := h
  exact Scheme.closes_of_names hinj hfresh hvars hbody

theorem exists_generalizes (Γ : Context) (t : Ty) : ∃ s, Γ.Generalizes t s := by
  have : Infinite {v // v ∉ (↑t.vars.toFinset : Set String)} :=
    t.vars.toFinset.finite_toSet.infinite_compl.to_subtype
  let name := Infinite.natEmbedding {v // v ∉ (↑t.vars.toFinset : Set String)}
  refine ⟨⟨(t.unknowns.filter (· ∉ Γ.unknowns)).map fun u => (name u).1, _⟩,
    fun u => (name u).1, Subtype.val_injective.comp name.injective, fun u => ?_, fun v => ?_, rfl⟩
  · simpa using (name u).2
  · simp [and_assoc]

/-- Every name of the one context has a scheme in the other, which may be more general. -/
def LessGeneral (σ : Nat → Ty) (Γ : Context) (τ : Nat → Ty) (Γ' : Context) : Prop :=
  ∀ x s, Γ.get? x = some s → ∃ s', Γ'.get? x = some s' ∧ s.LessGeneral σ τ s'

theorem LessGeneral.insert (h : LessGeneral σ Γ τ Γ') (hs : s.LessGeneral σ τ s') (x : String) :
    LessGeneral σ (Γ.insert x s) τ (Γ'.insert x s') := by
  intro y r hy
  rw [Bindings.get?_insert] at hy
  split at hy
  · next e =>
    cases hy
    exact ⟨s', by rw [Bindings.get?_insert, if_pos e], hs⟩
  · next e =>
    obtain ⟨r', hr', hle⟩ := h y r hy
    exact ⟨r', by rw [Bindings.get?_insert, if_neg e, hr'], hle⟩

theorem LessGeneral.insert_ofTy (h : LessGeneral σ Γ .unknown Γ') (x : String) (a : Ty) :
    LessGeneral σ (Γ.insert x (.ofTy a)) .unknown (Γ'.insert x (.ofTy (a.subst σ))) :=
  h.insert (Scheme.lessGeneral_ofTy (Ty.subst_unknown _).symm) x

theorem LessGeneral.congr {σ' : Nat → Ty} (h : LessGeneral σ Γ τ Γ')
    (heq : ∀ x s, Γ.get? x = some s → ∀ u ∈ s.body.unknowns, σ' u = σ u) :
    LessGeneral σ' Γ τ Γ' := by
  intro x s hx
  obtain ⟨s', hs', hle⟩ := h x s hx
  refine ⟨s', hs', fun ρ => ?_⟩
  rw [Scheme.inst_congr (heq x s hx)]
  exact hle ρ

theorem LessGeneral.refl (h : ∀ x s, Γ.get? x = some s → ∀ u ∈ s.body.unknowns, σ u = τ u) :
    LessGeneral σ Γ τ Γ :=
  fun x s hx => ⟨s, hx, .refl (h x s hx)⟩

end Context

/-- The Hindley-Milner system: parameters and recursive names have one type, the name of any other
`let` every instance of the generalized type of what it is bound to. -/
inductive Typed : Context → Expr → Ty → Prop
  | number {Γ : Context} (n : Int64) : Typed Γ (.number n) .number
  | boolean {Γ : Context} (b : Bool) : Typed Γ (.boolean b) .boolean
  | var {Γ : Context} {x : String} {s : Scheme} (ρ : String → Ty) : Γ.get? x = some s →
      Typed Γ (.var x) (s.inst .unknown ρ)
  | lam {Γ : Context} {x : String} {body : Expr} {a r : Ty} :
      Typed (Γ.insert x (.ofTy a)) body r → Typed Γ (.lam x body) (.fn a r)
  | app {Γ : Context} {f e : Expr} {a r : Ty} :
      Typed Γ f (.fn a r) → Typed Γ e a → Typed Γ (.app f e) r
  | ite {Γ : Context} {c e₁ e₂ : Expr} {t : Ty} :
      Typed Γ c .boolean → Typed Γ e₁ t → Typed Γ e₂ t → Typed Γ (.ite c e₁ e₂) t
  | letRec {Γ : Context} {x : String} {e body : Expr} {a t : Ty} :
      Typed (Γ.insert x (.ofTy a)) e a → Typed (Γ.insert x (.ofTy a)) body t →
      Typed Γ (.letIn true x e body) t
  | letPoly {Γ : Context} {x : String} {e body : Expr} {a t : Ty} {s : Scheme} :
      Typed Γ e a → Γ.Generalizes a s → Typed (Γ.insert x s) body t →
      Typed Γ (.letIn false x e body) t
  | list {Γ : Context} {items : List Expr} {a : Ty} :
      (∀ e ∈ items, Typed Γ e a) → Typed Γ (.list items) (.list a)

variable {Γ : Context} {x : String} {e body : Expr} {t : Ty}

/-- For a `let` it is enough that the bound expression has all instances of some scheme, and the
body is typed whenever its name has at least these. -/
theorem typed_let_of_instances {s : Scheme} {θ : Nat → Ty} (he : ∀ ρ, Typed Γ e (s.inst θ ρ))
    (hbody : ∀ s', s.LessGeneral θ .unknown s' → Typed (Γ.insert x s') body t) :
    Typed Γ (.letIn false x e body) t := by
  -- the type variables of the generic instance are beyond all that occur
  let used := Γ.unknowns ++ s.body.unknowns.flatMap fun u => (θ u).unknowns
  obtain ⟨N, hN⟩ := used.toFinset.exists_nat_subset_range
  have hN : ∀ u ∈ used, u < N := fun u hu => Finset.mem_range.1 (hN (List.mem_toFinset.2 hu))
  obtain ⟨s', hs'⟩ := Γ.exists_generalizes (s.generic N θ)
  refine .letPoly (he _) hs' (hbody s' fun ρ => ?_)
  have hkept : ∀ u ∈ Γ.unknowns, s.choice N .unknown ρ u = .unknown u := fun u hu =>
    Scheme.choice_of_lt (hN u (List.mem_append_left _ hu))
  obtain ⟨ρ', hρ'⟩ := hs'.closes.inst_of .unknown _ hkept
  refine ⟨ρ', ?_⟩
  rw [← hρ', Scheme.generic_subst_choice]
  refine Scheme.inst_congr fun u hu => ?_
  have hθ : (θ u).subst (s.choice N .unknown ρ) = (θ u).subst .unknown := by
    refine Ty.subst_congr fun w hw => Scheme.choice_of_lt (hN w (List.mem_append_right _ ?_))
    exact List.mem_flatMap.2 ⟨u, hu, hw⟩
  rw [hθ, Ty.subst_unknown]

/-- Types are closed under substitution, and a context may be replaced by a more general one. -/
theorem Typed.subst (h : Typed Γ e t) {θ : Nat → Ty} {Γ' : Context}
    (hΓ : Context.LessGeneral θ Γ .unknown Γ') : Typed Γ' e (t.subst θ) := by
  induction h generalizing θ Γ' with
  | number n => exact .number n
  | boolean b => exact .boolean b
  | var ρ hx =>
    obtain ⟨s', hs', hle⟩ := hΓ _ _ hx
    obtain ⟨ρ', hρ'⟩ := hle fun v => (ρ v).subst θ
    rw [Scheme.inst_subst]
    exact hρ' ▸ .var ρ' hs'
  | lam _ ih => exact .lam (ih (hΓ.insert_ofTy _ _))
  | app _ _ ihf ihe => exact .app (ihf hΓ) (ihe hΓ)
  | ite _ _ _ ihc ih₁ ih₂ => exact .ite (ihc hΓ) (ih₁ hΓ) (ih₂ hΓ)
  | letRec _ _ ihe ihbody =>
    exact .letRec (ihe (hΓ.insert_ofTy _ _)) (ihbody (hΓ.insert_ofTy _ _))
  | letPoly _ hs _ ihe ihbody =>
    refine typed_let_of_instances (fun ρ => ?_) fun s' hle => ihbody (hΓ.insert hle _)
    obtain ⟨τ, hτ, hkept⟩ := hs.closes.of_inst θ ρ
    rw [hτ]
    exact ihe (hΓ.congr fun x s hx u hu => hkept u (Context.mem_unknowns hx hu))
  | list _ ih => exact .list fun e he => ih e he hΓ

/-- A substitution that leaves the type variables of the context alone. -/
theorem Typed.subst_of_fixed (h : Typed Γ e t) {θ : Nat → Ty}
    (hθ : ∀ u ∈ Γ.unknowns, θ u = .unknown u) : Typed Γ e (t.subst θ) :=
  h.subst (.refl fun _ _ hx u hu => hθ u (Context.mem_unknowns hx hu))

theorem Typed.of_lessGeneral {s s' : Scheme} (h : Typed (Γ.insert x s) e t)
    (hle : s.LessGeneral .unknown .unknown s') : Typed (Γ.insert x s') e t := by
  have hΓ : Context.LessGeneral .unknown Γ .unknown Γ := .refl fun _ _ _ _ _ => rfl
  have htyped := h.subst (hΓ.insert hle x)
  rwa [Ty.subst_unknown] at htyped

/-! ### What a type of each form of expression comes from -/

section Inversion

variable {f c e₁ e₂ : Expr} {items : List Expr} {s : Scheme} {y : String}

theorem typed_number_iff {n : Int64} : Typed Γ (.number n) t ↔ t = .number := by
  constructor
  · rintro ⟨⟩
    rfl
  · rintro rfl
    exact .number n

theorem typed_boolean_iff {b : Bool} : Typed Γ (.boolean b) t ↔ t = .boolean := by
  constructor
  · rintro ⟨⟩
    rfl
  · rintro rfl
    exact .boolean b

theorem typed_var_iff : Typed Γ (.var x) t ↔ ∃ s, Γ.get? x = some s ∧ ∃ ρ, t = s.inst .unknown ρ := by
  constructor
  · intro h
    cases h with
    | var ρ hx => exact ⟨_, hx, ρ, rfl⟩
  · rintro ⟨s, hx, ρ, rfl⟩
    exact .var ρ hx

theorem typed_lam_iff :
    Typed Γ (.lam x body) t ↔ ∃ a r, t = .fn a r ∧ Typed (Γ.insert x (.ofTy a)) body r := by
  constructor
  · intro h
    cases h with
    | lam h => exact ⟨_, _, rfl, h⟩
  · rintro ⟨a, r, rfl, h⟩
    exact .lam h

theorem typed_app_iff : Typed Γ (.app f e) t ↔ ∃ a, Typed Γ f (.fn a t) ∧ Typed Γ e a := by
  constructor
  · intro h
    cases h with
    | app hf he => exact ⟨_, hf, he⟩
  · rintro ⟨a, hf, he⟩
    exact .app hf he

theorem typed_ite_iff :
    Typed Γ (.ite c e₁ e₂) t ↔ Typed Γ c .boolean ∧ Typed Γ e₁ t ∧ Typed Γ e₂ t := by
  constructor
  · intro h
    cases h with
    | ite hc h₁ h₂ => exact ⟨hc, h₁, h₂⟩
  · rintro ⟨hc, h₁, h₂⟩
    exact .ite hc h₁ h₂

theorem typed_letRec_iff : Typed Γ (.letIn true x e body) t ↔
    ∃ a, Typed (Γ.insert x (.ofTy a)) e a ∧ Typed (Γ.insert x (.ofTy a)) body t := by
  constructor
  · intro h
    cases h with
    | letRec he hbody => exact ⟨_, he, hbody⟩
  · rintro ⟨a, he, hbody⟩
    exact .letRec he hbody

/-- The scheme need not be the generalization of a type, and then the context has no part in it. -/
theorem typed_let_iff : Typed Γ (.letIn false x e body) t ↔
    ∃ s : Scheme, (∀ ρ, Typed Γ e (s.inst .unknown ρ)) ∧ Typed (Γ.insert x s) body t := by
  constructor
  · intro h
    cases h with
    | letPoly he hs hbody =>
      refine ⟨_, fun ρ => ?_, hbody⟩
      obtain ⟨τ, hτ, hkept⟩ := hs.closes.of_inst .unknown ρ
      rw [hτ]
      exact he.subst_of_fixed hkept
  · rintro ⟨s, he, hbody⟩
    exact typed_let_of_instances he fun s' hle => hbody.of_lessGeneral hle

theorem typed_list_iff : Typed Γ (.list items) t ↔ ∃ a, t = .list a ∧ ∀ e ∈ items, Typed Γ e a := by
  constructor
  · intro h
    cases h with
    | list h => exact ⟨_, rfl, h⟩
  · rintro ⟨a, rfl, h⟩
    exact .list h

theorem typed_var_insert : Typed (Γ.insert x s) (.var x) t ↔ ∃ ρ, t = s.inst .unknown ρ := by
  simp [typed_var_iff, Bindings.get?_insert]

theorem typed_var_insert_of_ne (hne : y ≠ x) :
    Typed (Γ.insert x s) (.var y) t ↔ Typed Γ (.var y) t := by
  rw [typed_var_iff, typed_var_iff, Bindings.get?_insert, if_neg hne.symm]

end Inversion

theorem Context.get?_insert_congr {Γ' : Context} {names : List String} (s : Scheme)
    (h : ∀ y ∈ names.filter (· ≠ x), Γ.get? y = Γ'.get? y) :
    ∀ y ∈ names, (Γ.insert x s).get? y = (Γ'.insert x s).get? y := by
  intro y hy
  rw [Bindings.get?_insert, Bindings.get?_insert]
  split
  · rfl
  · next hne => exact h y (List.mem_filter.2 ⟨hy, decide_eq_true (Ne.symm hne)⟩)

/-- Typing reads of the context what it has for the free names. -/
theorem typed_congr {Γ' : Context} (h : ∀ y ∈ e.freeVars, Γ.get? y = Γ'.get? y) :
    Typed Γ e t ↔ Typed Γ' e t := by
  induction e using Expr.induct generalizing Γ Γ' t with
  | number n => rw [typed_number_iff, typed_number_iff]
  | boolean b => rw [typed_boolean_iff, typed_boolean_iff]
  | var x => rw [typed_var_iff, typed_var_iff, h x (List.mem_singleton_self x)]
  | lam x body ih =>
    rw [typed_lam_iff, typed_lam_iff]
    exact exists_congr fun a => exists_congr fun r => and_congr_right fun _ =>
      ih (Context.get?_insert_congr _ h)
  | app f e ihf ihe =>
    obtain ⟨hf, he⟩ := List.forall_mem_append.1 h
    rw [typed_app_iff, typed_app_iff]
    exact exists_congr fun a => and_congr (ihf hf) (ihe he)
  | ite c e₁ e₂ ihc ih₁ ih₂ =>
    obtain ⟨h, h₂⟩ := List.forall_mem_append.1 h
    obtain ⟨hc, h₁⟩ := List.forall_mem_append.1 h
    rw [typed_ite_iff, typed_ite_iff]
    exact and_congr (ihc hc) (and_congr (ih₁ h₁) (ih₂ h₂))
  | letIn recursive x e body ihe ihbody =>
    cases recursive with
    | true =>
      have hinner := fun a => List.forall_mem_append.1 (Context.get?_insert_congr (.ofTy a) h)
      rw [typed_letRec_iff, typed_letRec_iff]
      exact exists_congr fun a => and_congr (ihe (hinner a).1) (ihbody (hinner a).2)
    | false =>
      obtain ⟨he, hbody⟩ := List.forall_mem_append.1 h
      -- one scheme serves in both contexts, though these may not generalize a type alike
      rw [typed_let_iff, typed_let_iff]
      exact exists_congr fun s =>
        and_congr (forall_congr' fun ρ => ihe he) (ihbody (Context.get?_insert_congr s hbody))
  | list items ih =>
    have hitems : ∀ e ∈ items, ∀ y ∈ e.freeVars, Γ.get? y = Γ'.get? y := fun e he y hy =>
      h y (Expr.mem_freeVarsAll.2 ⟨e, he, hy⟩)
    rw [typed_list_iff, typed_list_iff]
    exact exists_congr fun a => and_congr_right fun _ =>
      forall₂_congr fun e he => ih e he (hitems e he)
  | prim | closure => constructor <;> rintro ⟨⟩

/-- What a name stands for does not matter to an expression in which it is not free. -/
theorem typed_insert_iff {s : Scheme} (hx : x ∉ e.freeVars) :
    Typed (Γ.insert x s) e t ↔ Typed Γ e t := by
  refine typed_congr fun y hy => ?_
  have hne : x ≠ y := fun hxy => hx (hxy ▸ hy)
  rw [Bindings.get?_insert, if_neg hne]

theorem Typed.isSource (h : Typed Γ e t) : e.isSource = true := by
  induction h with
  | number | boolean | var => rfl
  | lam _ ih => exact ih
  | app _ _ ihf ihe => rw [Expr.isSource, ihf, ihe]; rfl
  | ite _ _ _ ihc ih₁ ih₂ => rw [Expr.isSource, ihc, ih₁, ih₂]; rfl
  | letRec _ _ ihe ihbody | letPoly _ _ _ ihe ihbody => rw [Expr.isSource, ihe, ihbody]; rfl
  | list _ ih => exact Expr.allSource_iff.2 ih

theorem Typed.bound_of_mem_freeVars (h : Typed Γ e t) {y : String} (hy : y ∈ e.freeVars) :
    (Γ.get? y).isSome := by
  have keep : ∀ {Γ : Context} {x : String} {s : Scheme}, y ≠ x →
      ((Γ.insert x s).get? y).isSome → (Γ.get? y).isSome := by
    intro Γ x s hne h
    rwa [Bindings.get?_insert, if_neg hne.symm] at h
  induction h with
  | number | boolean => cases hy
  | var _ hx => rw [List.mem_singleton.1 hy, hx]; rfl
  | lam _ ih =>
    simp only [Expr.freeVars, List.mem_filter, decide_eq_true_eq] at hy
    exact keep hy.2 (ih hy.1)
  | app _ _ ihf ihe =>
    rcases List.mem_append.1 hy with hy | hy
    · exact ihf hy
    · exact ihe hy
  | ite _ _ _ ihc ih₁ ih₂ =>
    simp only [Expr.freeVars, List.mem_append] at hy
    rcases hy with (hy | hy) | hy
    · exact ihc hy
    · exact ih₁ hy
    · exact ih₂ hy
  | letRec _ _ ihe ihbody =>
    simp only [Expr.freeVars, List.mem_filter, List.mem_append, decide_eq_true_eq] at hy
    rcases hy.1 with h | h
    · exact keep hy.2 (ihe h)
    · exact keep hy.2 (ihbody h)
  | letPoly _ _ _ ihe ihbody =>
    simp only [Expr.freeVars, List.mem_append, List.mem_filter, decide_eq_true_eq] at hy
    rcases hy with hy | ⟨hy, hne⟩
    · exact ihe hy
    · exact keep hne (ihbody hy)
  | list _ ih =>
    obtain ⟨e, he, hy⟩ := Expr.mem_freeVarsAll.1 hy
    exact ih e he hy

end LetPoly
