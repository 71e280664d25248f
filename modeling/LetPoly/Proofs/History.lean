import LetPoly.Proofs.Generalization

/-! What holds of a session after any calls on it, failed ones among them. Its solution is what its log
reports, in an order in which no entry mentions an unknown solved before it, so the solution never gets
a cycle; no entry changes, and all types are about unknowns that the session has given out. -/

namespace LetPoly

/-- What a session may be asked for. -/
inductive Call where
  | infer (ctx : Context) (e : Expr)
  | inferExpr (ctx : Context) (e : Expr)
  | instantiate (s : Scheme)
  | generalize (ctx : Context) (t : Ty)

inductive Reply where
  | ty (t : Ty)
  | scheme (s : Scheme)

def Reply.schemes : Reply → List Scheme
  | ty t => [.ofTy t]
  | scheme s => [s]

namespace Call

def act : Call → Infer Reply
  | infer ctx e => return .ty (← LetPoly.infer ctx e)
  | inferExpr ctx e => return .ty (← LetPoly.inferExpr ctx e)
  | instantiate s => return .ty (← Infer.instantiate s)
  | generalize ctx t => return .scheme (LetPoly.generalize (← get).solution ctx t)

/-- The schemes that a call brings with it, a type being one without variables. -/
def held : Call → List Scheme
  | infer ctx _ | inferExpr ctx _ => ctx.schemes
  | instantiate s => [s]
  | generalize ctx t => .ofTy t :: ctx.schemes

end Call

/-- The unknowns that sessions give out. -/
def positive : Set Nat := {u | 0 < u}

namespace Session

/-- The session after some calls, which goes on as it is after one that fails. -/
def performAll (S : Session) (calls : List Call) : Session :=
  calls.foldl (fun S c => (c.act.run S).2) S

/-- Each call brings only schemes that list all their variables, about unknowns that the session has
given out by then. -/
def Admits : Session → List Call → Prop
  | _, [] => True
  | S, c :: calls =>
    (∀ s ∈ c.held, s.Inside positive S.supply) ∧ Admits (c.act.run S).2 calls

end Session

section Calls
open Infer

variable {A : Set Nat} {S S' : Session} {ctx : Context} {e : Expr} {c : Call} {calls : List Call}

theorem confined_inferExpr (hA : S.Area A) (hctx : ∀ s ∈ ctx.schemes, s.Inside A S.supply) :
    Confined A (inferExpr ctx e) S fun t => [.ofTy t] :=
  (actsOn e ctx S).confined A hA hctx

theorem confined_infer (hA : S.Area A) (hctx : ∀ s ∈ ctx.schemes, s.Inside A S.supply) :
    Confined A (infer ctx e) S fun t => [.ofTy t] := by
  have hinfer := confined_inferExpr (e := e) hA hctx
  unfold infer
  refine hinfer.bind fun t S₁ hrun => ?_
  have hadv := hinfer.advances
  rw [hrun] at hadv
  have ht := Scheme.inside_ofTy.1 (List.forall_mem_singleton.1 (hinfer.result t S₁ hrun))
  refine .of_run rfl (.refl hadv.grows.valid) (List.forall_mem_singleton.2 ?_)
  exact Scheme.inside_ofTy.2 ((hadv.area hA).inside_apply ht)

theorem Infer.Confined.reply {m : Infer Ty} (h : Confined A m S fun t => [.ofTy t]) :
    Confined A (do return Reply.ty (← m)) S Reply.schemes := by
  refine h.bind fun t S₁ hrun => ?_
  have hadv := h.advances
  rw [hrun] at hadv
  exact .of_run rfl (.refl hadv.grows.valid) (h.result t S₁ hrun)

/-- Every call stays in an area that its schemes are inside of. -/
theorem confined_call (c : Call) (hA : S.Area A) (hc : ∀ s ∈ c.held, s.Inside A S.supply) :
    Confined A c.act S Reply.schemes := by
  cases c with
  | infer ctx e => exact (confined_infer hA hc).reply
  | inferExpr ctx e => exact (confined_inferExpr hA hc).reply
  | instantiate s =>
    have hacts : Acts (fun _ _ _ _ => True) [s] (Infer.instantiate s) S fun t => [.ofTy t] :=
      acts_instantiate (List.mem_singleton_self s)
    exact (hacts.confined A hA hc).reply
  | generalize ctx t =>
    obtain ⟨ht, -⟩ := List.forall_mem_cons.1 hc
    refine .of_run rfl (.refl hA.valid) (List.forall_mem_singleton.2 ?_)
    exact inside_generalize hA ctx (Scheme.inside_ofTy.1 ht)

end Calls

/-! ### Any number of calls -/

namespace Session

/-- What every call keeps: the solution is the one that the log reports, and all it speaks of has been
given out. -/
structure Sound (S : Session) : Prop where
  valid : S.Valid
  recorded : S.Recorded
  positive : ∀ u t, S.solution.get? u = some t → 0 < u ∧ ∀ v ∈ t.unknowns, 0 < v

variable {S : Session} {c : Call} {calls before after : List Call}

theorem performAll_cons : S.performAll (c :: calls) = (c.act.run S).2.performAll calls := rfl

theorem performAll_append : S.performAll (before ++ after) = (S.performAll before).performAll after :=
  List.foldl_append

theorem sound_new : new.Sound := ⟨valid_new, recorded_new, fun _ _ h => by cases h⟩

theorem Sound.area (h : S.Sound) : S.Area LetPoly.positive :=
  ⟨h.valid, fun _ hu => Nat.zero_lt_of_lt hu, fun u t hu _ => (h.positive u t hu).2⟩

theorem Sound.confined (h : S.Sound) (hc : ∀ s ∈ c.held, s.Inside LetPoly.positive S.supply) :
    Infer.Confined LetPoly.positive c.act S Reply.schemes :=
  confined_call c h.area hc

theorem Sound.call (h : S.Sound) (hc : ∀ s ∈ c.held, s.Inside LetPoly.positive S.supply) :
    (c.act.run S).2.Sound := by
  have hadv := (h.confined hc).advances
  refine ⟨hadv.grows.valid, hadv.recorded h.recorded, fun u t hu => ?_⟩
  rcases hadv.get?_eq hu with hold | hnew
  · exact h.positive u t hold
  · exact hnew

theorem Sound.performAll (h : S.Sound) (hcalls : S.Admits calls) :
    (S.performAll calls).Sound ∧ S.Advances LetPoly.positive (S.performAll calls) := by
  induction calls generalizing S with
  | nil => exact ⟨h, .refl h.valid⟩
  | cons c calls ih =>
    obtain ⟨hc, hcalls⟩ := hcalls
    obtain ⟨hsound, hadv⟩ := ih (h.call hc) hcalls
    exact ⟨hsound, hadv.trans (h.confined hc).advances⟩

theorem admits_append :
    S.Admits (before ++ after) ↔ S.Admits before ∧ (S.performAll before).Admits after := by
  induction before generalizing S with
  | nil => simp [Admits, performAll]
  | cons c before ih =>
    simp only [List.cons_append, Admits, ih, and_assoc, performAll_cons]

/-- The solution is what the log reports, recorded in that order; no entry mentions its own unknown or
one solved before it, so following the entries comes to an end for every type. All that the entries
speak of has been given out, and they are without variables. -/
structure Invariant (S : Session) : Prop where
  recorded : S.solution = Solution.extend [] S.solved
  triangular : Triangular S.solved
  acyclic : S.solution.Acyclic
  resolves : ∀ t, S.solution.Resolves t (S.solution.apply t)
  entries : ∀ u t, S.solution.get? u = some t →
    (Ty.unknown u).Inside LetPoly.positive S.supply ∧ t.Inside LetPoly.positive S.supply

theorem Sound.invariant (h : S.Sound) : S.Invariant := by
  refine ⟨h.recorded.solution, h.recorded.fits.triangular, h.valid.acyclic,
    Solution.resolves_apply h.valid.acyclic, fun u t hu => ?_⟩
  obtain ⟨hule, ht⟩ := h.valid.within u t hu
  obtain ⟨hupos, htpos⟩ := h.positive u t hu
  exact ⟨Ty.inside_unknown.2 ⟨hule, hupos⟩, ht, htpos⟩

end Session

/-- The invariant holds after any calls, and after each one on the way; from there on no entry is
removed or changed. What a call returns, or says in its error, is about unknowns given out by then. -/
theorem session_invariant (calls : List Call) (h : Session.new.Admits calls) :
    (Session.new.performAll calls).Invariant ∧
    ∀ before c after, calls = before ++ c :: after → ∀ r S,
      c.act.run (Session.new.performAll before) = (r, S) →
      S.Invariant ∧
      (Session.new.performAll before).supply ≤ S.supply ∧
      S.supply ≤ (Session.new.performAll calls).supply ∧
      S.solution.Extends (Session.new.performAll before).solution ∧
      (Session.new.performAll calls).solution.Extends S.solution ∧
      (∀ reply, r = .ok reply → ∀ s ∈ reply.schemes, s.Inside positive S.supply) ∧
      ∀ e, r = .error e → ∀ t ∈ e.types, t.Inside positive S.supply := by
  refine ⟨(Session.sound_new.performAll h).1.invariant, ?_⟩
  rintro before c after rfl r S hrun
  obtain ⟨hbefore, hc, hafter⟩ := Session.admits_append.1 h
  obtain ⟨hsound, -⟩ := Session.sound_new.performAll hbefore
  obtain ⟨hadv, herror, hresult⟩ := hsound.confined hc
  have hsound' := hsound.call hc
  rw [hrun] at hadv hsound' hafter
  have hlast : Session.new.performAll (before ++ c :: after) = S.performAll after := by
    rw [Session.performAll_append, Session.performAll_cons, hrun]
  obtain ⟨-, hadv'⟩ := hsound'.performAll hafter
  rw [hlast]
  refine ⟨hsound'.invariant, hadv.grows.supply, hadv'.grows.supply, hadv.grows.solution,
    hadv'.grows.solution, ?_, ?_⟩
  · rintro reply rfl
    exact hresult reply S hrun
  · rintro e rfl
    exact herror e S hrun

/-- A session goes on with what it had solved when a call failed. -/
theorem session_invariant_after_failure :
    let both : Expr := .lam "f" (.list [.app (.var "f") (.number 1), .app (.var "f") (.boolean true)])
    let reuse : Call := .inferExpr [("g", .ofTy (.unknown 1))] (.app (.var "g") (.number 2))
    let close : Call := .generalize [] (.fn (.unknown 2) (.unknown 4))
    let anew : Call := .instantiate ⟨["a4"], .fn (.unknown 3) (.var "a4")⟩
    ((infer [] both).run .new).1 = .error (.mismatch .number .boolean) ∧
      (Session.new.performAll [.infer [] both, reuse, close, anew]).Invariant := by
  intro both reuse close anew
  have hfails : ((Call.infer [] both).act.run .new).2.supply = 4 := by cbv
  have hreuse : (reuse.act.run ((Call.infer [] both).act.run .new).2).2.supply = 5 := by cbv
  have hclose : (close.act.run (reuse.act.run ((Call.infer [] both).act.run .new).2).2).2.supply = 5 :=
    hreuse
  refine ⟨by cbv, (session_invariant [.infer [] both, reuse, close, anew] ?_).1⟩
  simp only [Session.Admits, hfails, hreuse, hclose]
  simp [reuse, close, anew, Call.held, Context.schemes, Scheme.inside_ofTy, Ty.inside_fn,
    Ty.inside_unknown, positive]
  simp [Scheme.Inside, Scheme.Within, Ty.unknowns, Ty.vars]

end LetPoly
