import LetPoly.Proofs.Session
import LetPoly.Proofs.Words

/-! Types and schemes from their text. Reading from the end, the operands of an arrow are collected in the
innermost bracket that is open, and make up a type where it begins (`Ty.WellNamed.readsBack`). So each text
is that of one type, or of one scheme, as long as variables have the names that schemes give them. -/

namespace LetPoly

/-- The letter `a`, and after it digits or nothing. -/
def IsVariableName (v : String) : Prop :=
  v.toList.head? = some 'a' ∧ v.toList.tail.all Char.isDigit = true

instance (v : String) : Decidable (IsVariableName v) := inferInstanceAs (Decidable (_ ∧ _))

theorem IsVariableName.toList_eq {v : String} (h : IsVariableName v) : v.toList = 'a' :: v.toList.tail :=
  (List.cons_head?_tail h.1).symm

theorem IsVariableName.isWord {v : String} (h : IsVariableName v) : IsWord v := by
  refine isWord_of_forall (by rw [h.toList_eq]; exact List.cons_ne_nil _ _) ?_
  rw [h.toList_eq]
  exact List.forall_mem_cons.2 ⟨rfl, fun d hd => isSign_of_isDigit (List.all_eq_true.1 h.2 d hd)⟩

theorem isVariableName_generalizedName (u : Nat) : IsVariableName (generalizedName u) := by
  have hlist : (generalizedName u).toList = 'a' :: (toString u).toList := by simp [generalizedName]
  rw [IsVariableName, hlist]
  exact ⟨rfl, List.all_eq_true.2 fun _ => isDigit_of_mem_toString⟩

namespace Ty

/-- The types between the outer arrows. -/
def operands : Ty → List Ty
  | fn a r => a :: r.operands
  | t => [t]

/-- The types with arrows between them. -/
def arrows : List Ty → Ty
  | [] => number
  | [t] => t
  | t :: ts => fn t (arrows ts)

theorem operands_of_not_fn {t : Ty} (h : t.isFn = false) : t.operands = [t] := by
  cases t with
  | fn a r => cases h
  | number | boolean | list | var | unknown => rfl

theorem arrows_operands (t : Ty) : arrows t.operands = t := by
  induction t with
  | number | boolean | list | var | unknown => rfl
  | fn a r _ ihr =>
    have hcons : ∃ s ss, r.operands = s :: ss := by cases r <;> exact ⟨_, _, rfl⟩
    obtain ⟨s, ss, hr⟩ := hcons
    rw [operands, hr, arrows, ← hr, ihr]
    nofun

/-- The type that a word stands for. -/
def ofWord (w : String) : Ty :=
  if w = "Number" then number
  else if w = "Boolean" then boolean
  else match w.toList with
    | 'u' :: ds => unknown (Nat.ofDigitChars 10 ds 0)
    | _ => var w

theorem ofWord_var {v : String} (h : IsVariableName v) : ofWord v = var v := by
  have hv := h.toList_eq
  rw [ofWord, if_neg (ne_of_head? hv (by decide)), if_neg (ne_of_head? hv (by decide)), hv]
  rfl

theorem toList_unknown (u : Nat) : ("u" ++ toString u).toList = 'u' :: (toString u).toList := by simp

theorem ofWord_unknown (u : Nat) : ofWord ("u" ++ toString u) = unknown u := by
  have hu := toList_unknown u
  rw [ofWord, if_neg (ne_of_head? hu (by decide)), if_neg (ne_of_head? hu (by decide)), hu]
  simp

theorem isWord_unknown (u : Nat) : IsWord ("u" ++ toString u) := by
  refine isWord_of_forall (by rw [toList_unknown]; exact List.cons_ne_nil _ _) ?_
  rw [toList_unknown]
  exact List.forall_mem_cons.2 ⟨rfl, fun d hd => isSign_of_isDigit (isDigit_of_mem_toString hd)⟩

/-- Reads one token on the left of what has been read: the operands in each bracket that is open there,
the innermost bracket first. -/
def readToken : Token → List (List Ty) → List (List Ty)
  | .sign ')', st => [] :: st
  | .sign ']', st => [] :: st
  | .sign '(', ts :: us :: st => (arrows ts :: us) :: st
  | .sign '[', ts :: us :: st => (list (arrows ts) :: us) :: st
  | .sign '.', ts :: st => [arrows ts] :: st
  | .word "->", st => st
  | .word w, ts :: st => (ofWord w :: ts) :: st
  | _, st => st

def readText : List Char → List (List Ty) := scan readToken [[]]

variable {t : Ty} {ts : List Ty} {st : List (List Ty)} {r : List Char}

theorem readText_sign {c : Char} (hc : isSign c = true) (r : List Char) :
    readText (c :: r) = readToken (.sign c) (readText r) := scan_sign hc

theorem readText_word {w : String} (hw : IsWord w) (hne : w ≠ "->") (hr : EndsWord r)
    (h : readText r = ts :: st) : readText (w.toList ++ r) = (ofWord w :: ts) :: st := by
  rw [readText, scan_word hw hr, ← readText, h, readToken]
  exact hne

theorem readText_name {v : String} (hv : IsVariableName v) (hr : EndsWord r) (h : readText r = ts :: st) :
    readText (v.toList ++ r) = (var v :: ts) :: st := by
  rw [readText_word hv.isWord (ne_of_head? hv.toList_eq (by decide)) hr h, ofWord_var hv]

theorem readText_arrow (h : readText r = ts :: st) : readText (" -> ".toList ++ r) = ts :: st := by
  change readText (' ' :: ("->".toList ++ ' ' :: r)) = _
  rw [readText_sign rfl, readText, scan_word (by decide) (endsWord_cons rfl _), ← readText,
    readText_sign rfl, h]
  rfl

/-- The text adds the operands of the type to those of the innermost bracket. -/
def ReadsBack (t : Ty) : Prop :=
  ∀ r ts st, EndsWord r → readText r = ts :: st →
    readText (t.render.toList ++ r) = (t.operands ++ ts) :: st

theorem readText_close {c : Char} (hc : c = ')' ∨ c = ']') (h : readText r = ts :: st) :
    readText (c :: r) = [] :: ts :: st := by
  rcases hc with rfl | rfl
  · rw [readText_sign rfl, h, readToken]
  · rw [readText_sign rfl, h, readToken]

theorem ReadsBack.within {c : Char} (ht : t.ReadsBack) (hc : c = ')' ∨ c = ']')
    (h : readText r = ts :: st) : readText (t.render.toList ++ c :: r) = t.operands :: ts :: st := by
  have hends : EndsWord (c :: r) := endsWord_cons (by rcases hc with rfl | rfl <;> rfl) r
  rw [ht (c :: r) [] (ts :: st) hends (readText_close hc h), List.append_nil]

theorem ReadsBack.operand (ht : t.ReadsBack) (hr : EndsWord r) (h : readText r = ts :: st) :
    readText ((if t.isFn then "(" ++ t.render ++ ")" else t.render).toList ++ r) = (t :: ts) :: st := by
  cases hfn : t.isFn with
  | false =>
    rw [if_neg Bool.false_ne_true, ht r ts st hr h, operands_of_not_fn hfn]
    rfl
  | true =>
    rw [if_pos rfl, toList_append₃]
    change readText ('(' :: (t.render.toList ++ ')' :: r)) = _
    rw [readText_sign rfl, ht.within (.inl rfl) h, readToken, arrows_operands]

/-- Every variable has a name that a scheme could give it. -/
def WellNamed (t : Ty) : Prop := ∀ v ∈ t.vars, IsVariableName v

instance (t : Ty) : Decidable t.WellNamed := inferInstanceAs (Decidable (∀ v ∈ t.vars, _))

theorem WellNamed.readsBack (ht : t.WellNamed) : t.ReadsBack := by
  induction t with
  | number => exact fun r ts st => readText_word (by decide) (by decide)
  | boolean => exact fun r ts st => readText_word (by decide) (by decide)
  | var v =>
    intro r ts st hr h
    exact readText_name (ht v (by simp [vars])) hr h
  | unknown u =>
    intro r ts st hr h
    rw [render, readText_word (isWord_unknown u) (ne_of_head? (toList_unknown u) (by decide)) hr h,
      ofWord_unknown]
    rfl
  | fn a b iha ihb =>
    intro r ts st hr h
    simp only [WellNamed, vars, List.mem_append] at ht
    have hb := ihb (fun v hv => ht v (.inr hv)) r ts st hr h
    rw [render, toList_append₃]
    exact (iha fun v hv => ht v (.inl hv)).operand (endsWord_cons rfl _) (readText_arrow hb)
  | list e ih =>
    intro r ts st hr h
    rw [render, toList_append₃]
    change readText ('[' :: (e.render.toList ++ ']' :: r)) = _
    rw [readText_sign rfl, (ih ht).within (.inr rfl) h, readToken, arrows_operands]
    rfl

/-- The quantifier is no operand, as it names no variable. -/
theorem WellNamed.operands_ne_quantified (ht : t.WellNamed) (ts : List Ty) :
    t.operands ≠ .var "∀" :: ts := by
  intro h
  refine absurd (ht "∀" ?_) (by decide)
  cases t with
  | number | boolean | list | unknown => cases h
  | var v => cases h; exact List.mem_singleton_self _
  | fn a r => cases h; exact List.mem_cons_self

theorem WellNamed.readText_render (ht : t.WellNamed) : readText t.render.toList = [t.operands] := by
  have h := ht.readsBack [] [] [] endsWord_nil rfl
  rwa [List.append_nil, List.append_nil] at h

theorem render_inj {t' : Ty} (ht : t.WellNamed) (ht' : t'.WellNamed) :
    t.render = t'.render ↔ t = t' := by
  constructor
  · intro h
    have hread : [t.operands] = [t'.operands] := by
      rw [← ht.readText_render, ← ht'.readText_render, h]
    rw [← arrows_operands t, ← arrows_operands t', List.singleton_inj.1 hread]
  · rintro rfl
    rfl

end Ty

namespace Scheme

open Ty

variable {s : Scheme} {t : Ty} {ts : List Ty} {st : List (List Ty)} {r : List Char}

theorem readText_names {vs : List String} (hvs : ∀ v ∈ vs, IsVariableName v) (hr : EndsWord r)
    (h : readText r = ts :: st) :
    readText ((" ".intercalate vs).toList ++ r) = (vs.map Ty.var ++ ts) :: st := by
  induction vs with
  | nil => exact h
  | cons v vs ih =>
    obtain ⟨hv, hvs⟩ := List.forall_mem_cons.1 hvs
    cases vs with
    | nil => exact readText_name hv hr h
    | cons w vs =>
      have hrest : readText (' ' :: ((" ".intercalate (w :: vs)).toList ++ r)) =
          ((w :: vs).map Ty.var ++ ts) :: st := by
        rw [readText_sign rfl, ih hvs]
        rfl
      rw [String.intercalate_cons_cons, toList_append₃]
      exact readText_name hv (endsWord_cons rfl _) hrest

structure WellNamed (s : Scheme) : Prop where
  vars : ∀ v ∈ s.vars, IsVariableName v
  body : s.body.WellNamed

theorem wellNamed_generalize {σ : Solution} (ctx : Context) (ht : (σ.apply t).WellNamed) :
    (generalize σ ctx t).WellNamed := by
  constructor
  · intro v hv
    obtain ⟨u, -, rfl⟩ := List.mem_map.1 hv
    exact isVariableName_generalizedName u
  · intro v hv
    rcases mem_vars_subst.1 hv with hv | ⟨u, -, hv⟩
    · exact ht v hv
    · split at hv
      · exact List.mem_singleton.1 hv ▸ isVariableName_generalizedName u
      · cases hv

theorem wellNamed_initial : ∀ b ∈ Context.initial, b.2.WellNamed := by
  have hall : ∀ b ∈ Context.initial,
      (∀ v ∈ b.2.vars, IsVariableName v) ∧ b.2.body.WellNamed := by decide
  intro b hb
  exact ⟨(hall b hb).1, (hall b hb).2⟩

/-- What the text of a scheme is read to. The quantifier is a word that names no variable. -/
def reading (s : Scheme) : List Ty :=
  if s.isMonomorphic then s.body.operands else .var "∀" :: (s.vars.map .var ++ [s.body])

theorem WellNamed.readText_render (hs : s.WellNamed) : readText s.render.toList = [s.reading] := by
  cases hmono : s.isMonomorphic with
  | true =>
    rw [render, reading, hmono]
    exact hs.body.readText_render
  | false =>
    have hbody : readText ('.' :: ' ' :: s.body.render.toList) = [[s.body]] := by
      rw [readText_sign rfl, readText_sign rfl, hs.body.readText_render]
      exact congrArg (fun t => [[t]]) (arrows_operands s.body)
    have hvars : readText (' ' :: ((" ".intercalate s.vars).toList ++ '.' :: ' ' :: s.body.render.toList)) =
        [s.vars.map .var ++ [s.body]] := by
      rw [readText_sign rfl, readText_names hs.vars (endsWord_cons rfl _) hbody]
      rfl
    rw [render, reading, hmono]
    change readText ("∀ " ++ " ".intercalate s.vars ++ ". " ++ s.body.render).toList = _
    simp only [String.toList_append, List.append_assoc]
    change readText ("∀".toList ++ ' ' :: ((" ".intercalate s.vars).toList ++ '.' :: ' ' :: _)) = _
    exact readText_word (by decide) (by decide) (endsWord_cons rfl _) hvars

theorem reading_of_quantified {v : String} {vs : List String} {t : Ty} :
    reading ⟨v :: vs, t⟩ = .var "∀" :: ((v :: vs).map .var ++ [t]) := rfl

theorem WellNamed.eq_of_reading {s' : Scheme} (hs : s.WellNamed) (hs' : s'.WellNamed)
    (h : s.reading = s'.reading) : s = s' := by
  obtain ⟨vs, t⟩ := s
  obtain ⟨vs', t'⟩ := s'
  cases vs with
  | nil =>
    cases vs' with
    | nil =>
      have ht : t.operands = t'.operands := h
      rw [← arrows_operands t, ht, arrows_operands]
    | cons v' vs' => exact absurd h (hs.body.operands_ne_quantified _)
  | cons v vs =>
    cases vs' with
    | nil => exact absurd h.symm (hs'.body.operands_ne_quantified _)
    | cons v' vs' =>
      rw [reading_of_quantified, reading_of_quantified, List.cons.injEq] at h
      obtain ⟨hnames, hbody⟩ := List.append_inj' h.2 rfl
      rw [(List.map_injective_iff.2 fun _ _ => Ty.var.inj) hnames, List.singleton_inj.1 hbody]

theorem render_inj {s' : Scheme} (hs : s.WellNamed) (hs' : s'.WellNamed) :
    s.render = s'.render ↔ s = s' := by
  constructor
  · intro h
    have hread : [s.reading] = [s'.reading] := by
      rw [← hs.readText_render, ← hs'.readText_render, h]
    exact hs.eq_of_reading hs' (List.singleton_inj.1 hread)
  · rintro rfl
    rfl

end Scheme

/-- Two types have the same text only if they are the same type, and two schemes only if they quantify over
the same variables, in the same order, and have the same body. -/
theorem typeText_unambiguous :
    (∀ t t' : Ty, t.WellNamed → t'.WellNamed → (t.render = t'.render ↔ t = t')) ∧
    ∀ s s' : Scheme, s.WellNamed → s'.WellNamed →
      (s.render = s'.render ↔ s.vars = s'.vars ∧ s.body = s'.body) := by
  refine ⟨fun t t' ht ht' => Ty.render_inj ht ht', fun s s' hs hs' => ?_⟩
  rw [Scheme.render_inj hs hs', Scheme.mk.injEq]

/-- Two bodies with the same words in the same order, and one of them under two lists of variables. -/
theorem typeText_unambiguous_curried :
    let t : Ty := .fn (.fn (.var "a1") (.unknown 2)) (.list (.var "a12"))
    let t' : Ty := .fn (.var "a1") (.fn (.unknown 2) (.list (.var "a12")))
    let s : Scheme := ⟨["a1", "a12"], t⟩
    let s' : Scheme := ⟨["a12", "a1"], t⟩
    t.WellNamed ∧ t'.WellNamed ∧ t.render ≠ t'.render ∧
      s.WellNamed ∧ s'.WellNamed ∧ s.render ≠ s'.render := by
  intro t t' s s'
  have ht : t.WellNamed := by decide
  have ht' : t'.WellNamed := by decide
  have hs : s.WellNamed := ⟨by decide, ht⟩
  have hs' : s'.WellNamed := ⟨by decide, ht⟩
  refine ⟨ht, ht', fun h => ?_, hs, hs', fun h => ?_⟩
  · exact absurd ((typeText_unambiguous.1 t t' ht ht').1 h) (by decide)
  · exact absurd ((typeText_unambiguous.2 s s' hs hs').1 h).1 (by decide)

end LetPoly
