import LetPoly.Expr.Render
import LetPoly.Proofs.Source
import LetPoly.Proofs.Words

/-! Expressions from their text. A lambda, an `if` and a `let` reach as far to the right as they can, so
that read from the end all that belongs to one is complete where it begins. Until then the parts of an
application are collected in the innermost form that is open (`Expr.readsBack`). So expressions with the
same text are the same, provided that their names are identifiers and no keywords. -/

namespace LetPoly

namespace Expr

/-! ### Names -/

/-- A letter or an underscore. Every character beyond ASCII counts as a letter. -/
def isNameStart (c : Char) : Bool := c.isAlpha || c == '_' || 128 ≤ c.toNat

def isNameChar (c : Char) : Bool := isNameStart c || c.isDigit

def keywords : List String := ["if", "then", "else", "let", "rec", "in", "true", "false"]

/-- An identifier that is no keyword. -/
def IsName (x : String) : Prop :=
  x.toList.head?.any isNameStart = true ∧ x.toList.all isNameChar = true ∧ x ∉ keywords

instance (x : String) : Decidable (IsName x) := inferInstanceAs (Decidable (_ ∧ _))

theorem IsName.isWord {x : String} (hx : IsName x) : IsWord x := by
  obtain ⟨hstart, hchars, -⟩ := hx
  refine isWord_of_forall (fun hnil => ?_) fun c hc =>
    isSign_eq_false (by decide) (List.all_eq_true.1 hchars c hc)
  rw [hnil] at hstart
  cases hstart

mutual

/-- No closure occurs, and what is bound or looked up is a name. -/
def isLegible : Expr → Bool
  | number _ | boolean _ | prim _ => true
  | var x => decide (IsName x)
  | lam x body => decide (IsName x) && body.isLegible
  | app func argument => func.isLegible && argument.isLegible
  | ite c t e => c.isLegible && t.isLegible && e.isLegible
  | letIn _ x bound body => decide (IsName x) && bound.isLegible && body.isLegible
  | list items => allLegible items
  | closure .. => false

def allLegible : List Expr → Bool
  | [] => true
  | e :: es => e.isLegible && allLegible es

end

theorem allLegible_iff {es : List Expr} : allLegible es = true ↔ ∀ e ∈ es, e.isLegible = true := by
  induction es with
  | nil => simp [allLegible]
  | cons e es ih => simp [allLegible, ih]

/-! ### Numerals -/

def isNumeralChar (c : Char) : Bool := c.isDigit || c == '-'

theorem isNameStart_eq_false {c : Char} (h : isNumeralChar c = true) : isNameStart c = false := by
  simp only [isNumeralChar, Bool.or_eq_true, beq_iff_eq] at h
  rcases h with h | rfl
  · have hrange : 48 ≤ c.toNat ∧ c.toNat ≤ 57 := Char.isDigit_iff_toNat.1 h
    have hne : c ≠ '_' := by
      rintro rfl
      cases h
    have hupper : c.isUpper = false := decide_eq_false fun hc => by
      have : 65 ≤ c.toNat := UInt32.le_iff_toNat_le.1 hc.1
      omega
    have hlower : c.isLower = false := Bool.and_eq_false_imp.2 fun hc => by
      have : 97 ≤ c.toNat := UInt32.le_iff_toNat_le.1 (of_decide_eq_true hc)
      omega
    have halpha : c.isAlpha = false := Bool.or_eq_false_iff.2 ⟨hupper, hlower⟩
    have hascii : ¬ 128 ≤ c.toNat := by omega
    simp [isNameStart, halpha, hne, hascii]
  · rfl

theorem toString_negSucc (m : Nat) :
    (toString (Int.negSucc m)).toList = '-' :: (toString (m + 1)).toList := by
  change ("-" ++ toString (m + 1)).toList = _
  simp

theorem isNumeralChar_of_mem {n : Int} {c : Char} (h : c ∈ (toString n).toList) :
    isNumeralChar c = true := by
  cases n with
  | ofNat m => simp [isNumeralChar, isDigit_of_mem_toString h]
  | negSucc m =>
    rw [toString_negSucc] at h
    rcases List.mem_cons.1 h with rfl | h
    · rfl
    · simp [isNumeralChar, isDigit_of_mem_toString h]

theorem isWord_numeral (n : Int) : IsWord (toString n) := by
  refine isWord_of_forall ?_ fun c hc => isSign_eq_false (by decide) (isNumeralChar_of_mem hc)
  cases n with
  | ofNat m =>
    change m.repr.toList ≠ []
    rw [Nat.toList_repr]
    exact Nat.toDigits_ne_nil
  | negSucc m =>
    rw [toString_negSucc]
    exact List.cons_ne_nil _ _

theorem numeral_ne {w : String} (hw : w.toList.all isNumeralChar = false) (n : Int) : toString n ≠ w := by
  rintro rfl
  rw [List.all_eq_true.2 fun _ => isNumeralChar_of_mem] at hw
  cases hw

theorem not_isName_numeral (n : Int) : ¬ IsName (toString n) := by
  rintro ⟨hstart, -, -⟩
  cases hhead : (toString n).toList.head? with
  | none => rw [hhead] at hstart; cases hstart
  | some c =>
    have hc := isNumeralChar_of_mem (List.mem_of_head? hhead)
    rw [hhead, Option.any_some, isNameStart_eq_false hc] at hstart
    cases hstart

/-- The number that a numeral stands for. -/
def readNumeral : List Char → Int
  | '-' :: ds => -(Nat.ofDigitChars 10 ds 0 : Nat)
  | ds => (Nat.ofDigitChars 10 ds 0 : Nat)

theorem readNumeral_toString (n : Int) : readNumeral (toString n).toList = n := by
  cases n with
  | ofNat m =>
    change readNumeral (toString m).toList = m
    rw [readNumeral]
    · simp
    · intro ds hds
      have hminus : '-' ∈ (toString m).toList := hds ▸ List.mem_cons_self
      cases isDigit_of_mem_toString hminus
  | negSucc m =>
    rw [toString_negSucc, readNumeral]
    simp [Int.negSucc_eq]

/-! ### Words -/

/-- The expression that is a single word. -/
def ofWord (w : String) : Expr :=
  if IsName w then var w
  else if w = "true" then boolean true
  else if w = "false" then boolean false
  else match Primitive.all.find? fun p => p.render = w with
    | some op => prim op
    | none => number (Int64.ofInt (readNumeral w.toList))

theorem ofWord_boolean (b : Bool) : ofWord (boolean b).render = boolean b := by cases b <;> rfl

theorem ofWord_prim (op : Primitive) : ofWord op.render = prim op := by cases op <;> rfl

theorem ofWord_number (n : Int64) : ofWord (toString n.toInt) = number n := by
  have hprim : Primitive.all.find? (fun p => p.render = toString n.toInt) = none := by
    refine List.find?_eq_none.2 fun p _ => ?_
    have hne : toString n.toInt ≠ p.render := numeral_ne (by cases p <;> decide) _
    simpa using hne.symm
  rw [ofWord, if_neg (not_isName_numeral _), if_neg (numeral_ne (by decide) _),
    if_neg (numeral_ne (by decide) _), hprim, readNumeral_toString, Int64.ofInt_toInt]

/-! ### Reading -/

/-- The parts of an application, and of its function if that is one again. -/
def spine : Expr → List Expr
  | app func argument => func.spine ++ [argument]
  | e => [e]

/-- The application of the first expression to the others. -/
def gather : List Expr → Expr
  | [] => list []
  | f :: as => as.foldl app f

theorem spine_ne_nil (e : Expr) : e.spine ≠ [] := by cases e <;> simp [spine]

theorem gather_append {es : List Expr} (h : es ≠ []) (a : Expr) :
    gather (es ++ [a]) = app (gather es) a := by
  cases es with
  | nil => exact absurd rfl h
  | cons f as => simp [gather]

theorem gather_spine (e : Expr) : gather e.spine = e := by
  induction e using Expr.induct with
  | app f a ihf _ => rw [spine, gather_append f.spine_ne_nil, ihf]
  | number | boolean | var | lam | ite | letIn | list | prim | closure => rfl

theorem spine_of_reachesRight {e : Expr} (h : e.reachesRight = true) : e.spine = [e] := by
  cases e with
  | lam | ite | letIn => rfl
  | number | boolean | var | app | list | prim | closure => cases h

theorem spine_of_not_isCompound {e : Expr} (h : e.isCompound = false) :
    e.spine = [e] ∧ e.reachesRight = false := by
  cases e with
  | app | lam | ite | letIn => cases h
  | number | boolean | var | list | prim | closure => exact ⟨rfl, rfl⟩

/-- Words that are no expressions. -/
def marks : List String := ["->", "=", "if", "then", "else", "let", "rec", "in"]

/-- Reads one of the `marks` on the left of what has been read. -/
def readMark : String → List (List Expr) → List (List Expr)
  | "->", es :: st => [gather es] :: st
  | "=", es :: st => [gather es] :: st
  | "then", es :: st => [] :: [gather es] :: st
  | "else", es :: st => [] :: [gather es] :: st
  | "in", es :: st => [] :: [gather es] :: st
  | "if", es :: [t] :: [e] :: st => [ite (gather es) t e] :: st
  -- nothing but a sign for the `let` on the left
  | "rec", st => [] :: st
  | "let", [var x, bound] :: [body] :: st => [letIn false x bound body] :: st
  | "let", [] :: [var x, bound] :: [body] :: st => [letIn true x bound body] :: st
  | _, st => st

/-- Puts an expression before the parts in the innermost form. -/
def push (e : Expr) : List (List Expr) → List (List Expr)
  | [] => []
  | es :: st => (e :: es) :: st

/-- Reads one token on the left of what has been read: the parts of the application in each form that is
open there, the innermost form first. -/
def readToken : Token → List (List Expr) → List (List Expr)
  | .sign ')', st => [] :: st
  | .sign '(', es :: fs :: st => (gather es :: fs) :: st
  -- the parts of the last item, and the items after it
  | .sign ']', st => [] :: [] :: st
  | .sign ',', es :: items :: st => [] :: (gather es :: items) :: st
  | .sign '[', [] :: _ :: fs :: st => (list [] :: fs) :: st
  | .sign '[', es :: items :: fs :: st => (list (gather es :: items) :: fs) :: st
  | .sign '\\', [var x, body] :: st => [lam x body] :: st
  | .sign _, st => st
  | .word w, st => if w ∈ marks then readMark w st else push (ofWord w) st

def readText : List Char → List (List Expr) := scan readToken [[]]

variable {e : Expr} {es : List Expr} {st : List (List Expr)} {r : List Char}

theorem readText_sign {c : Char} (hc : isSign c = true) (r : List Char) :
    readText (c :: r) = readToken (.sign c) (readText r) := scan_sign hc

theorem readText_blank (r : List Char) : readText (' ' :: r) = readText r := readText_sign rfl r

theorem readText_mark {w : String} (hw : w ∈ marks) (r : List Char) :
    readText (w.toList ++ ' ' :: r) = readMark w (readText r) := by
  have hword : ∀ w ∈ marks, IsWord w := by decide
  rw [readText, scan_word (hword w hw) (endsWord_cons rfl r), ← readText, readText_blank, readToken,
    if_pos hw]

theorem readText_word {w : String} (hw : IsWord w) (hne : w ∉ marks) (hr : EndsWord r)
    (h : readText r = es :: st) : readText (w.toList ++ r) = (ofWord w :: es) :: st := by
  rw [readText, scan_word hw hr, ← readText, h, readToken, if_neg hne, push]

theorem IsName.not_mem_marks {x : String} (hx : IsName x) : x ∉ marks := fun hmem =>
  (by decide : ∀ w ∈ marks, ¬ IsName w) x hmem hx

theorem IsName.readText {x : String} (hx : IsName x) (hr : EndsWord r) (h : readText r = es :: st) :
    Expr.readText (x.toList ++ r) = (var x :: es) :: st := by
  rw [readText_word hx.isWord hx.not_mem_marks hr h, ofWord, if_pos hx]

/-- The text adds the parts of the expression to those of the innermost form. Before a form that reaches to
the right there are none. -/
def ReadsBack (e : Expr) : Prop :=
  ∀ r es st, EndsWord r → (e.reachesRight = true → es = []) → readText r = es :: st →
    readText (e.render.toList ++ r) = (e.spine ++ es) :: st

theorem ReadsBack.whole (he : e.ReadsBack) (hr : EndsWord r) (h : readText r = [] :: st) :
    readText (e.render.toList ++ r) = e.spine :: st := by
  rw [he r [] st hr (fun _ => rfl) h, List.append_nil]

theorem ReadsBack.further (he : e.ReadsBack) (hreach : e.reachesRight = false) (hr : EndsWord r)
    (h : readText r = es :: st) : readText (e.render.toList ++ r) = (e.spine ++ es) :: st := by
  refine he r es st hr (fun htrue => ?_) h
  rw [hreach] at htrue
  cases htrue

theorem readsBack_of_word (hw : IsWord e.render) (hmark : e.render ∉ marks)
    (hread : ofWord e.render = e) (hspine : e.spine = [e]) : e.ReadsBack := by
  intro r es st hr _ h
  rw [readText_word hw hmark hr h, hread, hspine]
  rfl

theorem ReadsBack.enclosed (he : e.ReadsBack) (h : readText r = es :: st) :
    readText ((parenthesized e.render true).toList ++ r) = (e :: es) :: st := by
  have hclose : readText (')' :: r) = [] :: es :: st := by
    rw [readText_sign rfl, h, readToken]
  rw [parenthesized, toList_append₃]
  change readText ('(' :: (e.render.toList ++ ')' :: r)) = _
  rw [readText_sign rfl, he.whole (endsWord_cons rfl r) hclose, readToken, gather_spine]

theorem ReadsBack.argument (he : e.ReadsBack) (hr : EndsWord r) (h : readText r = es :: st) :
    readText ((parenthesized e.render e.isCompound).toList ++ r) = (e :: es) :: st := by
  cases hcompound : e.isCompound with
  | true => exact he.enclosed h
  | false =>
    obtain ⟨hspine, hreach⟩ := spine_of_not_isCompound hcompound
    rw [parenthesized, he.further hreach hr h, hspine]
    rfl

theorem ReadsBack.func (he : e.ReadsBack) (hr : EndsWord r) (h : readText r = es :: st) :
    readText ((parenthesized e.render e.reachesRight).toList ++ r) = (e.spine ++ es) :: st := by
  cases hreach : e.reachesRight with
  | true =>
    rw [he.enclosed h, spine_of_reachesRight hreach]
    rfl
  | false => exact he.further hreach hr h

/-- After what it separates on its right, one of these words opens a form. -/
theorem readText_separator {w : String} (hw : w = "then" ∨ w = "else" ∨ w = "in")
    (h : readText r = e.spine :: st) : readText (' ' :: (w.toList ++ ' ' :: r)) = [] :: [e] :: st := by
  have hmark : readMark w (e.spine :: st) = [] :: [gather e.spine] :: st := by
    rcases hw with rfl | rfl | rfl <;> rfl
  have hmem : w ∈ marks := by
    rcases hw with rfl | rfl | rfl <;> decide
  rw [readText_blank, readText_mark hmem, h, hmark, gather_spine]

theorem readsBack_lam {x : String} {body : Expr} (hx : IsName x) (hbody : body.ReadsBack) :
    (lam x body).ReadsBack := by
  intro r es st hr hes h
  obtain rfl := hes rfl
  have harrow : readText (' ' :: ("->".toList ++ ' ' :: (body.render.toList ++ r))) = [body] :: st := by
    rw [readText_blank, readText_mark (by decide), hbody.whole hr h, readMark, gather_spine]
  simp only [render, String.toList_append, List.append_assoc]
  change readText ('\\' :: (x.toList ++ ' ' :: ("->".toList ++ ' ' :: (body.render.toList ++ r)))) = _
  rw [readText_sign rfl, hx.readText (endsWord_cons rfl _) harrow]
  rfl

theorem readsBack_app {f a : Expr} (hf : f.ReadsBack) (ha : a.ReadsBack) : (app f a).ReadsBack := by
  intro r es st hr _ h
  have harg : readText (' ' :: ((parenthesized a.render a.isCompound).toList ++ r)) = (a :: es) :: st := by
    rw [readText_blank, ha.argument hr h]
  simp only [render, String.toList_append, List.append_assoc]
  refine (hf.func (endsWord_cons rfl _) harg).trans ?_
  rw [spine, List.append_assoc]
  rfl

theorem readsBack_ite {c t e : Expr} (hc : c.ReadsBack) (ht : t.ReadsBack) (he : e.ReadsBack) :
    (ite c t e).ReadsBack := by
  intro r es st hr hes h
  obtain rfl := hes rfl
  have helse := readText_separator (.inr (.inl rfl)) (he.whole hr h)
  have hthen := readText_separator (.inl rfl) (ht.whole (endsWord_cons rfl _) helse)
  have hcond := hc.whole (endsWord_cons rfl _) hthen
  simp only [render, String.toList_append, List.append_assoc]
  change readText ("if".toList ++ ' ' :: (c.render.toList ++ ' ' :: ("then".toList ++ ' ' ::
    (t.render.toList ++ ' ' :: ("else".toList ++ ' ' :: (e.render.toList ++ r)))))) = _
  rw [readText_mark (by decide), hcond, readMark, gather_spine]
  rfl

theorem readsBack_letIn {recursive : Bool} {x : String} {bound body : Expr} (hx : IsName x)
    (hbound : bound.ReadsBack) (hbody : body.ReadsBack) :
    (letIn recursive x bound body).ReadsBack := by
  intro r es st hr hes h
  obtain rfl := hes rfl
  have hin := readText_separator (.inr (.inr rfl)) (hbody.whole hr h)
  have hequals : readText (' ' :: ("=".toList ++ ' ' :: (bound.render.toList ++ ' ' ::
      ("in".toList ++ ' ' :: (body.render.toList ++ r))))) = [bound] :: [body] :: st := by
    rw [readText_blank, readText_mark (by decide), hbound.whole (endsWord_cons rfl _) hin, readMark,
      gather_spine]
  have hname := hx.readText (endsWord_cons rfl _) hequals
  simp only [render, String.toList_append, List.append_assoc]
  cases recursive with
  | false =>
    change readText ("let".toList ++ ' ' :: (x.toList ++ _)) = _
    refine (readText_mark (by decide) _).trans ?_
    exact congrArg (readMark "let") hname
  | true =>
    change readText ("let".toList ++ ' ' :: ("rec".toList ++ ' ' :: (x.toList ++ _))) = _
    rw [readText_mark (by decide), readText_mark (by decide)]
    exact congrArg (fun st => readMark "let" (readMark "rec" st)) hname

/-! ### Lists -/

theorem endsWord_renderMore (es : List Expr) (hr : EndsWord r) : EndsWord ((renderMore es).toList ++ r) := by
  cases es with
  | nil => exact hr
  | cons e es =>
    simp only [renderMore, String.toList_append, List.append_assoc]
    exact endsWord_cons rfl _

theorem readText_renderMore {items : List Expr} (hes : ∀ e ∈ es, e.ReadsBack) (hr : EndsWord r)
    (h : readText r = [] :: items :: st) :
    readText ((renderMore es).toList ++ r) = [] :: (es ++ items) :: st := by
  induction es with
  | nil => exact h
  | cons e es ih =>
    obtain ⟨he, hes⟩ := List.forall_mem_cons.1 hes
    have hitem := he.whole (endsWord_renderMore es hr) (ih hes)
    simp only [renderMore, String.toList_append, List.append_assoc]
    change readText (',' :: ' ' :: (e.render.toList ++ ((renderMore es).toList ++ r))) = _
    rw [readText_sign rfl, readText_blank, hitem, readToken, gather_spine]
    rfl

theorem readsBack_list {items : List Expr} (hitems : ∀ e ∈ items, e.ReadsBack) :
    (list items).ReadsBack := by
  intro r es st hr _ h
  have hclose : readText (']' :: r) = [] :: [] :: es :: st := by
    rw [readText_sign rfl, h]
    rfl
  simp only [render, String.toList_append, List.append_assoc]
  cases items with
  | nil =>
    change readText ('[' :: ']' :: r) = _
    rw [readText_sign rfl, hclose]
    rfl
  | cons e items =>
    obtain ⟨he, hitems⟩ := List.forall_mem_cons.1 hitems
    have hmore := readText_renderMore hitems (endsWord_cons rfl r) hclose
    rw [List.append_nil] at hmore
    have hfirst := he.whole (endsWord_renderMore items (endsWord_cons rfl r)) hmore
    simp only [renderItems, String.toList_append, List.append_assoc]
    change readText ('[' :: (e.render.toList ++ ((renderMore items).toList ++ ']' :: r))) = _
    rw [readText_sign rfl, hfirst, readToken, gather_spine]
    · rfl
    · exact e.spine_ne_nil

theorem readsBack (he : e.isLegible = true) : e.ReadsBack := by
  induction e using Expr.induct with
  | number n =>
    have hmark : toString n.toInt ∉ marks := fun hmem =>
      numeral_ne ((by decide : ∀ w ∈ marks, w.toList.all isNumeralChar = false) _ hmem) n.toInt rfl
    exact readsBack_of_word (isWord_numeral _) hmark (ofWord_number n) rfl
  | boolean b =>
    exact readsBack_of_word (by cases b <;> decide) (by cases b <;> decide) (ofWord_boolean b) rfl
  | prim op =>
    exact readsBack_of_word (by cases op <;> decide) (by cases op <;> decide) (ofWord_prim op) rfl
  | var x =>
    have hx : IsName x := of_decide_eq_true he
    exact readsBack_of_word hx.isWord hx.not_mem_marks (if_pos hx) rfl
  | lam x body ih =>
    simp only [isLegible, Bool.and_eq_true, decide_eq_true_eq] at he
    exact readsBack_lam he.1 (ih he.2)
  | app f a ihf iha =>
    simp only [isLegible, Bool.and_eq_true] at he
    exact readsBack_app (ihf he.1) (iha he.2)
  | ite c t e ihc iht ihe =>
    simp only [isLegible, Bool.and_eq_true] at he
    exact readsBack_ite (ihc he.1.1) (iht he.1.2) (ihe he.2)
  | letIn recursive x bound body ihbound ihbody =>
    simp only [isLegible, Bool.and_eq_true, decide_eq_true_eq] at he
    exact readsBack_letIn he.1.1 (ihbound he.1.2) (ihbody he.2)
  | list items ih => exact readsBack_list fun e he' => ih e he' (allLegible_iff.1 he e he')
  | closure => cases he

theorem readText_render (he : e.isLegible = true) : readText e.render.toList = [e.spine] := by
  have h : readText (e.render.toList ++ []) = [e.spine] := (readsBack he).whole endsWord_nil rfl
  rwa [List.append_nil] at h

end Expr

/-- Two expressions without closures, whose names are identifiers and no keywords, have the same text only
if they are the same. -/
theorem exprText_unambiguous (e e' : Expr) (he : e.isLegible = true) (he' : e'.isLegible = true) :
    e.render = e'.render ↔ e = e' := by
  constructor
  · intro h
    have hread : [e.spine] = [e'.spine] := by
      rw [← Expr.readText_render he, ← Expr.readText_render he', h]
    rw [← Expr.gather_spine e, List.singleton_inj.1 hread, Expr.gather_spine]
  · rintro rfl
    rfl

/-- An `if` as the function of an application and an application in the last branch of an `if`. -/
theorem exprText_unambiguous_if :
    let branch : Expr := .lam "x" (.list [.var "x", .number (-1)])
    let e : Expr := .app (.ite (.boolean true) (.var "f") branch) (.prim .head)
    let e' : Expr := .ite (.boolean true) (.var "f") (.app branch (.prim .head))
    e.isLegible = true ∧ e'.isLegible = true ∧ e.render ≠ e'.render := by
  intro branch e e'
  have he : e.isLegible = true := by decide
  have he' : e'.isLegible = true := by decide
  exact ⟨he, he', fun h => Expr.noConfusion ((exprText_unambiguous e e' he he').1 h)⟩

end LetPoly
