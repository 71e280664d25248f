/-! Text cut into words and signs. A sign is a blank, a bracket or another mark that stands between words,
so a word ends where a sign or the end of the text follows (`tokens_word`). Texts are read from their end:
what a reader has to know at an opening bracket is then complete. -/

namespace LetPoly

def signs : List Char := [' ', '(', ')', '[', ']', ',', '.', '\\']

/-- A character that is no part of a word. -/
def isSign (c : Char) : Bool := c ∈ signs

inductive Token where
  | word (text : String)
  | sign (c : Char)
deriving DecidableEq, Repr

/-- Puts a character before a text that is cut already. -/
def prepend (c : Char) (ts : List Token) : List Token :=
  if isSign c then .sign c :: ts
  else match ts with
    | .word w :: ts => .word (String.ofList (c :: w.toList)) :: ts
    | .sign d :: ts => .word (String.ofList [c]) :: .sign d :: ts
    | [] => [.word (String.ofList [c])]

def tokens (text : List Char) : List Token := text.foldr prepend []

/-- At least one character, and no sign. -/
def IsWord (w : String) : Prop := w.toList ≠ [] ∧ w.toList.all (fun c => !isSign c) = true

instance (w : String) : Decidable (IsWord w) := inferInstanceAs (Decidable (_ ∧ _))

/-- No word goes on at the front of the text. -/
def EndsWord (text : List Char) : Prop := ∀ c ∈ text.head?, isSign c = true

theorem endsWord_nil : EndsWord [] := by simp [EndsWord]

theorem endsWord_cons {c : Char} (h : isSign c = true) (text : List Char) : EndsWord (c :: text) := by
  simpa [EndsWord] using h

/-- A class of characters without a sign. -/
theorem isSign_eq_false {p : Char → Bool} (hp : signs.any p = false) {c : Char} (h : p c = true) :
    isSign c = false := by
  refine decide_eq_false fun hc => ?_
  rw [List.any_eq_true.2 ⟨c, hc, h⟩] at hp
  cases hp

theorem isWord_of_forall {w : String} (hne : w.toList ≠ []) (h : ∀ c ∈ w.toList, isSign c = false) :
    IsWord w := ⟨hne, by simpa using h⟩

theorem IsWord.isSign {w : String} (hw : IsWord w) : ∀ c ∈ w.toList, LetPoly.isSign c = false := by
  simpa using hw.2

theorem isSign_of_isDigit {c : Char} : c.isDigit = true → isSign c = false :=
  isSign_eq_false (by decide)

theorem tokens_sign {c : Char} (h : isSign c = true) (text : List Char) :
    tokens (c :: text) = .sign c :: tokens text := by
  change prepend c (tokens text) = _
  unfold prepend
  exact if_pos h

theorem prepend_of_endsWord {c : Char} {text : List Char} (hc : isSign c = false) (h : EndsWord text) :
    prepend c (tokens text) = .word (String.ofList [c]) :: tokens text := by
  cases text with
  | nil => simp [tokens, prepend, hc]
  | cons d text =>
    rw [tokens_sign (h d rfl), prepend, hc]
    rfl

theorem tokens_append {w text : List Char} (hne : w ≠ []) (hw : ∀ c ∈ w, isSign c = false)
    (h : EndsWord text) : tokens (w ++ text) = .word (String.ofList w) :: tokens text := by
  induction w with
  | nil => exact absurd rfl hne
  | cons c w ih =>
    obtain ⟨hc, hw⟩ := List.forall_mem_cons.1 hw
    change prepend c (tokens (w ++ text)) = _
    by_cases hnil : w = []
    · rw [hnil, List.nil_append, prepend_of_endsWord hc h]
    · rw [ih hnil hw, prepend, hc]
      simp only [Bool.false_eq_true, if_false, String.toList_ofList]

theorem tokens_word {w : String} (hw : IsWord w) {text : List Char} (h : EndsWord text) :
    tokens (w.toList ++ text) = .word w :: tokens text := by
  rw [tokens_append hw.1 hw.isSign h, String.ofList_toList]

/-- What a reader comes to that goes through the tokens from the last to the first. -/
def scan {σ : Type} (step : Token → σ → σ) (start : σ) (text : List Char) : σ :=
  (tokens text).foldr step start

section Scan

variable {σ : Type} {step : Token → σ → σ} {start : σ} {text : List Char}

theorem scan_sign {c : Char} (h : isSign c = true) :
    scan step start (c :: text) = step (.sign c) (scan step start text) := by
  rw [scan, tokens_sign h]
  rfl

theorem scan_word {w : String} (hw : IsWord w) (h : EndsWord text) :
    scan step start (w.toList ++ text) = step (.word w) (scan step start text) := by
  rw [scan, tokens_word hw h]
  rfl

end Scan

theorem toList_append₃ (a b c : String) (r : List Char) :
    (a ++ b ++ c).toList ++ r = a.toList ++ (b.toList ++ (c.toList ++ r)) := by
  simp only [String.toList_append, List.append_assoc]

theorem ne_of_head? {v w : String} {c : Char} {cs : List Char} (hv : v.toList = c :: cs)
    (hw : w.toList.head? ≠ some c) : v ≠ w := by
  rintro rfl
  exact hw (by rw [hv]; rfl)

theorem isDigit_of_mem_toString {n : Nat} {c : Char} (h : c ∈ (toString n).toList) :
    c.isDigit = true := by
  rw [Nat.toString_eq_repr, Nat.toList_repr] at h
  exact Nat.isDigit_of_mem_toDigits (by decide) (by decide) h

end LetPoly
