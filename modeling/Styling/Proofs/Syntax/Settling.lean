import Styling.Proofs.Syntax.Cutting
import Styling.Proofs.Syntax.Stopping

/-!
# A closing bracket settles what stands before it

A token that ends before a closing curly bracket ends there whatever comes after the bracket: no
token goes on with the bracket, except a string, a comment or an escape, and these had to go on
before.  So a text that ends with a closing bracket, as its last token, can be followed by any other
text, and the tokens of both stay what they are.

* `Settles` says of a function that reads a first part of a text that what it reads before a bracket
  does not depend on the text after it; `Settles.map` and `Settles.ite` are ways of putting such
  functions together.
* `settles_scanIdent`, `settles_scanNumeric`, `settles_scanString` and `settles_scanToken` are about
  the parts of the lexer and about the whole of it.
* `IsCut.settle` says that a text cut before a bracket is cut whatever comes after the bracket.
-/

namespace Styling

/-- What `f` reads of a text before a closing bracket does not depend on what comes after it. -/
def Settles {ρ : Type} (size : ρ → Nat) (f : List Char → ρ) : Prop :=
  ∀ as xs ys : List Char, size (f (as ++ '\x7d' :: xs)) ≤ as.length →
    f (as ++ '\x7d' :: ys) = f (as ++ '\x7d' :: xs)

namespace Settles

variable {ρ σ : Type} {size : ρ → Nat} {f g : List Char → ρ}

/-- What is made of the part that was read. -/
theorem map {size' : σ → Nat} (hf : Settles size f) (h : ρ → σ)
    (hsize : ∀ r, size r ≤ size' (h r)) : Settles size' fun cs => h (f cs) :=
  fun as xs ys hle => congrArg h (hf as xs ys ((hsize _).trans hle))

/-- A choice by a condition that does not depend on what comes after the bracket. -/
theorem ite {P : List Char → Prop} [DecidablePred P]
    (hP : ∀ as xs ys, P (as ++ '\x7d' :: xs) → P (as ++ '\x7d' :: ys))
    (hf : Settles size f) (hg : Settles size g) :
    Settles size fun cs => if P cs then f cs else g cs := by
  intro as xs ys hle
  by_cases h : P (as ++ '\x7d' :: xs)
  · simp only [if_pos h, if_pos (hP as xs ys h)] at hle ⊢
    exact hf as xs ys hle
  · simp only [if_neg h, if_neg fun h' => h (hP as ys xs h')] at hle ⊢
    exact hg as xs ys hle

/-- A choice that does not depend on the text. -/
theorem iteConst {p : Prop} [Decidable p] (hf : Settles size f) (hg : Settles size g) :
    Settles size fun cs => if p then f cs else g cs :=
  ite (fun _ _ _ h => h) hf hg

/-- Nothing more is read. -/
theorem const (r : ρ) : Settles size fun _ => r :=
  fun _ _ _ _ => rfl

end Settles

/-- What is read step by step is settled if each step is. -/
theorem IsStepwise.settles {ρ : Type} {size : ρ → Nat} {step : List Char → ScanStep ρ}
    {f : List Char → ρ} (h : IsStepwise size step f) (hstep : Settles (ScanStep.size size) step) :
    Settles size f :=
  fun _ xs ys hle => h.append_congr _ _ (fun as has => hstep as xs ys has) hle

/-! ## Conditions -/

section Conditions

variable (as xs ys : List Char)

theorem head?_bracket : (as ++ '\x7d' :: xs).head? = (as ++ '\x7d' :: ys).head? := by
  cases as <;> rfl

/-- A bracket starts no escape. -/
theorem startsEscape_bracket :
    startsEscape (as ++ '\x7d' :: xs) = startsEscape (as ++ '\x7d' :: ys) := by
  rcases as with _ | ⟨a, _ | ⟨b, as⟩⟩
  · simp only [List.nil_append, startsEscape_of_ne (show '\x7d' ≠ '\\' by decide)]
  · simp only [List.cons_append, List.nil_append, startsEscape_cons_cons]
  · simp only [List.cons_append, startsEscape_cons_cons]

theorem startsIdent_bracket :
    startsIdent (as ++ '\x7d' :: xs) = startsIdent (as ++ '\x7d' :: ys) := by
  cases as with
  | nil => simp only [List.nil_append, startsIdent_cons, show '\x7d' ≠ '-' by decide,
      show '\x7d' ≠ '\\' by decide, if_false]
  | cons a as =>
    have hescape := startsEscape_bracket (a :: as) xs ys
    rw [List.cons_append, List.cons_append] at hescape
    simp only [List.cons_append, startsIdent_cons, head?_bracket as xs ys,
      startsEscape_bracket as xs ys, hescape]

end Conditions

/-! ## Identifiers -/

theorem settles_scanEscape : Settles (·.2) scanEscape := by
  intro as xs ys hle
  cases as with
  | nil =>
    have hpos := scanEscape_pos (List.cons_ne_nil '\x7d' xs)
    exact absurd (hpos.trans hle) (Nat.not_succ_le_zero 0)
  | cons a as =>
    have hne := List.cons_ne_nil a as
    rw [scanEscape_stop hne rfl rfl ys, scanEscape_stop hne rfl rfl xs]

theorem settles_identStep : Settles (ScanStep.size (·.2)) identStep := by
  intro as xs ys hle
  cases as with
  | nil => simp [identStep, startsEscape_of_ne, isIdentChar, isIdentStart, isDigit]
  | cons a as =>
    have hescape := startsEscape_bracket (a :: as) xs ys
    simp only [List.cons_append] at hescape
    simp only [List.cons_append, identStep, hescape] at hle ⊢
    by_cases ha : isIdentChar a = true
    · rw [if_pos ha, if_pos ha]
    rw [if_neg ha] at hle
    rw [if_neg ha, if_neg ha]
    by_cases hstart : startsEscape (a :: (as ++ '\x7d' :: ys)) = true
    · rw [if_pos hstart] at hle
      have hsize : (scanEscape (as ++ '\x7d' :: xs)).2 ≤ as.length := Nat.le_of_succ_le_succ hle
      rw [settles_scanEscape as xs ys hsize]
    · rw [if_neg hstart, if_neg hstart]

theorem settles_scanIdent : Settles (·.2) scanIdent :=
  isStepwise_scanIdent.settles settles_identStep

/-! ## Strings and comments -/

theorem settles_stringStep (quote : Char) :
    Settles (ScanStep.size ScannedString.size) (stringStep quote) := by
  intro as xs ys hle
  cases as with
  | nil =>
    rw [List.nil_append, stringStep, if_neg (show '\x7d' ≠ '\n' by decide),
      if_neg (show '\x7d' ≠ '\\' by decide)] at hle
    split at hle <;> exact absurd hle (Nat.not_succ_le_zero 0)
  | cons a as =>
    have hescape := startsEscape_bracket (a :: as) xs ys
    have hempty : ∀ zs, (as ++ '\x7d' :: zs).isEmpty = false := fun _ => by cases as <;> rfl
    simp only [List.cons_append] at hescape
    simp only [List.cons_append, stringStep, hescape, hempty, Bool.false_eq_true, if_false] at hle ⊢
    split_ifs at hle ⊢ with hquote hnewline hslash hstart
    · rfl
    · rfl
    · have hsize : (scanEscape (as ++ '\x7d' :: xs)).2 ≤ as.length := Nat.le_of_succ_le_succ hle
      rw [settles_scanEscape as xs ys hsize]
    · rfl
    · rfl

theorem settles_scanString (quote : Char) : Settles ScannedString.size (scanString quote) :=
  (isStepwise_scanString quote fun _ _ _ => rfl).settles (settles_stringStep quote)

theorem settles_commentStep : Settles (ScanStep.size (·.1)) commentStep := by
  intro as xs ys hle
  cases as with
  | nil =>
    rw [List.nil_append, commentStep, if_neg fun h => absurd h.1 (by decide)] at hle
    exact absurd hle (Nat.not_succ_le_zero 0)
  | cons a as => simp only [List.cons_append, commentStep, head?_bracket as ys xs]

theorem settles_scanComment : Settles (·.1) scanComment :=
  isStepwise_scanComment.settles settles_commentStep

/-! ## Tokens -/

/-- No numeral has a bracket in it. -/
theorem isForeign_bracket : NumeralParts.IsForeign '\x7d' :=
  ⟨rfl, by decide, by decide, by decide⟩

/-- A number with its unit or percent sign. -/
theorem settles_scanNumeric : Settles (fun t => t.extra + 1) scanNumeric := by
  intro as xs ys hle
  have hsize : (NumeralParts.scan as).chars.length ≤ as.length := by
    have hscan := (length_chars_le_scanNumeric (as ++ '\x7d' :: xs)).trans hle
    rwa [NumeralParts.scan_stop isForeign_bracket] at hscan
  simp only [scanNumeric, NumeralParts.scan_stop isForeign_bracket,
    List.drop_append_of_le_length hsize] at hle ⊢
  have hdrop := List.length_drop (i := (NumeralParts.scan as).chars.length) (l := as)
  generalize as.drop (NumeralParts.scan as).chars.length = rest at *
  rw [startsIdent_bracket rest ys xs, head?_bracket rest ys xs]
  split at hle
  next hunit =>
    have hpos := scanIdent_pos hunit
    simp only [Scanned.plain] at hle
    rw [if_pos hunit, if_pos hunit, settles_scanIdent rest xs ys (by dsimp only; omega)]
  next hunit => rw [if_neg hunit, if_neg hunit]

/-- An identifier, with the parenthesis of a function. -/
theorem settles_scanIdentLike : Settles (fun t => t.extra + 1) scanIdentLike := by
  intro as xs ys hle
  have hsize := (scanIdent_le_scanIdentLike (as ++ '\x7d' :: xs)).trans hle
  simp only [scanIdentLike, settles_scanIdent as xs ys hsize,
    List.drop_append_of_le_length hsize, head?_bracket _ ys xs]

theorem settles_scanQuoted (quote : Char) : Settles Scanned.extra (scanQuoted quote) := by
  intro as xs ys hle
  have hsize : (scanString quote (as ++ '\x7d' :: xs)).size ≤ as.length := by
    simp only [scanQuoted] at hle
    split at hle <;> exact hle
  simp only [scanQuoted, settles_scanString quote as xs ys hsize]

/-- A hash sign with its name. -/
theorem settles_scanHash : Settles Scanned.extra scanHash := by
  refine .ite (fun as xs ys h => ?_) (fun as xs ys hle => ?_) (.const _)
  · rwa [head?_bracket as ys xs, startsEscape_bracket as ys xs]
  · have hsize : (scanIdent (as ++ '\x7d' :: xs)).2 ≤ as.length := hle
    simp only [settles_scanIdent as xs ys hsize, startsIdent_bracket as ys xs]

/-- A comment token. -/
theorem settles_commentToken (c : Char) :
    Settles Scanned.extra fun cs =>
      ⟨.comment (String.ofList (c :: cs.take ((scanComment (cs.drop 1)).1 + 1))),
        (scanComment (cs.drop 1)).1 + 1,
        if (scanComment (cs.drop 1)).2 then none else some .commentNotClosed⟩ := by
  intro as xs ys hle
  dsimp only at hle ⊢
  have hone : 1 ≤ as.length := by omega
  rw [List.drop_append_of_le_length hone] at hle
  have hdrop := List.length_drop (i := 1) (l := as)
  have hbody := settles_scanComment (as.drop 1) xs ys (by dsimp only; omega)
  rw [List.drop_append_of_le_length hone, List.drop_append_of_le_length hone, hbody,
    List.take_append_of_le_length hle, List.take_append_of_le_length hle]

/-- A first character is known to belong to the token. -/
theorem Settles.tail {f : List Char → Scanned} (hf : Settles (fun t => t.extra + 1) f) (c : Char) :
    Settles Scanned.extra fun cs => f (c :: cs) :=
  fun as xs ys hle => hf (c :: as) xs ys (Nat.succ_le_succ hle)

/-- First characters without a bracket stand before it. -/
theorem take_bracket {ds as xs : List Char} {n : Nat} (ys : List Char) (hds : '\x7d' ∉ ds)
    (h : (as ++ '\x7d' :: xs).take n = ds) : (as ++ '\x7d' :: ys).take n = ds := by
  have hle := le_length_of_take hds h
  rw [List.take_append_of_le_length hle] at h ⊢
  exact h

/-- What starts at a character and ends before a bracket does not depend on what comes after it. -/
theorem settles_scanToken (c : Char) : Settles Scanned.extra (scanToken c) := by
  have hname : Settles Scanned.extra fun cs =>
      .plain (.atKeyword (String.ofList (scanIdent cs).1)) (scanIdent cs).2 :=
    settles_scanIdent.map (fun r => Scanned.plain (.atKeyword (String.ofList r.1)) r.2)
      fun _ => le_rfl
  have hspace : Settles Scanned.extra fun cs =>
      .plain (.whitespace (String.ofList (c :: cs.takeWhile isSpace)))
        (cs.takeWhile isSpace).length := fun as xs ys _ => by
    simp only [takeWhile_stop (p := isSpace) (c := '\x7d') rfl as]
  have hnumber : ∀ as xs ys : List Char, startsNumber (c :: (as ++ '\x7d' :: xs)) = true →
      startsNumber (c :: (as ++ '\x7d' :: ys)) = true := fun as xs ys h => by
    have hstop := NumeralParts.startsNumber_stop isForeign_bracket (c :: as)
    exact (hstop ys).trans ((hstop xs).symm.trans h)
  have hident : ∀ as xs ys : List Char, startsIdent (c :: (as ++ '\x7d' :: xs)) = true →
      startsIdent (c :: (as ++ '\x7d' :: ys)) = true := fun as xs ys h =>
    (startsIdent_bracket (c :: as) ys xs).trans h
  refine .ite (fun as xs ys h => ⟨h.1, head?_bracket as ys xs ▸ h.2⟩) (settles_commentToken c) ?_
  refine .iteConst (settles_scanQuoted c) (.iteConst settles_scanHash ?_)
  refine .ite hnumber (settles_scanNumeric.tail c) ?_
  refine .ite (fun as xs ys h => ⟨h.1, take_bracket ys (by decide) h.2⟩) (.const _) ?_
  refine .ite (fun as xs ys h => ⟨h.1, take_bracket ys (by decide) h.2⟩) (.const _) ?_
  refine .ite (fun as xs ys h => ⟨h.1, (startsIdent_bracket as ys xs).trans h.2⟩) hname ?_
  refine .ite hident (settles_scanIdentLike.tail c) (.iteConst (.const _) (.iteConst hspace ?_))
  exact fun _ _ _ _ => rfl

/-! ## Texts -/

/-- A text that is cut before a bracket is cut there whatever comes after the bracket. -/
theorem IsCut.settle {as xs : List Char} (h : IsCut ('\x7d' :: xs) as) (ys : List Char) :
    IsCut ('\x7d' :: ys) as := by
  induction h with
  | nil => exact .nil
  | @cons a as extra problem rest ih =>
    have hsame := settles_scanToken a as xs ys extra
    rw [← hsame] at extra problem ih
    exact .cons extra problem ih

end Styling
