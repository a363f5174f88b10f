import Mathlib.Data.List.TakeWhile
import Styling.Syntax.Lexeme

/-!
# What a token depends on

A scanner may look at what comes after the token it reads, but only to find out whether the token
goes on.  So a token that lies within a prefix of a text is found in the prefix alone.

`IsLocal` says this of any function that reads a first part of a text.  Every part of the lexer has
the property, and it passes through the ways in which the lexer is put together: reading one part
after another, and choosing by a condition.

* `IsLocal.andThen` and `IsLocal.ite` are the two ways.
* `IsStepwise` says that identifiers, strings and comments are read step by step.  If each step reads
  alike before two texts, so does the whole, by `IsStepwise.append_congr`.
* `isLocal_scanIdent`, `NumeralParts.isLocal_scan` and their like are the parts.
* `isLocal_reach_scanToken` is the property of the scanner of the style language: a token depends on
  its own text, and a string that a newline breaks on that newline as well.
* `isLocal_scanToken` is about tokens without problems.
-/

namespace Styling

/-- What `f` reads of a text, if it is sound and lies within a prefix, it reads of the prefix. -/
def IsLocal {ρ : Type} (size : ρ → Nat) (sound : ρ → Prop) (f : List Char → ρ) : Prop :=
  ∀ as xs : List Char, size (f (as ++ xs)) ≤ as.length → sound (f (as ++ xs)) →
    f (as ++ xs) = f as

namespace IsLocal

variable {ρ σ : Type} {size : ρ → Nat} {sound : ρ → Prop} {f g : List Char → ρ}

/-- Reading one part after another, where the second may depend on the first. -/
theorem andThen {size' : σ → Nat} {k : ρ → List Char → σ}
    (hf : IsLocal size (fun _ => True) f) (hk : ∀ r, IsLocal size' (fun _ => True) (k r)) :
    IsLocal (fun p : ρ × σ => size p.1 + size' p.2) (fun _ => True)
      (fun cs => (f cs, k (f cs) (cs.drop (size (f cs))))) := by
  intro as xs hsize _
  dsimp only at hsize ⊢
  have hle : size (f (as ++ xs)) ≤ as.length := by omega
  have hfirst := hf as xs hle trivial
  rw [hfirst] at hsize hle ⊢
  rw [List.drop_append_of_le_length hle] at hsize ⊢
  have hrest : (as.drop (size (f as))).length = as.length - size (f as) := List.length_drop
  rw [hk (f as) (as.drop (size (f as))) xs (by omega) trivial]

/-- What is made of the part that was read. -/
theorem map {size' : σ → Nat} {sound' : σ → Prop} (hf : IsLocal size sound f) (h : ρ → σ)
    (hsize : ∀ r, size r ≤ size' (h r)) (hsound : ∀ r, sound' (h r) → sound r) :
    IsLocal size' sound' fun cs => h (f cs) := by
  intro as xs hle hok
  dsimp only at hle hok ⊢
  rw [hf as xs ((hsize _).trans hle) (hsound _ hok)]

/-- A choice by a condition that holds of a text if it holds of a prefix, and of the prefix if it
holds of the text and what is read lies within the prefix. -/
theorem ite {P : List Char → Prop} [DecidablePred P] (hP : ∀ as xs, P as → P (as ++ xs))
    (hback : ∀ as xs, P (as ++ xs) → size (f (as ++ xs)) ≤ as.length → P as)
    (hf : IsLocal size sound f) (hg : IsLocal size sound g) :
    IsLocal size sound fun cs => if P cs then f cs else g cs := by
  intro as xs hle hok
  by_cases h : P (as ++ xs)
  · simp only [if_pos h] at hle hok ⊢
    rw [if_pos (hback as xs h hle)]
    exact hf as xs hle hok
  · simp only [if_neg h] at hle hok ⊢
    rw [if_neg fun has => h (hP as xs has)]
    exact hg as xs hle hok

/-- A choice that does not depend on the text. -/
theorem iteConst {p : Prop} [Decidable p] (hf : IsLocal size sound f) (hg : IsLocal size sound g) :
    IsLocal size sound fun cs => if p then f cs else g cs :=
  ite (fun _ _ h => h) (fun _ _ h _ => h) hf hg

/-- Nothing more is read. -/
theorem const (r : ρ) : IsLocal size sound fun _ => r :=
  fun _ _ _ _ => rfl

/-- A function that reads nothing of the empty prefix, and is local after a first character. -/
theorem of_cons (hnil : ∀ xs, size (f xs) = 0 → sound (f xs) → f xs = f [])
    (hcons : ∀ (a : Char) (as xs : List Char), size (f (a :: (as ++ xs))) ≤ as.length + 1 →
      sound (f (a :: (as ++ xs))) → f (a :: (as ++ xs)) = f (a :: as)) :
    IsLocal size sound f := by
  intro as xs hle hok
  cases as with
  | nil => exact hnil xs (Nat.le_zero.mp hle) hok
  | cons a as => exact hcons a as xs hle hok

end IsLocal

/-! ## Step by step -/

/-- A step of a function that reads a first part of a text: it is done, or it takes some characters
and puts what they stand for in front of what is read behind them. -/
inductive ScanStep (ρ : Type)
  | done (r : ρ)
  | more (n : Nat) (put : ρ → ρ)

namespace ScanStep

variable {ρ : Type}

/-- The number of characters that a step takes. -/
def size (size : ρ → Nat) : ScanStep ρ → Nat
  | done r => size r
  | more n _ => n

/-- What is read of a text if this is the first step. -/
def finish (f : List Char → ρ) (cs : List Char) : ScanStep ρ → ρ
  | done r => r
  | more n put => put (f (cs.drop n))

end ScanStep

/-- The function reads a text step by step. -/
structure IsStepwise {ρ : Type} (size : ρ → Nat) (step : List Char → ScanStep ρ)
    (f : List Char → ρ) : Prop where
  eq_finish : ∀ cs, f cs = (step cs).finish f cs
  more : ∀ {cs n put}, step cs = .more n put → 0 < n ∧ ∀ r, size (put r) = n + size r

namespace IsStepwise

variable {ρ : Type} {size : ρ → Nat} {step : List Char → ScanStep ρ} {f : List Char → ρ}

theorem size_step_le (h : IsStepwise size step f) (cs : List Char) :
    (step cs).size size ≤ size (f cs) := by
  rw [h.eq_finish cs]
  cases hstep : step cs with
  | done r => exact le_rfl
  | more n put => exact ((h.more hstep).2 _).symm ▸ Nat.le_add_right n _

/-- A function reads alike before two texts if each of its steps does. -/
theorem append_congr (h : IsStepwise size step f) (xs ys : List Char)
    (hstep : ∀ as : List Char, (step (as ++ xs)).size size ≤ as.length →
      step (as ++ ys) = step (as ++ xs))
    {as : List Char} (hle : size (f (as ++ xs)) ≤ as.length) : f (as ++ ys) = f (as ++ xs) := by
  induction hn : as.length using Nat.strongRecOn generalizing as with
  | ind n ih =>
    have hsame := hstep as ((h.size_step_le _).trans hle)
    rw [h.eq_finish (as ++ ys), hsame]
    rw [h.eq_finish (as ++ xs)] at hle ⊢
    cases hfirst : step (as ++ xs) with
    | done r => rfl
    | more k put =>
      obtain ⟨hpos, hsize⟩ := h.more hfirst
      rw [hfirst, ScanStep.finish, hsize] at hle
      have hk : k ≤ as.length := by omega
      have hdrop := List.length_drop (i := k) (l := as)
      rw [List.drop_append_of_le_length hk] at hle
      rw [ScanStep.finish, ScanStep.finish, List.drop_append_of_le_length hk,
        List.drop_append_of_le_length hk, ih _ (by omega) (by omega) rfl]

theorem isLocal (h : IsStepwise size step f)
    (hstep : IsLocal (ScanStep.size size) (fun _ => True) step) :
    IsLocal size (fun _ => True) f := by
  intro as xs hle _
  have hsame := h.append_congr xs []
    (fun bs hbs => by rw [List.append_nil, hstep bs xs hbs trivial]) hle
  rw [← hsame, List.append_nil]

end IsStepwise

/-! ## Runs of characters -/

theorem isLocal_takeWhile (p : Char → Bool) :
    IsLocal List.length (fun _ => True) (List.takeWhile p) := by
  intro as xs hle _
  induction as with
  | nil => exact List.length_eq_zero_iff.mp (Nat.le_zero.mp hle)
  | cons a as ih =>
    rw [List.cons_append, List.takeWhile_cons, List.takeWhile_cons] at *
    cases ha : p a with
    | false => rfl
    | true =>
      rw [ha] at hle
      simp only [if_true, List.length_cons, Nat.add_le_add_iff_right] at hle ⊢
      rw [ih hle]

/-- A run that is not empty in a prefix is not empty in the text. -/
theorem takeWhile_append_ne_nil {p : Char → Bool} {as : List Char} (xs : List Char)
    (h : as.takeWhile p ≠ []) : (as ++ xs).takeWhile p ≠ [] := by
  cases as with
  | nil => exact absurd rfl h
  | cons a as =>
    rw [List.cons_append, List.takeWhile_cons] at *
    cases ha : p a with
    | false => exact absurd (by rw [ha]; rfl) h
    | true => simp

/-! ## Numbers -/

namespace NumeralParts

theorem isLocal_scanSign : IsLocal List.length (fun _ => True) scanSign :=
  IsLocal.of_cons (fun _ h _ => List.length_eq_zero_iff.mp h) fun _ _ _ _ _ => rfl

/-- A point is read with the digits after it. -/
theorem scanFraction_cons (a : Char) (cs : List Char) :
    scanFraction (a :: cs) =
      if a = '.' ∧ cs.takeWhile isDigit ≠ [] then a :: cs.takeWhile isDigit else [] := by
  by_cases ha : a = '.'
  · subst ha
    rw [scanFraction]
    cases cs.takeWhile isDigit <;> simp
  · rw [if_neg fun h => ha h.1, scanFraction]
    rintro _ h
    exact ha (List.cons.inj h).1

theorem isLocal_scanFraction : IsLocal List.length (fun _ => True) scanFraction := by
  refine IsLocal.of_cons (fun _ h _ => List.length_eq_zero_iff.mp h) fun a as xs hle _ => ?_
  rw [scanFraction_cons] at hle
  rw [scanFraction_cons, scanFraction_cons]
  by_cases hpoint : a = '.' ∧ (as ++ xs).takeWhile isDigit ≠ []
  · rw [if_pos hpoint] at hle
    rw [isLocal_takeWhile isDigit as xs (by simpa using hle) trivial]
  · rw [if_neg hpoint, if_neg fun h => hpoint ⟨h.1, takeWhile_append_ne_nil xs h.2⟩]

/-- A sign and the digits after it. -/
theorem isLocal_signedDigits :
    IsLocal (fun p : List Char × List Char => p.1.length + p.2.length) (fun _ => True) fun cs =>
      (scanSign cs, (cs.drop (scanSign cs).length).takeWhile isDigit) :=
  isLocal_scanSign.andThen fun _ => isLocal_takeWhile isDigit

/-- Digits after an optional sign in a prefix are digits of the text. -/
theorem signedDigits_append_ne_nil {as : List Char} (xs : List Char)
    (h : (as.drop (scanSign as).length).takeWhile isDigit ≠ []) :
    ((as ++ xs).drop (scanSign (as ++ xs)).length).takeWhile isDigit ≠ [] := by
  cases as with
  | nil => exact absurd rfl h
  | cons a as =>
    have hsign : scanSign (a :: as ++ xs) = scanSign (a :: as) := rfl
    have hle : (scanSign (a :: as)).length ≤ (a :: as).length := by
      rw [scanSign]
      split <;> simp
    rw [hsign, List.drop_append_of_le_length hle]
    exact takeWhile_append_ne_nil xs h

/-- The mark of an exponent is read with the digits after it. -/
theorem isLocal_scanExponent : IsLocal List.length (fun _ => True) scanExponent := by
  refine IsLocal.of_cons (fun _ h _ => List.length_eq_zero_iff.mp h) fun a as xs hle _ => ?_
  simp only [scanExponent, List.isEmpty_iff] at *
  by_cases hmark : (a = 'e' ∨ a = 'E') ∧
      ¬ ((as ++ xs).drop (scanSign (as ++ xs)).length).takeWhile isDigit = []
  · rw [if_pos hmark] at hle
    have hparts := isLocal_signedDigits as xs (by simpa using hle) trivial
    rw [Prod.mk.injEq] at hparts
    rw [hparts.1] at *
    rw [hparts.2]
  · rw [if_neg hmark, if_neg fun h => hmark ⟨h.1, signedDigits_append_ne_nil xs h.2⟩]

/-- A numeral. -/
theorem isLocal_scan : IsLocal (fun p => p.chars.length) (fun _ => True) scan := by
  have hparts := isLocal_scanSign.andThen fun _ => (isLocal_takeWhile isDigit).andThen fun _ =>
    isLocal_scanFraction.andThen fun _ => isLocal_scanExponent
  refine hparts.map (fun p => (⟨p.1, p.2.1, p.2.2.1, p.2.2.2⟩ : NumeralParts)) (fun p => ?_)
    fun _ h => h
  simp only [chars, List.length_append]
  omega

end NumeralParts

/-! ## Identifiers -/

theorem startsEscape_cons_cons (a b : Char) (cs : List Char) :
    startsEscape (a :: b :: cs) = (a == '\\' && b != '\n') := by
  unfold startsEscape
  split
  next h =>
    obtain ⟨rfl, h'⟩ := List.cons.inj h
    obtain ⟨rfl, -⟩ := List.cons.inj h'
    simp
  next h =>
    have ha : a ≠ '\\' := fun ha => h b cs (by rw [ha])
    simp [ha]

@[simp] theorem startsEscape_singleton (a : Char) : startsEscape [a] = false := by
  unfold startsEscape
  split <;> simp_all

/-- Two characters tell whether an escape starts. -/
theorem startsEscape_append (as xs : List Char) (hle : 2 ≤ as.length) :
    startsEscape (as ++ xs) = startsEscape as := by
  rcases as with _ | ⟨a, _ | ⟨b, as⟩⟩
  · exact absurd hle (by simp)
  · exact absurd hle (by simp)
  · simp only [List.cons_append, startsEscape_cons_cons]

/-- An escape takes two characters. -/
theorem two_le_of_startsEscape {cs : List Char} (h : startsEscape cs = true) : 2 ≤ cs.length := by
  rcases cs with _ | ⟨a, _ | ⟨b, cs⟩⟩
  · exact absurd h (by simp [startsEscape])
  · exact absurd h (by simp)
  · simp

theorem scanEscape_pos {cs : List Char} (h : cs ≠ []) : 1 ≤ (scanEscape cs).2 := by
  cases cs with
  | nil => exact absurd rfl h
  | cons c cs =>
    rw [scanEscape]
    split
    next hc => simp [hc]; omega
    next => exact le_rfl

/-- The digits of an escape. -/
theorem isLocal_escapeDigits :
    IsLocal List.length (fun _ => True) fun cs => (cs.take 6).takeWhile isHexDigit := by
  intro as xs hle _
  dsimp only at hle ⊢
  rw [List.take_append] at *
  refine isLocal_takeWhile isHexDigit _ _ ?_ trivial
  have hsix := (List.takeWhile_sublist isHexDigit
    (l := as.take 6 ++ xs.take (6 - as.length))).length_le
  rw [List.length_append, List.length_take, List.length_take] at hsix
  rw [List.length_take]
  omega

theorem isLocal_scanEscape : IsLocal (·.2) (fun _ => True) scanEscape := by
  refine IsLocal.of_cons (fun xs h _ => ?_) fun a as xs hle _ => ?_
  · cases xs with
    | nil => rfl
    | cons x xs =>
      have hpos := scanEscape_pos (List.cons_ne_nil x xs)
      omega
  · rw [scanEscape, scanEscape] at *
    by_cases ha : isHexDigit a = true
    · simp only [if_pos ha] at hle ⊢
      have hdigits := isLocal_escapeDigits (a :: as) xs
        ((Nat.le_add_right _ _).trans hle) trivial
      dsimp only [List.cons_append] at hdigits
      have hlength := (Nat.le_add_right _ _).trans hle
      rw [hdigits] at hle hlength ⊢
      rw [← List.cons_append, List.drop_append_of_le_length hlength] at hle ⊢
      -- The space is part of the escape only if it lies within the prefix.
      cases hdrop : (a :: as).drop (((a :: as).take 6).takeWhile isHexDigit).length with
      | cons d ds => rfl
      | nil =>
        have hall := List.drop_eq_nil_iff.mp hdrop
        rw [hdrop, List.nil_append] at hle
        cases xs with
        | nil => rfl
        | cons x xs =>
          rw [List.length_cons] at hall
          have hx : ¬ isSpace x = true := by
            intro hx
            simp only [if_pos hx] at hle
            omega
          simp only [List.nil_append, if_neg hx]
    · simp only [if_neg ha]

theorem startsIdent_cons (a : Char) (cs : List Char) :
    startsIdent (a :: cs) =
      if a = '-' then cs.head?.any (fun b => isIdentStart b || b == '-') || startsEscape cs
      else if a = '\\' then startsEscape (a :: cs)
      else isIdentStart a := by
  cases cs with
  | nil =>
    by_cases ha : a = '-'
    · rw [startsIdent.eq_def, if_pos ha]
      exact if_pos ha
    · rw [startsIdent.eq_def, if_neg ha]
      exact if_neg ha
  | cons b cs => rfl

/-- What starts an identifier in a prefix starts one in the text. -/
theorem startsIdent_append {as : List Char} (xs : List Char) (h : startsIdent as = true) :
    startsIdent (as ++ xs) = true := by
  have hescape : ∀ {bs : List Char}, startsEscape bs = true →
      startsEscape (bs ++ xs) = true := fun hbs => by
    rw [startsEscape_append _ xs (two_le_of_startsEscape hbs), hbs]
  cases as with
  | nil => exact absurd h (by simp [startsIdent])
  | cons a as =>
    rw [List.cons_append, startsIdent_cons] at *
    by_cases ha : a = '-'
    · rw [if_pos ha] at *
      rcases Bool.or_eq_true_iff.mp h with h | h
      · cases as with
        | nil => exact absurd h (by simp)
        | cons b as => exact Bool.or_eq_true_iff.mpr (Or.inl h)
      · exact Bool.or_eq_true_iff.mpr (Or.inr (hescape h))
    · rw [if_neg ha] at *
      by_cases hb : a = '\\'
      · rw [if_pos hb] at *
        exact hescape h
      · rw [if_neg hb] at *
        exact h

theorem scanIdent_nil : scanIdent [] = ([], 0) := by
  rw [scanIdent]

theorem scanIdent_cons (a : Char) (cs : List Char) :
    scanIdent (a :: cs) =
      if isIdentChar a then (a :: (scanIdent cs).1, (scanIdent cs).2 + 1)
      else if startsEscape (a :: cs) then
        ((scanEscape cs).1 :: (scanIdent (cs.drop (scanEscape cs).2)).1,
          (scanIdent (cs.drop (scanEscape cs).2)).2 + (scanEscape cs).2 + 1)
      else ([], 0) := by
  rw [scanIdent]

/-- Nothing is read only where nothing is there to read. -/
theorem scanIdent_of_size_eq_zero {cs : List Char} (h : (scanIdent cs).2 = 0) :
    scanIdent cs = ([], 0) := by
  cases cs with
  | nil => exact scanIdent_nil
  | cons a cs =>
    rw [scanIdent_cons] at *
    split at h
    · exact absurd h (by simp)
    · split at h
      · exact absurd h (by simp)
      · rename_i ha hescape
        rw [if_neg ha, if_neg hescape]

/-- A step in an identifier: a character of it, or an escape. -/
def identStep : List Char → ScanStep (List Char × Nat)
  | [] => .done ([], 0)
  | c :: cs =>
    if isIdentChar c then .more 1 fun r => (c :: r.1, r.2 + 1)
    else if startsEscape (c :: cs) then
      .more ((scanEscape cs).2 + 1) fun r =>
        ((scanEscape cs).1 :: r.1, r.2 + (scanEscape cs).2 + 1)
    else .done ([], 0)

theorem isStepwise_scanIdent : IsStepwise (·.2) identStep scanIdent where
  eq_finish cs := by
    cases cs with
    | nil => exact scanIdent_nil
    | cons c cs =>
      rw [scanIdent_cons, identStep]
      split_ifs <;> rfl
  more {cs n put} h := by
    cases cs with
    | nil => cases h
    | cons c cs =>
      rw [identStep] at h
      split_ifs at h <;> cases h
      · exact ⟨Nat.one_pos, fun r => Nat.add_comm _ _⟩
      · exact ⟨Nat.succ_pos _, fun r => by dsimp only; omega⟩

theorem isLocal_identStep : IsLocal (ScanStep.size (·.2)) (fun _ => True) identStep := by
  refine IsLocal.of_cons (fun xs h _ => ?_) fun a as xs hle _ => ?_
  · cases xs with
    | nil => rfl
    | cons x xs =>
      rw [identStep] at h ⊢
      split_ifs at h ⊢
      · exact absurd h (by simp [ScanStep.size])
      · exact absurd h (by simp [ScanStep.size])
      · rfl
  · simp only [identStep] at hle ⊢
    by_cases ha : isIdentChar a = true
    · rw [if_pos ha, if_pos ha]
    rw [if_neg ha] at hle
    rw [if_neg ha, if_neg ha]
    by_cases hescape : startsEscape (a :: (as ++ xs)) = true
    · rw [if_pos hescape] at hle ⊢
      have hsize : (scanEscape (as ++ xs)).2 ≤ as.length := Nat.le_of_succ_le_succ hle
      have hpos := scanEscape_pos (List.ne_nil_of_length_pos
        (Nat.lt_of_succ_lt_succ (two_le_of_startsEscape hescape)))
      have hsame : startsEscape (a :: (as ++ xs)) = startsEscape (a :: as) :=
        startsEscape_append (a :: as) xs (Nat.succ_le_succ (hpos.trans hsize))
      rw [isLocal_scanEscape as xs hsize trivial, if_pos (hsame ▸ hescape)]
    · have hprefix : ¬ startsEscape (a :: as) = true := by
        intro h
        have hsame := startsEscape_append _ xs (two_le_of_startsEscape h)
        rw [List.cons_append, h] at hsame
        exact hescape hsame
      rw [if_neg hescape, if_neg hprefix]

theorem isLocal_scanIdent : IsLocal (·.2) (fun _ => True) scanIdent :=
  isStepwise_scanIdent.isLocal isLocal_identStep

theorem scanIdent_pos_of_isIdentChar {cs : List Char} (h : cs.head?.any isIdentChar = true) :
    1 ≤ (scanIdent cs).2 := by
  cases cs with
  | nil => exact absurd h (by simp)
  | cons a cs =>
    have ha : isIdentChar a = true := h
    rw [scanIdent_cons, if_pos ha]
    exact Nat.le_add_left 1 _

/-- An escape is read with the character that it escapes. -/
theorem two_le_scanIdent_of_startsEscape {cs : List Char} (h : startsEscape cs = true) :
    2 ≤ (scanIdent cs).2 := by
  rcases cs with _ | ⟨a, _ | ⟨b, cs⟩⟩
  · exact absurd h (by simp [startsEscape])
  · exact absurd h (by simp)
  · have ha : a = '\\' := by
      rw [startsEscape_cons_cons] at h
      simpa using (Bool.and_eq_true_iff.mp h).1
    have hpos := scanEscape_pos (List.cons_ne_nil b cs)
    rw [scanIdent_cons, if_neg (by rw [ha]; decide), if_pos h]
    dsimp only
    omega

/-- Where an identifier starts, a character of it is read. -/
theorem scanIdent_pos {cs : List Char} (h : startsIdent cs = true) : 1 ≤ (scanIdent cs).2 := by
  cases cs with
  | nil => exact absurd h (by simp [startsIdent])
  | cons a cs =>
    rw [startsIdent_cons] at h
    by_cases ha : a = '-'
    · exact scanIdent_pos_of_isIdentChar (by rw [ha]; rfl)
    · rw [if_neg ha] at h
      by_cases hb : a = '\\'
      · rw [if_pos hb] at h
        exact (Nat.le_succ 1).trans (two_le_scanIdent_of_startsEscape h)
      · rw [if_neg hb] at h
        exact scanIdent_pos_of_isIdentChar (by simp [isIdentChar, h])

/-- An escape at the start of an identifier that lies within a prefix is one of the prefix. -/
theorem startsEscape_of_append {as xs : List Char} (h : startsEscape (as ++ xs) = true)
    (hle : (scanIdent (as ++ xs)).2 ≤ as.length) : startsEscape as = true := by
  have htwo := two_le_scanIdent_of_startsEscape h
  rw [← startsEscape_append _ xs (htwo.trans hle), h]

/-- An identifier that lies within a prefix starts in it. -/
theorem startsIdent_of_append {as xs : List Char} (h : startsIdent (as ++ xs) = true)
    (hle : (scanIdent (as ++ xs)).2 ≤ as.length) : startsIdent as = true := by
  cases as with
  | nil => exact absurd ((scanIdent_pos h).trans hle) (Nat.not_succ_le_zero 0)
  | cons a as =>
    rw [List.cons_append, startsIdent_cons] at *
    by_cases ha : a = '-'
    · subst ha
      rw [if_pos rfl] at *
      rw [scanIdent_cons, if_pos (by decide), List.length_cons] at hle
      have hrest : (scanIdent (as ++ xs)).2 ≤ as.length := Nat.le_of_add_le_add_right hle
      rcases Bool.or_eq_true_iff.mp h with h | h
      · cases as with
        | nil =>
          have hx : xs.head?.any isIdentChar = true := by
            cases xs with
            | nil => exact h
            | cons x xs =>
              rcases Bool.or_eq_true_iff.mp h with h | h
              · simp [isIdentChar, h]
              · simp [isIdentChar, h]
          exact absurd ((scanIdent_pos_of_isIdentChar hx).trans hrest) (Nat.not_succ_le_zero 0)
        | cons b as => exact Bool.or_eq_true_iff.mpr (Or.inl h)
      · exact Bool.or_eq_true_iff.mpr (Or.inr (startsEscape_of_append h hrest))
    · rw [if_neg ha] at *
      by_cases hb : a = '\\'
      · rw [if_pos hb] at *
        rw [← List.cons_append] at h hle
        exact startsEscape_of_append h hle
      · rw [if_neg hb] at *
        exact h

/-! ## Strings and comments -/

theorem scanString_cons (quote a : Char) (cs : List Char) :
    scanString quote (a :: cs) =
      if a = quote then ⟨[], 1, .quote⟩
      else if a = '\n' then ⟨[], 0, .newline⟩
      else if a = '\\' then
        if cs.isEmpty then ⟨[], 1, .endOfText⟩
        else if startsEscape (a :: cs) then
          (scanString quote (cs.drop (scanEscape cs).2)).prepend [(scanEscape cs).1]
            ((scanEscape cs).2 + 1)
        else (scanString quote (cs.drop 1)).prepend [] 2
      else (scanString quote cs).prepend [a] 1 := by
  rw [scanString]

namespace ScannedString

/-- The number of characters that tell what the string is: those that spell it, and the newline that
breaks it. -/
def reach (s : ScannedString) : Nat :=
  if s.ending = .newline then s.size + 1 else s.size

@[simp] theorem reach_prepend (content : List Char) (n : Nat) (s : ScannedString) :
    (s.prepend content n).reach = n + s.reach := by
  have hending : (s.prepend content n).ending = s.ending := rfl
  have hsize : (s.prepend content n).size = n + s.size := rfl
  rw [reach, reach, hending, hsize]
  split
  · rw [Nat.add_assoc]
  · rfl

end ScannedString

/-- A step in a string: a character of it, an escape, or a newline that is escaped. -/
def stringStep (quote : Char) : List Char → ScanStep ScannedString
  | [] => .done ⟨[], 0, .endOfText⟩
  | c :: cs =>
    if c = quote then .done ⟨[], 1, .quote⟩
    else if c = '\n' then .done ⟨[], 0, .newline⟩
    else if c = '\\' then
      if cs.isEmpty then .done ⟨[], 1, .endOfText⟩
      else if startsEscape (c :: cs) then
        .more ((scanEscape cs).2 + 1) (.prepend [(scanEscape cs).1] ((scanEscape cs).2 + 1))
      else .more 2 (.prepend [] 2)
    else .more 1 (.prepend [c] 1)

theorem finish_stringStep (quote : Char) (cs : List Char) :
    scanString quote cs = (stringStep quote cs).finish (scanString quote) cs := by
  cases cs with
  | nil => rw [scanString]; rfl
  | cons c cs =>
    rw [scanString_cons, stringStep]
    split_ifs <;> rfl

/-- A step in a string takes a character, and puts those that it takes in front. -/
theorem exists_of_stringStep {quote : Char} {cs : List Char} {n : Nat}
    {put : ScannedString → ScannedString} (h : stringStep quote cs = .more n put) :
    0 < n ∧ ∃ content, put = .prepend content n := by
  cases cs with
  | nil => cases h
  | cons c cs =>
    rw [stringStep] at h
    split_ifs at h <;> cases h
    · exact ⟨Nat.succ_pos _, _, rfl⟩
    · exact ⟨Nat.two_pos, _, rfl⟩
    · exact ⟨Nat.one_pos, _, rfl⟩

/-- A string is read step by step, whether or not a newline that breaks it is counted. -/
theorem isStepwise_scanString (quote : Char) {size : ScannedString → Nat}
    (hsize : ∀ content n s, size (.prepend content n s) = n + size s) :
    IsStepwise size (stringStep quote) (scanString quote) where
  eq_finish := finish_stringStep quote
  more h := by
    obtain ⟨hpos, content, rfl⟩ := exists_of_stringStep h
    exact ⟨hpos, hsize content _⟩

theorem isLocal_stringStep (quote : Char) :
    IsLocal (ScanStep.size ScannedString.reach) (fun _ => True) (stringStep quote) := by
  refine IsLocal.of_cons (fun xs h _ => ?_) fun a as xs hle _ => ?_
  · cases xs with
    | nil => rfl
    | cons x xs =>
      rw [stringStep] at h
      split_ifs at h <;> exact absurd h (by simp [ScanStep.size, ScannedString.reach])
  · simp only [stringStep] at hle ⊢
    by_cases hquote : a = quote
    · rw [if_pos hquote, if_pos hquote]
    rw [if_neg hquote] at hle
    rw [if_neg hquote, if_neg hquote]
    by_cases hnewline : a = '\n'
    · rw [if_pos hnewline, if_pos hnewline]
    rw [if_neg hnewline] at hle
    rw [if_neg hnewline, if_neg hnewline]
    by_cases hslash : a = '\\'
    · rw [if_pos hslash] at hle
      rw [if_pos hslash, if_pos hslash]
      by_cases hempty : as ++ xs = []
      · obtain ⟨rfl, rfl⟩ := List.append_eq_nil_iff.mp hempty
        rfl
      have hpos := scanEscape_pos hempty
      rw [if_neg (by simpa using hempty)] at hle ⊢
      -- In both cases the character after the backslash lies within the prefix.
      have hnonempty : 1 ≤ as.length := by
        split at hle <;> simp only [ScanStep.size] at hle <;> omega
      have hne : ¬ as.isEmpty = true := by
        rw [List.isEmpty_iff, ← List.length_eq_zero_iff]
        omega
      have hsame : startsEscape (a :: (as ++ xs)) = startsEscape (a :: as) :=
        startsEscape_append (a :: as) xs (Nat.succ_le_succ hnonempty)
      rw [hsame] at hle ⊢
      rw [if_neg hne]
      by_cases hescape : startsEscape (a :: as) = true
      · rw [if_pos hescape] at hle
        have hsize : (scanEscape (as ++ xs)).2 ≤ as.length := Nat.le_of_succ_le_succ hle
        rw [isLocal_scanEscape as xs hsize trivial]
      · rw [if_neg hescape, if_neg hescape]
    · rw [if_neg hslash, if_neg hslash]

/-- A string, with the newline that breaks it. -/
theorem isLocal_scanString (quote : Char) :
    IsLocal ScannedString.reach (fun _ => True) (scanString quote) :=
  (isStepwise_scanString quote ScannedString.reach_prepend).isLocal (isLocal_stringStep quote)

theorem scanComment_cons (a : Char) (cs : List Char) :
    scanComment (a :: cs) =
      if a = '*' ∧ cs.head? = some '/' then (2, true)
      else ((scanComment cs).1 + 1, (scanComment cs).2) := by
  by_cases h : a = '*' ∧ cs.head? = some '/'
  · obtain ⟨rfl, hcs⟩ := h
    obtain ⟨ds, rfl⟩ := List.head?_eq_some_iff.mp hcs
    rw [if_pos ⟨rfl, rfl⟩, scanComment]
  · rw [if_neg h, scanComment.eq_def]
    split
    next hcs => exact absurd hcs (List.cons_ne_nil a cs)
    next ds hcs =>
      obtain ⟨ha, hds⟩ := List.cons.inj hcs
      exact absurd ⟨ha, by rw [hds]; rfl⟩ h
    next hcs => rw [(List.cons.inj hcs).2]

/-- A step in a comment: the end mark, or any other character. -/
def commentStep : List Char → ScanStep (Nat × Bool)
  | [] => .done (0, false)
  | c :: cs =>
    if c = '*' ∧ cs.head? = some '/' then .done (2, true)
    else .more 1 fun r => (r.1 + 1, r.2)

theorem isStepwise_scanComment : IsStepwise (·.1) commentStep scanComment where
  eq_finish cs := by
    cases cs with
    | nil => rfl
    | cons c cs =>
      rw [scanComment_cons, commentStep]
      split_ifs <;> rfl
  more {cs n put} h := by
    cases cs with
    | nil => cases h
    | cons c cs =>
      rw [commentStep] at h
      split_ifs at h
      cases h
      exact ⟨Nat.one_pos, fun r => Nat.add_comm _ _⟩

theorem isLocal_commentStep : IsLocal (ScanStep.size (·.1)) (fun _ => True) commentStep := by
  refine IsLocal.of_cons (fun xs h _ => ?_) fun a as xs hle _ => ?_
  · cases xs with
    | nil => rfl
    | cons x xs =>
      rw [commentStep] at h
      split_ifs at h <;> exact absurd h (by simp [ScanStep.size])
  · simp only [commentStep] at hle ⊢
    by_cases hend : a = '*' ∧ (as ++ xs).head? = some '/'
    · rw [if_pos hend] at hle ⊢
      cases as with
      | nil => exact absurd hle (by simp [ScanStep.size])
      | cons b as => rw [if_pos ⟨hend.1, hend.2⟩]
    · have hmiddle : ¬ (a = '*' ∧ as.head? = some '/') := by
        rintro ⟨ha, has⟩
        obtain ⟨bs, rfl⟩ := List.head?_eq_some_iff.mp has
        exact hend ⟨ha, rfl⟩
      rw [if_neg hend, if_neg hmiddle]

/-- A comment, with its end mark if there is one. -/
theorem isLocal_scanComment : IsLocal (·.1) (fun _ => True) scanComment :=
  isStepwise_scanComment.isLocal isLocal_commentStep

/-! ## Tokens -/

namespace NumeralParts

theorem startsUnsigned_cons (a : Char) (cs : List Char) :
    startsUnsigned (a :: cs) = (isDigit a || (a == '.' && cs.head?.any isDigit)) := by
  by_cases ha : a = '.'
  · subst ha
    cases cs <;> rfl
  · rw [startsUnsigned]
    · simp [ha]
    · exact fun _ _ h _ => ha h

theorem takeWhile_isEmpty (p : Char → Bool) (cs : List Char) :
    (cs.takeWhile p).isEmpty = !cs.head?.any p := by
  cases cs with
  | nil => rfl
  | cons c cs =>
    rw [List.takeWhile_cons]
    cases hc : p c <;> simp [hc]

/-- A number starts where a numeral with digits is read. -/
theorem startsUnsigned_eq (cs : List Char) :
    startsUnsigned cs = !((cs.takeWhile isDigit).isEmpty &&
      (scanFraction (cs.drop (cs.takeWhile isDigit).length)).isEmpty) := by
  cases cs with
  | nil => rfl
  | cons a cs =>
    rw [startsUnsigned_cons, takeWhile_isEmpty]
    cases ha : isDigit a with
    | true => simp [ha]
    | false =>
      have hnone : (a :: cs).takeWhile isDigit = [] := by simp [ha]
      have hhead := takeWhile_isEmpty isDigit cs
      rw [hnone, List.length_nil, List.drop_zero, scanFraction_cons]
      by_cases hpoint : a = '.'
      · cases hcs : cs.head?.any isDigit <;> simp_all
      · simp [ha, hpoint]

theorem startsNumber_eq (cs : List Char) :
    startsNumber cs = !((scan cs).whole.isEmpty && (scan cs).fraction.isEmpty) := by
  rw [scan]
  cases cs with
  | nil => rfl
  | cons a cs =>
    rw [startsNumber, scanSign]
    by_cases ha : a = '+' ∨ a = '-'
    · rw [if_pos ha, if_pos ha]
      exact startsUnsigned_eq cs
    · rw [if_neg ha, if_neg ha]
      exact startsUnsigned_eq (a :: cs)

end NumeralParts

theorem head?_append_of_head? {as : List Char} {a : Char} (xs : List Char)
    (h : as.head? = some a) : (as ++ xs).head? = some a := by
  rw [List.head?_append, h, Option.some_or]

/-- The next character lies within a prefix that is not empty. -/
theorem head?_of_append {as xs : List Char} (h : 1 ≤ as.length) :
    as.head? = (as ++ xs).head? := by
  cases as with
  | nil => exact absurd h (by simp)
  | cons a as => rfl

/-- What starts a number in a prefix starts one in the text. -/
theorem startsNumber_append {as : List Char} (xs : List Char) (h : startsNumber as = true) :
    startsNumber (as ++ xs) = true := by
  have hunsigned : ∀ {bs : List Char}, startsUnsigned bs = true →
      startsUnsigned (bs ++ xs) = true := by
    intro bs hbs
    cases bs with
    | nil => exact absurd hbs (by simp [startsUnsigned])
    | cons b bs =>
      rw [List.cons_append, NumeralParts.startsUnsigned_cons] at *
      cases bs with
      | nil => simp_all
      | cons d bs => exact hbs
  cases as with
  | nil => exact absurd h (by simp [startsNumber])
  | cons a as =>
    rw [List.cons_append, startsNumber] at *
    by_cases ha : a = '+' ∨ a = '-'
    · rw [if_pos ha] at *
      exact hunsigned h
    · rw [if_neg ha] at *
      exact hunsigned h

/-- A number that lies within a prefix starts in it. -/
theorem startsNumber_of_append {as xs : List Char} (h : startsNumber (as ++ xs) = true)
    (hle : (NumeralParts.scan (as ++ xs)).chars.length ≤ as.length) : startsNumber as = true := by
  rw [NumeralParts.startsNumber_eq, NumeralParts.isLocal_scan as xs hle trivial] at h
  rw [NumeralParts.startsNumber_eq, h]

/-- A numeral is part of the token it starts. -/
theorem length_chars_le_scanNumeric (cs : List Char) :
    (NumeralParts.scan cs).chars.length ≤ (scanNumeric cs).extra + 1 := by
  simp only [scanNumeric]
  split_ifs <;> simp only [Scanned.plain] <;> omega

/-- A number with its unit or percent sign. -/
theorem isLocal_scanNumeric : IsLocal (fun t => t.extra + 1) (fun _ => True) scanNumeric := by
  intro as xs hle _
  have hsize := (length_chars_le_scanNumeric (as ++ xs)).trans hle
  simp only [scanNumeric] at hle ⊢
  have hscan := NumeralParts.isLocal_scan as xs hsize trivial
  rw [hscan] at hle hsize ⊢
  rw [List.drop_append_of_le_length hsize] at hle ⊢
  have hrest := List.length_drop (i := (NumeralParts.scan as).chars.length) (l := as)
  generalize as.drop (NumeralParts.scan as).chars.length = rest at *
  by_cases hunit : startsIdent (rest ++ xs) = true
  · simp only [if_pos hunit, Scanned.plain] at hle ⊢
    have hpos := scanIdent_pos hunit
    have hlength : (scanIdent (rest ++ xs)).2 ≤ rest.length := by omega
    rw [if_pos (startsIdent_of_append hunit hlength), isLocal_scanIdent rest xs hlength trivial]
  · rw [if_neg hunit] at hle ⊢
    rw [if_neg fun h => hunit (startsIdent_append xs h)]
    by_cases hpercent : (rest ++ xs).head? = some '%'
    · rw [if_pos hpercent] at hle ⊢
      simp only [Scanned.plain] at hle
      rw [if_pos ((head?_of_append (by omega)).trans hpercent)]
    · rw [if_neg hpercent, if_neg fun h => hpercent (head?_append_of_head? xs h)]

/-- A name is part of the token it starts. -/
theorem scanIdent_le_scanIdentLike (cs : List Char) :
    (scanIdent cs).2 ≤ (scanIdentLike cs).extra + 1 := by
  simp only [scanIdentLike]
  split_ifs <;> simp only [Scanned.plain] <;> omega

/-- An identifier, with the parenthesis of a function. -/
theorem isLocal_scanIdentLike :
    IsLocal (fun t => t.extra + 1) (fun _ => True) scanIdentLike := by
  intro as xs hle _
  have hsize := (scanIdent_le_scanIdentLike (as ++ xs)).trans hle
  simp only [scanIdentLike] at hle ⊢
  have hident := isLocal_scanIdent as xs hsize trivial
  rw [hident] at hle hsize ⊢
  rw [List.drop_append_of_le_length hsize] at hle ⊢
  by_cases hopen : (as.drop (scanIdent as).2 ++ xs).head? = some '('
  · rw [if_pos hopen] at hle ⊢
    have hrest := List.length_drop (i := (scanIdent as).2) (l := as)
    simp only [Scanned.plain] at hle
    rw [if_pos ((head?_of_append (by omega)).trans hopen)]
  · rw [if_neg hopen, if_neg fun h => hopen (head?_append_of_head? xs h)]

namespace Scanned

/-- The number of characters after the first that tell what the token is: those that belong to it,
and the newline that breaks a string. -/
def reach (t : Scanned) : Nat :=
  if t.problem = some .stringBroken then t.extra + 1 else t.extra

theorem extra_le_reach (t : Scanned) : t.extra ≤ t.reach := by
  rw [reach]
  split
  · exact Nat.le_succ _
  · exact le_rfl

end Scanned

/-- A string with its quotes, or with the newline that breaks it. -/
theorem isLocal_scanQuoted (quote : Char) :
    IsLocal Scanned.reach (fun _ => True) (scanQuoted quote) := by
  have hreach : ∀ cs, (scanQuoted quote cs).reach = (scanString quote cs).reach := by
    intro cs
    simp only [scanQuoted, ScannedString.reach]
    split <;> simp_all [Scanned.reach]
  intro as xs hle _
  rw [hreach] at hle
  rw [scanQuoted, scanQuoted, isLocal_scanString quote as xs hle trivial]

/-- A hash sign with its name. -/
theorem isLocal_scanHash : IsLocal Scanned.extra (fun _ => True) scanHash := by
  refine IsLocal.ite (fun as xs h => ?_) (fun as xs h hle => ?_) (fun as xs hle _ => ?_)
    (IsLocal.const _)
  · rcases Bool.or_eq_true_iff.mp h with h | h
    · cases as with
      | nil => exact absurd h (by simp)
      | cons a as => exact Bool.or_eq_true_iff.mpr (Or.inl h)
    · rw [startsEscape_append _ xs (two_le_of_startsEscape h), h, Bool.or_true]
  · have hsize : (scanIdent (as ++ xs)).2 ≤ as.length := hle
    rcases Bool.or_eq_true_iff.mp h with h | h
    · rw [head?_of_append ((scanIdent_pos_of_isIdentChar h).trans hsize), h, Bool.true_or]
    · rw [startsEscape_of_append h hsize, Bool.or_true]
  · have hsize : (scanIdent (as ++ xs)).2 ≤ as.length := hle
    have hstart : startsIdent (as ++ xs) = startsIdent as :=
      Bool.eq_iff_iff.mpr ⟨fun h => startsIdent_of_append h hsize, startsIdent_append xs⟩
    dsimp only
    rw [isLocal_scanIdent as xs hsize trivial, hstart]

/-- A comment token. -/
theorem isLocal_commentToken (c : Char) :
    IsLocal Scanned.reach (fun _ => True) fun cs =>
      ⟨.comment (String.ofList (c :: cs.take ((scanComment (cs.drop 1)).1 + 1))),
        (scanComment (cs.drop 1)).1 + 1,
        if (scanComment (cs.drop 1)).2 then none else some .commentNotClosed⟩ := by
  intro as xs hle _
  replace hle := (Scanned.extra_le_reach _).trans hle
  dsimp only at hle ⊢
  have hne : 1 ≤ as.length := by omega
  rw [List.drop_append_of_le_length hne] at hle ⊢
  have hrest := List.length_drop (i := 1) (l := as)
  have hbody := isLocal_scanComment (as.drop 1) xs (by dsimp only; omega) trivial
  rw [hbody] at hle ⊢
  rw [List.take_append_of_le_length (by omega)]

/-- A first character is known to belong to the token. -/
theorem IsLocal.tail {f : List Char → Scanned}
    (hf : IsLocal (fun t => t.extra + 1) (fun _ => True) f) (c : Char) :
    IsLocal Scanned.reach (fun _ => True) fun cs => f (c :: cs) := by
  intro as xs hle _
  exact hf (c :: as) xs (Nat.succ_le_succ ((Scanned.extra_le_reach _).trans hle)) trivial

theorem take_append_of_take {as ds : List Char} (xs : List Char) {n : Nat} (h : as.take n = ds)
    (hn : ds.length = n) : (as ++ xs).take n = ds := by
  have hle : n ≤ as.length := by
    rw [← h, List.length_take] at hn
    omega
  rw [List.take_append_of_le_length hle, h]

/-- What starts at a character depends on the text of the token only, and for a broken string on the
newline after it. -/
theorem isLocal_reach_scanToken (c : Char) :
    IsLocal Scanned.reach (fun _ => True) (scanToken c) := by
  have hident : IsLocal Scanned.reach (fun _ => True) fun cs =>
      .plain (.atKeyword (String.ofList (scanIdent cs).1)) (scanIdent cs).2 :=
    isLocal_scanIdent.map (fun r => Scanned.plain (.atKeyword (String.ofList r.1)) r.2)
      (fun _ => Scanned.extra_le_reach (.plain _ _)) fun _ _ => trivial
  have hspace : IsLocal Scanned.reach (fun _ => True) fun cs =>
      .plain (.whitespace (String.ofList (c :: cs.takeWhile isSpace)))
        (cs.takeWhile isSpace).length :=
    (isLocal_takeWhile isSpace).map
      (fun r => Scanned.plain (.whitespace (String.ofList (c :: r))) r.length)
      (fun _ => Scanned.extra_le_reach (.plain _ _)) fun _ _ => trivial
  have hhash : IsLocal Scanned.reach (fun _ => True) scanHash :=
    isLocal_scanHash.map id Scanned.extra_le_reach fun _ _ => trivial
  refine .ite (fun as xs h => ⟨h.1, head?_append_of_head? xs h.2⟩) (fun as xs h hle => ?_)
    (isLocal_commentToken c) ?_
  · replace hle := (Scanned.extra_le_reach _).trans hle
    dsimp only at hle
    exact ⟨h.1, (head?_of_append (by omega)).trans h.2⟩
  refine .iteConst (isLocal_scanQuoted c) ?_
  refine .iteConst hhash ?_
  refine .ite (fun as xs h => startsNumber_append xs h) (fun as xs h hle => ?_)
    (isLocal_scanNumeric.tail c) ?_
  · replace hle := (Scanned.extra_le_reach _).trans hle
    exact startsNumber_of_append h ((length_chars_le_scanNumeric _).trans (Nat.succ_le_succ hle))
  refine .ite (fun as xs h => ⟨h.1, take_append_of_take xs h.2 rfl⟩) (fun as xs h hle => ?_)
    (.const _) ?_
  · have hlength : 2 ≤ as.length := hle
    rw [List.take_append_of_le_length hlength] at h
    exact h
  refine .ite (fun as xs h => ⟨h.1, take_append_of_take xs h.2 rfl⟩) (fun as xs h hle => ?_)
    (.const _) ?_
  · have hlength : 3 ≤ as.length := hle
    rw [List.take_append_of_le_length hlength] at h
    exact h
  refine .ite (fun as xs h => ⟨h.1, startsIdent_append xs h.2⟩)
    (fun as xs h hle => ⟨h.1, startsIdent_of_append h.2 ?_⟩) hident ?_
  · exact (Scanned.extra_le_reach _).trans hle
  refine .ite (fun as xs h => startsIdent_append xs h) (fun as xs h hle => ?_)
    (isLocal_scanIdentLike.tail c) ?_
  · replace hle := (Scanned.extra_le_reach _).trans hle
    exact startsIdent_of_append h ((scanIdent_le_scanIdentLike _).trans (Nat.succ_le_succ hle))
  refine .iteConst (.const _) (.iteConst hspace ?_)
  intro as xs _ _
  rfl

/-- A token without problem depends on its own text only. -/
theorem isLocal_scanToken (c : Char) :
    IsLocal Scanned.extra (fun t => t.problem = none) (scanToken c) := by
  intro as xs hle hok
  refine isLocal_reach_scanToken c as xs ?_ trivial
  rwa [Scanned.reach, hok, if_neg (by simp)]

end Styling
