import Styling.Proofs.Syntax.Tiling

/-!
# Reading stops at a foreign character

Numerals, runs of one kind of character and the digits of an escape have only certain characters in
them.  Before any other character they end as they would at the end of the text, whatever comes
after it.

* `IsLocal.eq_of_notMem` says this of any function that depends on what it reads alone.
* `takeWhile_stop`, `scanEscape_stop` and `NumeralParts.scan_stop` are about the parts of the lexer.
-/

namespace Styling

/-- A character that is never read stops reading as the end of the text does. -/
theorem IsLocal.eq_of_notMem {ρ : Type} (chars : ρ → List Char) {f : List Char → ρ}
    (hlocal : IsLocal (fun r => (chars r).length) (fun _ => True) f)
    (hpart : ∀ cs, chars (f cs) <+: cs) {c : Char} (hc : ∀ cs, c ∉ chars (f cs))
    (as xs : List Char) : f (as ++ c :: xs) = f as := by
  refine hlocal as (c :: xs) ?_ trivial
  -- a longer part would have the character in it
  by_contra hlong
  have hbefore : as ++ [c] <+: chars (f (as ++ c :: xs)) := by
    have hfirst : as ++ [c] <+: as ++ c :: xs := ⟨xs, by simp⟩
    refine List.prefix_of_prefix_length_le hfirst (hpart _) ?_
    rw [List.length_append, List.length_singleton]
    exact Nat.lt_of_not_le hlong
  exact hc _ (hbefore.subset (by simp))

section Stop

variable {p : Char → Bool} {c : Char}

theorem notMem_takeWhile (hp : p c = false) (cs : List Char) : c ∉ cs.takeWhile p :=
  fun h => absurd (List.mem_takeWhile_imp h) (by rw [hp]; exact Bool.false_ne_true)

/-- A run of characters ends before any other character. -/
theorem takeWhile_stop (hp : p c = false) (as xs : List Char) :
    (as ++ c :: xs).takeWhile p = as.takeWhile p :=
  IsLocal.eq_of_notMem id (isLocal_takeWhile p) (fun _ => List.takeWhile_prefix p)
    (notMem_takeWhile hp) as xs

/-- The digits of an escape end before any other character. -/
theorem escapeDigits_stop (hc : isHexDigit c = false) (as xs : List Char) :
    ((as ++ c :: xs).take 6).takeWhile isHexDigit = (as.take 6).takeWhile isHexDigit :=
  IsLocal.eq_of_notMem id isLocal_escapeDigits
    (fun cs => (List.takeWhile_prefix isHexDigit).trans (List.take_prefix 6 cs))
    (fun _ => notMem_takeWhile hc _) as xs

/-- An escape ends before any character that is neither a digit nor a space. -/
theorem scanEscape_stop {as : List Char} (h : as ≠ []) (hc : isHexDigit c = false)
    (hspace : isSpace c = false) (xs : List Char) : scanEscape (as ++ c :: xs) = scanEscape as := by
  cases as with
  | nil => exact absurd rfl h
  | cons a as =>
    have hdigits := escapeDigits_stop hc (a :: as) xs
    have hlength : (((a :: as).take 6).takeWhile isHexDigit).length ≤ (a :: as).length :=
      ((List.takeWhile_sublist _).trans (List.take_sublist 6 _)).length_le
    simp only [List.cons_append] at hdigits
    simp only [List.cons_append, scanEscape, hdigits]
    simp only [← List.cons_append, List.drop_append_of_le_length hlength]
    cases (a :: as).drop (((a :: as).take 6).takeWhile isHexDigit).length with
    | nil => simp only [List.nil_append, hspace, Bool.false_eq_true, if_false]
    | cons d ds => rfl

/-- First characters other than the given one stand before it. -/
theorem le_length_of_take {as ds xs : List Char} {n : Nat} (hc : c ∉ ds)
    (h : (as ++ c :: xs).take n = ds) : n ≤ as.length := by
  by_contra hlt
  obtain ⟨m, hm⟩ := Nat.exists_eq_add_of_lt (Nat.lt_of_not_le hlt)
  refine hc (h ▸ ?_)
  rw [hm, Nat.add_assoc, List.take_length_add_append, List.take_succ_cons]
  exact List.mem_append_right as List.mem_cons_self

end Stop

/-! ## Numbers -/

namespace NumeralParts

/-- No numeral has the character in it. -/
structure IsForeign (c : Char) : Prop where
  digit : isDigit c = false
  sign : ¬ (c = '+' ∨ c = '-')
  point : c ≠ '.'
  mark : ¬ (c = 'e' ∨ c = 'E')

variable {c : Char}

theorem IsForeign.notMem_scanSign (h : IsForeign c) (cs : List Char) : c ∉ scanSign cs := by
  cases cs with
  | nil => exact List.not_mem_nil
  | cons a cs =>
    rw [scanSign]
    split
    next ha =>
      rw [List.mem_singleton]
      rintro rfl
      exact h.sign ha
    next => exact List.not_mem_nil

theorem IsForeign.notMem_scanFraction (h : IsForeign c) (cs : List Char) : c ∉ scanFraction cs := by
  cases cs with
  | nil => exact List.not_mem_nil
  | cons a cs =>
    rw [scanFraction_cons]
    split
    next ha =>
      rw [List.mem_cons, not_or]
      exact ⟨fun hc => h.point (hc.trans ha.1), notMem_takeWhile h.digit cs⟩
    next => exact List.not_mem_nil

theorem IsForeign.notMem_scanExponent (h : IsForeign c) (cs : List Char) : c ∉ scanExponent cs := by
  cases cs with
  | nil => exact List.not_mem_nil
  | cons a cs =>
    simp only [scanExponent]
    split
    next ha =>
      rw [List.mem_cons, List.mem_append, not_or, not_or]
      exact ⟨fun hc => h.mark (hc ▸ ha.1), h.notMem_scanSign cs, notMem_takeWhile h.digit _⟩
    next => exact List.not_mem_nil

theorem IsForeign.notMem_chars (h : IsForeign c) (cs : List Char) : c ∉ (scan cs).chars := by
  simp only [scan, chars, List.mem_append, not_or]
  exact ⟨⟨⟨h.notMem_scanSign _, notMem_takeWhile h.digit _⟩, h.notMem_scanFraction _⟩,
    h.notMem_scanExponent _⟩

/-- A numeral ends before a character that it cannot have in it. -/
theorem scan_stop (h : IsForeign c) (as xs : List Char) : scan (as ++ c :: xs) = scan as :=
  IsLocal.eq_of_notMem chars isLocal_scan isPrefix_chars h.notMem_chars as xs

/-- Such a character makes no number of what stands before it. -/
theorem startsNumber_stop (h : IsForeign c) (as xs : List Char) :
    startsNumber (as ++ c :: xs) = startsNumber as := by
  rw [startsNumber_eq, startsNumber_eq, scan_stop h]

end NumeralParts

end Styling
