import Mathlib.Computability.RegularExpressions
import Mathlib.Tactic.FinCases
import Mathlib.Tactic.IntervalCases
import Styling.Proofs.Number.Literal
import Styling.Proofs.Syntax.Tiling

/-!
# Numbers are read as far as they go

Sign, digits, fraction and exponent of a number are read one after another, each of them with a look
at a few characters after it.  What they read together is the longest first part of the text that
matches the pattern of numbers.  It is a literal that an integer or a decimal is made from, so
nothing but the number of its digits can keep a number from being read.

* `Pattern.numeral` and `Pattern.integer` are the patterns, as regular expressions, and
  `Pattern.decimal` is the syntax of the literals of decimals.
* `Pattern.mem_numeral` and `Pattern.mem_integer` relate them to the parts of a numeral.
* `IsLongestMatch` says what it is to read as far as a pattern goes.
* `NumeralParts.isNumeral_scan` and `NumeralParts.isLongestMatch_scan` are about a text that starts
  with a number, `Source.isLongestMatch_number` is about every place of a source.
-/

namespace Styling

/-! ## Patterns -/

namespace Pattern

open RegularExpression

/-- One of several characters. -/
def oneOf : List Char → RegularExpression Char
  | [] => 0
  | c :: cs => char c + oneOf cs

/-- What the pattern matches, or nothing. -/
def optional (P : RegularExpression Char) : RegularExpression Char :=
  1 + P

/-- The pattern `[0-9]`. -/
def digit : RegularExpression Char :=
  oneOf ['0', '1', '2', '3', '4', '5', '6', '7', '8', '9']

/-- The pattern `[0-9]+`. -/
def digits : RegularExpression Char :=
  digit * digit.star

/-- The pattern `[+-]?`. -/
def sign : RegularExpression Char :=
  optional (oneOf ['+', '-'])

/-- The pattern `[eE][+-]?[0-9]+`. -/
def exponent : RegularExpression Char :=
  oneOf ['e', 'E'] * (sign * digits)

/-- The numbers of the style language: `[+-]?([0-9]*\.)?[0-9]+([eE][+-]?[0-9]+)?`. -/
def numeral : RegularExpression Char :=
  sign * (optional (digit.star * char '.') * (digits * optional exponent))

/-- The literals of integers: `[+-]?[0-9]+`. -/
def integer : RegularExpression Char :=
  sign * digits

/-- The literals of decimals: `[+-]?([0-9]*\.[0-9]+|[0-9]+\.?)([eE][+-]?[0-9]+)?`. -/
def decimal : RegularExpression Char :=
  sign * ((digit.star * char '.' * digits + digits * optional (char '.')) * optional exponent)

variable {as : List Char}

theorem mem_char {c : Char} : as ∈ (char c).matches' ↔ as = [c] := by
  rw [matches'_char]
  exact Set.mem_singleton_iff

theorem mem_oneOf {cs : List Char} : as ∈ (oneOf cs).matches' ↔ ∃ c ∈ cs, as = [c] := by
  induction cs with
  | nil => simp [oneOf, Language.notMem_zero]
  | cons c cs ih =>
    rw [oneOf, matches'_add, Language.mem_add, ih, mem_char]
    simp

theorem mem_optional {P : RegularExpression Char} :
    as ∈ (optional P).matches' ↔ as = [] ∨ as ∈ P.matches' := by
  rw [optional, matches'_add, matches'_epsilon, Language.mem_add, Language.mem_one]

theorem mem_mul {P Q : RegularExpression Char} :
    as ∈ (P * Q).matches' ↔ ∃ bs ∈ P.matches', ∃ cs ∈ Q.matches', bs ++ cs = as := by
  rw [matches'_mul, Language.mem_mul]

theorem isDigit_iff_mem {c : Char} :
    isDigit c = true ↔ c ∈ ['0', '1', '2', '3', '4', '5', '6', '7', '8', '9'] := by
  constructor
  · intro h
    obtain ⟨hlow, hhigh⟩ := Bool.and_eq_true_iff.mp h
    have hlow' : 48 ≤ c.toNat := of_decide_eq_true hlow
    have hhigh' : c.toNat ≤ 57 := of_decide_eq_true hhigh
    rw [← Char.ofNat_toNat c]
    generalize c.toNat = n at hlow' hhigh'
    interval_cases n <;> decide
  · intro h
    fin_cases h <;> rfl

theorem mem_star_digit : as ∈ digit.star.matches' ↔ ∀ c ∈ as, isDigit c = true := by
  rw [matches'_star, Language.mem_kstar]
  constructor
  · rintro ⟨parts, rfl, hparts⟩ c hc
    obtain ⟨part, hpart, hc⟩ := List.mem_flatten.mp hc
    obtain ⟨d, hd, rfl⟩ := mem_oneOf.mp (hparts part hpart)
    rw [List.mem_singleton.mp hc]
    exact isDigit_iff_mem.mpr hd
  · intro h
    refine ⟨as.map fun c => [c], (List.flatMap_singleton' as).symm, fun part hpart => ?_⟩
    obtain ⟨c, hc, rfl⟩ := List.mem_map.mp hpart
    exact mem_oneOf.mpr ⟨c, isDigit_iff_mem.mp (h c hc), rfl⟩

theorem mem_digits : as ∈ digits.matches' ↔ as ≠ [] ∧ ∀ c ∈ as, isDigit c = true := by
  rw [digits, mem_mul]
  constructor
  · rintro ⟨first, hfirst, more, hmore, rfl⟩
    obtain ⟨d, hd, rfl⟩ := mem_oneOf.mp hfirst
    exact ⟨List.cons_ne_nil d more,
      List.forall_mem_cons.mpr ⟨isDigit_iff_mem.mpr hd, mem_star_digit.mp hmore⟩⟩
  · rintro ⟨hne, hdigits⟩
    obtain ⟨d, more, rfl⟩ := List.exists_cons_of_ne_nil hne
    obtain ⟨hd, hmore⟩ := List.forall_mem_cons.mp hdigits
    exact ⟨[d], mem_oneOf.mpr ⟨d, isDigit_iff_mem.mp hd, rfl⟩, more, mem_star_digit.mpr hmore, rfl⟩

theorem mem_sign : as ∈ sign.matches' ↔ NumeralParts.IsSign as := by
  rw [sign, mem_optional, mem_oneOf]
  simp [NumeralParts.IsSign]

theorem mem_exponent : as ∈ exponent.matches' ↔ ∃ mark sign ds, as = mark :: (sign ++ ds) ∧
    (mark = 'e' ∨ mark = 'E') ∧ NumeralParts.IsSign sign ∧ ds ≠ [] ∧
      ∀ c ∈ ds, isDigit c = true := by
  rw [exponent, mem_mul]
  constructor
  · rintro ⟨first, hfirst, rest, hrest, rfl⟩
    obtain ⟨mark, hmark, rfl⟩ := mem_oneOf.mp hfirst
    obtain ⟨sign, hsign, ds, hds, rfl⟩ := mem_mul.mp hrest
    exact ⟨mark, sign, ds, rfl, by simpa using hmark, mem_sign.mp hsign, mem_digits.mp hds⟩
  · rintro ⟨mark, sign, ds, rfl, hmark, hsign, hds⟩
    exact ⟨[mark], mem_oneOf.mpr ⟨mark, by simpa using hmark, rfl⟩, sign ++ ds,
      mem_mul.mpr ⟨sign, mem_sign.mpr hsign, ds, mem_digits.mpr hds, rfl⟩, rfl⟩

/-- **The pattern of numbers matches the texts of numerals.** -/
theorem mem_numeral : as ∈ numeral.matches' ↔ ∃ p : NumeralParts, p.IsNumeral ∧ p.chars = as := by
  rw [numeral, mem_mul]
  constructor
  · rintro ⟨sign, hsign, unsigned, hunsigned, rfl⟩
    obtain ⟨front, hfront, rest, hrest, rfl⟩ := mem_mul.mp hunsigned
    obtain ⟨ds, hds, exponent, hexponent, rfl⟩ := mem_mul.mp hrest
    rw [mem_sign] at hsign
    rw [mem_digits] at hds
    rw [mem_optional, mem_exponent] at hexponent
    -- the digits stand before the point if there is none, and after it otherwise
    rcases mem_optional.mp hfront with rfl | hfront
    · exact ⟨⟨sign, ds, [], exponent⟩, ⟨hsign, hds.2, Or.inl rfl, hexponent, Or.inl hds.1⟩,
        by simp [NumeralParts.chars]⟩
    · obtain ⟨whole, hwhole, point, hpoint, rfl⟩ := mem_mul.mp hfront
      rw [mem_char] at hpoint
      subst hpoint
      exact ⟨⟨sign, whole, '.' :: ds, exponent⟩, ⟨hsign, mem_star_digit.mp hwhole,
        Or.inr ⟨ds, rfl, hds⟩, hexponent, Or.inr (List.cons_ne_nil _ _)⟩,
        by simp [NumeralParts.chars]⟩
  · rintro ⟨⟨sign, whole, fraction, exponent⟩, ⟨hsign, hwhole, hfraction, hexponent, hne⟩, rfl⟩
    dsimp only at hsign hwhole hfraction hexponent hne
    have hexponent' : exponent ∈ (optional Pattern.exponent).matches' :=
      mem_optional.mpr (hexponent.imp_right mem_exponent.mpr)
    refine ⟨sign, mem_sign.mpr hsign, whole ++ (fraction ++ exponent), mem_mul.mpr ?_,
      by simp [NumeralParts.chars]⟩
    rcases hfraction with rfl | ⟨ds, rfl, hds⟩
    · have hdigits : whole ∈ digits.matches' :=
        mem_digits.mpr ⟨hne.resolve_right (not_not_intro rfl), hwhole⟩
      exact ⟨[], mem_optional.mpr (Or.inl rfl), whole ++ exponent,
        mem_mul.mpr ⟨whole, hdigits, exponent, hexponent', rfl⟩, rfl⟩
    · have hpoint : whole ++ ['.'] ∈ (digit.star * char '.').matches' :=
        mem_mul.mpr ⟨whole, mem_star_digit.mpr hwhole, ['.'], mem_char.mpr rfl, rfl⟩
      exact ⟨whole ++ ['.'], mem_optional.mpr (Or.inr hpoint), ds ++ exponent,
        mem_mul.mpr ⟨ds, mem_digits.mpr hds, exponent, hexponent', rfl⟩, by simp⟩

/-- The literals of integers are the texts of numerals without fraction and exponent. -/
theorem mem_integer : as ∈ integer.matches' ↔
    ∃ p : NumeralParts, p.IsNumeral ∧ p.isInteger = true ∧ p.chars = as := by
  rw [integer, mem_mul]
  constructor
  · rintro ⟨sign, hsign, ds, hds, rfl⟩
    rw [mem_digits] at hds
    exact ⟨⟨sign, ds, [], []⟩,
      ⟨mem_sign.mp hsign, hds.2, Or.inl rfl, Or.inl rfl, Or.inl hds.1⟩, rfl,
      by simp [NumeralParts.chars]⟩
  · rintro ⟨⟨sign, whole, fraction, exponent⟩, ⟨hsign, hwhole, -, -, hne⟩, hinteger, rfl⟩
    simp only [NumeralParts.isInteger, Bool.and_eq_true, List.isEmpty_iff] at hinteger
    obtain ⟨rfl, rfl⟩ := hinteger
    exact ⟨sign, mem_sign.mpr hsign, whole,
      mem_digits.mpr ⟨hne.resolve_right (not_not_intro rfl), hwhole⟩,
      by simp [NumeralParts.chars]⟩

/-- Every number is a literal of a decimal. -/
theorem mem_decimal_of_mem_numeral (h : as ∈ numeral.matches') : as ∈ decimal.matches' := by
  obtain ⟨sign, hsign, unsigned, hunsigned, rfl⟩ := mem_mul.mp h
  obtain ⟨front, hfront, rest, hrest, rfl⟩ := mem_mul.mp hunsigned
  obtain ⟨ds, hds, exponent, hexponent, rfl⟩ := mem_mul.mp hrest
  refine mem_mul.mpr ⟨sign, hsign, front ++ (ds ++ exponent),
    mem_mul.mpr ⟨front ++ ds, ?_, exponent, hexponent, List.append_assoc ..⟩, rfl⟩
  rw [matches'_add, Language.mem_add]
  rcases mem_optional.mp hfront with rfl | hfront
  · exact Or.inr (mem_mul.mpr ⟨ds, hds, [], mem_optional.mpr (Or.inl rfl), List.append_nil ds⟩)
  · exact Or.inl (mem_mul.mpr ⟨front, hfront, ds, hds, rfl⟩)

end Pattern

/-- The text `as` is the longest first part of the text `cs` that the pattern matches. -/
structure IsLongestMatch (P : RegularExpression Char) (cs as : List Char) : Prop where
  isPrefix : as <+: cs
  mem : as ∈ P.matches'
  length_le : ∀ bs, bs <+: cs → bs ∈ P.matches' → bs.length ≤ as.length

/-! ## Numerals -/

namespace NumeralParts

variable {cs : List Char}

theorem isSign_scanSign (cs : List Char) : IsSign (scanSign cs) := by
  cases cs with
  | nil => exact Or.inl rfl
  | cons c cs =>
    rw [scanSign]
    split
    next hc => exact Or.inr (hc.imp (by rintro rfl; rfl) (by rintro rfl; rfl))
    next => exact Or.inl rfl

/-- **What is read where a number starts is a numeral.** -/
theorem isNumeral_scan (h : startsNumber cs = true) : (scan cs).IsNumeral where
  sign := isSign_scanSign cs
  whole _ := List.mem_takeWhile_imp
  fraction := by
    simp only [scan]
    generalize (cs.drop _).drop _ = rest
    cases rest with
    | nil => exact Or.inl rfl
    | cons c rest =>
      rw [scanFraction_cons]
      split
      next hpoint =>
        rw [hpoint.1]
        exact Or.inr ⟨_, rfl, hpoint.2, fun _ => List.mem_takeWhile_imp⟩
      next => exact Or.inl rfl
  exponent := by
    simp only [scan]
    generalize ((cs.drop _).drop _).drop _ = rest
    cases rest with
    | nil => exact Or.inl rfl
    | cons c rest =>
      simp only [scanExponent]
      split
      next hmark =>
        exact Or.inr ⟨c, _, _, rfl, hmark.1, isSign_scanSign rest, by simpa using hmark.2,
          fun _ => List.mem_takeWhile_imp⟩
      next => exact Or.inl rfl
  ne_nil := by
    rw [startsNumber_eq, Bool.not_eq_true', Bool.and_eq_false_iff] at h
    exact h.imp List.isEmpty_eq_false_iff.mp List.isEmpty_eq_false_iff.mp

/-- **Where a number starts, it is read as far as it goes.** -/
theorem isLongestMatch_scan (h : startsNumber cs = true) :
    IsLongestMatch Pattern.numeral cs (scan cs).chars where
  isPrefix := isPrefix_chars cs
  mem := Pattern.mem_numeral.mpr ⟨scan cs, isNumeral_scan h, rfl⟩
  length_le := by
    rintro bs ⟨rest, rfl⟩ hmem
    obtain ⟨q, hq, rfl⟩ := Pattern.mem_numeral.mp hmem
    -- a shorter numeral would lie within the longer one, and is then read from it
    by_contra hshort
    have hlocal := isLocal_scan q.chars rest (Nat.le_of_not_le hshort) trivial
    rw [hq.scan_chars_self] at hlocal
    exact hshort (by rw [hlocal])

/-- What is read as an integer is the text of one. -/
theorem isInteger_scan_iff (h : startsNumber cs = true) :
    (scan cs).isInteger = true ↔ (scan cs).chars ∈ Pattern.integer.matches' := by
  rw [Pattern.mem_integer]
  constructor
  · exact fun hinteger => ⟨scan cs, isNumeral_scan h, hinteger, rfl⟩
  · rintro ⟨q, hq, hinteger, hchars⟩
    have hsame : q = scan cs := by
      rw [← hq.scan_chars_self, hchars, (isNumeral_scan h).scan_chars_self]
    exact hsame ▸ hinteger

end NumeralParts

namespace Numeral

/-- The value is an integer if neither fraction nor exponent is written. -/
theorem isInteger_ofParts (p : NumeralParts) :
    (ofParts p).quantity.isInteger = p.isInteger := by
  rw [ofParts, Quantity.ofParts]
  cases hinteger : p.isInteger with
  | true => rfl
  | false => rfl

/-- What is not accepted are integers of too many digits. -/
theorem isOversized_ofParts_iff {p : NumeralParts} (h : p.IsNumeral) :
    (ofParts p).isOversized = true ↔ p.isInteger = true ∧ digitLimit < p.whole.length := by
  rw [isOversized, Bool.and_eq_true, isInteger_ofParts, decide_eq_true_eq]
  refine and_congr_right fun hinteger => ?_
  rw [ofParts, String.toList_ofList, h.filter_chars hinteger]

end Numeral

/-! ## Sources -/

/-- An oversized token is a number. -/
theorem startsNumber_of_isOversized {c : Char} {cs : List Char}
    (h : (scanToken c cs).kind.isOversized = true) : startsNumber (c :: cs) = true ∧
      (Numeral.ofParts (NumeralParts.scan (c :: cs))).isOversized = true := by
  have hscan := scans_scanToken c cs
  generalize scanToken c cs = s at h hscan
  cases hscan with
  | numeric starts =>
    refine ⟨starts, ?_⟩
    simp only [scanNumeric] at h
    split_ifs at h <;> exact h
  | quoted quote =>
    exact absurd h (Bool.eq_false_iff.mp (test_scanQuoted (fun _ => rfl) (fun _ => rfl) c cs))
  | hash sign =>
    exact absurd h (Bool.eq_false_iff.mp (test_scanHash (fun _ _ => rfl) (fun _ => rfl) cs))
  | identLike starts unmarked =>
    exact absurd h
      (Bool.eq_false_iff.mp (test_scanIdentLike (fun _ => rfl) (fun _ => rfl) (c :: cs)))
  | _ =>
    exact absurd h
      (by simp [Scanned.single, Scanned.mark, Scanned.plain, TokenKind.isOversized])

namespace Source

/-- A source is not read only if a number with too many digits starts somewhere in it. -/
theorem exists_isOversized_of_lex_eq_error {s : Source} {f : Fault} (h : s.lex = .error f) :
    f = .digitLimit ∧ ∃ i, startsNumber (s.chars.drop i) = true ∧
      (Numeral.ofParts (NumeralParts.scan (s.chars.drop i))).isOversized = true := by
  rw [lex, lexBy] at h
  split at h
  next hany =>
    obtain ⟨l, hl, hover⟩ := List.any_eq_true.mp hany
    obtain ⟨before, c, rest, hchars, rfl⟩ := exists_scan_of_mem_lexemesFrom hl
    refine ⟨(Except.error.inj h).symm, before.length, ?_⟩
    rw [hchars, List.drop_left]
    exact startsNumber_of_isOversized hover
  next => exact absurd h (by simp)

/-- **Numbers are read as far as they go.**  What is read where a number starts is the longest match
of the pattern of numbers; it counts as an integer if it has neither fraction nor exponent, which
makes it a literal of an integer, and a literal of a decimal it is in any case.  Only an integer of
more than 4300 digits is not accepted, and nothing else keeps a source from being read. -/
theorem isLongestMatch_number (s : Source) (i : ℕ) (h : startsNumber (s.chars.drop i) = true) :
    let p := NumeralParts.scan (s.chars.drop i)
    let n := Numeral.ofParts p
    IsLongestMatch Pattern.numeral (s.chars.drop i) n.raw.toList ∧
      (n.quantity.isInteger = true ↔ p.fraction = [] ∧ p.exponent = []) ∧
      (n.quantity.isInteger = true ↔ n.raw.toList ∈ Pattern.integer.matches') ∧
      n.raw.toList ∈ Pattern.decimal.matches' ∧
      (n.isOversized = true ↔ n.quantity.isInteger = true ∧ 4300 < p.whole.length) ∧
      ∀ f, s.lex = .error f → f = .digitLimit ∧ ∃ j, startsNumber (s.chars.drop j) = true ∧
        (Numeral.ofParts (NumeralParts.scan (s.chars.drop j))).isOversized = true := by
  intro p n
  have hraw : n.raw.toList = p.chars := String.toList_ofList
  have hinteger : n.quantity.isInteger = p.isInteger := Numeral.isInteger_ofParts p
  have hlongest := NumeralParts.isLongestMatch_scan h
  rw [hraw, hinteger]
  refine ⟨hlongest, ?_, NumeralParts.isInteger_scan_iff h,
    Pattern.mem_decimal_of_mem_numeral hlongest.mem,
    Numeral.isOversized_ofParts_iff (NumeralParts.isNumeral_scan h),
    fun _ => exists_isOversized_of_lex_eq_error⟩
  rw [NumeralParts.isInteger, Bool.and_eq_true, List.isEmpty_iff, List.isEmpty_iff]

/-- A second exponent is not read, nor the mark of one that has no digits. -/
theorem isLongestMatch_number_exponent :
    startsNumber ((ofString "x+.5e-3e+").chars.drop 1) = true ∧
      IsLongestMatch Pattern.numeral "+.5e-3e+".toList "+.5e-3".toList ∧
      "+.5e-3".toList ∉ Pattern.integer.matches' ∧
      "+.5e-3".toList ∈ Pattern.decimal.matches' := by
  have hstarts : startsNumber ((ofString "x+.5e-3e+").chars.drop 1) = true := by decide +kernel
  have hraw : (Numeral.ofParts (NumeralParts.scan
      ((ofString "x+.5e-3e+").chars.drop 1))).raw.toList = "+.5e-3".toList := by decide +kernel
  have hrest : (ofString "x+.5e-3e+").chars.drop 1 = "+.5e-3e+".toList := by decide +kernel
  obtain ⟨hlongest, -, hinteger, hdecimal, -, -⟩ := isLongestMatch_number _ 1 hstarts
  rw [hraw] at hlongest hinteger hdecimal
  rw [hrest] at hlongest
  exact ⟨hstarts, hlongest, fun h => absurd (hinteger.mpr h) (by decide +kernel), hdecimal⟩

end Source

end Styling
