import Mathlib
import Styling.Number.Numeral
import Styling.Proofs.Number.Nearest

/-!
# Numbers that are written and read

A number is written with the fewest digits that read back as the number itself, and an integer with
all of its digits.  Either text is a numeral as a whole, whatever follows it, and its value is what
was written.

* `NumeralParts.IsNumeral` is the shape of any numeral, and `NumeralParts.IsNumeral.scan_chars` says
  that a text that starts with it is cut after it; `NumeralParts.IsPlain` is the shape of what is
  written.
* `Decimal.magnitudeBits_shortest` says that the search for the shortest decimal finds one that
  reads back.
* `Quantity.IsText` relates a quantity to its texts; `Quantity.isText_literal` and
  `Quantity.isText_toString` are about the two ways to write.
* `Quantity.isText_of_shown` is about numbers in a style.
-/

namespace Styling

/-! ## Digits -/

theorem isDigit_iff {c : Char} : isDigit c = true ↔ c.isDigit = true := by
  rw [isDigit, Char.isDigit, Bool.and_eq_true, Bool.and_eq_true, decide_eq_true_eq,
    decide_eq_true_eq, decide_eq_true_eq, decide_eq_true_eq]
  exact Iff.rfl

theorem isDigit_of_mem_toDigits {c : Char} {n : Nat} (h : c ∈ Nat.toDigits 10 n) :
    isDigit c = true :=
  isDigit_iff.mpr (Nat.isDigit_of_mem_toDigits (by decide) (by decide) h)

theorem digitsValue_eq {ds : List Char} (h : ∀ c ∈ ds, isDigit c = true) (n : Nat) :
    ds.foldl (fun n d => n * 10 + digitValue d) n = Nat.ofDigitChars 10 ds n := by
  induction ds generalizing n with
  | nil => rfl
  | cons d ds ih =>
    rw [List.foldl_cons, ih fun c hc => h c (List.mem_cons_of_mem _ hc), Nat.ofDigitChars_cons,
      digitValue, if_pos (h d List.mem_cons_self), Nat.mul_comm]

/-- The digits of a number have the number as value. -/
theorem digitsValue_toDigits (n : Nat) : digitsValue 10 (Nat.toDigits 10 n) = n := by
  rw [digitsValue, digitsValue_eq fun _ => isDigit_of_mem_toDigits, Nat.ofDigitChars_ten_toDigits]

/-- Zeros in front change nothing. -/
theorem digitsValue_replicate_append (k : Nat) (ds : List Char) :
    digitsValue 10 (List.replicate k '0' ++ ds) = digitsValue 10 ds := by
  induction k with
  | zero => rfl
  | succ k ih =>
    rw [List.replicate_succ, List.cons_append]
    exact ih

/-- Every zero at the end is a factor of ten. -/
theorem digitsValue_append_replicate (k : Nat) (ds : List Char) :
    digitsValue 10 (ds ++ List.replicate k '0') = digitsValue 10 ds * 10 ^ k := by
  induction k with
  | zero => rw [List.replicate_zero, List.append_nil, pow_zero, Nat.mul_one]
  | succ k ih =>
    rw [List.replicate_succ', ← List.append_assoc, digitsValue, List.foldl_append]
    change digitsValue 10 (ds ++ List.replicate k '0') * 10 + 0 = _
    rw [ih, Nat.add_zero, Nat.mul_assoc, ← pow_succ]

theorem forall_isDigit_replicate_append {k : Nat} {ds : List Char}
    (h : ∀ c ∈ ds, isDigit c = true) : ∀ c ∈ List.replicate k '0' ++ ds, isDigit c = true := by
  intro c hc
  rcases List.mem_append.mp hc with hc | hc
  · rw [List.eq_of_mem_replicate hc]
    rfl
  · exact h c hc

/-! ## The shape of what is written -/

/-- No numeral goes on into the text: neither with a digit or a point nor with an exponent. -/
structure EndsNumeral (cs : List Char) : Prop where
  digit : cs.head?.any isDigit = false
  point : cs.head? ≠ some '.'
  exponent : NumeralParts.scanExponent cs = []

namespace NumeralParts

/-- A sign or none. -/
def IsSign (cs : List Char) : Prop :=
  cs = [] ∨ cs = ['+'] ∨ cs = ['-']

/-- The parts of any numeral: a sign or none, digits before the point or after it, and an exponent
or none. -/
structure IsNumeral (p : NumeralParts) : Prop where
  sign : IsSign p.sign
  whole : ∀ c ∈ p.whole, isDigit c = true
  fraction : p.fraction = [] ∨
    ∃ ds, p.fraction = '.' :: ds ∧ ds ≠ [] ∧ ∀ c ∈ ds, isDigit c = true
  exponent : p.exponent = [] ∨ ∃ mark sign ds, p.exponent = mark :: (sign ++ ds) ∧
    (mark = 'e' ∨ mark = 'E') ∧ IsSign sign ∧ ds ≠ [] ∧ ∀ c ∈ ds, isDigit c = true
  ne_nil : p.whole ≠ [] ∨ p.fraction ≠ []

/-- Parts as a number is written with: digits, after a minus sign or none, a fraction or none and an
exponent or none. -/
structure IsPlain (p : NumeralParts) : Prop where
  sign : p.sign = [] ∨ p.sign = ['-']
  whole_ne_nil : p.whole ≠ []
  whole : ∀ c ∈ p.whole, isDigit c = true
  fraction : p.fraction = [] ∨
    ∃ ds, p.fraction = '.' :: ds ∧ ds ≠ [] ∧ ∀ c ∈ ds, isDigit c = true
  exponent : p.exponent = [] ∨ ∃ sign ds, p.exponent = 'e' :: sign :: ds ∧
    (sign = '+' ∨ sign = '-') ∧ ds ≠ [] ∧ ∀ c ∈ ds, isDigit c = true

/-- A run of digits ends where no digit follows. -/
theorem takeWhile_isDigit_append {ds rest : List Char} (h : ∀ c ∈ ds, isDigit c = true)
    (hrest : rest.head?.any isDigit = false) : (ds ++ rest).takeWhile isDigit = ds := by
  rw [List.takeWhile_append_of_pos h]
  cases rest with
  | nil => simp
  | cons c cs => rw [List.takeWhile_cons_of_neg (by simpa using hrest), List.append_nil]

variable {p : NumeralParts} {rest : List Char}

theorem scanSign_of_isDigit {c : Char} {cs : List Char} (h : isDigit c = true) :
    scanSign (c :: cs) = [] := by
  rw [scanSign, if_neg]
  rintro (rfl | rfl) <;> exact absurd h (by decide)

/-- A sign ends before a digit. -/
theorem IsSign.scanSign_append {cs ds : List Char} (h : IsSign cs) (hne : ds ≠ [])
    (hds : ∀ c ∈ ds, isDigit c = true) (rest : List Char) :
    scanSign (cs ++ (ds ++ rest)) = cs := by
  obtain ⟨d, ds, rfl⟩ := List.exists_cons_of_ne_nil hne
  rcases h with rfl | rfl | rfl
  · exact scanSign_of_isDigit (hds d List.mem_cons_self)
  · rfl
  · rfl

theorem IsNumeral.scanExponent (h : p.IsNumeral) (hrest : EndsNumeral rest) :
    scanExponent (p.exponent ++ rest) = p.exponent := by
  rcases h.exponent with he | ⟨mark, sign, ds, he, hmark, hsign, hne, hds⟩
  · rw [he]
    exact hrest.exponent
  · have hscan := hsign.scanSign_append hne hds rest
    have hdigits : (ds ++ rest).takeWhile isDigit = ds := takeWhile_isDigit_append hds hrest.digit
    simp only [he, List.cons_append, List.append_assoc, NumeralParts.scanExponent, hscan]
    rw [List.drop_left, hdigits, if_pos ⟨hmark, by simpa using hne⟩]

/-- Neither an exponent nor what follows a numeral starts with a digit or a point. -/
theorem IsNumeral.head_exponent (h : p.IsNumeral) (hrest : EndsNumeral rest) :
    (p.exponent ++ rest).head?.any isDigit = false ∧ (p.exponent ++ rest).head? ≠ some '.' := by
  rcases h.exponent with he | ⟨mark, sign, ds, he, hmark, -⟩
  · rw [he]
    exact ⟨hrest.digit, hrest.point⟩
  · rw [he]
    rcases hmark with rfl | rfl
    · exact ⟨rfl, by simp⟩
    · exact ⟨rfl, by simp⟩

theorem IsNumeral.scanFraction (h : p.IsNumeral) (hrest : EndsNumeral rest) :
    scanFraction (p.fraction ++ (p.exponent ++ rest)) = p.fraction := by
  obtain ⟨hdigit, hpoint⟩ := h.head_exponent hrest
  rcases h.fraction with hf | ⟨ds, hf, hne, hds⟩
  · rw [hf, List.nil_append]
    generalize p.exponent ++ rest = cs at hpoint
    unfold NumeralParts.scanFraction
    split
    next => exact absurd rfl hpoint
    next => rfl
  · rw [hf, List.cons_append, NumeralParts.scanFraction, takeWhile_isDigit_append hds hdigit,
      if_neg (by simpa using hne)]

/-- After the digits before the point no further digit follows. -/
theorem IsNumeral.head_fraction (h : p.IsNumeral) (hrest : EndsNumeral rest) :
    (p.fraction ++ (p.exponent ++ rest)).head?.any isDigit = false := by
  rcases h.fraction with hf | ⟨ds, hf, -⟩
  · rw [hf]
    exact (h.head_exponent hrest).1
  · rw [hf]
    rfl

/-- A sign ends before a digit or a point. -/
theorem IsNumeral.scanSign (h : p.IsNumeral) (rest : List Char) :
    scanSign (p.sign ++ (p.whole ++ (p.fraction ++ rest))) = p.sign := by
  by_cases hwhole : p.whole = []
  · obtain ⟨ds, hf, -⟩ := h.fraction.resolve_left (h.ne_nil.resolve_left (not_not_intro hwhole))
    rw [hwhole, hf]
    rcases h.sign with hs | hs | hs <;> rw [hs] <;> rfl
  · exact h.sign.scanSign_append hwhole h.whole _

/-- **A numeral is cut off as a whole.** -/
theorem IsNumeral.scan_chars (h : p.IsNumeral) (hrest : EndsNumeral rest) :
    scan (p.chars ++ rest) = p := by
  have hchars : p.chars ++ rest =
      p.sign ++ (p.whole ++ (p.fraction ++ (p.exponent ++ rest))) := by
    simp only [chars, List.append_assoc]
  simp only [scan, hchars, h.scanSign]
  rw [List.drop_left, takeWhile_isDigit_append h.whole (h.head_fraction hrest),
    List.drop_left, h.scanFraction hrest, List.drop_left, h.scanExponent hrest]

/-- A numeral is read from its own text. -/
theorem IsNumeral.scan_chars_self (h : p.IsNumeral) : scan p.chars = p := by
  have hends : EndsNumeral [] := ⟨rfl, by simp, rfl⟩
  have hscan := h.scan_chars hends
  rwa [List.append_nil] at hscan

/-- The digits of an integer are all of its text but the sign. -/
theorem IsNumeral.filter_chars (h : p.IsNumeral) (hinteger : p.isInteger = true) :
    p.chars.filter isDigit = p.whole := by
  simp only [isInteger, Bool.and_eq_true, List.isEmpty_iff] at hinteger
  have hsign : p.sign.filter isDigit = [] := by
    rcases h.sign with hs | hs | hs <;> rw [hs] <;> rfl
  rw [chars, hinteger.1, hinteger.2, List.append_nil, List.append_nil, List.filter_append, hsign,
    List.nil_append, List.filter_eq_self.mpr h.whole]

theorem IsPlain.isNumeral (h : p.IsPlain) : p.IsNumeral where
  sign := h.sign.imp_right Or.inr
  whole := h.whole
  fraction := h.fraction
  exponent := by
    refine h.exponent.imp_right ?_
    rintro ⟨sign, ds, he, hsign, hds⟩
    exact ⟨'e', [sign], ds, he, Or.inl rfl, Or.inr (hsign.imp (by simp) (by simp)), hds⟩
  ne_nil := Or.inl h.whole_ne_nil

/-- **What is written is cut off as a whole.** -/
theorem IsPlain.scan_chars (h : p.IsPlain) (hrest : EndsNumeral rest) :
    scan (p.chars ++ rest) = p :=
  h.isNumeral.scan_chars hrest

end NumeralParts

/-! ## Shortest decimals -/

namespace Decimal

/-- Zeros that are dropped from the coefficient do not count. -/
theorem magnitudeBits_trimZeros (d : Decimal) : d.trimZeros.magnitudeBits = d.magnitudeBits := by
  fun_induction trimZeros d with
  | case1 d h ih =>
    have hpad := magnitudeBits_pad (d.coefficient / 10) 1 (d.exponent + 1)
    rw [ih, ← hpad, pow_one, Nat.div_mul_cancel (Nat.dvd_of_mod_eq_zero h.2)]
    congr 2
    omega
  | case2 => rfl

/-- A decimal found on a grid reads back. -/
theorem magnitudeBits_of_onGrid {num den bits : Nat} {place : Int} {d : Decimal}
    (h : onGrid num den bits place = some d) : d.magnitudeBits = bits := by
  simp only [onGrid] at h
  split at h
  next hlower => exact Option.some.inj h ▸ hlower.1
  next =>
    split at h
    next hupper => exact Option.some.inj h ▸ hupper
    next => exact absurd h (by simp)

/-- The exact expansion reads back. -/
theorem magnitudeBits_expansion (m : Nat) (e : Int) :
    (expansion m e).magnitudeBits =
      Binary64.nearestBits (m * 2 ^ e.toNat) (2 ^ (-e).toNat) := by
  rw [magnitudeBits_eq]
  refine Binary64.nearestBits_congr (Nat.pow_pos (by decide)) (Nat.two_pow_pos _) ?_
  have hten : (-(expansion m e).exponent).toNat = (-e).toNat := by
    simp only [expansion]
    omega
  rw [hten, show (expansion m e).exponent.toNat = 0 by simp only [expansion]; omega, pow_zero,
    Nat.mul_one, expansion, Nat.pow_eq, Nat.pow_eq, show 10 = 5 * 2 from rfl, mul_pow]
  ring

/-- **The shortest decimal reads back as the number it was found for.** -/
theorem magnitudeBits_shortest (m : Nat) (e : Int) :
    (shortest m e).magnitudeBits =
      Binary64.nearestBits (m * 2 ^ e.toNat) (2 ^ (-e).toNat) := by
  unfold shortest
  dsimp only
  rw [magnitudeBits_trimZeros]
  generalize hfound : List.findSome? _ (List.range 17) = found
  cases found with
  | none => exact magnitudeBits_expansion m e
  | some d =>
    obtain ⟨n, -, hn⟩ := List.exists_of_findSome?_eq_some hfound
    exact magnitudeBits_of_onGrid hn

end Decimal

/-! ## Layouts -/

namespace Layout

/-- The text is a numeral without sign that is no integer and has the value of the decimal. -/
def Spells (cs : List Char) (d : Decimal) : Prop :=
  ∃ p : NumeralParts, p.IsPlain ∧ p.sign = [] ∧ p.chars = cs ∧ p.isInteger = false ∧
    p.decimal.magnitudeBits = d.magnitudeBits

/-- Digits on both sides of a point. -/
theorem spells_point (whole places : List Char) (hwhole : ∀ c ∈ whole, isDigit c = true)
    (hplaces : ∀ c ∈ places, isDigit c = true) (hne : whole ≠ [] ∧ places ≠ []) {d : Decimal}
    (hvalue : (Decimal.mk (digitsValue 10 (whole ++ places)) (0 - places.length)).magnitudeBits =
      d.magnitudeBits) :
    Spells (whole ++ '.' :: places) d :=
  ⟨⟨[], whole, '.' :: places, []⟩,
    ⟨Or.inl rfl, hne.1, hwhole, Or.inr ⟨places, rfl, hne.2, hplaces⟩, Or.inl rfl⟩,
    rfl, by simp [NumeralParts.chars], rfl, hvalue⟩

/-- The exponent that is written has the value of the exponent. -/
theorem exponentValue_paddedDigits (count : Nat) (e : Int) (whole fraction : List Char) :
    NumeralParts.exponentValue ⟨[], whole, fraction,
      'e' :: (if e < 0 then '-' else '+') :: paddedDigits count e.natAbs⟩ = e := by
  have hvalue : digitsValue 10 (paddedDigits count e.natAbs) = e.natAbs :=
    (digitsValue_replicate_append _ _).trans (digitsValue_toDigits _)
  simp only [NumeralParts.exponentValue]
  split
  next hneg =>
    rw [show NumeralParts.scanSign ('-' :: paddedDigits count e.natAbs) = ['-'] from rfl,
      if_pos rfl, List.length_singleton, List.drop_succ_cons, List.drop_zero, hvalue]
    omega
  next hpos =>
    rw [show NumeralParts.scanSign ('+' :: paddedDigits count e.natAbs) = ['+'] from rfl,
      if_neg (by decide), List.length_singleton, List.drop_succ_cons, List.drop_zero, hvalue]
    omega

/-- A point after the first digit, unless it is the only one, and an exponent. -/
theorem spells_exponent {d : Decimal} (count : Nat) {ds : List Char}
    (hdigits : ∀ c ∈ ds, isDigit c = true) (hpos : 0 < ds.length)
    (hvalue : digitsValue 10 ds = d.coefficient) :
    Spells (ds.take 1 ++ (if ds.length = 1 then [] else '.' :: ds.drop 1) ++
      'e' :: (if d.exponent + ds.length - 1 < 0 then '-' else '+') ::
        paddedDigits count (d.exponent + ds.length - 1).natAbs) d := by
  let fraction := if ds.length = 1 then [] else '.' :: ds.drop 1
  let e := d.exponent + ds.length - 1
  let exponent := 'e' :: (if e < 0 then '-' else '+') :: paddedDigits count e.natAbs
  -- the digits after the point are those after the first one, also if there are none
  have hplaces : fraction.drop 1 = ds.drop 1 := by
    simp only [fraction]
    split
    next hone => rw [List.drop_nil, List.drop_eq_nil_of_le hone.le]
    next => rfl
  refine ⟨⟨[], ds.take 1, fraction, exponent⟩, ⟨Or.inl rfl, ?_, ?_, ?_, ?_⟩, rfl, ?_, ?_, ?_⟩
  · exact List.ne_nil_of_length_pos (by rw [List.length_take]; omega)
  · exact fun c hc => hdigits c (List.mem_of_mem_take hc)
  · simp only [fraction]
    split
    next => exact Or.inl rfl
    next hmore =>
      exact Or.inr ⟨_, rfl, List.ne_nil_of_length_pos (by rw [List.length_drop]; omega),
        fun c hc => hdigits c (List.mem_of_mem_drop hc)⟩
  · refine Or.inr ⟨_, _, rfl, ?_, List.append_ne_nil_of_right_ne_nil _ Nat.toDigits_ne_nil,
      forall_isDigit_replicate_append fun _ => isDigit_of_mem_toDigits⟩
    split
    · exact Or.inr rfl
    · exact Or.inl rfl
  · simp only [NumeralParts.chars, List.nil_append, fraction, exponent, e]
  · simp [NumeralParts.isInteger, exponent]
  · refine congrArg Decimal.magnitudeBits ?_
    simp only [NumeralParts.decimal, hplaces, List.take_append_drop, hvalue]
    rw [exponentValue_paddedDigits]
    refine (Decimal.mk.injEq ..).mpr ⟨rfl, ?_⟩
    rw [List.length_drop]
    omega

/-- **A decimal is laid out as a numeral with the value of the decimal.** -/
theorem spells_render (l : Layout) (d : Decimal) : Spells (l.render d) d := by
  have hall : ∀ c ∈ Nat.toDigits 10 d.coefficient, isDigit c = true :=
    fun _ => isDigit_of_mem_toDigits
  have hvalue := digitsValue_toDigits d.coefficient
  have hpos : 0 < (Nat.toDigits 10 d.coefficient).length := Nat.length_toDigits_pos
  simp only [render]
  generalize Nat.toDigits 10 d.coefficient = ds at hall hvalue hpos
  split
  next =>
    split
    next hpoint =>
      -- zeros between the point and the digits
      rw [List.append_assoc]
      refine spells_point ['0'] _ (by simp [isDigit]) (forall_isDigit_replicate_append hall)
        ⟨by simp, List.append_ne_nil_of_right_ne_nil _ (List.ne_nil_of_length_pos hpos)⟩
        (congrArg Decimal.magnitudeBits ?_)
      rw [show ['0'] = List.replicate 1 '0' from rfl, digitsValue_replicate_append,
        digitsValue_replicate_append, hvalue]
      refine (Decimal.mk.injEq ..).mpr ⟨rfl, ?_⟩
      rw [List.length_append, List.length_replicate]
      omega
    next hpoint =>
      split
      next hlong =>
        -- zeros between the digits and the point, and one after it
        let k := (d.exponent + ds.length).toNat - ds.length
        refine spells_point _ ['0'] ?_ (by simp [isDigit])
          ⟨List.append_ne_nil_of_left_ne_nil (List.ne_nil_of_length_pos hpos) _, by simp⟩ ?_
        · intro c hc
          rcases List.mem_append.mp hc with hc | hc
          · exact hall c hc
          · exact List.eq_of_mem_replicate hc ▸ rfl
        · rw [List.append_assoc,
            show List.replicate k '0' ++ ['0'] = List.replicate (k + 1) '0' from
              List.replicate_succ'.symm, digitsValue_append_replicate, hvalue]
          have hpad := Decimal.magnitudeBits_pad d.coefficient (k + 1) d.exponent
          rw [← hpad]
          refine congrArg Decimal.magnitudeBits ((Decimal.mk.injEq ..).mpr ⟨rfl, ?_⟩)
          simp only [k, List.length_singleton]
          omega
      next hshort =>
        rw [List.append_assoc]
        refine spells_point _ _ (fun c hc => hall c (List.mem_of_mem_take hc))
          (fun c hc => hall c (List.mem_of_mem_drop hc))
          ⟨List.ne_nil_of_length_pos (by rw [List.length_take]; omega),
            List.ne_nil_of_length_pos (by rw [List.length_drop]; omega)⟩
          (congrArg Decimal.magnitudeBits ?_)
        rw [List.take_append_drop, hvalue]
        refine (Decimal.mk.injEq ..).mpr ⟨rfl, ?_⟩
        rw [List.length_drop]
        omega
  next =>
    have h := spells_exponent l.exponentDigits hall hpos hvalue
    simpa only [List.append_assoc, List.cons_append, List.nil_append] using h

end Layout

/-! ## Quantities -/

namespace Quantity

/-- The text is a numeral that is written plainly, is accepted, and has the quantity as value. -/
def IsText (q : Quantity) (cs : List Char) : Prop :=
  ∃ p : NumeralParts, p.IsPlain ∧ p.chars = cs ∧ ofParts p = q ∧
    (Numeral.ofParts p).isOversized = false

/-- **A finite number reads back from its literal.** -/
theorem isText_literal {x : Float} {negative : Bool} {m : Nat} {e : Int}
    (h : Binary64.ofFloat x = .finite negative m e) : (decimal x).IsText (literalChars x) := by
  have hspells : Layout.Spells
      (if m = 0 then ['0', '.', '0'] else Layout.plain.render (.shortest m e))
      (.shortest m e) := by
    split
    next hzero =>
      subst hzero
      refine Layout.spells_point ['0'] ['0'] (by simp [isDigit])
        (by simp [isDigit]) ⟨by simp, by simp⟩ ?_
      rw [Decimal.magnitudeBits_shortest, Nat.zero_mul, Binary64.nearestBits, if_pos rfl]
      rfl
    next => exact Layout.spells_render _ _
  obtain ⟨p, hplain, hsign, hchars, hinteger, hbits⟩ := hspells
  let signed : NumeralParts := { p with sign := if negative then ['-'] else [] }
  have hquantity : ofParts signed = decimal x := by
    have hnegative : signed.isNegative = negative := by
      cases negative <;> rfl
    rw [ofParts, show signed.isInteger = false from hinteger, if_neg Bool.false_ne_true,
      NumeralParts.decimalValue, hnegative, show signed.decimal.magnitudeBits = _ from hbits,
      Decimal.magnitudeBits_shortest, Binary64.ofSignedBits_nearestBits h]
  refine ⟨signed, { hplain with sign := ?_ }, ?_, hquantity, ?_⟩
  · simp only [signed]
    split
    · exact Or.inr rfl
    · exact Or.inl rfl
  · rw [literalChars, h]
    dsimp only
    rw [← hchars, NumeralParts.chars, NumeralParts.chars, hsign]
    simp only [signed, List.nil_append, List.append_assoc]
  · rw [Numeral.isOversized, Numeral.ofParts, hquantity]
    rfl

/-- **An integer reads back from its digits**, unless they are too many. -/
theorem isText_toString {n : Int} (h : n.natAbs < 10 ^ Numeral.digitLimit) :
    (integer n).IsText (toString n).toList := by
  let ds := Nat.toDigits 10 n.natAbs
  have hdigits : ∀ c ∈ ds, isDigit c = true := fun _ => isDigit_of_mem_toDigits
  let p : NumeralParts := ⟨if n < 0 then ['-'] else [], ds, [], []⟩
  have hplain : p.IsPlain := by
    refine ⟨?_, Nat.toDigits_ne_nil, hdigits, Or.inl rfl, Or.inl rfl⟩
    simp only [p]
    split
    · exact Or.inr rfl
    · exact Or.inl rfl
  have hchars : p.chars = (toString n).toList := by
    rw [Int.toString_eq_repr, Int.repr_eq_if]
    simp only [NumeralParts.chars, p, ds, List.append_nil]
    by_cases hn : n < 0
    · rw [if_pos hn, if_neg (Int.not_le.mpr hn), String.toList_append, Nat.toList_repr,
        show n.natAbs = (-n).toNat by omega]
      rfl
    · rw [if_neg hn, if_pos (Int.not_lt.mp hn), Nat.toList_repr, List.nil_append,
        show n.natAbs = n.toNat by omega]
  have hvalue : ofParts p = integer n := by
    have habs : digitsValue 10 ds = n.natAbs := digitsValue_toDigits _
    rw [ofParts, show p.isInteger = true from rfl, if_pos rfl, NumeralParts.integerValue, habs,
      NumeralParts.isNegative]
    by_cases hn : n < 0
    · rw [show p.sign = ['-'] from if_pos hn, if_pos (by decide)]
      congr 1
      omega
    · rw [show p.sign = [] from if_neg hn, if_neg (by decide)]
      congr 1
      omega
  refine ⟨p, hplain, hchars, hvalue, ?_⟩
  have hcount : p.chars.filter isDigit = ds := hplain.isNumeral.filter_chars rfl
  have hlimit : ds.length ≤ Numeral.digitLimit :=
    (Nat.length_toDigits_le_iff (by decide) (by decide)).mpr h
  rw [Numeral.isOversized, Bool.and_eq_false_iff]
  refine Or.inr (decide_eq_false (Nat.not_lt.mpr ?_))
  rw [Numeral.ofParts, String.toList_ofList, hcount]
  exact hlimit

/-- The quantity that stands in a style for a number: rounded to six places, and an integer if it is
integral. -/
def shown (x : Float) : Except Fault Quantity := do
  let rounded := Binary64.roundPlaces 6 x
  let whole ← Binary64.truncate rounded
  let wholeFloat ← Binary64.ofInt whole
  return if rounded == wholeFloat then .integer whole else .decimal rounded

/-- Only a finite number has an integer part, and it is not written with too many digits. -/
theorem exists_of_truncate {x : Float} {n : Int} (h : Binary64.truncate x = .ok n) :
    n.natAbs < 10 ^ Numeral.digitLimit ∧
      ∃ negative m e, Binary64.ofFloat x = .finite negative m e := by
  rw [Binary64.truncate, Binary64.toIntBy] at h
  split at h
  next => exact absurd h (by simp)
  next => exact absurd h (by simp)
  next negative m e hx =>
    obtain ⟨-, hm, -, he, -⟩ := Binary64.bits_of_ofFloat hx
    have hquotient : n.natAbs = m * 2 ^ e.toNat / 2 ^ (-e).toNat := by
      obtain rfl := Except.ok.inj h
      split
      · exact (Int.natAbs_neg _).trans (Int.natAbs_natCast _)
      · exact Int.natAbs_natCast _
    refine ⟨?_, negative, m, e, hx⟩
    rw [hquotient]
    calc m * 2 ^ e.toNat / 2 ^ (-e).toNat ≤ m * 2 ^ e.toNat := Nat.div_le_self _ _
      _ < 2 ^ 53 * 2 ^ e.toNat := Nat.mul_lt_mul_of_pos_right hm (Nat.two_pow_pos _)
      _ = 2 ^ (53 + e.toNat) := (pow_add 2 53 _).symm
      _ ≤ 2 ^ (3 * Numeral.digitLimit) :=
        Nat.pow_le_pow_right (by decide) (by rw [Numeral.digitLimit]; omega)
      _ ≤ 10 ^ Numeral.digitLimit := Decimal.two_pow_le_ten_pow _

/-- **What stands in a style for a number is read as the quantity that is shown.** -/
theorem isText_of_shown {x : Float} {q : Quantity} (h : shown x = .ok q) :
    ∃ t, styleNumber x = .ok t ∧ q.IsText t.toList := by
  simp only [shown, bind, Except.bind] at h
  rw [styleNumber]
  simp only [bind, Except.bind]
  cases hwhole : Binary64.truncate (Binary64.roundPlaces 6 x) with
  | error f =>
    rw [hwhole] at h
    exact absurd h (by simp)
  | ok whole =>
    rw [hwhole] at h
    obtain ⟨hdigits, negative, m, e, hfinite⟩ := exists_of_truncate hwhole
    dsimp only at h ⊢
    cases hfloat : Binary64.ofInt whole with
    | error f =>
      rw [hfloat] at h
      exact absurd h (by simp)
    | ok wholeFloat =>
      rw [hfloat] at h
      obtain rfl := Except.ok.inj h
      dsimp only
      split
      next => exact ⟨_, rfl, isText_toString hdigits⟩
      next =>
        refine ⟨_, rfl, ?_⟩
        rw [literal, String.toList_ofList]
        exact isText_literal hfinite

end Quantity

end Styling
