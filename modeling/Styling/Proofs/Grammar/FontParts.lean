import Mathlib.Data.List.Perm.Basic
import Styling.Grammar.Shorthand

/-!
# The parts at the start of a font

A font may start with a style, a weight and a width in any order.  Each item is taken for the first
of the three that is still missing and that it may stand for, and this is never reconsidered.  Only
the word `normal` may stand for more than one part; so it is a matter of counting these words
whether a part is already taken when the item for it comes.

* `Grammar.FontItem` is what stands for a part, and `Grammar.FontParts.place` puts it to the parts.
* `Grammar.FontParts.fill` says what becomes of the parts: `Grammar.FontParts.eq_fill_of_foldlM` is
  the run over all items, and `Grammar.FontParts.eq_of_perm` compares two orders.
* `Grammar.FontParts.Fits` is the condition that every item finds a part, whatever the order, and
  `Grammar.FontParts.fits_of_normalsFit` derives it from the number of words `normal`.  Where there
  are too many, `Grammar.FontParts.foldlM_place_normals_first` is an order in which one finds none.
-/

namespace Styling

namespace Grammar

/-! ## Items and parts -/

/-- What stands for one of the optional parts at the start of a font.  The word `normal` may stand
for each of them. -/
inductive FontItem
  | normal
  | style (s : FontStyle)
  | weight (w : Float)
  | width (w : Float)

namespace FontItem

/-- The item is the word `normal`. -/
def isNormal : FontItem → Bool
  | normal => true
  | _ => false

/-- The style of an item that is nothing but a style. -/
def style? : FontItem → Option FontStyle
  | style s => some s
  | _ => none

/-- The weight of an item that is nothing but a weight. -/
def weight? : FontItem → Option Float
  | weight w => some w
  | _ => none

/-- The width of an item that is nothing but a width. -/
def width? : FontItem → Option Float
  | width w => some w
  | _ => none

/-- An item is of one kind. -/
theorem kinds_eq_one (it : FontItem) :
    ((if it.style?.isSome then 1 else 0) + (if it.weight?.isSome then 1 else 0) +
      (if it.width?.isSome then 1 else 0) + if it.isNormal then 1 else 0) = 1 := by
  cases it <;> rfl

/-- The items of all kinds together. -/
theorem countP_add (its : List FontItem) :
    its.countP (·.style?.isSome) + its.countP (·.weight?.isSome) + its.countP (·.width?.isSome) +
      its.countP isNormal = its.length := by
  induction its with
  | nil => rfl
  | cons it its ih =>
    have hone := it.kinds_eq_one
    simp only [List.countP_cons, List.length_cons]
    omega

end FontItem

namespace FontParts

/-- The parts after one more item, which goes to the first part that it may stand for and that is
still missing, if there is one. -/
def place (p : FontParts) : FontItem → Option FontParts
  | .normal =>
    if p.style.isNone then some { p with style := some .normal }
    else if p.weight.isNone then some { p with weight := some 400.0 }
    else if p.width.isNone then some { p with width := some 1.0 }
    else none
  | .style s => if p.style.isNone then some { p with style := some s } else none
  | .weight w => if p.weight.isNone then some { p with weight := some w } else none
  | .width w => if p.width.isNone then some { p with width := some w } else none

/-- Whether a part is missing, as a number. -/
def missing {α : Type} (part : Option α) : Nat := if part.isNone then 1 else 0

/-- The parts that are given, and the word `normal` for the first of the others. -/
def fill (p : FontParts) (normals : Nat) : FontParts :=
  ⟨p.style.or (if 0 < normals then some .normal else none),
    p.weight.or (if missing p.style < normals then some 400.0 else none),
    p.width.or (if missing p.style + missing p.weight < normals then some 1.0 else none)⟩

/-- The parts, and what items give for those that are missing. -/
def givenBy (p : FontParts) (its : List FontItem) : FontParts :=
  ⟨p.style.or (its.findSome? FontItem.style?), p.weight.or (its.findSome? FontItem.weight?),
    p.width.or (its.findSome? FontItem.width?)⟩

/-- Items give their parts one after the other. -/
theorem givenBy_cons (p : FontParts) (it : FontItem) (its : List FontItem) :
    p.givenBy (it :: its) = (p.givenBy [it]).givenBy its := by
  have hpart : ∀ {α : Type} (f : FontItem → Option α) (part : Option α),
      part.or ((it :: its).findSome? f) = (part.or ([it].findSome? f)).or (its.findSome? f) := by
    intro α f part
    rw [Option.or_assoc, List.findSome?_cons, List.findSome?_singleton]
    cases f it <;> rfl
  simp only [givenBy, hpart]

@[simp] theorem missing_none {α : Type} : missing (none : Option α) = 1 := rfl

@[simp] theorem missing_some {α : Type} (a : α) : missing (some a) = 0 := rfl

theorem missing_pos {α : Type} {part : Option α} : 0 < missing part ↔ part = none := by
  cases part <;> simp

theorem missing_le_one {α : Type} (part : Option α) : missing part ≤ 1 := by
  cases part <;> simp

/-- An item gives a part that was missing. -/
theorem missing_givenBy {α : Type} (part : Option α) (f : FontItem → Option α) (it : FontItem) :
    missing (part.or ([it].findSome? f)) = missing part - if (f it).isSome then 1 else 0 := by
  rw [List.findSome?_singleton]
  cases part <;> cases f it <;> rfl

/-! ## What becomes of the parts -/

theorem isNone_fill_style {p : FontParts} {n : Nat} :
    (p.fill n).style.isNone = true ↔ p.style = none ∧ n = 0 := by
  simp [fill]

theorem isNone_fill_weight {p : FontParts} {n : Nat} :
    (p.fill n).weight.isNone = true ↔ p.weight = none ∧ n ≤ missing p.style := by
  simp [fill]

theorem isNone_fill_width {p : FontParts} {n : Nat} :
    (p.fill n).width.isNone = true ↔
      p.width = none ∧ n ≤ missing p.style + missing p.weight := by
  simp [fill]

@[simp] theorem givenBy_normal (p : FontParts) : p.givenBy [.normal] = p := by
  simp [givenBy, FontItem.style?, FontItem.weight?, FontItem.width?]

/-- The step: an item goes to its part, or to the first of those that nothing else has given. -/
theorem eq_fill_of_place {p q : FontParts} {n : Nat} {it : FontItem}
    (h : (p.fill n).place it = some q) :
    q = (p.givenBy [it]).fill (n + if it.isNormal then 1 else 0) := by
  cases it with
  | style s =>
    obtain ⟨hfree, h⟩ := Option.ite_none_right_eq_some.mp h
    obtain ⟨hstyle, rfl⟩ := isNone_fill_style.mp hfree
    obtain rfl := Option.some_inj.mp h
    simp [fill, givenBy, hstyle, FontItem.isNormal, FontItem.style?, FontItem.weight?,
      FontItem.width?]
  | weight w =>
    obtain ⟨hfree, h⟩ := Option.ite_none_right_eq_some.mp h
    obtain ⟨hweight, hn⟩ := isNone_fill_weight.mp hfree
    obtain rfl := Option.some_inj.mp h
    have hlate : ¬ missing p.style + 1 < n := by omega
    simp [fill, givenBy, hweight, FontItem.isNormal, FontItem.style?, FontItem.weight?,
      FontItem.width?, Nat.not_lt.mpr hn, hlate]
  | width x =>
    obtain ⟨hfree, h⟩ := Option.ite_none_right_eq_some.mp h
    obtain ⟨hwidth, hn⟩ := isNone_fill_width.mp hfree
    obtain rfl := Option.some_inj.mp h
    simp [fill, givenBy, hwidth, FontItem.isNormal, FontItem.style?, FontItem.weight?,
      FontItem.width?]
  | normal =>
    -- the word goes to the first part that is still missing
    rcases p with ⟨_ | s, _ | w, _ | x⟩ <;>
      simp only [place, fill, givenBy_normal, missing_none, missing_some, Option.none_or,
        Option.some_or, FontItem.isNormal, if_true] at h ⊢ <;> grind

/-- **The run**: where every item finds a part, the parts are those that the items give, and the
first of the others as many as there are words `normal`. -/
theorem eq_fill_of_foldlM {p q : FontParts} {n : Nat} {its : List FontItem}
    (h : its.foldlM place (p.fill n) = some q) :
    q = (p.givenBy its).fill (n + its.countP FontItem.isNormal) := by
  induction its generalizing p n with
  | nil =>
    obtain rfl := Option.some_inj.mp h
    simp [givenBy]
  | cons it its ih =>
    rw [List.foldlM_cons] at h
    obtain ⟨next, hnext, h⟩ := Option.bind_eq_some_iff.mp h
    obtain rfl := eq_fill_of_place hnext
    rw [ih h, givenBy_cons p it its, List.countP_cons, Nat.add_assoc, Nat.add_comm (its.countP _)]

/-- What items give does not depend on their order, if none of it is given twice. -/
theorem givenBy_perm (p : FontParts) {its its' : List FontItem} (h : its.Perm its')
    (hstyle : its.countP (·.style?.isSome) ≤ 1) (hweight : its.countP (·.weight?.isSome) ≤ 1)
    (hwidth : its.countP (·.width?.isSome) ≤ 1) : p.givenBy its = p.givenBy its' := by
  have hsame : ∀ {α : Type} (f : FontItem → Option α), its.countP (fun it => (f it).isSome) ≤ 1 →
      its.findSome? f = its'.findSome? f := by
    intro α f hone
    rw [← List.length_filterMap_eq_countP] at hone
    rw [← List.head?_filterMap, ← List.head?_filterMap]
    have hperm := h.filterMap f
    generalize its.filterMap f = as at hone hperm
    match as, hone with
    | [], _ => rw [List.nil_perm.mp hperm]
    | [a], _ => rw [List.singleton_perm.mp hperm]
  simp only [givenBy, hsame _ hstyle, hsame _ hweight, hsame _ hwidth]

/-- In two orders in which every item finds a part the parts are the same. -/
theorem eq_of_perm {q q' : FontParts} {its its' : List FontItem}
    (hperm : its.Perm its') (hstyle : its.countP (·.style?.isSome) ≤ 1)
    (hweight : its.countP (·.weight?.isSome) ≤ 1) (hwidth : its.countP (·.width?.isSome) ≤ 1)
    (h : its.foldlM place ⟨none, none, none⟩ = some q)
    (h' : its'.foldlM place ⟨none, none, none⟩ = some q') : q = q' := by
  have hq := eq_fill_of_foldlM (p := ⟨none, none, none⟩) (n := 0) h
  have hq' := eq_fill_of_foldlM (p := ⟨none, none, none⟩) (n := 0) h'
  rw [hq, hq', givenBy_perm _ hperm hstyle hweight hwidth, hperm.countP_eq]

/-! ## Items that find their parts -/

/-- In whatever order the items come, after as many words `normal`, each finds a part: none is given
twice, and none is taken by a word `normal` before the item that gives it has come. -/
structure Fits (p : FontParts) (n : Nat) (its : List FontItem) : Prop where
  style : its.countP (·.style?.isSome) ≤ missing p.style
  weight : its.countP (·.weight?.isSome) ≤ missing p.weight
  width : its.countP (·.width?.isSome) ≤ missing p.width
  all : n + its.length ≤ missing p.style + missing p.weight + missing p.width
  beforeStyle : 0 < its.countP (·.style?.isSome) → n + its.countP FontItem.isNormal = 0
  beforeWeight : 0 < its.countP (·.weight?.isSome) →
    n + its.countP FontItem.isNormal + its.countP (·.style?.isSome) ≤ missing p.style
  beforeWidth : 0 < its.countP (·.width?.isSome) →
    n + its.countP FontItem.isNormal + its.countP (·.style?.isSome) +
      its.countP (·.weight?.isSome) ≤ missing p.style + missing p.weight

namespace Fits

/-- The first item finds a part. -/
theorem exists_place {p : FontParts} {n : Nat} {it : FontItem} {its : List FontItem}
    (h : p.Fits n (it :: its)) : ∃ q, (p.fill n).place it = some q := by
  obtain ⟨hstyle, hweight, hwidth, hall, hbeforeStyle, hbeforeWeight, hbeforeWidth⟩ := h
  simp only [List.countP_cons, List.length_cons] at *
  have hle := missing_le_one p.style
  have hle' := missing_le_one p.weight
  have hle'' := missing_le_one p.width
  cases it with
  | style s =>
    have hone : (if (FontItem.style s).style?.isSome = true then 1 else 0) = 1 := rfl
    have hmissing : 0 < missing p.style := by omega
    have hfree := isNone_fill_style.mpr ⟨missing_pos.mp hmissing, (by omega : n = 0)⟩
    exact ⟨_, if_pos hfree⟩
  | weight w =>
    have hone : (if (FontItem.weight w).weight?.isSome = true then 1 else 0) = 1 := rfl
    have hmissing : 0 < missing p.weight := by omega
    have hn : n ≤ missing p.style := by omega
    have hfree := isNone_fill_weight.mpr ⟨missing_pos.mp hmissing, hn⟩
    exact ⟨_, if_pos hfree⟩
  | width x =>
    have hone : (if (FontItem.width x).width?.isSome = true then 1 else 0) = 1 := rfl
    have hmissing : 0 < missing p.width := by omega
    have hn : n ≤ missing p.style + missing p.weight := by omega
    have hfree := isNone_fill_width.mpr ⟨missing_pos.mp hmissing, hn⟩
    exact ⟨_, if_pos hfree⟩
  | normal =>
    rw [place]
    split
    next => exact ⟨_, rfl⟩
    next hstyle' =>
      split
      next => exact ⟨_, rfl⟩
      next hweight' =>
        rw [isNone_fill_style, ← missing_pos] at hstyle'
        rw [isNone_fill_weight, ← missing_pos] at hweight'
        have hmissing : 0 < missing p.width := by omega
        have hn : n ≤ missing p.style + missing p.weight := by omega
        exact ⟨_, if_pos (isNone_fill_width.mpr ⟨missing_pos.mp hmissing, hn⟩)⟩

/-- The items behind the first one still fit. -/
theorem next {p : FontParts} {n : Nat} {it : FontItem} {its : List FontItem}
    (h : p.Fits n (it :: its)) : (p.givenBy [it]).Fits (n + if it.isNormal then 1 else 0) its := by
  obtain ⟨hstyle, hweight, hwidth, hall, hbeforeStyle, hbeforeWeight, hbeforeWidth⟩ := h
  simp only [List.countP_cons, List.length_cons] at *
  have hone := it.kinds_eq_one
  have hstyle' : missing (p.givenBy [it]).style = missing p.style - _ := missing_givenBy ..
  have hweight' : missing (p.givenBy [it]).weight = missing p.weight - _ := missing_givenBy ..
  have hwidth' : missing (p.givenBy [it]).width = missing p.width - _ := missing_givenBy ..
  constructor <;> omega

/-- Every item finds a part. -/
theorem exists_foldlM_place {p : FontParts} {n : Nat} {its : List FontItem}
    (h : p.Fits n its) : ∃ q, its.foldlM place (p.fill n) = some q := by
  induction its generalizing p n with
  | nil => exact ⟨_, rfl⟩
  | cons it its ih =>
    obtain ⟨q, hq⟩ := h.exists_place
    obtain rfl := eq_fill_of_place hq
    obtain ⟨r, hr⟩ := ih h.next
    exact ⟨r, by rw [List.foldlM_cons, hq]; exact hr⟩

/-- Items in another order fit as well. -/
theorem perm {p : FontParts} {n : Nat} {its its' : List FontItem} (h : p.Fits n its)
    (hperm : its.Perm its') : p.Fits n its' := by
  obtain ⟨hstyle, hweight, hwidth, hall, hbeforeStyle, hbeforeWeight, hbeforeWidth⟩ := h
  have hsame := fun f => hperm.countP_eq f
  simp only [hsame, hperm.length_eq] at *
  exact ⟨hstyle, hweight, hwidth, hall, hbeforeStyle, hbeforeWeight, hbeforeWidth⟩

end Fits

end FontParts

/-- There are as many words `normal` as parts at the start of the list that nothing else gives. -/
def normalsFit {α : Type} (isNormal : α → Bool) (parts : List (Option α)) : Bool :=
  (parts.take (parts.countP (·.any isNormal))).all (·.all isNormal)

/-- Whether the words `normal` come in the way is a matter of which parts are that word. -/
theorem normalsFit_eq_map {α : Type} (isNormal : α → Bool) (parts : List (Option α)) :
    normalsFit isNormal parts = normalsFit id (parts.map (Option.map isNormal)) := by
  rw [normalsFit, normalsFit, ← List.map_take, List.countP_map, List.all_map]
  have hany : ∀ part : Option α, (part.map isNormal).any id = part.any isNormal := by
    rintro (_ | a) <;> rfl
  have hall : ∀ part : Option α, (part.map isNormal).all id = part.all isNormal := by
    rintro (_ | a) <;> rfl
  simp only [Function.comp_def, hany, hall]

/-- The conditions on three parts. -/
theorem normalsFit_three {α : Type} {isNormal : α → Bool} {a b c : Option α}
    (h : normalsFit isNormal [a, b, c] = true) :
    (0 < [a, b, c].countP (·.any isNormal) → a.all isNormal = true) ∧
      (1 < [a, b, c].countP (·.any isNormal) → b.all isNormal = true) ∧
        (2 < [a, b, c].countP (·.any isNormal) → c.all isNormal = true) := by
  rw [normalsFit] at h
  generalize [a, b, c].countP (·.any isNormal) = k at h ⊢
  match k with
  | 0 => simp
  | 1 => simpa using h
  | 2 => simpa using h
  | k + 3 => simpa using h

/-- The item may stand for the part of a kind. -/
def FontItem.isOf {α : Type} (kind : FontItem → Option α) (it : FontItem) : Bool :=
  it.isNormal || (kind it).isSome

/-- A part that may be given by an item of a kind, in numbers. -/
theorem FontItem.counts_of_isOf {α : Type} {kind : FontItem → Option α}
    (hkind : kind .normal = none) {part : Option FontItem}
    (h : part.all (isOf kind) = true) :
    part.toList.countP (fun it => (kind it).isSome) + part.toList.countP isNormal =
        part.toList.length ∧ part.toList.length ≤ 1 ∧
      (part.all isNormal = true → part.toList.countP (fun it => (kind it).isSome) = 0) ∧
      part.toList.countP isNormal = if part.any isNormal then 1 else 0 := by
  cases part with
  | none => simp
  | some it =>
    cases it with
    | normal => simp [hkind, isNormal]
    | _ => simpa [isOf, isNormal, Option.isSome_iff_ne_none] using h

/-- Parts of the three kinds are no more than three, and none of a kind is given twice. -/
theorem FontItem.counts_of_parts {style weight width : Option FontItem}
    (hstyle : style.all (isOf style?) = true) (hweight : weight.all (isOf weight?) = true)
    (hwidth : width.all (isOf width?) = true) {its : List FontItem}
    (h : its.Perm (style.toList ++ weight.toList ++ width.toList)) :
    its.length ≤ 3 ∧ its.countP (·.style?.isSome) ≤ 1 ∧ its.countP (·.weight?.isSome) ≤ 1 ∧
      its.countP (·.width?.isSome) ≤ 1 := by
  obtain ⟨hstyles, hle, -, -⟩ := counts_of_isOf rfl hstyle
  obtain ⟨hweights, hle', -, -⟩ := counts_of_isOf rfl hweight
  obtain ⟨hwidths, hle'', -, -⟩ := counts_of_isOf rfl hwidth
  have hstyleSum := countP_add style.toList
  have hweightSum := countP_add weight.toList
  have hwidthSum := countP_add width.toList
  simp only [h.length_eq, h.countP_eq, List.countP_append, List.length_append]
  omega

/-- **Items find their parts in any order** if the words `normal` do not come in the way. -/
theorem FontParts.fits_of_normalsFit {style weight width : Option FontItem}
    (hstyle : style.all (FontItem.isOf FontItem.style?) = true)
    (hweight : weight.all (FontItem.isOf FontItem.weight?) = true)
    (hwidth : width.all (FontItem.isOf FontItem.width?) = true)
    (h : normalsFit FontItem.isNormal [style, weight, width] = true) :
    Fits ⟨none, none, none⟩ 0 (style.toList ++ weight.toList ++ width.toList) := by
  obtain ⟨hone, htwo, hthree⟩ := normalsFit_three h
  simp only [List.countP_cons, List.countP_nil] at hone htwo hthree
  obtain ⟨hstyles, hle, hstyleAll, hnormal⟩ := FontItem.counts_of_isOf rfl hstyle
  obtain ⟨hweights, hle', hweightAll, hnormal'⟩ := FontItem.counts_of_isOf rfl hweight
  obtain ⟨hwidths, hle'', hwidthAll, hnormal''⟩ := FontItem.counts_of_isOf rfl hwidth
  have hnoStyle := fun hk => hstyleAll (hone hk)
  have hnoWeight := fun hk => hweightAll (htwo hk)
  have hnoWidth := fun hk => hwidthAll (hthree hk)
  have hstyleSum := FontItem.countP_add style.toList
  have hweightSum := FontItem.countP_add weight.toList
  have hwidthSum := FontItem.countP_add width.toList
  constructor <;> simp only [List.countP_append, List.length_append, missing_none] <;> omega

/-- Words `normal` that come first and are too many take the part of an item behind them. -/
theorem FontParts.foldlM_place_normals_first {style weight width : Option FontItem}
    (hstyle : style.all (FontItem.isOf FontItem.style?) = true)
    (hweight : weight.all (FontItem.isOf FontItem.weight?) = true)
    (hwidth : width.all (FontItem.isOf FontItem.width?) = true)
    (h : normalsFit FontItem.isNormal [style, weight, width] = false) {its : List FontItem}
    (hits : its = style.toList ++ weight.toList ++ width.toList) :
    (its.filter FontItem.isNormal ++ its.filter fun it => !it.isNormal).foldlM place
      ⟨none, none, none⟩ = none := by
  have hs : style = none ∨ style = some .normal ∨ ∃ s, style = some (.style s) := by
    rcases style with _ | (_ | s | w | x) <;>
      simp_all [FontItem.isOf, FontItem.isNormal, FontItem.style?]
  have hw : weight = none ∨ weight = some .normal ∨ ∃ w, weight = some (.weight w) := by
    rcases weight with _ | (_ | s | w | x) <;>
      simp_all [FontItem.isOf, FontItem.isNormal, FontItem.weight?]
  have hx : width = none ∨ width = some .normal ∨ ∃ x, width = some (.width x) := by
    rcases width with _ | (_ | s | w | x) <;>
      simp_all [FontItem.isOf, FontItem.isNormal, FontItem.width?]
  subst hits
  -- what each item is decides whether there are too many words, and where each item goes
  rcases hs with rfl | rfl | ⟨s, rfl⟩ <;> rcases hw with rfl | rfl | ⟨w, rfl⟩ <;>
    rcases hx with rfl | rfl | ⟨x, rfl⟩ <;> first | rfl | exact Bool.noConfusion h

end Grammar

end Styling
