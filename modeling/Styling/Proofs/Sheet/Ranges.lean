import Mathlib
import Styling.Proofs.Property.Accepting
import Styling.Proofs.Sheet.Keeping
import Styling.Proofs.Sheet.Reading

/-!
# The values of a computed style lie in their ranges

A value gets into a style in four ways: it is the default, it comes from the parent, it was
declared, or it was read from a resolved text.  Grammars check what they read or move it into an
interval, and all that is written as a number is one.  So in each case the value lies in the range
of its longhand, and no write takes a style out of the ranges.

The exceptions are the loose longhands, the spaces around children and the height of lines.  Their
own grammars check the sign, but the shorthands `child-space` and `font` read them without a check.

* `Style.IsAdmitted` says that all longhands of a style that are not loose lie in their ranges.
* `Style.keeps_allows` says why the cascade keeps values in the ranges.
* `Stylesheet.isAdmitted_compute` is about computed styles.
-/

namespace Styling

/-- Every value of a longhand that is not loose lies in the range of the longhand. -/
def Style.IsAdmitted (s : Style) : Prop :=
  ∀ l : Longhand, l.isLoose = false → l.admits (s.get l) = true

/-- The value lies in the range of the longhand, unless the longhand is loose. -/
def Longhand.Allows (l : Longhand) (v : Value) : Prop :=
  l.isLoose = true ∨ l.admits v = true

/-- A longhand that has colors has no range. -/
theorem Longhand.range_of_admits_current {l : Longhand} (h : l.admits (.paint .current) = true) :
    l.range = .any := by
  rw [admits] at h
  cases hrange : l.range with
  | any => rfl
  | _ =>
    rw [hrange] at h
    exact absurd h Bool.false_ne_true

namespace Style

variable {s : Style}

theorem isAdmitted_iff : s.IsAdmitted ↔ s.Satisfies Longhand.Allows := by
  refine forall_congr' fun l => ?_
  cases hloose : l.isLoose <;> simp [Longhand.Allows, hloose]

/-- What replaces a value when it is resolved is as good as the value. -/
theorem admits_resolve {l : Longhand} {v : Value} (h : l.admits v = true) :
    l.admits (s.resolve l v) = true := by
  rcases s.resolve_cases l v with ⟨rfl, hcolor⟩ | ⟨rfl | rfl, hnone⟩ | hself
  · rw [hcolor, Longhand.admits, Longhand.range_of_admits_current h]
    rfl
  · rw [hnone]
    rfl
  · rw [hnone]
    rfl
  · rw [hself]
    exact h

theorem keeps_allows : Keeps Longhand.Allows where
  default l := .inr l.admits_defaultValue
  resolve _ _ _ h := h.imp_right admits_resolve

end Style

/-- What is read lies in its range. -/
theorem Property.IsRead.isAdmitted {p : Property} (h : p.IsRead) : p.IsAdmitted := by
  obtain ⟨kind, c, ps, hc, hread, hp⟩ := h
  exact (PropertyKind.isFitting_of_readCursor hc hread p hp).isAdmitted

/-- What resolved texts are read as lies in its range. -/
theorem PropertyKind.textDeclares_allows : TextDeclares Longhand.Allows :=
  fun _ _ _ _ hc hread p hp =>
    (isFitting_of_readCursor (Cursor.isComparable_ofText hc) hread p hp).isAdmitted

/-- Computing a style from rules that declare values in their ranges keeps the style there. -/
theorem Cascade.isAdmitted_of_rules {rules : List Rule} {parent : Option Style}
    {parentVariables : Option Variables} {limit : Option Int} {file : Option String} {c : Computed}
    (hrules : ∀ rule ∈ rules, ∀ p ∈ rule.properties, p.IsAdmitted)
    (hparent : ∀ p, parent = some p → p.IsAdmitted)
    (h : (compute rules parent parentVariables limit file).result = .ok c) :
    c.style.IsAdmitted :=
  Style.isAdmitted_iff.mpr <| satisfies_of_rules Style.keeps_allows
    PropertyKind.textDeclares_allows hrules
    (fun p hp => Style.isAdmitted_iff.mp (hparent p hp)) h

namespace Stylesheet

/-- **Every value of a computed style lies in the range of its longhand, unless the longhand is
loose.** -/
theorem isAdmitted_compute {text : String} {options : Options} {sheet : Stylesheet}
    (hread : (read text options).result = .ok sheet) {e : Element} {parent : Option Style}
    (hparent : ∀ p, parent = some p → p.IsAdmitted) {parentVariables : Option Variables}
    {c : Computed} (h : (sheet.compute e parent parentVariables).result = .ok c) :
    c.style.IsAdmitted := by
  refine Cascade.isAdmitted_of_rules (fun rule hrule p hp => ?_) hparent h
  exact (isRead_of_mem_matching hread e rule hrule p hp).isAdmitted

/-- What is observed of a computed style, if there is one. -/
theorem exists_compute_of_observed {α : Type} {text : String} {options : Options} {e : Element}
    {observe : Computed → α} {a : α}
    (h : (read text options).result.toOption.bind (fun sheet =>
      (sheet.compute e none none).result.toOption.map observe) = some a) :
    ∃ sheet c, (read text options).result = .ok sheet ∧
      (sheet.compute e none none).result = .ok c ∧ observe c = a := by
  obtain ⟨sheet, hsheet, h⟩ := Option.bind_eq_some_iff.mp h
  obtain ⟨c, hc, ha⟩ := exists_ok_of_observed h
  exact ⟨sheet, c, eq_ok_of_toOption hsheet, hc, ha⟩

/-- Numbers outside of their ranges are moved there or refused, also when they come from a custom
property. -/
theorem isAdmitted_compute_clamped :
    ∃ sheet e c, (read ".a\x7b--o:2;opacity:var(--o);font-weight:0;width:-1px\x7d"
        .default).result = .ok sheet ∧
      (sheet.compute e none none).result = .ok c ∧ c.style.IsAdmitted ∧
      c.style.get .opacity = .real 1.0 ∧ c.style.get .fontWeight = .real 1.0 ∧
      c.style.get (.extent .width) = .size (.stretch 1.0) := by
  let text := ".a\x7b--o:2;opacity:var(--o);font-weight:0;width:-1px\x7d"
  let e : Element := ⟨⟨["a"], false, false, false, true⟩, []⟩
  have hrun : (read text .default).result.toOption.bind (fun sheet =>
      (sheet.compute e none none).result.toOption.map fun c =>
        (c.style.get .opacity, c.style.get .fontWeight, c.style.get (.extent .width))) =
      some (.real 1.0, .real 1.0, .size (.stretch 1.0)) := by decide +kernel
  obtain ⟨sheet, c, hread, hcompute, hvalues⟩ := exists_compute_of_observed hrun
  simp only [Prod.mk.injEq] at hvalues
  exact ⟨sheet, e, c, hread, hcompute,
    isAdmitted_compute hread (fun _ h => absurd h (by simp)) hcompute, hvalues⟩

/-- The shorthand `child-space` takes a negative length, and `font` a negative height of lines,
which the longhands refuse. -/
theorem exists_not_admits_of_shorthand :
    ∃ sheet e c,
      (read ".a\x7bchild-space:-5px;font:12px/-2 serif\x7d" .default).result = .ok sheet ∧
      (sheet.compute e none none).result = .ok c ∧
      c.style.get (.extent (.childSide .top)) = .size (.px (-5.0)) ∧
      (Longhand.extent (.childSide .top)).admits (.size (.px (-5.0))) = false ∧
      c.style.get .lineHeight = .size (.stretch (-2.0)) ∧
      Longhand.lineHeight.admits (.size (.stretch (-2.0))) = false := by
  let e : Element := ⟨⟨["a"], false, false, false, true⟩, []⟩
  have hrun : (read ".a\x7bchild-space:-5px;font:12px/-2 serif\x7d" .default).result.toOption.bind
      (fun sheet => (sheet.compute e none none).result.toOption.map fun c =>
        (c.style.get (.extent (.childSide .top)), c.style.get .lineHeight)) =
      some (.size (.px (-5.0)), .size (.stretch (-2.0))) := by decide +kernel
  obtain ⟨sheet, c, hread, hcompute, hvalues⟩ := exists_compute_of_observed hrun
  obtain ⟨hspace, hheight⟩ := Prod.mk.inj hvalues
  exact ⟨sheet, e, c, hread, hcompute, hspace, by decide, hheight, by decide⟩

end Stylesheet

end Styling
