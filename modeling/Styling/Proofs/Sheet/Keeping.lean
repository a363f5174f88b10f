import Mathlib
import Styling.Proofs.Sheet.LastWrite

/-!
# What the cascade keeps

A value gets into a style in four ways: it is the default, it comes from the parent, it was
declared, or it was read from a resolved text.  Before it is written it is resolved against the
style, which may replace it by the color of the text.

So a predicate of values holds of all computed styles if it holds of the defaults, passes to what
values resolve to, and holds of what was declared and of what texts read as.

* `Style.Satisfies` and `Property.Declares` say that values satisfy a predicate.
* `Style.Keeps` is what defaults and resolving have to do for it.
* `Style.Satisfies.write` is the step, `Style.Satisfies.writeAll` the run.
* `Cascade.satisfies_of_rules` is about computed styles.
-/

namespace Styling

/-- Every value of the style satisfies `P` for its longhand. -/
def Style.Satisfies (P : Longhand → Value → Prop) (s : Style) : Prop :=
  ∀ l, P l (s.get l)

/-- If a longhand is declared with a value, the value satisfies `P` for it. -/
def Property.Declares (P : Longhand → Value → Prop) (p : Property) : Prop :=
  ∀ l v, p.kind = .longhand l → p.value = .exact v → P l v

/-- What kinds of properties read from texts satisfies `P`. -/
def PropertyKind.TextDeclares (P : Longhand → Value → Prop) : Prop :=
  ∀ (kind : PropertyKind) (text : String) (c : Cursor) (ps : List Property),
    Cursor.ofText text = .ok c → kind.readCursor c = .ok ps → ∀ p ∈ ps, p.Declares P

namespace Style

/-- A value resolves to the color of the text, to none, or to itself. -/
theorem resolve_cases (s : Style) (l : Longhand) (v : Value) :
    (v = .paint .current ∧ s.resolve l v = s.get .color) ∨
      ((l = .letterSpacing ∨ l = .wordSpacing) ∧ s.resolve l v = .none) ∨ s.resolve l v = v := by
  cases v with
  | paint p =>
    cases p with
    | color c => exact .inr (.inr rfl)
    | current => exact .inl ⟨rfl, rfl⟩
  | size z =>
    cases z with
    | auto =>
      by_cases hl : l = .letterSpacing ∨ l = .wordSpacing
      · exact .inr (.inl ⟨hl, if_pos hl⟩)
      · exact .inr (.inr (if_neg hl))
    | _ => exact .inr (.inr rfl)
  | _ => exact .inr (.inr rfl)

/-- The defaults satisfy `P`, and it passes from a value to what the value resolves to. -/
structure Keeps (P : Longhand → Value → Prop) : Prop where
  default (l : Longhand) : P l (defaultValue l)
  resolve {s : Style} (hs : s.Satisfies P) {l : Longhand} {v : Value} (h : P l v) :
    P l (s.resolve l v)

variable {P : Longhand → Value → Prop} (hP : Keeps P) {s : Style} {parent : Option Style}
  (hparent : ∀ p, parent = some p → p.Satisfies P)

include hP hparent

/-- A fresh style has values of the parent and defaults. -/
theorem satisfies_fresh : (fresh parent).Satisfies P := by
  intro l
  cases parent with
  | none => exact hP.default l
  | some p =>
    cases hinherited : l.isInherited with
    | true =>
      rw [show (fresh (some p)).get l = p.get l from if_pos hinherited]
      exact hparent p rfl l
    | false =>
      rw [show (fresh (some p)).get l = defaultValue l from
        if_neg (Bool.eq_false_iff.mp hinherited)]
      exact hP.default l

/-- The step: a write of a value that satisfies `P` keeps all values of the style so. -/
theorem Satisfies.write (hs : s.Satisfies P) {l : Longhand} {value : PropertyValue}
    (h : ∀ v, value = .exact v → P l v) : (s.write parent l value).Satisfies P := by
  intro k
  by_cases hkl : k = l
  · subst hkl
    cases value with
    | initial =>
      rw [Style.write, get_set_self]
      exact hP.default k
    | inherit =>
      rw [Style.write, get_set_self]
      cases parent with
      | none => exact hP.default k
      | some p => exact hparent p rfl k
    | exact v =>
      rw [Style.write, get_set_self]
      exact hP.resolve hs (h v rfl)
    | deferred raw location => exact hs k
  · rw [get_write_of_ne s parent value hkl]
    exact hs k

/-- The run: writes of values that satisfy `P`, one after the other. -/
theorem Satisfies.writeAll (hs : s.Satisfies P) {ws : List Write}
    (h : ∀ w ∈ ws, ∀ v, w.2 = .exact v → P w.1 v) : (s.writeAll parent ws).Satisfies P := by
  induction ws generalizing s with
  | nil => exact hs
  | cons w ws ih =>
    have hone := hs.write hP hparent (h w List.mem_cons_self)
    exact ih hone fun v hv => h v (List.mem_cons_of_mem w hv)

end Style

/-- A property writes what it declares, or what its resolved text is read as. -/
theorem Property.Declares.of_writes {P : Longhand → Value → Prop} {p : Property}
    (htext : PropertyKind.TextDeclares P) (h : p.Declares P) {vars : Variables}
    {limit : Option Int} {w : Write} (hw : w ∈ p.writes vars limit) (v : Value)
    (hv : w.2 = .exact v) : P w.1 v := by
  rw [writes] at hw
  split at hw
  next ps hexpand =>
    obtain ⟨q, hq, hone⟩ := List.mem_filterMap.mp hw
    obtain ⟨l, hl, rfl⟩ := Option.map_eq_some_iff.mp hone
    have hkind : q.kind = .longhand l := by
      cases hkind : q.kind with
      | longhand k =>
        rw [hkind] at hl
        rw [Option.some_inj.mp hl]
      | shorthand s =>
        rw [hkind] at hl
        exact absurd hl (by simp [PropertyKind.longhand?])
    rcases exists_readCursor_of_expand hexpand with ⟨-, rfl⟩ | ⟨-, text, c, hc, hread⟩
    · obtain rfl := List.mem_singleton.mp hq
      exact h l v hkind hv
    · exact htext p.kind text c ps hc hread q hq l v hkind hv
  next => exact absurd hw List.not_mem_nil

namespace Cascade

/-- **Computing a style from rules that declare values which satisfy a predicate gives a style of
such values, if the cascade keeps the predicate.** -/
theorem satisfies_of_rules {P : Longhand → Value → Prop} (hP : Style.Keeps P)
    (htext : PropertyKind.TextDeclares P) {rules : List Rule} {parent : Option Style}
    {parentVariables : Option Variables} {limit : Option Int} {file : Option String} {c : Computed}
    (hrules : ∀ rule ∈ rules, ∀ p ∈ rule.properties, p.Declares P)
    (hparent : ∀ p, parent = some p → p.Satisfies P)
    (h : (compute rules parent parentVariables limit file).result = .ok c) :
    c.style.Satisfies P := by
  obtain ⟨hstyle, -, -⟩ := Computed.foldlM_writeExpanded_eq_ok h
  rw [hstyle]
  refine (Style.satisfies_fresh hP hparent).writeAll hP hparent fun w hw => ?_
  obtain ⟨p, hp, hw⟩ := List.mem_flatMap.mp hw
  obtain ⟨rule, hrule, hp⟩ := mem_writes_iff.mp hp
  have hmem := (Rule.cascadeOrder_perm rules).mem_iff.mp hrule
  exact (hrules rule hmem p hp).of_writes htext hw

end Cascade

end Styling
