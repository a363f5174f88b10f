import Mathlib
import Styling.Proofs.Sheet.LastWrite
import Styling.Proofs.Value.Accepting

/-!
# Layout

Some longhands have to do with the layout, and the cascade tells whether it has written one of them.
If it has not, the layout of the node can be kept: each of these longhands has the value it has in
a fresh style under the same parent.

A longhand is applied if it is declared itself, or if the text of a deferred declaration is resolved
and reads as a declaration of it; this may be the text of a shorthand.  A declaration whose text
cannot be resolved, or cannot be read, applies nothing.

* `Property.Applies` says that a declaration applies a longhand, and `Property.applies_iff` that it
  writes it.
* `Computed.affectsLayout_writeExpanded` is the step, `Computed.affectsLayout_foldlM_writeExpanded`
  the run.
* `Cascade.compute_affectsLayout` is about computed styles.
-/

namespace Styling

/-! ## What is applied -/

/-- A declaration applies a longhand: it is a declaration of it, or its text is resolved and reads
as declarations of which one is. -/
inductive Property.Applies (vars : Variables) (limit : Option Int) (p : Property) (l : Longhand) :
    Prop
  | declared (kind : p.kind = .longhand l) (settled : p.value.isDeferred = false)
  | resolved {raw text : String} {location : Location} {c : Cursor} {ps : List Property}
    {q : Property} (deferred : p.value = .deferred raw location)
    (resolve : (resolveWithin limit raw location vars).result = .ok (.ok text))
    (cursor : Cursor.ofText text = .ok c) (read : p.kind.readCursor c = .ok ps)
    (settled : ps.any (·.value.isDeferred) = false) (mem : q ∈ ps) (kind : q.kind = .longhand l)

namespace Property

variable {vars : Variables} {limit : Option Int} {p : Property} {l : Longhand}

/-- A declaration of a longhand is a write of it. -/
theorem exists_write?_iff {q : Property} :
    (∃ w, q.write? = some w ∧ w.1 = l) ↔ q.kind = .longhand l := by
  rw [write?]
  cases q.kind with
  | longhand k => simp [PropertyKind.longhand?]
  | shorthand s => simp [PropertyKind.longhand?]

/-- What is written for a declaration writes a longhand if one of it is a declaration of it. -/
theorem exists_mem_writes_iff {ps : List Property}
    (h : (p.expand vars limit).result = .ok (.ok ps)) :
    (∃ w ∈ p.writes vars limit, w.1 = l) ↔ ∃ q ∈ ps, q.kind = .longhand l := by
  simp only [writes, h, List.mem_filterMap]
  constructor
  · rintro ⟨w, ⟨q, hq, hw⟩, hl⟩
    exact ⟨q, hq, exists_write?_iff.mp ⟨w, hw, hl⟩⟩
  · rintro ⟨q, hq, hkind⟩
    obtain ⟨w, hw, hl⟩ := exists_write?_iff.mpr hkind
    exact ⟨w, ⟨q, hq, hw⟩, hl⟩

/-- A declaration that is not deferred is written as it is. -/
theorem expand_of_isDeferred_eq_false (h : p.value.isDeferred = false) :
    (p.expand vars limit).result = .ok (.ok [p]) := by
  cases hvalue : p.value with
  | deferred raw location => exact absurd h (by simp [hvalue, PropertyValue.isDeferred])
  | initial | inherit | exact value => simp [expand, hvalue]

/-- A declaration that is deferred is written as what its resolved text reads as. -/
theorem expand_deferred_eq_ok {raw : String} {location : Location} {ps : List Property}
    (hvalue : p.value = .deferred raw location) :
    (p.expand vars limit).result = .ok (.ok ps) ↔
      ∃ text c, (resolveWithin limit raw location vars).result = .ok (.ok text) ∧
        Cursor.ofText text = .ok c ∧ p.kind.readCursor c = .ok ps ∧
        ps.any (·.value.isDeferred) = false := by
  simp only [expand, hvalue, Traced.bind_result_eq_ok]
  constructor
  · rintro ⟨resolved, hresolve, h⟩
    cases resolved with
    | error e => exact absurd h (by simp)
    | ok text =>
      obtain ⟨hsettled, c, hc, hread⟩ := PropertyKind.exists_readCursor_of_reread h
      exact ⟨text, c, hresolve, hc, hread, hsettled⟩
  · rintro ⟨text, c, hresolve, hc, hread, hsettled⟩
    refine ⟨.ok text, hresolve, ?_⟩
    have hboth : (Cursor.ofText text >>= p.kind.readCursor) = .ok ps := by
      rw [hc]
      exact hread
    simp only [PropertyKind.reread, hboth, hsettled]
    rfl

/-- A declaration applies the longhands that it writes. -/
theorem applies_iff : p.Applies vars limit l ↔ ∃ w ∈ p.writes vars limit, w.1 = l := by
  constructor
  · rintro (⟨kind, settled⟩ | ⟨deferred, resolve, cursor, read, settled, mem, kind⟩)
    · exact (exists_mem_writes_iff (expand_of_isDeferred_eq_false settled)).mpr
        ⟨p, List.mem_singleton_self p, kind⟩
    · have hexpand := (expand_deferred_eq_ok deferred).mpr
        ⟨_, _, resolve, cursor, read, settled⟩
      exact (exists_mem_writes_iff hexpand).mpr ⟨_, mem, kind⟩
  · rintro ⟨w, hw, hl⟩
    obtain ⟨ps, hexpand⟩ : ∃ ps, (p.expand vars limit).result = .ok (.ok ps) := by
      rw [writes] at hw
      split at hw
      next ps hexpand => exact ⟨ps, hexpand⟩
      next => exact absurd hw List.not_mem_nil
    obtain ⟨q, hq, hkind⟩ := (exists_mem_writes_iff hexpand).mp ⟨w, hw, hl⟩
    cases hvalue : p.value with
    | deferred raw location =>
      obtain ⟨text, c, hresolve, hc, hread, hsettled⟩ := (expand_deferred_eq_ok hvalue).mp hexpand
      exact .resolved hvalue hresolve hc hread hsettled hq hkind
    | initial | inherit | exact value =>
      have hsettled : p.value.isDeferred = false := by rw [hvalue]; rfl
      rw [expand_of_isDeferred_eq_false hsettled] at hexpand
      obtain rfl := Except.ok.inj (Except.ok.inj hexpand)
      exact .declared (List.mem_singleton.mp hq ▸ hkind) hsettled

end Property

/-! ## The run -/

namespace Computed

variable {parent : Option Style} {limit : Option Int} {file : Option String} {c c' : Computed}

/-- Writing properties notes whether one of them has to do with the layout. -/
theorem affectsLayout_foldlM_write {ps : List Property}
    (h : ps.foldlM (write parent) c = .ok c') :
    c'.affectsLayout =
      (c.affectsLayout || (ps.filterMap Property.write?).any fun w => w.1.affectsLayout) := by
  induction ps generalizing c with
  | nil =>
    obtain rfl : c = c' := Except.ok.inj h
    simp
  | cons p ps ih =>
    rw [List.foldlM_cons] at h
    obtain ⟨next, hp, h⟩ := exists_of_bind_eq_ok h
    obtain ⟨l, hkind, hvalue, -⟩ := write_eq_ok hp
    have hone : p.write? = some (l, p.value) := by
      rw [Property.write?, hkind]
      rfl
    have hnext : next.affectsLayout = (c.affectsLayout || l.affectsLayout) := by
      simp only [write, Style.apply, hkind, hvalue] at hp
      rw [← Except.ok.inj hp]
      simp [Property.affectsLayout, hkind, PropertyKind.affectsLayout]
    rw [ih h, hnext, List.filterMap_cons_some hone, List.any_cons, Bool.or_assoc]

/-- The step. -/
theorem affectsLayout_writeExpanded {p : Property}
    (h : (c.writeExpanded parent limit file p).result = .ok c') :
    c'.affectsLayout =
      (c.affectsLayout || (p.writes c.vars limit).any fun w => w.1.affectsLayout) := by
  rcases writeExpanded_ok_cases h with ⟨ps, hexpand, h⟩ | ⟨e, hexpand, rfl⟩
  · simp only [Property.writes, hexpand]
    exact affectsLayout_foldlM_write h
  · simp [Property.writes, hexpand]

/-- The run. -/
theorem affectsLayout_foldlM_writeExpanded {ps : List Property}
    (h : (ps.foldlM (writeExpanded parent limit file) c).result = .ok c') :
    c'.affectsLayout = (c.affectsLayout ||
      (ps.flatMap (Property.writes c.vars limit)).any fun w => w.1.affectsLayout) := by
  induction ps generalizing c with
  | nil =>
    obtain rfl : c = c' := Except.ok.inj h
    simp
  | cons p ps ih =>
    rw [List.foldlM_cons, Traced.bind_result_eq_ok] at h
    obtain ⟨next, hp, h⟩ := h
    obtain ⟨-, -, hvars, -⟩ := writeExpanded_eq_ok hp
    rw [ih h, hvars, affectsLayout_writeExpanded hp, List.flatMap_cons, List.any_append,
      Bool.or_assoc]

end Computed

namespace Cascade

/-- **A computed style tells whether a longhand of the layout was applied, and if none was, all of
them are as in a fresh style.** -/
theorem compute_affectsLayout {rules : List Rule} {parent : Option Style}
    {parentVariables : Option Variables} {limit : Option Int} {file : Option String} {c : Computed}
    (h : (compute rules parent parentVariables limit file).result = .ok c) :
    (c.affectsLayout = true ↔ ∃ rule ∈ rules, ∃ p ∈ rule.properties, ∃ l : Longhand,
        l.affectsLayout = true ∧ p.Applies (customProperties rules parentVariables) limit l) ∧
      (c.affectsLayout = false → ∀ kind : PropertyKind, kind.affectsLayout = true →
        ∀ l, kind.longhand? = some l → c.style.get l = (Style.fresh parent).get l) := by
  generalize hvars : customProperties rules parentVariables = vars
  have hstart : (Computed.start parent parentVariables
      ((Rule.cascadeOrder rules).flatMap Rule.vars)).vars = vars := hvars
  obtain ⟨hstyle, -, -⟩ := Computed.foldlM_writeExpanded_eq_ok h
  have hflag := Computed.affectsLayout_foldlM_writeExpanded h
  rw [hstart] at hstyle hflag
  rw [Computed.start, Bool.false_or] at hflag
  refine ⟨?_, fun hfalse kind hkind l hl => ?_⟩
  · rw [hflag, List.any_eq_true]
    constructor
    · rintro ⟨w, hw, hlayout⟩
      obtain ⟨p, hp, hw⟩ := List.mem_flatMap.mp hw
      obtain ⟨rule, hrule, hp⟩ := mem_writes_iff.mp hp
      exact ⟨rule, (Rule.cascadeOrder_perm rules).mem_iff.mp hrule, p, hp, w.1, hlayout,
        Property.applies_iff.mpr ⟨w, hw, rfl⟩⟩
    · rintro ⟨rule, hrule, p, hp, l, hlayout, happlies⟩
      obtain ⟨w, hw, rfl⟩ := Property.applies_iff.mp happlies
      have hmem := mem_writes_iff.mpr ⟨rule, (Rule.cascadeOrder_perm rules).mem_iff.mpr hrule, hp⟩
      exact ⟨w, List.mem_flatMap.mpr ⟨p, hmem, hw⟩, hlayout⟩
  · have hlayout : l.affectsLayout = true := by
      cases kind with
      | longhand k => exact Option.some_inj.mp hl ▸ hkind
      | shorthand s => exact absurd hl (by simp [PropertyKind.longhand?])
    rw [hstyle]
    refine Style.get_writeAll_of_ne fun w hw hwl => ?_
    rw [hflag] at hfalse
    have hw' := List.any_eq_false.mp hfalse w hw
    rw [hwl] at hw'
    exact hw' hlayout

/-- The text of a shorthand is resolved and applies a longhand of the layout.  Without it there is
only a declaration that cannot be resolved, and what it declares is as in a fresh style. -/
theorem compute_affectsLayout_deferred :
    let border := Property.deferred (.shorthand .border) "var(--b)" .first
    let align := Property.deferred (.longhand .textAlign) "var(--m)" .first
    let vars := [("--b", "thin red")]
    (∃ p ∈ [border, align], ∃ l : Longhand, l.affectsLayout = true ∧
        p.Applies (customProperties [.ofSelector [] [border, align] vars 0] none) (some 8) l) ∧
      (compute [.ofSelector [] [align] vars 0] none none (some 8) none).result.toOption.map
        (·.style.get .textAlign) = some ((Style.fresh none).get .textAlign) := by
  intro border align vars
  constructor
  · have hrun : (compute [.ofSelector [] [border, align] vars 0] none none (some 8)
        none).result.toOption.map (·.affectsLayout) = some true := by decide +kernel
    obtain ⟨c, hc, hflag⟩ := Option.map_eq_some_iff.mp hrun
    obtain ⟨rule, hrule, happlies⟩ :=
      (compute_affectsLayout (eq_ok_of_toOption hc)).1.mp hflag
    obtain rfl := List.mem_singleton.mp hrule
    exact happlies
  · have hrun : (compute [.ofSelector [] [align] vars 0] none none (some 8)
        none).result.toOption.map (·.affectsLayout) = some false := by decide +kernel
    obtain ⟨c, hc, hflag⟩ := Option.map_eq_some_iff.mp hrun
    rw [hc, Option.map_some]
    exact congrArg some ((compute_affectsLayout (eq_ok_of_toOption hc)).2 hflag
      (.longhand .textAlign) rfl .textAlign rfl)

end Cascade

end Styling
