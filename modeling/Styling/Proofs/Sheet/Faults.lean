import Mathlib
import Styling.Proofs.Sheet.LastWrite
import Styling.Proofs.Sheet.Reading

/-!
# What stops a style sheet

Whatever is wrong with a declaration, a selector or a custom property is reported and skipped.  A
fault of arithmetic is not: it comes from below the style language, nothing steps back from it, and
so it ends the reading of the whole sheet or the computation of the whole style.  Nothing else does.

* `Cascade.fault?` is the fault of the first property that comes to one when it is written.
* `Computed.writeExpanded_cases` is the step, `Computed.foldlM_writeExpanded_cases` the run.
* `Stylesheet.fails_iff_fault` is about reading a sheet and computing styles from it.
-/

namespace Styling

namespace Property

variable {vars : Variables} {limit : Option Int} {p : Property}

/-- The fault that resolving a property or reading it anew comes to. -/
def fault? (vars : Variables) (limit : Option Int) (p : Property) : Option Fault :=
  match (p.expand vars limit).result with
  | .error f => some f
  | .ok _ => none

/-- What is read is deferred, or a longhand with its value. -/
theorem IsRead.isDeferred_or_isSettled (h : p.IsRead) :
    p.value.isDeferred = true ∨ ∃ ls, p.IsSettled ls := by
  obtain ⟨kind, c, ps, -, hread, hp⟩ := h
  have hcases := kind.readCursor_cases c
  rw [hread] at hcases
  rcases hcases with ⟨rfl, -⟩ | ⟨hps, -⟩
  · obtain rfl := List.mem_singleton.mp hp
    exact Or.inl rfl
  · exact Or.inr ⟨_, hps p hp⟩

/-- What is written for a property that was read are longhands with their values. -/
theorem IsRead.exists_isSettled_of_expand (h : p.IsRead) {ps : List Property}
    (hexpand : (p.expand vars limit).result = .ok (.ok ps)) : ∃ ls, ∀ q ∈ ps, q.IsSettled ls := by
  rcases expand_eq_ok hexpand with ⟨hvalue, rfl⟩ | hsettled
  · obtain ⟨ls, hp⟩ := h.isDeferred_or_isSettled.resolve_left fun hdeferred =>
      Bool.false_ne_true (hvalue.symm.trans hdeferred)
    exact ⟨ls, fun q hq => List.mem_singleton.mp hq ▸ hp⟩
  · exact ⟨_, hsettled⟩

end Property

namespace Computed

variable (parent : Option Style) (limit : Option Int) (file : Option String)

/-- Longhands with their values are always written. -/
theorem exists_foldlM_write {ls : List Longhand} {ps : List Property}
    (h : ∀ p ∈ ps, p.IsSettled ls) (c : Computed) :
    ∃ c', ps.foldlM (write parent) c = .ok c' := by
  induction ps generalizing c with
  | nil => exact ⟨c, rfl⟩
  | cons p ps ih =>
    obtain ⟨hvalue, l, -, hkind⟩ := h p List.mem_cons_self
    obtain ⟨next, hnext⟩ : ∃ next, c.write parent p = .ok next := by
      simp only [write, Style.apply, hkind, hvalue]
      exact ⟨_, rfl⟩
    obtain ⟨c', hc'⟩ := ih (fun q hq => h q (List.mem_cons_of_mem p hq)) next
    refine ⟨c', ?_⟩
    rw [List.foldlM_cons, hnext]
    exact hc'

/-- The step: a property that was read comes to its fault, or it is written or reported. -/
theorem writeExpanded_cases (c : Computed) {p : Property} (h : p.IsRead) :
    match (c.writeExpanded parent limit file p).result with
    | .ok c' => p.fault? c.vars limit = none ∧ c'.vars = c.vars
    | .error err => ∃ f, err = .fault f ∧ p.fault? c.vars limit = some f := by
  rw [writeExpanded, Property.fault?]
  cases hexpand : (p.expand c.vars limit).result with
  | error f =>
    have hfault : ((p.expand c.vars limit).mapError CascadeError.fault).result =
        .error (.fault f) := by rw [Traced.mapError, hexpand]; rfl
    rw [Traced.bind_result_of_error hfault]
    exact ⟨f, rfl, rfl⟩
  | ok expanded =>
    have hok : ((p.expand c.vars limit).mapError CascadeError.fault).result = .ok expanded := by
      rw [Traced.mapError, hexpand]; rfl
    rw [Traced.bind_result_of_ok hok]
    cases expanded with
    | error e => exact ⟨rfl, rfl⟩
    | ok ps =>
      obtain ⟨ls, hsettled⟩ := h.exists_isSettled_of_expand hexpand
      obtain ⟨c', hc'⟩ := exists_foldlM_write parent hsettled c
      dsimp only
      rw [Traced.ofExcept_result, hc']
      exact ⟨rfl, (foldlM_write_eq_ok hc').2.2.1⟩

/-- The run: a list of properties comes to the first fault among them, or all are written or
reported. -/
theorem foldlM_writeExpanded_cases (c : Computed) {ps : List Property} (h : ∀ p ∈ ps, p.IsRead) :
    match (ps.foldlM (writeExpanded parent limit file) c).result with
    | .ok _ => ps.findSome? (Property.fault? c.vars limit) = none
    | .error err => ∃ f, err = .fault f ∧ ps.findSome? (Property.fault? c.vars limit) = some f := by
  induction ps generalizing c with
  | nil => rfl
  | cons p ps ih =>
    have hp := writeExpanded_cases parent limit file c (h p List.mem_cons_self)
    rw [List.foldlM_cons, List.findSome?_cons]
    cases hone : (c.writeExpanded parent limit file p).result with
    | error err =>
      rw [hone] at hp
      obtain ⟨f, rfl, hf⟩ := hp
      rw [Traced.bind_result_of_error hone, hf]
      exact ⟨f, rfl, rfl⟩
    | ok next =>
      rw [hone] at hp
      obtain ⟨hnone, hvars⟩ := hp
      rw [Traced.bind_result_of_ok hone, hnone, ← hvars]
      exact ih next fun q hq => h q (List.mem_cons_of_mem p hq)

end Computed

namespace Cascade

/-- The fault of the first property of some rules that comes to one when it is written. -/
def fault? (rules : List Rule) (parentVariables : Option Variables) (limit : Option Int) :
    Option Fault :=
  (writes (Rule.cascadeOrder rules)).findSome?
    (Property.fault? (customProperties rules parentVariables) limit)

/-- Rules whose properties were read come to their first fault, or have a style. -/
theorem compute_cases {rules : List Rule} (h : ∀ rule ∈ rules, ∀ p ∈ rule.properties, p.IsRead)
    (parent : Option Style) (parentVariables : Option Variables) (limit : Option Int)
    (file : Option String) :
    match (compute rules parent parentVariables limit file).result with
    | .ok _ => fault? rules parentVariables limit = none
    | .error err => ∃ f, err = .fault f ∧ fault? rules parentVariables limit = some f := by
  refine Computed.foldlM_writeExpanded_cases parent limit file (.start parent parentVariables
    ((Rule.cascadeOrder rules).flatMap Rule.vars)) fun p hp => ?_
  obtain ⟨rule, hrule, hp⟩ := mem_writes_iff.mp hp
  exact h rule ((Rule.cascadeOrder_perm rules).mem_iff.mp hrule) p hp

end Cascade

namespace Stylesheet

/-- Computing a style fails with the first fault among what is written, and in no other case. -/
theorem compute_eq_error_iff {text : String} {options : Options} {sheet : Stylesheet}
    (hread : (read text options).result = .ok sheet) {e : Element} {parent : Option Style}
    {parentVariables : Option Variables} {err : CascadeError} :
    (sheet.compute e parent parentVariables).result = .error err ↔ ∃ f, err = .fault f ∧
      Cascade.fault? (sheet.matching e) parentVariables sheet.options.varLimit = some f := by
  have hcases := Cascade.compute_cases (isRead_of_mem_matching hread e) parent parentVariables
    sheet.options.varLimit sheet.options.fileName
  rw [compute]
  constructor
  · intro h
    rwa [h] at hcases
  · rintro ⟨f, rfl, hf⟩
    cases hrun : (Cascade.compute (sheet.matching e) parent parentVariables
        sheet.options.varLimit sheet.options.fileName).result with
    | ok c =>
      rw [hrun] at hcases
      exact absurd (hcases.symm.trans hf) (by simp)
    | error err =>
      rw [hrun] at hcases
      obtain ⟨g, rfl, hg⟩ := hcases
      rw [Option.some_inj.mp (hg.symm.trans hf)]

/-- **Only a fault of arithmetic stops a style sheet.**  Reading a text fails exactly with the first
fault in it, and computing a style from a sheet that was read fails exactly with the first fault in
what is written; everything else that is wrong is confined to its declaration or rule. -/
theorem fails_iff_fault (text : String) (options : Options) :
    (∀ f, (read text options).result = .error f ↔ (Source.ofString text).fault? = some f) ∧
    ∀ sheet, (read text options).result = .ok sheet →
      ∀ e parent parentVariables err,
        (sheet.compute e parent parentVariables).result = .error err ↔ ∃ f, err = .fault f ∧
          Cascade.fault? (sheet.matching e) parentVariables sheet.options.varLimit = some f :=
  ⟨fun _ => read_eq_error_iff, fun _ hread _ _ _ _ => compute_eq_error_iff hread⟩

/-- A value that is refused, a call without a value, a lone word, an unknown pseudo-class and an
at-rule do not stop a sheet. -/
theorem fails_iff_fault_skipped :
    ∃ sheet e c, (read ".a\x7bcolor:red red;z-index:var(--n);x\x7d .b:c\x7b\x7d @d;"
        .default).result = .ok sheet ∧
      (sheet.compute e none none).result = .ok c ∧ sheet.rules.length = 1 := by
  let text := ".a\x7bcolor:red red;z-index:var(--n);x\x7d .b:c\x7b\x7d @d;"
  let e : Element := ⟨⟨["a"], false, false, false, true⟩, []⟩
  have hnone : (Source.ofString text).fault? = none := by decide +kernel
  have hobserved : (read text .default).result.toOption.map (fun sheet =>
      (Cascade.fault? (sheet.matching e) none sheet.options.varLimit, sheet.rules.length)) =
        some (none, 1) := by decide +kernel
  obtain ⟨hstops, hfails⟩ := fails_iff_fault text .default
  cases hread : (read text .default).result with
  | error f => exact absurd (((hstops f).mp hread).symm.trans hnone) (by simp)
  | ok sheet =>
    rw [hread] at hobserved
    obtain ⟨hcascade, hlength⟩ := Prod.mk.inj (Option.some_inj.mp hobserved)
    cases hcompute : (sheet.compute e none none).result with
    | error err =>
      obtain ⟨f, -, hf⟩ := (hfails sheet hread e none none err).mp hcompute
      exact absurd (hf.symm.trans hcascade) (by simp)
    | ok c => exact ⟨sheet, e, c, rfl, hcompute, hlength⟩

/-- The angle of a rotation may be too large to have a sine.  If it is declared the sheet is not
read, and if it comes from a custom property the style is not computed. -/
theorem exists_fault_of_rotate :
    (read ".a\x7btransform:rotate(1e999rad)\x7d" .default).result = .error .domain ∧
    ∃ sheet e,
      (read ".a\x7b--x:1e999rad;transform:rotate(var(--x))\x7d" .default).result = .ok sheet ∧
        (sheet.compute e none none).result = .error (.fault .domain) := by
  let e : Element := ⟨⟨["a"], false, false, false, true⟩, []⟩
  refine ⟨read_eq_error_iff.mpr (by decide +kernel), ?_⟩
  have hobserved : (read ".a\x7b--x:1e999rad;transform:rotate(var(--x))\x7d"
      .default).result.toOption.map (fun sheet =>
        Cascade.fault? (sheet.matching e) none sheet.options.varLimit) = some (some .domain) := by
    decide +kernel
  obtain ⟨sheet, hsheet, hcascade⟩ := Option.map_eq_some_iff.mp hobserved
  have hread := eq_ok_of_toOption hsheet
  exact ⟨sheet, e, hread, (compute_eq_error_iff hread).mpr ⟨_, rfl, hcascade⟩⟩

end Stylesheet

end Styling
