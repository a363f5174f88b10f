import Mathlib
import Styling.Proofs.Sheet.Reading

/-!
# What the rules of a text declare

Whatever is reported on the way, the rules of a sheet are determined by its text alone: one for each
selector of each rule whose selectors can be read, with the properties that its declarations are
read as and the texts of its custom properties.

* `RuleSyntax.rules` are the rules of a rule of the syntax, `Source.declared` those of a text.
* `Stylesheet.rules_of_read` says that a sheet has these rules, arranged.
-/

namespace Styling

/-- The properties that a declaration is read as: none if it is refused or custom. -/
def DeclarationSyntax.properties (source : Source) (d : DeclarationSyntax) : List Property :=
  if d.isCustom then []
  else
    match Declaration.read d.name (d.cursor source) with
    | .ok ps => ps
    | .error _ => []

namespace RuleSyntax

variable (source : Source) (r : RuleSyntax)

/-- The selectors of a rule, if it has a block and all of them can be read. -/
def selectors : List Selector :=
  match r.head, r.block with
  | .qualified, some block =>
    match Selector.listOfCursor (.ofComponents source r.prelude block.start) with
    | .ok selectors => selectors
    | .error _ => []
  | _, _ => []

/-- The properties declared in the block of a rule. -/
def properties : List Property :=
  (r.declarations source).flatMap (·.properties source)

/-- The custom properties declared in the block of a rule, with their texts. -/
def customs : VariableLayer :=
  ((r.declarations source).filter (·.isCustom)).map fun d => (d.name, d.raw source)

/-- The rules of a rule of the syntax, one for each selector, before they are numbered. -/
def rules : List Rule :=
  (r.selectors source).map fun s => .ofSelector s (r.properties source) (r.customs source) 0

end RuleSyntax

/-- The rules of a text in the order of the text. -/
def Source.declared (s : Source) : List Rule :=
  match s.rules with
  | .ok parsed => parsed.value.flatMap (RuleSyntax.rules s)
  | .error _ => []

namespace Stylesheet

variable {source : Source} {file : Option String} {text : String} {options : Options}
  {sheet : Stylesheet}

/-- A declaration that is read adds its properties, or itself if it is custom. -/
theorem readDeclaration_eq_ok {d : DeclarationSyntax} {ps : List Property} {vars : VariableLayer}
    (h : (readDeclaration source file d).result = .ok (ps, vars)) :
    ps = d.properties source ∧ vars = if d.isCustom then [(d.name, d.raw source)] else [] := by
  rw [readDeclaration_result] at h
  rw [DeclarationSyntax.properties]
  cases hd : d.isCustom with
  | true =>
    rw [hd, if_pos rfl] at h
    obtain ⟨rfl, rfl⟩ := Prod.mk.inj (Except.ok.inj h)
    exact ⟨rfl, rfl⟩
  | false =>
    rw [hd, if_neg Bool.false_ne_true] at h
    rw [if_neg Bool.false_ne_true, if_neg Bool.false_ne_true]
    split at h
    next hread =>
      obtain ⟨rfl, rfl⟩ := Prod.mk.inj (Except.ok.inj h)
      rw [hread]
      exact ⟨rfl, rfl⟩
    next hread =>
      obtain ⟨rfl, rfl⟩ := Prod.mk.inj (Except.ok.inj h)
      rw [hread]
      exact ⟨rfl, rfl⟩
    next => exact absurd h (by simp)

theorem readDeclarations_eq_ok {ds : List DeclarationSyntax} {ps : List Property}
    {vars : VariableLayer} (h : (readDeclarations source file ds).result = .ok (ps, vars)) :
    ps = ds.flatMap (·.properties source) ∧
      vars = (ds.filter (·.isCustom)).map fun d => (d.name, d.raw source) := by
  induction ds generalizing ps vars with
  | nil =>
    obtain ⟨rfl, rfl⟩ := Prod.mk.inj (Except.ok.inj h)
    exact ⟨rfl, rfl⟩
  | cons d ds ih =>
    simp only [readDeclarations, Traced.bind_result_eq_ok] at h
    obtain ⟨⟨first, firstVars⟩, hone, ⟨more, moreVars⟩, hmore, h⟩ := h
    obtain ⟨rfl, rfl⟩ := Prod.mk.inj (Except.ok.inj h)
    obtain ⟨rfl, rfl⟩ := readDeclaration_eq_ok hone
    obtain ⟨rfl, rfl⟩ := ih hmore
    refine ⟨rfl, ?_⟩
    cases hd : d.isCustom <;> simp [hd]

/-- A rule of the syntax that is read gives its rules. -/
theorem readRule_eq_ok {r : RuleSyntax} {rules : List Rule}
    (h : (readRule source file r).result = .ok rules) : rules = r.rules source := by
  rw [readRule] at h
  rw [RuleSyntax.rules, RuleSyntax.selectors, RuleSyntax.properties, RuleSyntax.customs,
    RuleSyntax.declarations]
  cases hhead : r.head with
  | atRule name =>
    rw [hhead] at h
    exact (Except.ok.inj h).symm
  | qualified =>
    cases hblock : r.block with
    | none =>
      rw [hhead, hblock] at h
      exact (Except.ok.inj h).symm
    | some block =>
      rw [hhead, hblock] at h
      dsimp only at h ⊢
      cases hread : Selector.listOfCursor (.ofComponents source r.prelude block.start) with
      | error refusal =>
        rw [hread] at h
        exact (Except.ok.inj h).symm
      | ok selectors =>
        rw [hread, Traced.bind_result_eq_ok] at h
        obtain ⟨⟨ps, vars⟩, hdeclared, h⟩ := h
        have hresult : (readBlock source file block.children).result = (readDeclarations source file
          (DeclarationSyntax.ofComponents source block.children).value).result := rfl
        obtain ⟨rfl, rfl⟩ := readDeclarations_eq_ok (hresult.symm.trans hdeclared)
        exact (Except.ok.inj h).symm

theorem readRules_eq_ok {rs : List RuleSyntax} {rules : List Rule}
    (h : (readRules source file rs).result = .ok rules) :
    rules = rs.flatMap (RuleSyntax.rules source) := by
  induction rs generalizing rules with
  | nil => exact (Except.ok.inj h).symm
  | cons r rs ih =>
    simp only [readRules, Traced.bind_result_eq_ok] at h
    obtain ⟨first, hone, more, hmore, h⟩ := h
    obtain rfl := Except.ok.inj h
    rw [readRule_eq_ok hone, ih hmore, List.flatMap_cons]

/-- **The rules of a sheet are those that its text declares, arranged.** -/
theorem rules_of_read (h : (read text options).result = .ok sheet) :
    sheet.rules = arrange (Source.ofString text).declared := by
  obtain ⟨parsed, rules, hparsed, hrules, rfl⟩ := read_eq_ok_iff.mp h
  rw [Source.declared, hparsed, readRules_eq_ok hrules]
  rfl

end Stylesheet

end Styling
