import Mathlib
import Styling.Proofs.Sheet.Index
import Styling.Proofs.Value.Accepting

/-!
# What a style sheet is read from

Reading a sheet goes through its rules, their blocks and their declarations.  What is malformed is
reported and skipped, so the only thing that ends the reading is a fault of arithmetic; and all
properties of a sheet come from declarations that were read.

* `Source.fault?` is the first fault of a text: an integer with too many digits, or what the first
  declaration comes to whose numbers have no result.
* `Stylesheet.read_eq_error_iff` says that reading fails with this fault and in no other case.
* `Stylesheet.isRead_of_read` says that every property of a sheet was read by some kind of property.
-/

namespace Styling

/-- A chain of two computations fails if one of them does. -/
theorem Traced.bind_result_eq_error {ε α β : Type} {x : Traced ε α} {f : α → Traced ε β} {e : ε} :
    (x >>= f).result = .error e ↔
      x.result = .error e ∨ ∃ a, x.result = .ok a ∧ (f a).result = .error e := by
  obtain ⟨events, _ | a⟩ := x
  · simp [bind, andThen]
  · simp [bind, andThen]

/-- A computation that does not fail goes on. -/
theorem Traced.bind_result_of_ok {ε α β : Type} {x : Traced ε α} {f : α → Traced ε β} {a : α}
    (h : x.result = .ok a) : (x >>= f).result = (f a).result := by
  rw [result_bind, h]
  rfl

theorem Traced.bind_result_of_error {ε α β : Type} {x : Traced ε α} {f : α → Traced ε β} {e : ε}
    (h : x.result = .error e) : (x >>= f).result = .error e :=
  Traced.bind_result_eq_error.mpr (Or.inl h)

/-! ## The faults of a text -/

namespace DeclarationSyntax

/-- The value of a declaration, before its first component. -/
def cursor (source : Source) (d : DeclarationSyntax) : Cursor :=
  .ofComponents source d.value d.stop

/-- The text that a custom property is kept as. -/
def raw (source : Source) (d : DeclarationSyntax) : String :=
  match d.value with
  | [] => ""
  | first :: _ => Text.trim (source.slice first.start d.stop)

/-- The fault that reading a declaration comes to.  A custom property is kept as text. -/
def fault? (source : Source) (d : DeclarationSyntax) : Option Fault :=
  if d.isCustom then none
  else
    match Declaration.read d.name (d.cursor source) with
    | .error (.fault f) => some f
    | _ => none

end DeclarationSyntax

/-- The declarations of a rule that are read: those in its block, if its selectors are read. -/
def RuleSyntax.declarations (source : Source) (r : RuleSyntax) : List DeclarationSyntax :=
  match r.head, r.block with
  | .qualified, some block =>
    match Selector.listOfCursor (.ofComponents source r.prelude block.start) with
    | .ok _ => (DeclarationSyntax.ofComponents source block.children).value
    | .error _ => []
  | _, _ => []

/-- The first fault that reading a text as a style sheet comes to. -/
def Source.fault? (s : Source) : Option Fault :=
  match s.rules with
  | .error f => some f
  | .ok parsed =>
    (parsed.value.flatMap (RuleSyntax.declarations s)).findSome? (DeclarationSyntax.fault? s)

/-- A text has rules unless it has an integer with too many digits. -/
theorem Source.rules_eq_error_iff {s : Source} {f : Fault} :
    s.rules = .error f ↔ f = .digitLimit ∧ ∃ l ∈ s.lexemes, l.token.kind.isOversized = true := by
  rw [← List.any_eq_true]
  simp only [Source.rules, components, componentsBy, lexBy, lexemes, bind, Except.bind]
  cases (s.lexemesBy scanToken).any fun l => l.token.kind.isOversized with
  | true => simp [eq_comm]
  | false => simp [pure, Except.pure]

/-- The property is one of those that some kind of property reads from a value, all numbers of which
are numbers. -/
def Property.IsRead (p : Property) : Prop :=
  ∃ kind c ps, c.IsComparable ∧ PropertyKind.readCursor kind c = .ok ps ∧ p ∈ ps

/-! ## The walk -/

namespace Stylesheet

variable {source : Source} {file : Option String}

/-- What is reported of a declaration does not decide its result. -/
theorem readDeclaration_result (source : Source) (file : Option String) (d : DeclarationSyntax) :
    (readDeclaration source file d).result =
      if d.isCustom then .ok ([], [(d.name, d.raw source)])
      else
        match Declaration.read d.name (d.cursor source) with
        | .ok ps => .ok (ps, [])
        | .error (.refused _) => .ok ([], [])
        | .error (.fault f) => .error f := by
  unfold readDeclaration DeclarationSyntax.cursor DeclarationSyntax.raw
  cases d.isCustom with
  | true => cases d.important <;> rfl
  | false =>
    cases Declaration.read d.name (.ofComponents source d.value d.stop) with
    | ok ps => cases d.important <;> rfl
    | error e => rcases e with (⟨reason, l⟩ | ⟨reason, l⟩ | l) | f <;> cases d.important <;> rfl

/-- A declaration comes to a fault, or is read as properties of its kind. -/
theorem readDeclaration_cases (source : Source) (file : Option String) {d : DeclarationSyntax}
    (hd : d.IsComparable) :
    match (readDeclaration source file d).result with
    | .ok (ps, _) => d.fault? source = none ∧ ∀ p ∈ ps, p.IsRead
    | .error f => d.fault? source = some f := by
  rw [readDeclaration_result, DeclarationSyntax.fault?]
  cases d.isCustom with
  | true => exact ⟨rfl, fun p hp => absurd hp List.not_mem_nil⟩
  | false =>
    rw [if_neg Bool.false_ne_true, if_neg Bool.false_ne_true]
    cases hread : Declaration.read d.name (d.cursor source) with
    | error e =>
      cases e with
      | fault f => rfl
      | refused r => exact ⟨rfl, fun p hp => absurd hp List.not_mem_nil⟩
    | ok ps =>
      refine ⟨rfl, fun p hp => ?_⟩
      rw [Declaration.read] at hread
      split at hread
      next kind _ => exact ⟨kind, d.cursor source, ps, hd, hread, hp⟩
      next => exact absurd hread (by simp)

/-- A list of declarations comes to the first fault among them, or all are read. -/
theorem readDeclarations_cases (source : Source) (file : Option String)
    {ds : List DeclarationSyntax} (hds : ∀ d ∈ ds, d.IsComparable) :
    match (readDeclarations source file ds).result with
    | .ok (ps, _) => ds.findSome? (DeclarationSyntax.fault? source) = none ∧ ∀ p ∈ ps, p.IsRead
    | .error f => ds.findSome? (DeclarationSyntax.fault? source) = some f := by
  induction ds with
  | nil => exact ⟨rfl, fun p hp => absurd hp List.not_mem_nil⟩
  | cons d ds ih =>
    obtain ⟨hd, hds⟩ := List.forall_mem_cons.mp hds
    have hd := readDeclaration_cases source file hd
    have ih := ih hds
    rw [readDeclarations, List.findSome?_cons]
    cases hone : (readDeclaration source file d).result with
    | error f =>
      rw [hone] at hd
      rw [Traced.bind_result_of_error hone, hd]
    | ok first =>
      obtain ⟨ps, vars⟩ := first
      rw [hone] at hd
      obtain ⟨hnone, hps⟩ := hd
      rw [Traced.bind_result_of_ok hone, hnone]
      dsimp only
      cases hmore : (readDeclarations source file ds).result with
      | error f =>
        rw [hmore] at ih
        rwa [Traced.bind_result_of_error hmore]
      | ok more =>
        obtain ⟨qs, moreVariables⟩ := more
        rw [hmore] at ih
        rw [Traced.bind_result_of_ok hmore]
        refine ⟨ih.1, fun p hp => ?_⟩
        exact (List.mem_append.mp hp).elim (hps p) (ih.2 p)

/-- A rule comes to the first fault among its declarations, or all of them are read. -/
theorem readRule_cases (source : Source) (file : Option String) {r : RuleSyntax}
    (hr : r.IsComparable) :
    match (readRule source file r).result with
    | .ok rules => (r.declarations source).findSome? (DeclarationSyntax.fault? source) = none ∧
        ∀ rule ∈ rules, ∀ p ∈ rule.properties, p.IsRead
    | .error f => (r.declarations source).findSome? (DeclarationSyntax.fault? source) = some f := by
  have hnothing : ∀ rule ∈ ([] : List Rule), ∀ p ∈ rule.properties, p.IsRead :=
    fun rule hrule => absurd hrule List.not_mem_nil
  rw [readRule, RuleSyntax.declarations]
  cases r.head with
  | atRule name => exact ⟨rfl, hnothing⟩
  | qualified =>
    cases hfound : r.block with
    | none => exact ⟨rfl, hnothing⟩
    | some block =>
      dsimp only
      cases Selector.listOfCursor (.ofComponents source r.prelude block.start) with
      | error refusal => exact ⟨rfl, hnothing⟩
      | ok selectors =>
        dsimp only
        have hblock := readDeclarations_cases source file
          (DeclarationSyntax.isComparable_ofComponents source (hr block hfound))
        have hresult : (readBlock source file block.children).result = (readDeclarations source file
            (DeclarationSyntax.ofComponents source block.children).value).result := rfl
        rw [← hresult] at hblock
        cases hread : (readBlock source file block.children).result with
        | error f =>
          rw [hread] at hblock
          rwa [Traced.bind_result_of_error hread]
        | ok read =>
          obtain ⟨ps, vars⟩ := read
          rw [hread] at hblock
          rw [Traced.bind_result_of_ok hread]
          refine ⟨hblock.1, fun rule hrule => ?_⟩
          obtain ⟨selector, -, rfl⟩ := List.mem_map.mp hrule
          exact hblock.2

/-- A list of rules comes to the first fault among their declarations, or all of them are read. -/
theorem readRules_cases (source : Source) (file : Option String) {rs : List RuleSyntax}
    (hrs : ∀ r ∈ rs, r.IsComparable) :
    match (readRules source file rs).result with
    | .ok rules => (rs.flatMap (RuleSyntax.declarations source)).findSome?
        (DeclarationSyntax.fault? source) = none ∧ ∀ rule ∈ rules, ∀ p ∈ rule.properties, p.IsRead
    | .error f => (rs.flatMap (RuleSyntax.declarations source)).findSome?
        (DeclarationSyntax.fault? source) = some f := by
  induction rs with
  | nil => exact ⟨rfl, fun rule hrule => absurd hrule List.not_mem_nil⟩
  | cons r rs ih =>
    obtain ⟨hr, hrs⟩ := List.forall_mem_cons.mp hrs
    have hr := readRule_cases source file hr
    have ih := ih hrs
    rw [readRules, List.flatMap_cons, List.findSome?_append]
    cases hone : (readRule source file r).result with
    | error f =>
      rw [hone] at hr
      rw [Traced.bind_result_of_error hone, hr]
      rfl
    | ok first =>
      rw [hone] at hr
      rw [Traced.bind_result_of_ok hone, hr.1, Option.none_or]
      cases hmore : (readRules source file rs).result with
      | error f =>
        rw [hmore] at ih
        rwa [Traced.bind_result_of_error hmore]
      | ok more =>
        rw [hmore] at ih
        rw [Traced.bind_result_of_ok hmore]
        refine ⟨ih.1, fun rule hrule => ?_⟩
        exact (List.mem_append.mp hrule).elim (hr.2 rule) (ih.2 rule)

/-- Sorting and numbering rules leaves all but their places as it is. -/
theorem exists_mem_of_mem_arrange {rules : List Rule} {rule : Rule} (h : rule ∈ arrange rules) :
    ∃ r ∈ rules, ∃ order, rule = { r with order } := by
  obtain ⟨i, hi, rfl⟩ := List.mem_mapIdx.mp h
  exact ⟨_, List.mem_mergeSort.mp (List.getElem_mem hi), i, rfl⟩

/-- A sheet is read if the rules of its text are, and holds these rules arranged. -/
theorem read_eq_ok_iff {text : String} {options : Options} {sheet : Stylesheet} :
    (read text options).result = .ok sheet ↔
      ∃ parsed rules, (Source.ofString text).rules = .ok parsed ∧
        (readRules (.ofString text) options.fileName parsed.value).result = .ok rules ∧
        ofRules (arrange rules) options = sheet := by
  simp only [read, Traced.bind_result_eq_ok, Traced.ofExcept_result, Traced.reportAll_result,
    Traced.report_result, Traced.pure_result, Except.ok.injEq]
  constructor
  · rintro ⟨parsed, hparsed, -, -, rules, hrules, -, -, rfl⟩
    exact ⟨parsed, rules, hparsed, hrules, rfl⟩
  · rintro ⟨parsed, rules, hparsed, hrules, rfl⟩
    exact ⟨parsed, hparsed, (), trivial, rules, hrules, (), trivial, rfl⟩

/-- A text comes to its first fault, or its rules are read. -/
theorem read_cases (text : String) (options : Options) :
    match (read text options).result with
    | .ok sheet => (Source.ofString text).fault? = none ∧
        ∀ rule ∈ sheet.rules, ∀ p ∈ rule.properties, p.IsRead
    | .error f => (Source.ofString text).fault? = some f := by
  rw [read, Source.fault?]
  dsimp only
  cases hparsed : (Source.ofString text).rules with
  | error f => rw [Traced.bind_result_of_error (Traced.ofExcept_result _)]
  | ok parsed =>
    rw [Traced.bind_result_of_ok (Traced.ofExcept_result _),
      Traced.bind_result_of_ok (Traced.reportAll_result _)]
    have hrules := readRules_cases (.ofString text) options.fileName
      (Source.isComparable_of_rules hparsed)
    cases hread : (readRules (.ofString text) options.fileName parsed.value).result with
    | error f =>
      rw [hread] at hrules
      rwa [Traced.bind_result_of_error hread]
    | ok rules =>
      rw [hread] at hrules
      rw [Traced.bind_result_of_ok hread]
      refine ⟨hrules.1, fun rule hrule => ?_⟩
      obtain ⟨r, hr, order, rfl⟩ := exists_mem_of_mem_arrange hrule
      exact hrules.2 r hr

/-- **Reading a style sheet fails with the first fault of its text, and in no other case.** -/
theorem read_eq_error_iff {text : String} {options : Options} {f : Fault} :
    (read text options).result = .error f ↔ (Source.ofString text).fault? = some f := by
  have hcases := read_cases text options
  constructor
  · intro h
    rwa [h] at hcases
  · intro h
    cases hread : (read text options).result with
    | error g =>
      rw [hread] at hcases
      rw [Option.some_inj.mp (hcases.symm.trans h)]
    | ok sheet =>
      rw [hread] at hcases
      exact absurd (hcases.1.symm.trans h) (by simp)

/-- Every property of a sheet was read by a kind of property. -/
theorem isRead_of_read {text : String} {options : Options} {sheet : Stylesheet}
    (h : (read text options).result = .ok sheet) :
    ∀ rule ∈ sheet.rules, ∀ p ∈ rule.properties, p.IsRead := by
  have hcases := read_cases text options
  rw [h] at hcases
  exact hcases.2

/-- Every property that matters for an element was read by a kind of property. -/
theorem isRead_of_mem_matching {text : String} {options : Options} {sheet : Stylesheet}
    (h : (read text options).result = .ok sheet) (e : Element) :
    ∀ rule ∈ sheet.matching e, ∀ p ∈ rule.properties, p.IsRead := by
  rw [matching_eq_filter_of_read h e]
  exact fun rule hrule => isRead_of_read h rule (List.mem_of_mem_filter hrule)

end Stylesheet

end Styling
