import Mathlib
import Styling.Sheet.Stylesheet

/-!
# The index finds every rule

A sheet looks for matching rules only in the files of the classes of a node and among the rules that
are filed nowhere.  That is enough: the class under which a rule is filed is one that every node it
selects must have.

* `Selector.key?_mem_classes`: the class a chain is filed under belongs to every node it selects.
* `RuleIndex.wildcard_ofRules`, `RuleIndex.lookup_ofRules`: the files split the rules by their keys.
* `Rule.IsArranged` is the order of the rules of a sheet, and `Stylesheet.arrange` produces it.
* `Stylesheet.matching_eq_filter`: an arranged sheet finds the rules that select an element, in
  order and each once.
-/

namespace Styling

namespace Selector

/-- The first class of a reversed chain, before any combinator, belongs to a node that the chain
fits. -/
theorem reversedKey?_mem_classes {parts : List SelectorPart} {name : String} {n : Node}
    {ancestors : List Node} (hkey : reversedKey? parts = some name)
    (hfits : fits parts n ancestors = true) : name ∈ n.classes := by
  induction parts with
  | nil => simp [reversedKey?] at hkey
  | cons part rest ih =>
    cases part with
    | combinator c => simp [reversedKey?] at hkey
    | className other =>
      have hname : other = name := by simpa [reversedKey?] using hkey
      have hsat := (Bool.and_eq_true_iff.mp (by simpa only [fits] using hfits)).1
      rw [hname] at hsat
      simpa [SelectorPart.isSatisfiedBy] using hsat
    | wildcard =>
      have hrest := (Bool.and_eq_true_iff.mp (by simpa only [fits] using hfits)).2
      exact ih (by simpa only [reversedKey?] using hkey) hrest
    | pseudo p =>
      have hrest := (Bool.and_eq_true_iff.mp (by simpa only [fits] using hfits)).2
      exact ih (by simpa only [reversedKey?] using hkey) hrest

/-- The class a chain is filed under belongs to every node it selects. -/
theorem key?_mem_classes {s : Selector} {name : String} {e : Element} (hkey : s.key? = some name)
    (hsel : s.selects e = true) : name ∈ e.node.classes :=
  reversedKey?_mem_classes hkey (Bool.and_eq_true_iff.mp hsel).2

end Selector

namespace RuleIndex

/-- Filing a rule adds it to the end of its file and leaves every other file as it is. -/
theorem lookup_file (name other : String) (r : Rule) (entries : List (String × List Rule)) :
    ((file name r entries).lookup other).getD [] =
      (entries.lookup other).getD [] ++ if name = other then [r] else [] := by
  induction entries with
  | nil =>
    by_cases h : name = other
    · simp [file, h]
    · have hne : (other == name) = false := by simpa using Ne.symm h
      simp [file, List.lookup, h, hne]
  | cons entry rest ih =>
    obtain ⟨key, rules⟩ := entry
    by_cases hkey : key = name
    · subst hkey
      by_cases h : key = other
      · simp [file, List.lookup, h]
      · have hne : (other == key) = false := by simpa using Ne.symm h
        simp [file, List.lookup, h, hne]
    · by_cases h : other = key
      · subst h
        simp [file, List.lookup, hkey, Ne.symm hkey]
      · have hne : (other == key) = false := by simpa using h
        simpa [file, List.lookup, hkey, hne] using ih

/-- The rules of an index without a key after more rules are added. -/
theorem wildcard_foldl_insert (rules : List Rule) (index : RuleIndex) :
    (rules.foldl insert index).wildcard =
      index.wildcard ++ rules.filter fun r => r.selector.key? = none := by
  induction rules generalizing index with
  | nil => simp
  | cons r rules ih =>
    rw [List.foldl_cons, ih]
    cases h : r.selector.key? <;> simp [insert, h]

/-- A file of an index after more rules are added. -/
theorem lookup_foldl_insert (name : String) (rules : List Rule) (index : RuleIndex) :
    ((rules.foldl insert index).classes.lookup name).getD [] =
      (index.classes.lookup name).getD [] ++
        rules.filter fun r => r.selector.key? = some name := by
  induction rules generalizing index with
  | nil => simp
  | cons r rules ih =>
    rw [List.foldl_cons, ih]
    cases h : r.selector.key? with
    | none => simp [insert, h]
    | some key =>
      by_cases hkey : key = name
      · simp [insert, h, lookup_file, hkey]
      · simp [insert, h, lookup_file, hkey]

/-- The rules that are looked at for every node are those without a key. -/
theorem wildcard_ofRules (rules : List Rule) :
    (ofRules rules).wildcard = rules.filter fun r => r.selector.key? = none := by
  rw [ofRules, wildcard_foldl_insert]
  rfl

/-- The file of a class holds the rules with that key. -/
theorem lookup_ofRules (name : String) (rules : List Rule) :
    ((ofRules rules).classes.lookup name).getD [] =
      rules.filter fun r => r.selector.key? = some name := by
  rw [ofRules, lookup_foldl_insert]
  rfl

/-- A rule is a candidate for a node if it has no key or its key is a class of the node. -/
theorem mem_candidates_ofRules {rules : List Rule} {classes : List String} {r : Rule} :
    r ∈ (ofRules rules).candidates classes ↔
      r ∈ rules ∧ ∀ name, r.selector.key? = some name → name ∈ classes := by
  simp only [candidates, List.mem_append, List.mem_flatMap, List.mem_eraseDups, wildcard_ofRules,
    lookup_ofRules, List.mem_filter, decide_eq_true_eq]
  constructor
  · rintro (⟨hr, hkey⟩ | ⟨name, hname, hr, hkey⟩)
    · exact ⟨hr, fun name h => by simp [hkey] at h⟩
    · refine ⟨hr, fun other h => ?_⟩
      rw [hkey] at h
      exact Option.some_inj.mp h ▸ hname
  · rintro ⟨hr, hkey⟩
    cases h : r.selector.key? with
    | none => exact Or.inl ⟨hr, rfl⟩
    | some name => exact Or.inr ⟨name, hkey name h, hr, rfl⟩

theorem nodup_eraseDups {α : Type} [BEq α] [LawfulBEq α] (as : List α) : as.eraseDups.Nodup := by
  match as with
  | [] => simp
  | a :: as =>
    rw [List.eraseDups_cons, List.nodup_cons]
    refine ⟨fun h => ?_, nodup_eraseDups (as.filter fun b => !b == a)⟩
    have hmem := List.mem_eraseDups.mp h
    simp at hmem
termination_by as.length
decreasing_by
  have h := List.length_filter_le (fun b => !b == a) as
  simp only [List.length_cons]
  omega

/-- No rule is a candidate twice, however often a class is repeated. -/
theorem nodup_candidates_ofRules {rules : List Rule} (h : rules.Nodup) (classes : List String) :
    ((ofRules rules).candidates classes).Nodup := by
  simp only [candidates, wildcard_ofRules, lookup_ofRules]
  refine List.nodup_append.mpr ⟨h.filter _, List.nodup_flatMap.mpr ⟨fun _ _ => h.filter _, ?_⟩, ?_⟩
  · refine (nodup_eraseDups classes).imp fun {name other} hne r hr hr' => hne ?_
    have hname : r.selector.key? = some name := by simpa using (List.mem_filter.mp hr).2
    have hother : r.selector.key? = some other := by simpa using (List.mem_filter.mp hr').2
    exact Option.some_inj.mp (hname.symm.trans hother)
  · rintro r hr s hs rfl
    obtain ⟨name, -, hs⟩ := List.mem_flatMap.mp hs
    have hnone : r.selector.key? = none := by simpa using (List.mem_filter.mp hr).2
    have hsome : r.selector.key? = some name := by simpa using (List.mem_filter.mp hs).2
    rw [hnone] at hsome
    exact absurd hsome (by simp)

end RuleIndex

namespace Rule

/-- Rules stand in the order of a sheet: by specificity, and numbered from front to back. -/
def IsArranged (rules : List Rule) : Prop :=
  rules.Pairwise fun r s => r.specificity ≤ s.specificity ∧ r.order < s.order

/-- Two rules that may each be applied before the other are equal, if they have different numbers
unless they are equal. -/
theorem eq_of_precedes {rules : List Rule} (h : IsArranged rules) {r s : Rule} (hr : r ∈ rules)
    (hs : s ∈ rules) (hrs : r.precedes s = true) (hsr : s.precedes r = true) : r = s := by
  have horder : r.order = s.order := by
    simp only [precedes, Bool.or_eq_true, Bool.and_eq_true, decide_eq_true_eq, beq_iff_eq]
      at hrs hsr
    omega
  by_contra hne
  have hpair : rules.Pairwise fun r s => r.order ≠ s.order := h.imp fun h => Nat.ne_of_lt h.2
  have : Std.Symm fun r s : Rule => r.order ≠ s.order := ⟨fun _ _ h => h.symm⟩
  exact hpair.forall hr hs hne horder

namespace IsArranged

/-- The numbers of the rules of a sheet tell them apart. -/
theorem nodup {rules : List Rule} (h : IsArranged rules) : rules.Nodup :=
  h.imp fun hrs heq => absurd (congrArg Rule.order heq) (Nat.ne_of_lt hrs.2)

/-- The rules of a sheet stand in the order in which they are applied. -/
theorem pairwise_precedes {rules : List Rule} (h : IsArranged rules) :
    rules.Pairwise fun r s => r.precedes s = true :=
  h.imp fun hrs => by
    simp only [precedes, Bool.or_eq_true, Bool.and_eq_true, decide_eq_true_eq, beq_iff_eq]
    omega

end IsArranged

end Rule

namespace Stylesheet

/-- Sorting and numbering arranges rules. -/
theorem isArranged_arrange (rules : List Rule) : Rule.IsArranged (arrange rules) := by
  have htrans : ∀ r s t : Rule, decide (r.specificity ≤ s.specificity) = true →
      decide (s.specificity ≤ t.specificity) = true →
      decide (r.specificity ≤ t.specificity) = true := by
    intro r s t h₁ h₂
    simp only [decide_eq_true_eq] at *
    omega
  have htotal : ∀ r s : Rule, (decide (r.specificity ≤ s.specificity) ||
      decide (s.specificity ≤ r.specificity)) = true := by
    intro r s
    simp only [Bool.or_eq_true, decide_eq_true_eq]
    omega
  have hsorted := List.pairwise_mergeSort htrans htotal rules
  rw [List.pairwise_iff_getElem] at hsorted
  rw [Rule.IsArranged, List.pairwise_iff_getElem]
  intro i j hi hj hij
  simp only [arrange, List.length_mapIdx] at hi hj
  simp only [arrange, List.getElem_mapIdx]
  exact ⟨by simpa using hsorted i j hi hj hij, hij⟩

/-- A sheet of arranged rules finds those that select an element, in order. -/
theorem matching_eq_filter {rules : List Rule} (h : Rule.IsArranged rules) (options : Options)
    (e : Element) : (ofRules rules options).matching e = rules.filter (·.selects e) := by
  have hperm : (((RuleIndex.ofRules rules).candidates e.node.classes).filter (·.selects e)).Perm
      (rules.filter (·.selects e)) := by
    refine (List.perm_ext_iff_of_nodup
      ((RuleIndex.nodup_candidates_ofRules h.nodup _).filter _) (h.nodup.filter _)).mpr fun r => ?_
    simp only [List.mem_filter, RuleIndex.mem_candidates_ofRules]
    constructor
    · rintro ⟨⟨hr, -⟩, hsel⟩
      exact ⟨hr, hsel⟩
    · rintro ⟨hr, hsel⟩
      exact ⟨⟨hr, fun name hkey => Selector.key?_mem_classes hkey hsel⟩, hsel⟩
  have hsorted := (Rule.cascadeOrder_perm
    (((RuleIndex.ofRules rules).candidates e.node.classes).filter (·.selects e))).trans hperm
  refine List.Perm.eq_of_pairwise (fun r s hr hs hrs hsr => ?_) (Rule.pairwise_cascadeOrder _)
    (h.pairwise_precedes.filter _) hsorted
  have hr' := List.mem_of_mem_filter (hsorted.mem_iff.mp hr)
  exact Rule.eq_of_precedes h hr' (List.mem_of_mem_filter hs) hrs hsr

/-- A sheet that was read consists of arranged rules. -/
theorem exists_arrange_of_read {text : String} {options : Options} {sheet : Stylesheet}
    (h : (read text options).result = .ok sheet) :
    ∃ rules, sheet = ofRules (arrange rules) options := by
  simp only [read, Traced.bind_result_eq_ok] at h
  obtain ⟨parsed, -, _, -, rules, -, _, -, hsheet⟩ := h
  exact ⟨rules, (Except.ok.inj hsheet).symm⟩

/-- A sheet that was read finds the rules that select an element, in order. -/
theorem matching_eq_filter_of_read {text : String} {options : Options} {sheet : Stylesheet}
    (h : (read text options).result = .ok sheet) (e : Element) :
    sheet.matching e = sheet.rules.filter (·.selects e) := by
  obtain ⟨rules, rfl⟩ := exists_arrange_of_read h
  exact matching_eq_filter (isArranged_arrange rules) options e

/-- **A sheet that was read finds for an element the rules that select it, in the order of the sheet
and each once.** -/
theorem matching_of_read {text : String} {options : Options} {sheet : Stylesheet}
    (h : (read text options).result = .ok sheet) (e : Element) :
    sheet.matching e = sheet.rules.filter (·.selects e) ∧ (sheet.matching e).Nodup := by
  obtain ⟨rules, rfl⟩ := exists_arrange_of_read h
  have harranged := isArranged_arrange rules
  have heq := matching_eq_filter harranged options e
  exact ⟨heq, heq ▸ harranged.nodup.filter _⟩

/-- A node with a repeated class gets the rule that is filed under it once, next to rules of another
file and of none. -/
theorem matching_of_read_repeated_class :
    ∃ sheet e, (read ".b.a:hover, .c > .b, .d, * \x7b\x7d" .default).result = .ok sheet ∧
      e.node.classes = ["b", "a", "b"] ∧ sheet.matching e = sheet.rules.filter (·.selects e) ∧
      (sheet.matching e).map (·.order) = [0, 2, 3] := by
  let e : Element :=
    ⟨⟨["b", "a", "b"], true, false, false, true⟩, [⟨["c"], false, false, false, true⟩]⟩
  have hrun : (read ".b.a:hover, .c > .b, .d, * \x7b\x7d" .default).result.map
      (fun sheet => (sheet.rules.filter (·.selects e)).map (·.order)) = .ok [0, 2, 3] := by cbv
  cases hread : (read ".b.a:hover, .c > .b, .d, * \x7b\x7d" .default).result with
  | error f =>
    rw [hread] at hrun
    exact absurd hrun (by simp [Except.map])
  | ok sheet =>
    rw [hread] at hrun
    have hmatch := (matching_of_read hread e).1
    exact ⟨sheet, e, rfl, rfl, hmatch, hmatch ▸ Except.ok.inj hrun⟩

end Stylesheet

end Styling
