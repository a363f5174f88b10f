import Styling.Proofs.Sheet.Index
import Styling.Proofs.Sheet.Reading

/-!
# The order in which rules are handed over does not matter

The cascade sorts the rules it is given, so it never sees the order in which they come.  Sorting
settles their order only if no two of them are equally strong: the rules of a sheet are numbered,
and so two of them that may each be applied before the other are one and the same.

* `Rule.IsArranged.cascadeOrder_eq`: rules of a sheet have one order of application, whatever the
  order they come in.
* `Stylesheet.compute_eq_of_perm`: the computed style, its variables, its flag, its errors and its
  reports are the same for every order of the rules.
-/

namespace Styling

namespace Rule.IsArranged

/-- Rules taken from a sheet have one order of application, in whatever order they are handed over
and however often one of them is repeated. -/
theorem cascadeOrder_eq {sheet rules rules' : List Rule} (h : IsArranged sheet)
    (hmem : ∀ r ∈ rules, r ∈ sheet) (hperm : rules.Perm rules') :
    cascadeOrder rules = cascadeOrder rules' := by
  have hsorted : (cascadeOrder rules).Perm (cascadeOrder rules') :=
    (cascadeOrder_perm rules).trans (hperm.trans (cascadeOrder_perm rules').symm)
  refine List.Perm.eq_of_pairwise (fun r s hr hs hrs hsr => ?_) (pairwise_cascadeOrder rules)
    (pairwise_cascadeOrder rules') hsorted
  have hr' : r ∈ sheet := hmem r ((cascadeOrder_perm rules).mem_iff.mp hr)
  have hs' : s ∈ sheet :=
    hmem s (hperm.mem_iff.mpr ((cascadeOrder_perm rules').mem_iff.mp hs))
  exact eq_of_precedes h hr' hs' hrs hsr

end Rule.IsArranged

namespace Stylesheet

/-- A sheet that was read consists of arranged rules. -/
theorem isArranged_of_read {text : String} {options : Options} {sheet : Stylesheet}
    (h : (read text options).result = .ok sheet) : Rule.IsArranged sheet.rules := by
  obtain ⟨rules, rfl⟩ := exists_arrange_of_read h
  exact isArranged_arrange rules

/-- **The style computed from rules of one sheet does not depend on the order in which they are
handed over.** -/
theorem compute_eq_of_perm {text : String} {options : Options} {sheet : Stylesheet}
    {rules rules' : List Rule} (hread : (read text options).result = .ok sheet)
    (hmem : ∀ r ∈ rules, r ∈ sheet.rules) (hperm : rules.Perm rules')
    (parentStyle : Option Style) (parentVariables : Option Variables) (limit : Option Int)
    (fileName : Option String) :
    Cascade.compute rules parentStyle parentVariables limit fileName =
      Cascade.compute rules' parentStyle parentVariables limit fileName := by
  unfold Cascade.compute
  rw [(isArranged_of_read hread).cascadeOrder_eq hmem hperm]

/-- Two rules that both fail to write a property are reported in the order of the sheet, also when
they are handed over the other way round. -/
theorem compute_eq_of_perm_reversed :
    ∃ sheet c, (read ".a\x7bz-index:var(--x)\x7d.b\x7bz-index:var(--y)\x7d" .default).result =
        .ok sheet ∧ sheet.rules.map (·.order) = [0, 1] ∧
      Cascade.compute sheet.rules.reverse none none (some 8) none =
        Cascade.compute sheet.rules none none (some 8) none ∧
      (Cascade.compute sheet.rules none none (some 8) none).result = .ok c ∧
      c.errors.map (·.raw) = ["var(--x)", "var(--y)"] := by
  let source := Source.ofString ".a\x7bz-index:var(--x)\x7d.b\x7bz-index:var(--y)\x7d"
  let rules : List Rule :=
    [.ofSelector [.className "a"] [.deferred (.longhand .zIndex) "var(--x)" ⟨1, 12⟩] [] 0,
      .ofSelector [.className "b"] [.deferred (.longhand .zIndex) "var(--y)" ⟨1, 32⟩] [] 0]
  have hrules : source.rules.toOption.bind (fun parsed =>
      (readRules source none parsed.value).result.toOption) = some rules := by decide +kernel
  have horders : (arrange rules).map (·.order) = [0, 1] := by cbv
  have herrors : (Cascade.compute (arrange rules) none none (some 8) none).result.toOption.map
      (fun c => c.errors.map (·.raw)) = some ["var(--x)", "var(--y)"] := by cbv
  obtain ⟨parsed, hparsed, hrules⟩ := Option.bind_eq_some_iff.mp hrules
  obtain ⟨c, hc, hraws⟩ := Option.map_eq_some_iff.mp herrors
  have hread : (read _ .default).result = .ok _ := read_eq_ok_iff.mpr
    ⟨parsed, rules, eq_ok_of_toOption hparsed, eq_ok_of_toOption hrules, rfl⟩
  exact ⟨ofRules (arrange rules) .default, c, hread, horders,
    compute_eq_of_perm hread (fun r hr => List.mem_reverse.mp hr) (List.reverse_perm _)
      none none (some 8) none, eq_ok_of_toOption hc, hraws⟩

end Stylesheet

end Styling
