import Mathlib.Data.List.Sort
import Styling.Proofs.Sheet.Moving
import Styling.Proofs.Syntax.Joining

/-!
# Style sheets compose by concatenation

A sheet that ends with a complete rule can be followed by any other sheet: the joined text has the
rules of the first and then those of the second.  Nothing in the first changes how the second is
read, whether it is a rule, an at-rule that is skipped, a selector that spoils its rule or a
malformed declaration.

Rules are sorted by specificity when they are read, so the two lists of rules are not simply put one
behind the other.  The sort is stable, and so the rules of each specificity are.

* `filter_mergeSort` is stability: a sort keeps the order of what it does not tell apart.
* `Stylesheet.rulesOf` gives the rules of one specificity, without locations and numbers.
* `Stylesheet.read_append` is the main statement.
-/

namespace Styling

/-- A sort keeps the order of entries that may stand either way round. -/
theorem filter_mergeSort {α : Type} {le : α → α → Bool} (as : List α)
    (trans : ∀ a b c, le a b = true → le b c = true → le a c = true)
    (total : ∀ a b, (le a b || le b a) = true) {p : α → Bool}
    (h : ∀ a b, p a = true → p b = true → le a b = true) :
    (as.mergeSort le).filter p = as.filter p := by
  have hpairwise : (as.filter p).Pairwise fun a b => le a b = true :=
    List.pairwise_of_forall_mem_list fun a ha b hb =>
      h a b (List.of_mem_filter ha) (List.of_mem_filter hb)
  have hsublist := (List.sublist_mergeSort trans total hpairwise List.filter_sublist).filter p
  simp only [List.filter_filter, Bool.and_self] at hsublist
  have hlength := ((List.mergeSort_perm as le).filter p).length_eq
  exact (hsublist.eq_of_length hlength.symm).symm

/-! ## A text that stands in front -/

theorem RuleSyntax.shift_zero (r : RuleSyntax) : r.shift 0 = r := by
  have hlist : ∀ cs : List Component, cs.map (Component.shift 0) = cs := fun cs =>
    (List.map_congr_left fun c _ => c.shift_zero).trans cs.map_id
  obtain ⟨head, start, prelude, block⟩ := r
  cases block <;> simp [shift, BlockSyntax.shift, hlist]

namespace Stylesheet

/-- The rules of some specificity, without locations and numbers. -/
def rulesOf (s : Stylesheet) (specificity : Nat) : List Rule :=
  (s.rules.filter (·.specificity == specificity)).map Rule.unplaced

/-- Arranging rules keeps the order of those with the same specificity. -/
theorem rulesOf_arrange (rules : List Rule) (options : Options) (specificity : Nat) :
    (ofRules (arrange rules) options).rulesOf specificity =
      (rules.map Rule.unplaced).filter (·.specificity == specificity) := by
  have hunplaced : (arrange rules).map Rule.unplaced =
      (rules.mergeSort fun r s => r.specificity ≤ s.specificity).map Rule.unplaced :=
    List.ext_getElem (by simp [arrange]) fun i _ _ => by simp [arrange, Rule.unplaced]
  have hfilter : ∀ rules : List Rule, (rules.filter (·.specificity == specificity)).map
      Rule.unplaced = (rules.map Rule.unplaced).filter (·.specificity == specificity) := by
    intro rules
    rw [List.filter_map]
    rfl
  rw [rulesOf, ofRules, hfilter, hunplaced, ← hfilter, ← hfilter]
  refine congrArg _ (filter_mergeSort rules ?_ ?_ ?_)
  · simpa using fun _ _ _ => Nat.le_trans
  · simpa using fun r s : Rule => Nat.le_total r.specificity s.specificity
  · simp only [beq_iff_eq, decide_eq_true_eq]
    exact fun r s hr hs => (hr.trans hs.symm).le

theorem readRules_append (source : Source) (file : Option String) (rs rs' : List RuleSyntax) :
    readRules source file (rs ++ rs') = (do
      let rules ← readRules source file rs
      return rules ++ (← readRules source file rs')) := by
  induction rs with
  | nil => simp [readRules]
  | cons r rs ih =>
    rw [List.cons_append, readRules, readRules, ih]
    simp only [bind_assoc, pure_bind, List.append_assoc]

/-! ## The joined text -/

/-- The text is empty, or it ends with a closing curly bracket and its rules are read without an
error. -/
def IsClosed (text : String) : Prop :=
  text = "" ∨ text.toList.getLast? = some '\x7d' ∧
    ∃ parsed, (Source.ofString text).rules = .ok parsed ∧ parsed.errors = []

namespace IsClosed

variable {a b : String}

/-- A closed text is normalized on its own. -/
theorem chars_append (h : IsClosed a) (b : String) : (Source.ofString (a ++ b)).chars =
    (Source.ofString a).chars ++ (Source.ofString b).chars := by
  have hlast : a.toList.getLast? ≠ some '\r' := by
    rcases h with rfl | ⟨hlast, -⟩
    · decide
    · rw [hlast]
      decide
  simp only [Source.ofString, String.toList_append]
  exact Source.normalize_append fun hreturn => absurd hreturn hlast

/-- The rules of a closed text are read without an error, and no rule goes on behind them. -/
theorem isClosing (h : IsClosed a) : (Source.ofString a).IsClosing ∧
    ∃ parsed, (Source.ofString a).rules = .ok parsed ∧ parsed.errors = [] := by
  rcases h with rfl | ⟨hlast, parsed, hrules, herrors⟩
  · exact ⟨Source.isClosing_of_eq_nil rfl, ⟨[], []⟩, by cbv, rfl⟩
  · refine ⟨Source.isClosing_of_rules hrules herrors ?_, parsed, hrules, herrors⟩
    obtain ⟨init, hinit⟩ := List.getLast?_eq_some_iff.mp hlast
    have hchars : (Source.ofString a).chars = Source.normalize init ++ ['\x7d'] := by
      rw [Source.ofString, hinit, Source.normalize_append fun _ => by decide]
      rfl
    rw [hchars, List.getLast?_concat]

end IsClosed

/-- Rules that are read alike in another text are read there if they are read at all. -/
theorem exists_readRules_shift {S T : Source} {k : Nat} (h : S.Shows T k) {file : Option String}
    {parsed : Parsed (List RuleSyntax)} {rules : List Rule} (hparsed : T.rules = .ok parsed)
    (hrules : (readRules T file parsed.value).result = .ok rules) :
    ∃ moved, (readRules S file (parsed.value.map (RuleSyntax.shift k))).result = .ok moved ∧
      moved.map Rule.unplaced = rules.map Rule.unplaced := by
  have halike := readRules_shift h file (Source.within_of_rules hparsed)
  rw [hrules] at halike
  cases hmoved : (readRules S file (parsed.value.map (RuleSyntax.shift k))).result with
  | error f => exact absurd (hmoved ▸ halike) (by simp [Except.map])
  | ok moved => exact ⟨moved, rfl, Except.ok.inj (hmoved ▸ halike)⟩

/-- **Style sheets compose by concatenation.**  A closed text followed by any other text is read as
the rules of the first followed by the rules of the second, specificity by specificity. -/
theorem read_append {a b : String} {options : Options} {front back : Stylesheet}
    (hclosed : IsClosed a) (hfront : (read a options).result = .ok front)
    (hback : (read b options).result = .ok back) :
    ∃ sheet, (read (a ++ b) options).result = .ok sheet ∧ ∀ specificity,
      sheet.rulesOf specificity = front.rulesOf specificity ++ back.rulesOf specificity := by
  obtain ⟨hclosing, parsed, hparsed, herrors⟩ := hclosed.isClosing
  obtain ⟨_, rules, hparsed', hrules, rfl⟩ := read_eq_ok_iff.mp hfront
  obtain rfl := Except.ok.inj (hparsed.symm.trans hparsed')
  obtain ⟨parsedBack, rulesBack, hparsedBack, hrulesBack, rfl⟩ := read_eq_ok_iff.mp hback
  have hchars := hclosed.chars_append b
  obtain ⟨joined, hjoined, hvalue⟩ :=
    hclosing.rules_append hchars hparsed herrors hparsedBack
  have hcharsFront : (Source.ofString (a ++ b)).chars =
      [] ++ ((Source.ofString a).chars ++ (Source.ofString b).chars) := hchars
  have hcharsBack : (Source.ofString (a ++ b)).chars =
      (Source.ofString a).chars ++ ((Source.ofString b).chars ++ []) := by
    rw [List.append_nil, hchars]
  have hshows : (Source.ofString (a ++ b)).Shows (.ofString a) 0 :=
    Source.shows_of_append hcharsFront rfl
  have hshowsBack : (Source.ofString (a ++ b)).Shows (.ofString b) (Source.ofString a).length :=
    Source.shows_of_append hcharsBack rfl
  obtain ⟨moved, hmoved, hsame⟩ := exists_readRules_shift hshows hparsed hrules
  obtain ⟨movedBack, hmovedBack, hsameBack⟩ :=
    exists_readRules_shift hshowsBack hparsedBack hrulesBack
  have hzero : parsed.value.map (RuleSyntax.shift 0) = parsed.value :=
    (List.map_congr_left fun r _ => r.shift_zero).trans parsed.value.map_id
  have hread : (readRules (.ofString (a ++ b)) options.fileName joined.value).result =
      .ok (moved ++ movedBack) := by
    rw [hvalue, ← hzero, readRules_append, Traced.bind_result_of_ok hmoved,
      Traced.bind_result_of_ok hmovedBack]
    rfl
  refine ⟨_, read_eq_ok_iff.mpr ⟨joined, _, hjoined, hread, rfl⟩, fun specificity => ?_⟩
  rw [rulesOf_arrange, rulesOf_arrange, rulesOf_arrange, List.map_append, hsame, hsameBack,
    List.filter_append]

/-- An at-rule, a comment and a refused selector stand in front, and a block without end behind; the
rules of the joined sheet are sorted into each other. -/
theorem read_append_sorted :
    ∃ a b front back sheet,
      a = "@import x;/*c*/.d:no\x7b\x7d.a.c\x7bz-index:var(--x)\x7d.a\x7bz-index:var(--y)\x7d" ∧
      b = ".b\x7b--y:1;z-index\x7d.b.c\x7bz-index:var(--x)" ∧
      IsClosed a ∧ (read a .default).result = .ok front ∧ (read b .default).result = .ok back ∧
      (read (a ++ b) .default).result = .ok sheet ∧
      (∀ n, sheet.rulesOf n = front.rulesOf n ++ back.rulesOf n) ∧
      (sheet.rulesOf 10).map (·.selector.css) = [".a", ".b"] ∧
      (sheet.rulesOf 20).map (·.selector.css) = [".a.c", ".b.c"] := by
  let a := "@import x;/*c*/.d:no\x7b\x7d.a.c\x7bz-index:var(--x)\x7d.a\x7bz-index:var(--y)\x7d"
  let b := ".b\x7b--y:1;z-index\x7d.b.c\x7bz-index:var(--x)"
  let selectors (n : Nat) (rules : List Rule) :=
    ((rules.map Rule.unplaced).filter (·.specificity == n)).map (·.selector.css)
  have hselectors : ∀ n rules, ((ofRules (arrange rules) .default).rulesOf n).map
      (·.selector.css) = selectors n rules := fun n rules => by rw [rulesOf_arrange]
  have hfront : ((Source.ofString a).rules.toOption.bind fun parsed =>
      (readRules (.ofString a) none parsed.value).result.toOption.map fun rules =>
        (parsed.errors.length, selectors 10 rules, selectors 20 rules)) =
      some (0, [".a"], [".a.c"]) := by decide +kernel
  have hback : ((Source.ofString b).rules.toOption.bind fun parsed =>
      (readRules (.ofString b) none parsed.value).result.toOption.map fun rules =>
        (selectors 10 rules, selectors 20 rules)) = some ([".b"], [".b.c"]) := by decide +kernel
  obtain ⟨parsed, hparsed, hfront⟩ := Option.bind_eq_some_iff.mp hfront
  obtain ⟨rules, hrules, hfront⟩ := Option.map_eq_some_iff.mp hfront
  obtain ⟨parsed', hparsed', hback⟩ := Option.bind_eq_some_iff.mp hback
  obtain ⟨rules', hrules', hback⟩ := Option.map_eq_some_iff.mp hback
  simp only [Prod.mk.injEq] at hfront hback
  obtain ⟨herrors, hten, htwenty⟩ := hfront
  have hclosed : IsClosed a :=
    .inr ⟨by decide +kernel, parsed, eq_ok_of_toOption hparsed,
      List.eq_nil_of_length_eq_zero herrors⟩
  have hreadFront : (read a .default).result = .ok _ := read_eq_ok_iff.mpr
    ⟨parsed, rules, eq_ok_of_toOption hparsed, eq_ok_of_toOption hrules, rfl⟩
  have hreadBack : (read b .default).result = .ok _ := read_eq_ok_iff.mpr
    ⟨parsed', rules', eq_ok_of_toOption hparsed', eq_ok_of_toOption hrules', rfl⟩
  obtain ⟨sheet, hread, hsheet⟩ := read_append hclosed hreadFront hreadBack
  refine ⟨a, b, _, _, sheet, rfl, rfl, hclosed, hreadFront, hreadBack, hread, hsheet, ?_, ?_⟩
  · rw [hsheet, List.map_append, hselectors, hselectors, hten, hback.1]
    rfl
  · rw [hsheet, List.map_append, hselectors, hselectors, htwenty, hback.2]
    rfl

end Stylesheet

end Styling
