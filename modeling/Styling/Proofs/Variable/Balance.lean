import Mathlib
import Styling.Proofs.Variable.Resolved
import Styling.Proofs.Variable.Walk

/-!
# Balanced brackets

Nothing compares the brackets of a text as such.  The builder opens and closes groups and keeps a
closing bracket that fits none as a token, groups that stay open are noticed at the end of the text,
and a pass looks for the brackets that were kept.  Together this is the usual discipline of a stack:
an opening bracket is put on it, a closing bracket has to fit the one on top, and nothing is left at
the end.

* `BracketMark` is what a token does to the stack, `BracketMark.step?` the discipline and
  `BracketMark.IsBalanced` the property of a row of brackets.
* `Builder.stack` is the stack of the builder: `Builder.step_of_mark` is about one token,
  `Builder.foldl_marks` about a run of them, and `Builder.listHasStray_finishFrom` about the end of
  the text.
* `Component.isBalanced_iff` is about a tree.
* `Scanned.BlamesNoGroup` tells the problems of tokens from those of groups left open.
* `Source.components_isBalanced` is about a text and what a pass makes of it.
-/

namespace Styling

/-! ## The discipline of a stack -/

/-- What a bracket does: it opens a group of its kind or closes one. -/
inductive BracketMark
  | opens (bracket : Bracket)
  | closes (bracket : Bracket)
  deriving DecidableEq

/-- The bracket that a token is; a function opens a round bracket. -/
def TokenKind.bracketMark? : TokenKind → Option BracketMark
  | function _ => some (.opens .round)
  | opening b => some (.opens b)
  | closing b => some (.closes b)
  | _ => none

/-- The brackets among tokens. -/
def Token.bracketMarks (ts : List Token) : List BracketMark :=
  ts.filterMap fun t => t.kind.bracketMark?

namespace BracketMark

/-- The open brackets after one bracket more, innermost first, unless it closes another bracket than
the innermost one. -/
def step? : List Bracket → BracketMark → Option (List Bracket)
  | stack, opens b => some (b :: stack)
  | top :: stack, closes b => if top = b then some stack else none
  | [], closes _ => none

/-- Each closing bracket closes the innermost open one, and none is left open. -/
def IsBalanced (marks : List BracketMark) : Prop :=
  marks.foldlM step? [] = some []

instance (marks : List BracketMark) : Decidable (IsBalanced marks) :=
  inferInstanceAs (Decidable (marks.foldlM step? [] = some []))

example : IsBalanced [.opens .round, .opens .square, .closes .square, .closes .round] := by decide

example : ¬ IsBalanced [.opens .round, .opens .square, .closes .round, .closes .square] := by decide

end BracketMark

namespace Token

variable {t : Token} {ts : List Token}

theorem bracketMarks_cons_none (h : t.kind.bracketMark? = none) :
    bracketMarks (t :: ts) = bracketMarks ts :=
  List.filterMap_cons_none h

theorem bracketMarks_cons_some {mark : BracketMark} (h : t.kind.bracketMark? = some mark) :
    bracketMarks (t :: ts) = mark :: bracketMarks ts :=
  List.filterMap_cons_some h

/-- Comments are no brackets. -/
theorem bracketMarks_kept (lexed : Lexed) :
    bracketMarks lexed.kept = bracketMarks lexed.tokens := by
  rw [bracketMarks, Lexed.kept, List.filterMap_filter]
  refine List.filterMap_congr fun t _ => ?_
  obtain ⟨kind, span⟩ := t
  cases kind <;> rfl

end Token

/-! ## The builder -/

namespace Builder

/-- The brackets of the open groups, innermost first. -/
def stack (b : Builder) : List Bracket :=
  b.frames.map fun f => f.opener.bracketKind

/-- A closing bracket that closes nothing was read. -/
def hasStray (b : Builder) : Bool :=
  Component.listHasStray b.current || b.frames.any fun f => Component.listHasStray f.before

/-- A component more at the innermost level. -/
theorem hasStray_add (b : Builder) (c : Component) :
    (b.add c).hasStray = (c.hasStray || b.hasStray) := by
  simp only [hasStray, add, Component.listHasStray, Bool.or_assoc]

/-- A token that is no bracket changes nothing. -/
theorem step_of_noMark {b : Builder} {t : Token} (h : t.kind.bracketMark? = none) :
    (b.step t).stack = b.stack ∧ (b.step t).hasStray = b.hasStray := by
  obtain ⟨kind, span⟩ := t
  cases kind with
  | function name => exact absurd h (by simp [TokenKind.bracketMark?])
  | opening bracket => exact absurd h (by simp [TokenKind.bracketMark?])
  | closing bracket => exact absurd h (by simp [TokenKind.bracketMark?])
  | _ => exact ⟨rfl, hasStray_add b _⟩

/-- A bracket opens a group or closes the innermost one where the stack allows it, and otherwise
stays as a bracket that closes nothing. -/
theorem step_of_mark {b : Builder} {t : Token} {mark : BracketMark}
    (h : t.kind.bracketMark? = some mark) :
    match mark.step? b.stack with
    | some stack => (b.step t).stack = stack ∧ (b.step t).hasStray = b.hasStray
    | none => (b.step t).hasStray = true := by
  have hopen : ∀ opener : Opener, (b.openGroup opener t.span).stack = opener.bracketKind :: b.stack ∧
      (b.openGroup opener t.span).hasStray = b.hasStray := fun opener => ⟨rfl, rfl⟩
  obtain ⟨kind, span⟩ := t
  cases kind with
  | function name =>
    obtain rfl := Option.some.inj h
    exact hopen (.function name)
  | opening bracket =>
    obtain rfl := Option.some.inj h
    exact hopen (.bracket bracket)
  | closing bracket =>
    obtain rfl := Option.some.inj h
    obtain ⟨frames, current⟩ := b
    cases frames with
    | nil => exact hasStray_add ⟨[], current⟩ _
    | cons f fs =>
      simp only [stack, List.map_cons, BracketMark.step?, step, close]
      split_ifs with hfits
      · refine ⟨rfl, ?_⟩
        simp only [hasStray, Component.listHasStray, Component.hasStray, List.any_cons,
          Component.listHasStray_eq_any, List.any_reverse, Bool.or_assoc]
      · exact hasStray_add ⟨f :: fs, current⟩ _
  | _ => exact absurd h (by simp [TokenKind.bracketMark?])

/-- A bracket that closes nothing is not lost. -/
theorem hasStray_step {b : Builder} (h : b.hasStray = true) (t : Token) :
    (b.step t).hasStray = true := by
  cases hmark : t.kind.bracketMark? with
  | none => rw [(step_of_noMark hmark).2, h]
  | some mark =>
    have hstep := step_of_mark (b := b) hmark
    split at hstep
    next => rw [hstep.2, h]
    next => exact hstep

theorem hasStray_foldl {b : Builder} (h : b.hasStray = true) (ts : List Token) :
    (ts.foldl step b).hasStray = true := by
  induction ts generalizing b with
  | nil => exact h
  | cons t ts ih => exact ih (hasStray_step h t)

/-- **The builder follows the discipline of the stack**, until it meets a closing bracket that the
stack does not allow; such a bracket is kept. -/
theorem foldl_marks {b : Builder} (h : b.hasStray = false) (ts : List Token) :
    (Token.bracketMarks ts).foldlM BracketMark.step? b.stack =
      if (ts.foldl step b).hasStray then none else some (ts.foldl step b).stack := by
  induction ts generalizing b with
  | nil =>
    rw [List.foldl_nil, h, if_neg Bool.false_ne_true]
    rfl
  | cons t ts ih =>
    rw [List.foldl_cons]
    cases hmark : t.kind.bracketMark? with
    | none =>
      obtain ⟨hstack, hstray⟩ := step_of_noMark (b := b) hmark
      rw [Token.bracketMarks_cons_none hmark, ← ih (hstray.trans h), hstack]
    | some mark =>
      have hstep := step_of_mark (b := b) hmark
      rw [Token.bracketMarks_cons_some hmark, List.foldlM_cons]
      split at hstep
      next stack hallowed =>
        rw [hallowed, ← ih (hstep.2.trans h), hstep.1]
        rfl
      next hrefused => rw [hrefused, hasStray_foldl hstep, if_pos rfl]; rfl

/-- The end of the text adds no bracket and takes none away. -/
theorem listHasStray_finishFrom (stop : Nat) (fs : List Frame) (current : List Component) :
    Component.listHasStray (finishFrom stop current fs) = hasStray ⟨fs, current⟩ := by
  induction fs generalizing current with
  | nil =>
    simp only [finishFrom, hasStray, Component.listHasStray_eq_any, List.any_reverse, List.any_nil,
      Bool.or_false]
  | cons f fs ih =>
    rw [finishFrom, ih]
    simp only [hasStray, Component.listHasStray, Component.hasStray, List.any_cons,
      Component.listHasStray_eq_any, List.any_reverse, Bool.or_assoc]

end Builder

/-! ## Trees -/

namespace Component

/-- Brackets are balanced if no group is left open and no closing bracket is left in the tree. -/
theorem isBalanced_iff (stop : Nat) (ts : List Token) :
    BracketMark.IsBalanced (Token.bracketMarks ts) ↔
      (ofTokens stop ts).2 = [] ∧ listHasStray (ofTokens stop ts).1 = false := by
  have hrun := Builder.foldl_marks (b := .empty) rfl ts
  rw [BracketMark.IsBalanced, ofTokens, Builder.finish, Builder.listHasStray_finishFrom]
  rw [show Builder.empty.stack = [] from rfl] at hrun
  rw [hrun]
  change _ ↔ _ ∧ (ts.foldl Builder.step .empty).hasStray = false
  cases (ts.foldl Builder.step .empty).hasStray with
  | true => simp
  | false => simp [Builder.stack]

end Component

/-- A function or block that ends with the text. -/
def SyntaxProblem.isUnclosed : SyntaxProblem → Bool
  | functionNotClosed | blockNotClosed => true
  | _ => false

/-- The problem of a group that is left open. -/
theorem Opener.isUnclosed_problem (opener : Opener) : opener.problem.isUnclosed = true := by
  cases opener <;> rfl

/-! ## The problems of tokens -/

namespace Scanned

/-- The problem of a token, if it has one, is not that of a group. -/
def BlamesNoGroup (s : Scanned) : Prop :=
  ∀ p ∈ s.problem, p.isUnclosed = false

theorem BlamesNoGroup.of_none {s : Scanned} (h : s.problem = none) : s.BlamesNoGroup := by
  intro p hp
  exact absurd (h.symm.trans hp) (by simp)

theorem BlamesNoGroup.of_some {s : Scanned} {p : SyntaxProblem} (h : s.problem = some p)
    (hp : p.isUnclosed = false) : s.BlamesNoGroup := by
  intro q hq
  exact Option.some.inj (h.symm.trans hq) ▸ hp

end Scanned

section Scanning

open Scanned (BlamesNoGroup)

theorem blamesNoGroup_scanQuoted (quote : Char) (cs : List Char) :
    (scanQuoted quote cs).BlamesNoGroup := by
  simp only [scanQuoted]
  split
  · exact .of_none rfl
  · exact .of_some rfl rfl
  · exact .of_some rfl rfl

theorem blamesNoGroup_scanHash (cs : List Char) : (scanHash cs).BlamesNoGroup := by
  unfold scanHash
  exact iteInduction (fun _ => .of_none rfl) fun _ => .of_none rfl

theorem blamesNoGroup_scanNumeric (cs : List Char) : (scanNumeric cs).BlamesNoGroup := by
  simp only [scanNumeric]
  split_ifs <;> exact .of_none rfl

theorem blamesNoGroup_scanIdentLike (cs : List Char) : (scanIdentLike cs).BlamesNoGroup := by
  simp only [scanIdentLike]
  exact iteInduction (fun _ => .of_none rfl) fun _ => .of_none rfl

/-- No token has the problem of a group. -/
theorem blamesNoGroup_scanToken (c : Char) (cs : List Char) : (scanToken c cs).BlamesNoGroup := by
  have hscan := scans_scanToken c cs
  generalize scanToken c cs = s at hscan
  cases hscan with
  | comment opened =>
    by_cases hclosed : (scanComment (cs.drop 1)).2 = true
    · exact .of_none (if_pos hclosed)
    · exact .of_some (if_neg hclosed) rfl
  | quoted quote => exact blamesNoGroup_scanQuoted c cs
  | hash sign => exact blamesNoGroup_scanHash cs
  | numeric starts => exact blamesNoGroup_scanNumeric (c :: cs)
  | identLike starts unmarked => exact blamesNoGroup_scanIdentLike (c :: cs)
  | backslash char => exact .of_some rfl rfl
  | _ => exact .of_none rfl

end Scanning

/-! ## Texts -/

namespace Source

variable {s : Source} {lexed : Lexed}

/-- The errors of tokens are about no group. -/
theorem isUnclosed_of_lex (h : s.lex = .ok lexed) :
    ∀ e ∈ lexed.errors, e.problem.isUnclosed = false := by
  intro e he
  rw [(lex_eq_ok h).2] at he
  obtain ⟨l, hl, he⟩ := List.mem_filterMap.mp he
  obtain ⟨before, c, rest, -, rfl⟩ := exists_scan_of_mem_lexemesFrom hl
  obtain ⟨p, hp, rfl⟩ := Option.map_eq_some_iff.mp he
  exact blamesNoGroup_scanToken c rest p hp

/-- Groups left open are reported as such, and nothing else is. -/
theorem forall_isUnclosed_iff (h : s.lex = .ok lexed) (fs : List Frame) :
    (∀ e ∈ lexed.errors ++ fs.map s.unclosedError, e.problem.isUnclosed = false) ↔ fs = [] := by
  constructor
  · intro hall
    refine List.eq_nil_iff_forall_not_mem.mpr fun f hf => ?_
    have hfalse := hall _ (List.mem_append_right _ (List.mem_map_of_mem hf))
    exact absurd (f.opener.isUnclosed_problem.symm.trans hfalse) (by simp)
  · rintro rfl
    rw [List.map_nil, List.append_nil]
    exact isUnclosed_of_lex h

/-- **Balance is recognized exactly.**  Reading a text as components reports no open function or
block and keeps no closing bracket at any depth if and only if the brackets of its tokens are
balanced.  So a pass over a text without `var()` calls and without errors of tokens gives a text if
and only if its brackets are balanced. -/
theorem components_isBalanced {text : String} {lexed : Lexed}
    (h : (ofString text).lex = .ok lexed) :
    ∃ parsed, (ofString text).components = .ok parsed ∧
      (((∀ e ∈ parsed.errors, e.problem.isUnclosed = false) ∧
          ¬ Component.HoldsStray parsed.value) ↔
        BracketMark.IsBalanced (Token.bracketMarks lexed.tokens)) ∧
      (lexed.errors = [] → Component.listContainsVar parsed.value = false → ∀ vars,
        ((∃ result, substitute text vars = .ok (.ok result)) ↔
          BracketMark.IsBalanced (Token.bracketMarks lexed.tokens))) := by
  have hcomponents := components_of_lex h
  have hbalanced := Component.isBalanced_iff (ofString text).length lexed.kept
  rw [Token.bracketMarks_kept] at hbalanced
  generalize Component.ofTokens (ofString text).length lexed.kept = built at hcomponents hbalanced
  refine ⟨_, hcomponents, ?_, fun herrors hvar vars => ?_⟩
  · rw [forall_isUnclosed_iff h, hbalanced, ← Component.listHasStray_iff, Bool.not_eq_true]
  · rw [hbalanced]
    constructor
    · rintro ⟨⟨expanded, count⟩, hpass⟩
      obtain ⟨parsed, -, hparsed, hnone, -⟩ := substitute_eq_ok hpass
      obtain rfl := Except.ok.inj (hparsed.symm.trans hcomponents)
      have hopen := (List.append_eq_nil_iff.mp hnone).2
      refine ⟨List.map_eq_nil_iff.mp hopen, ?_⟩
      rw [substitute_of_noVar hcomponents hnone hvar] at hpass
      by_contra hstray
      rw [if_pos (Bool.not_eq_false _ ▸ hstray)] at hpass
      exact absurd hpass (by simp)
    · rintro ⟨hopen, hstray⟩
      have hnone : lexed.errors ++ built.2.map (ofString text).unclosedError = [] := by
        rw [herrors, hopen]
        rfl
      rw [substitute_of_noVar hcomponents hnone hvar]
      exact ⟨_, by rw [if_neg (by rw [hstray]; exact Bool.false_ne_true)]⟩

/-- A text in which two groups cross: the first closing bracket is kept and both groups stay open. -/
theorem components_isBalanced_crossed :
    ∃ lexed parsed, (ofString "f(a[b)/*]*/").lex = .ok lexed ∧
      (ofString "f(a[b)/*]*/").components = .ok parsed ∧
      lexed.errors = [] ∧ Component.listContainsVar parsed.value = false ∧
      Token.bracketMarks lexed.tokens = [.opens .round, .opens .square, .closes .round] ∧
      ¬ ((∀ e ∈ parsed.errors, e.problem.isUnclosed = false) ∧
        ¬ Component.HoldsStray parsed.value) ∧
      ∀ vars, ¬ ∃ result, substitute "f(a[b)/*]*/" vars = .ok (.ok result) := by
  have hlex : (ofString "f(a[b)/*]*/").lex = .ok ⟨(ofString "f(a[b)/*]*/").lexemes.map (·.token),
      (ofString "f(a[b)/*]*/").lexemes.filterMap (·.error? (ofString "f(a[b)/*]*/"))⟩ :=
    if_neg (by decide +kernel)
  have herrors : (ofString "f(a[b)/*]*/").lexemes.filterMap
      (·.error? (ofString "f(a[b)/*]*/")) = [] := by decide +kernel
  have hmarks : Token.bracketMarks ((ofString "f(a[b)/*]*/").lexemes.map (·.token)) =
      [.opens .round, .opens .square, .closes .round] := by decide +kernel
  have hcrossed : ¬ BracketMark.IsBalanced
      (Token.bracketMarks ((ofString "f(a[b)/*]*/").lexemes.map (·.token))) := by
    rw [hmarks]
    decide
  obtain ⟨parsed, hparsed, hiff, hpass⟩ := components_isBalanced hlex
  have hvar : Component.listContainsVar parsed.value = false := by
    obtain rfl := Except.ok.inj (hparsed.symm.trans (components_of_lex hlex))
    decide +kernel
  exact ⟨_, parsed, hlex, hparsed, herrors, hvar, hmarks, mt hiff.mp hcrossed,
    fun vars => mt (hpass herrors hvar vars).mp hcrossed⟩

/-- A text with all kinds of brackets, properly nested, and one more inside a comment. -/
example : BracketMark.IsBalanced (Token.bracketMarks
    ((ofString "f(a[b]\x7bc /*)*/\x7d)").lexemes.map (·.token))) := by decide +kernel

end Source

end Styling
