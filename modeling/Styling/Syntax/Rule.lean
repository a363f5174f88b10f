import Styling.Syntax.Declaration

/-!
# Rules

At the top of a style sheet stand qualified rules, which have a prelude and a block, and at-rules,
which have a name, a prelude, and a block or a semicolon.  The components are read from left to
right by a machine with three states: between rules, inside an at-rule, inside a qualified rule.
The only errors are at the end of the text: an at-rule without its end is kept, a qualified rule
without its block is not.
-/

namespace Styling

/-- A block of a rule. -/
structure BlockSyntax where
  start : Nat
  stop : Nat
  children : List Component
  deriving Repr

/-- A curly block, if the component is one. -/
def BlockSyntax.ofComponent? : Component → Option BlockSyntax
  | .group (.bracket .curly) opened cs ending => some ⟨opened.start, ending.stop, cs⟩
  | _ => none

/-- What distinguishes the two sorts of rules. -/
inductive RuleHead
  | atRule (name : String)
  | qualified
  deriving DecidableEq, Repr

/-- A rule before its prelude and its declarations are read. -/
structure RuleSyntax where
  head : RuleHead
  start : Nat
  prelude : List Component
  block : Option BlockSyntax
  deriving Repr

namespace RuleSyntax

/-- The description of a rule. -/
def display (r : RuleSyntax) : String :=
  let prelude := Component.displayList r.prelude
  match r.head with
  | .qualified => "QualifiedRule(prelude=" ++ prelude ++ ", block=\x7b...\x7d)"
  | .atRule name =>
    "AtRule(" ++ Text.quoted name ++ ", prelude=" ++ prelude ++ ", block=" ++
      (if r.block.isSome then "\x7b...\x7d" else "None") ++ ")"

/-- Where reading stands: between rules, or inside a rule whose prelude is held reversed. -/
inductive State
  | between
  | inside (head : RuleHead) (start : Nat) (prelude : List Component)
  deriving Repr

namespace State

/-- The rule that is being read, with its block. -/
def emit (head : RuleHead) (start : Nat) (prelude : List Component) (block : Option BlockSyntax) :
    RuleSyntax :=
  ⟨head, start, prelude.reverse, block⟩

/-- Read a component inside a rule. -/
def stepInside (head : RuleHead) (start : Nat) (prelude : List Component) (c : Component) :
    State × Option RuleSyntax :=
  match BlockSyntax.ofComponent? c with
  | some block => (between, some (emit head start prelude (some block)))
  | none =>
    if head ≠ .qualified ∧ c.isSemicolon then (between, some (emit head start prelude none))
    else (inside head start (c :: prelude), none)

/-- Read a component: the next state, and the rule that it ends. -/
def step : State → Component → State × Option RuleSyntax
  | between, .token ⟨.whitespace _, _⟩ => (between, none)
  | between, .token ⟨.commentOpen, _⟩ => (between, none)
  | between, .token ⟨.commentClose, _⟩ => (between, none)
  | between, .token ⟨.atKeyword name, span⟩ => (inside (.atRule name) span.start [], none)
  | between, c => stepInside .qualified c.start [] c
  | inside head start prelude, c => stepInside head start prelude c

/-- The rule and the error left at the end of the text. -/
def finish (source : Source) : State → List RuleSyntax × List SyntaxError
  | between => ([], [])
  | inside (.atRule name) start prelude =>
    ([emit (.atRule name) start prelude none], [.ofOffset source .atRuleNotEnded start])
  | inside .qualified start _ => ([], [.ofOffset source .ruleNotClosed start])

end State

/-- The rules of a list of components, and the error at its end. -/
def ofComponents (source : Source) (state : State) : List Component → Parsed (List RuleSyntax)
  | [] => let (rules, errors) := state.finish source; ⟨rules, errors⟩
  | c :: cs =>
    let (next, done) := state.step c
    let rest := ofComponents source next cs
    ⟨done.toList ++ rest.value, rest.errors⟩

end RuleSyntax

namespace Source

/-- Read a source as a list of rules. -/
def rules (s : Source) : Except Fault (Parsed (List RuleSyntax)) := do
  let parsed ← s.components
  let rules := RuleSyntax.ofComponents s .between parsed.value
  return ⟨rules.value, parsed.errors ++ rules.errors⟩

end Source

end Styling
