import Styling.Sheet.Cascade
import Styling.Sheet.Options
import Styling.Syntax.Rule

/-!
# Style sheets

A style sheet is a list of rules in the order in which they are applied.  Reading one never stops at
a fault in the text: a malformed declaration is skipped, a malformed selector spoils its rule, and
at-rules are skipped, each with a report.

The rules are filed under the class that the nodes they select must have, so that matching a node
looks only at the rules that can select it: `RuleIndex` holds these files and the rules without such
a class.

* `Stylesheet.read` reads a text.
* `Stylesheet.matching` gives the rules that select an element.
* `Stylesheet.compute` computes the style of an element.
-/

namespace Styling

/-- Rules filed under a class, and the rules that are looked at for every node. -/
structure RuleIndex where
  wildcard : List Rule
  classes : List (String × List Rule)
  deriving DecidableEq

namespace RuleIndex

/-- No rules. -/
def empty : RuleIndex := ⟨[], []⟩

/-- File a rule under a class. -/
def file (name : String) (r : Rule) : List (String × List Rule) → List (String × List Rule)
  | [] => [(name, [r])]
  | entry :: rest =>
    if entry.1 = name then (entry.1, entry.2 ++ [r]) :: rest else entry :: file name r rest

/-- Add a rule. -/
def insert (index : RuleIndex) (r : Rule) : RuleIndex :=
  match r.selector.key? with
  | none => { index with wildcard := index.wildcard ++ [r] }
  | some name => { index with classes := file name r index.classes }

/-- The index of a list of rules. -/
def ofRules (rules : List Rule) : RuleIndex :=
  rules.foldl insert empty

/-- The rules that may select a node with the given classes. -/
def candidates (index : RuleIndex) (classes : List String) : List Rule :=
  index.wildcard ++ classes.eraseDups.flatMap fun name => (index.classes.lookup name).getD []

end RuleIndex

/-- Rules in the order in which they are applied, with their index. -/
structure Stylesheet where
  rules : List Rule
  options : Options
  index : RuleIndex

namespace Stylesheet

/-- The sheet of a list of rules. -/
def ofRules (rules : List Rule) (options : Options) : Stylesheet :=
  ⟨rules, options, .ofRules rules⟩

/-- What a declaration adds to a rule: properties, or a custom property, and what is
reported of it. -/
def readDeclaration (source : Source) (file : Option String) (d : DeclarationSyntax) :
    Traced Fault (List Property × VariableLayer) := do
  let snippet := d.snippet source
  if d.important then Traced.report (.importantIgnored snippet)
  if d.isCustom then
    let raw := match d.value with
      | [] => ""
      | first :: _ => Text.trim (source.slice first.start d.stop)
    return ([], [(d.name, raw)])
  else
    match Declaration.read d.name (.ofComponents source d.value d.stop) with
    | .ok properties => return (properties, [])
    | .error (.refused (.unsupported reason location)) =>
      Traced.report (.declarationUnsupported snippet location file)
      Traced.report (.detail reason.message)
      return ([], [])
    | .error (.refused refusal) =>
      Traced.report (.declarationRefused snippet refusal.location file)
      Traced.report (.detail refusal.message)
      return ([], [])
    | .error (.fault f) => Traced.ofExcept (.error f)

/-- The properties and custom properties of a list of declarations, each read on its own. -/
def readDeclarations (source : Source) (file : Option String) :
    List DeclarationSyntax → Traced Fault (List Property × VariableLayer)
  | [] => return ([], [])
  | d :: ds => do
    let (properties, vars) ← readDeclaration source file d
    let (more, moreVariables) ← readDeclarations source file ds
    return (properties ++ more, vars ++ moreVariables)

/-- The properties and custom properties of a block. -/
def readBlock (source : Source) (file : Option String) (cs : List Component) :
    Traced Fault (List Property × VariableLayer) := do
  let parsed := DeclarationSyntax.ofComponents source cs
  Traced.reportAll (parsed.errors.map fun e => .declarationMalformed e file)
  readDeclarations source file parsed.value

/-- The rules of a rule of the syntax, one for each chain of its prelude, before
they are ordered. -/
def readRule (source : Source) (file : Option String) (r : RuleSyntax) :
    Traced Fault (List Rule) := do
  match r.head, r.block with
  | .atRule name, _ =>
    Traced.report (.atRuleSkipped name)
    return []
  | .qualified, none => return []
  | .qualified, some block =>
    match Selector.listOfCursor (.ofComponents source r.prelude block.start) with
    | .error refusal =>
      let line := Text.firstLine (Text.trim (source.slice r.start block.stop))
      Traced.report (.ruleRefused line refusal.location file)
      Traced.report (.detail refusal.message)
      return []
    | .ok selectors =>
      let (properties, vars) ← readBlock source file block.children
      return selectors.map fun s => .ofSelector s properties vars 0

/-- The rules of a list of rules of the syntax, before they are ordered. -/
def readRules (source : Source) (file : Option String) :
    List RuleSyntax → Traced Fault (List Rule)
  | [] => return []
  | r :: rs => do
    let rules ← readRule source file r
    return rules ++ (← readRules source file rs)

/-- Sort rules by specificity, keeping the order of equally specific ones, and number them. -/
def arrange (rules : List Rule) : List Rule :=
  (rules.mergeSort fun r s => r.specificity ≤ s.specificity).mapIdx fun i r =>
    { r with order := i }

/-- Read a style sheet. -/
def read (text : String) (options : Options) : Traced Fault Stylesheet := do
  let source := Source.ofString text
  let parsed ← Traced.ofExcept source.rules
  Traced.reportAll (parsed.errors.map fun e => .syntaxBroken e options.fileName)
  let rules := arrange (← readRules source options.fileName parsed.value)
  Traced.report (.rulesRead rules.length options.fileName)
  return ofRules rules options

/-- The rules that select an element, in the order in which they are applied. -/
def matching (s : Stylesheet) (e : Element) : List Rule :=
  Rule.cascadeOrder ((s.index.candidates e.node.classes).filter (·.selects e))

/-- Compute the style of an element. -/
def compute (s : Stylesheet) (e : Element) (parentStyle : Option Style)
    (parentVariables : Option Variables) : Traced CascadeError Computed :=
  Cascade.compute (s.matching e) parentStyle parentVariables s.options.varLimit s.options.fileName

/-- The text of a sheet, a rule a line. -/
def css (s : Stylesheet) : Except Fault String := do
  return String.intercalate "\n" (← s.rules.mapM Rule.css)

end Stylesheet

end Styling
