import Styling.Syntax.Lexeme

/-!
# Component values

Tokens are grouped by their brackets into a tree: a component is a token, or a function or block
with the components inside it.  A closing bracket that fits no open group stays a token, and a group
that is still open at the end of the text ends there.

The tree is built by a left fold over the tokens.  `Builder` holds the open groups, innermost first,
and the components read so far at the innermost level; each token opens a group, closes one or is
added.  So no token is lost, and `Builder.finish` is the only place where a group ends without a
closing bracket.

* `Component.ofTokens` builds the tree and lists the groups left open, innermost first.
* `Source.components` reads a source as a list of components.
* `Component.containsVar` finds a `var()` call at any depth.
-/

namespace Styling

/-- What opens a group. -/
inductive Opener
  | function (name : String)
  | bracket (bracket : Bracket)
  deriving DecidableEq, Repr

namespace Opener

/-- The bracket that closes a group. -/
def bracketKind : Opener → Bracket
  | function _ => .round
  | bracket b => b

/-- The kind of token that opens a group. -/
def tokenKind : Opener → TokenKind
  | function name => .function name
  | bracket b => .opening b

/-- The problem of a group that is never closed. -/
def problem : Opener → SyntaxProblem
  | function _ => .functionNotClosed
  | bracket _ => .blockNotClosed

/-- The group is a function whose name spells the given lowercase text. -/
def isFunction (name : String) : Opener → Bool
  | function n => Text.lowercase n == name
  | bracket _ => false

/-- The group that a kind of token opens, if it opens one. -/
def ofTokenKind? : TokenKind → Option Opener
  | .function name => some (.function name)
  | .opening b => some (.bracket b)
  | _ => none

end Opener

/-- How a group ends: with a closing bracket, or at the end of the text. -/
inductive Ending
  | closed (span : Span)
  | unclosed (offset : Nat)
  deriving DecidableEq, Repr

/-- The offset after a group. -/
def Ending.stop : Ending → Nat
  | closed span => span.stop
  | unclosed offset => offset

/-- A token, or a group with the components inside it. -/
inductive Component
  | token (t : Token)
  | group (opener : Opener) (opened : Span) (children : List Component) (ending : Ending)
  deriving Repr

namespace Component

/-- The offset of the first character. -/
def start : Component → Nat
  | token t => t.start
  | group _ opened _ _ => opened.start

/-- The offset after the last character. -/
def stop : Component → Nat
  | token t => t.stop
  | group _ _ _ ending => ending.stop

/-- The component is a token of a kind that satisfies `p`. -/
def isTokenOf (p : TokenKind → Bool) : Component → Bool
  | token t => p t.kind
  | group .. => false

/-- The component is whitespace. -/
def isWhitespace (c : Component) : Bool := c.isTokenOf TokenKind.isWhitespace

/-- The component is a comma. -/
def isComma (c : Component) : Bool := c.isTokenOf TokenKind.isComma

/-- The component is a semicolon. -/
def isSemicolon (c : Component) : Bool := c.isTokenOf TokenKind.isSemicolon

/-- The component is an identifier that spells a lowercase keyword. -/
def isKeyword (keyword : String) (c : Component) : Bool := c.isTokenOf (·.isKeyword keyword)

/-- The component is a call of a function whose name spells the given lowercase text. -/
def isCall (name : String) : Component → Bool
  | token _ => false
  | group opener _ _ _ => opener.isFunction name

/-- The component is a `var()` call. -/
def isVar (c : Component) : Bool := c.isCall "var"

/-- The components directly inside a group. -/
def children : Component → List Component
  | token _ => []
  | group _ _ cs _ => cs

mutual

/-- The component is a `var()` call or has one inside it at some depth. -/
def containsVar : Component → Bool
  | token _ => false
  | group opener _ cs _ => opener.isFunction "var" || listContainsVar cs

/-- Some component is a `var()` call or has one inside it. -/
def listContainsVar : List Component → Bool
  | [] => false
  | c :: cs => c.containsVar || listContainsVar cs

end

/-- A list holds a `var()` call if one of its components does. -/
theorem listContainsVar_eq_any (cs : List Component) : listContainsVar cs = cs.any containsVar := by
  induction cs with
  | nil => rfl
  | cons c cs ih => rw [listContainsVar, ih, List.any_cons]

@[simp] theorem listContainsVar_append (cs ds : List Component) :
    listContainsVar (cs ++ ds) = (listContainsVar cs || listContainsVar ds) := by
  simp only [listContainsVar_eq_any, List.any_append]

mutual

/-- The number of components inside a component at any depth. -/
def nestedCount : Component → Nat
  | token _ => 0
  | group _ _ cs _ => listCount cs

/-- The number of components in a list, those inside groups included. -/
def listCount : List Component → Nat
  | [] => 0
  | c :: cs => 1 + c.nestedCount + listCount cs

end

mutual

/-- The tokens a component was built from. -/
def tokens : Component → List Token
  | token t => [t]
  | group opener opened cs ending =>
    ⟨opener.tokenKind, opened⟩ :: (listTokens cs ++
      match ending with
      | .closed span => [⟨.closing opener.bracketKind, span⟩]
      | .unclosed _ => [])

/-- The tokens a list of components was built from. -/
def listTokens : List Component → List Token
  | [] => []
  | c :: cs => c.tokens ++ listTokens cs

end

/-- A list has the tokens of its components one after the other. -/
theorem listTokens_eq_flatMap (cs : List Component) : listTokens cs = cs.flatMap tokens := by
  induction cs with
  | nil => rfl
  | cons c cs ih => rw [listTokens, ih, List.flatMap_cons]

@[simp] theorem listTokens_append (cs ds : List Component) :
    listTokens (cs ++ ds) = listTokens cs ++ listTokens ds := by
  simp only [listTokens_eq_flatMap, List.flatMap_append]

mutual

/-- The description of a component. -/
def display : Component → String
  | token t => t.kind.display
  | group opener _ cs _ =>
    let inside := Text.bracketed (displays cs)
    match opener with
    | .function name => "FunctionBlock(" ++ Text.quoted name ++ ", " ++ inside ++ ")"
    | .bracket b =>
      "Block(" ++ Text.quoted (String.singleton b.opening) ++ ", " ++ inside ++ ")"

/-- The descriptions of components. -/
def displays : List Component → List String
  | [] => []
  | c :: cs => c.display :: displays cs

end

/-- The description of a list of components. -/
def displayList (cs : List Component) : String :=
  Text.bracketed (displays cs)

end Component

/-- An open group: how it was opened, and the reversed components that stand before it. -/
structure Frame where
  opener : Opener
  opened : Span
  before : List Component
  deriving Repr

/-- The open groups, innermost first, and the reversed components read inside the innermost one. -/
structure Builder where
  frames : List Frame
  current : List Component
  deriving Repr

namespace Builder

/-- Nothing read. -/
def empty : Builder := ⟨[], []⟩

/-- Add a component at the innermost level. -/
def add (b : Builder) (c : Component) : Builder :=
  ⟨b.frames, c :: b.current⟩

/-- Open a group. -/
def openGroup (b : Builder) (opener : Opener) (opened : Span) : Builder :=
  ⟨⟨opener, opened, b.current⟩ :: b.frames, []⟩

/-- Read a closing bracket: close the innermost group if it fits, else keep the bracket. -/
def close (b : Builder) (bracket : Bracket) (span : Span) : Builder :=
  match b.frames with
  | [] => b.add (.token ⟨.closing bracket, span⟩)
  | f :: fs =>
    if f.opener.bracketKind = bracket then
      ⟨fs, .group f.opener f.opened b.current.reverse (.closed span) :: f.before⟩
    else b.add (.token ⟨.closing bracket, span⟩)

/-- Read one token. -/
def step (b : Builder) (t : Token) : Builder :=
  match t.kind with
  | .function name => b.openGroup (.function name) t.span
  | .opening bracket => b.openGroup (.bracket bracket) t.span
  | .closing bracket => b.close bracket t.span
  | _ => b.add (.token t)

/-- End every open group at the end of the text, given the reversed innermost components. -/
def finishFrom (stop : Nat) (current : List Component) : List Frame → List Component
  | [] => current.reverse
  | f :: fs =>
    finishFrom stop
      (.group f.opener f.opened current.reverse (.unclosed stop) :: f.before) fs

/-- The components read, open groups ending at the end of the text. -/
def finish (stop : Nat) (b : Builder) : List Component :=
  finishFrom stop b.current b.frames

end Builder

/-- What was read from a text and the errors noticed on the way. -/
structure Parsed (α : Type) where
  value : α
  errors : List SyntaxError
  deriving Repr

namespace Component

/-- The components of a list of tokens and the groups left open, innermost first. -/
def ofTokens (stop : Nat) (ts : List Token) : List Component × List Frame :=
  let b := ts.foldl Builder.step .empty
  (b.finish stop, b.frames)

end Component

namespace Source

/-- The error of a group that is never closed. -/
def unclosedError (s : Source) (f : Frame) : SyntaxError :=
  .ofOffset s f.opener.problem f.opened.start

/-- Read a source as component values, cut into tokens by a scanner. -/
def componentsBy (s : Source) (scan : Scanner) : Except Fault (Parsed (List Component)) := do
  let lexed ← s.lexBy scan
  let (cs, unclosed) := Component.ofTokens s.length lexed.kept
  return ⟨cs, lexed.errors ++ unclosed.map s.unclosedError⟩

/-- Read a source as component values of the style language. -/
def components (s : Source) : Except Fault (Parsed (List Component)) := s.componentsBy scanToken

/-- The text of a component. -/
def textOf (s : Source) (c : Component) : String :=
  s.slice c.start c.stop

/-- The location of a component. -/
def locationOf (s : Source) (c : Component) : Location :=
  s.location c.start

end Source

end Styling
