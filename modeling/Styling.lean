import Styling.Color.Space
import Styling.File.Watching
import Styling.Proofs.Color.Channels
import Styling.Proofs.Color.Hues
import Styling.Proofs.File.Charset
import Styling.Proofs.File.Reloading
import Styling.Proofs.Grammar.Rereading.PrintedNumbers
import Styling.Proofs.Property.FontOrder
import Styling.Proofs.Property.Indirection
import Styling.Proofs.Property.Placement
import Styling.Proofs.Property.Quads
import Styling.Proofs.Property.ReadBack
import Styling.Proofs.Property.Transforms
import Styling.Proofs.Property.Units
import Styling.Proofs.Selector.Alternation
import Styling.Proofs.Selector.Compounds
import Styling.Proofs.Selector.Rereading
import Styling.Proofs.Sheet.Colors
import Styling.Proofs.Sheet.Concatenation
import Styling.Proofs.Sheet.Expansion
import Styling.Proofs.Sheet.Importance
import Styling.Proofs.Sheet.Index
import Styling.Proofs.Sheet.Inheritance
import Styling.Proofs.Sheet.Layout
import Styling.Proofs.Sheet.Permutation
import Styling.Proofs.Sheet.Ranges
import Styling.Proofs.Sheet.Separation
import Styling.Proofs.Sheet.States
import Styling.Proofs.Syntax.Comments
import Styling.Proofs.Syntax.LongestMatch
import Styling.Proofs.Syntax.Names
import Styling.Proofs.Syntax.Nesting
import Styling.Proofs.Syntax.Spelling
import Styling.Proofs.Text.Locations
import Styling.Proofs.Value.Positions
import Styling.Proofs.Variable.Balance
import Styling.Proofs.Variable.References
import Styling.Proofs.Variable.Replacing
import Styling.Proofs.Variable.Splicing
