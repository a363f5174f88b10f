import Styling.Proofs.Syntax.Nesting
import Styling.Syntax.Rule

/-!
# Moving a text

If a text stands somewhere in another text, the same tokens and components are found in it, only
further on.  So everything that is read of a text can be moved by an offset, and moving it is the
same as reading the text where it stands.

* `Token.shift`, `Lexeme.shift` and `Component.shift` move what was read by an offset, and so do
  `RuleSyntax.shift` and `DeclarationSyntax.shift`.
* `lexemesFrom_shift` and `Component.ofTokens_shift` say that cutting a text into tokens and
  grouping them move along.
* `RuleSyntax.value_ofComponents_shift` and `DeclarationSyntax.value_ofComponents_shift` say this of
  reading rules and declarations.
* `Component.Within` says that a component ends within a text, and so does all that is inside.
* `Source.Shows` says that a source shows another one from an offset on: the stretches of the other
  are stretches of the source.
-/

namespace Styling

/-- The span further on by an offset. -/
def Span.shift (k : Nat) (s : Span) : Span := ⟨s.start + k, s.stop + k⟩

/-- The token further on by an offset. -/
def Token.shift (k : Nat) (t : Token) : Token := ⟨t.kind, t.span.shift k⟩

@[simp] theorem Token.kind_shift (k : Nat) (t : Token) : (t.shift k).kind = t.kind := rfl

@[simp] theorem Token.span_shift (k : Nat) (t : Token) : (t.shift k).span = t.span.shift k := rfl

/-- The lexeme further on by an offset. -/
def Lexeme.shift (k : Nat) (l : Lexeme) : Lexeme := ⟨l.token.shift k, l.problem⟩

@[simp] theorem Lexeme.token_shift (k : Nat) (l : Lexeme) :
    (l.shift k).token = l.token.shift k := rfl

@[simp] theorem Lexeme.problem_shift (k : Nat) (l : Lexeme) : (l.shift k).problem = l.problem := rfl

/-- Moving lexemes makes no comment of another token. -/
theorem Lexeme.filter_isComment_shift (k : Nat) (ls : List Lexeme) :
    ((ls.map (shift k)).map (·.token)).filter (fun t => !t.kind.isComment) =
      ((ls.map (·.token)).filter fun t => !t.kind.isComment).map (Token.shift k) := by
  rw [List.filter_map, List.filter_map, List.filter_map, List.map_map, List.map_map]
  rfl

/-- The end of a group further on by an offset. -/
def Ending.shift (k : Nat) : Ending → Ending
  | closed span => closed (span.shift k)
  | unclosed offset => unclosed (offset + k)

@[simp] theorem Ending.stop_shift (k : Nat) (e : Ending) : (e.shift k).stop = e.stop + k := by
  cases e <;> rfl

/-- Moving a text moves its lexemes. -/
theorem lexemesFrom_shift (scan : Scanner) (k start : Nat) (cs : List Char) :
    lexemesFrom scan (start + k) cs = (lexemesFrom scan start cs).map (Lexeme.shift k) := by
  induction hn : cs.length using Nat.strongRecOn generalizing cs start with
  | ind n ih =>
    cases cs with
    | nil => rw [lexemesFrom_nil, lexemesFrom_nil, List.map_nil]
    | cons c cs =>
      have hshorter : (cs.drop (scan c cs).extra).length < n := by
        rw [← hn, List.length_drop, List.length_cons]
        omega
      have hstop : start + k + (scan c cs).extra + 1 = start + (scan c cs).extra + 1 + k := by omega
      rw [lexemesFrom_cons, lexemesFrom_cons, List.map_cons, hstop, ih _ hshorter _ _ rfl]
      rfl

/-! ## Components -/

namespace Component

mutual

/-- The component further on by an offset. -/
def shift (k : Nat) : Component → Component
  | token t => token (t.shift k)
  | group opener opened cs ending =>
    group opener (opened.shift k) (listShift k cs) (ending.shift k)

/-- The components further on by an offset. -/
def listShift (k : Nat) : List Component → List Component
  | [] => []
  | c :: cs => c.shift k :: listShift k cs

end

theorem listShift_eq_map (k : Nat) (cs : List Component) : listShift k cs = cs.map (shift k) := by
  induction cs with
  | nil => rfl
  | cons c cs ih => rw [listShift, ih, List.map_cons]

@[simp] theorem shift_token (k : Nat) (t : Token) : (token t).shift k = token (t.shift k) := by
  rw [shift]

@[simp] theorem shift_group (k : Nat) (opener : Opener) (opened : Span) (cs : List Component)
    (ending : Ending) : (group opener opened cs ending).shift k =
      group opener (opened.shift k) (cs.map (shift k)) (ending.shift k) := by
  rw [shift, listShift_eq_map]

variable (k : Nat) (c : Component)

@[simp] theorem start_shift : (c.shift k).start = c.start + k := by
  cases c <;> simp [start, Token.start, Token.shift, Span.shift]

@[simp] theorem stop_shift : (c.shift k).stop = c.stop + k := by
  cases c <;> simp [stop, Token.stop, Token.shift, Span.shift]

@[simp] theorem children_shift : (c.shift k).children = c.children.map (shift k) := by
  cases c <;> simp [children]

@[simp] theorem isTokenOf_shift (p : TokenKind → Bool) :
    (c.shift k).isTokenOf p = c.isTokenOf p := by
  cases c <;> simp [isTokenOf]

@[simp] theorem isWhitespace_shift : (c.shift k).isWhitespace = c.isWhitespace :=
  isTokenOf_shift k c _

@[simp] theorem isComma_shift : (c.shift k).isComma = c.isComma :=
  isTokenOf_shift k c _

@[simp] theorem isSemicolon_shift : (c.shift k).isSemicolon = c.isSemicolon :=
  isTokenOf_shift k c _

@[simp] theorem isKeyword_shift (word : String) : (c.shift k).isKeyword word = c.isKeyword word :=
  isTokenOf_shift k c _

@[simp] theorem isCall_shift (name : String) : (c.shift k).isCall name = c.isCall name := by
  cases c <;> simp [isCall]

@[simp] theorem isVar_shift : (c.shift k).isVar = c.isVar :=
  isCall_shift k c _

/-- Moving a component moves no `var()` call out of it. -/
@[simp] theorem containsVar_shift : (c.shift k).containsVar = c.containsVar := by
  induction c using Component.rec (motive_2 := fun cs =>
    listContainsVar (cs.map (shift k)) = listContainsVar cs) with
  | token t => simp
  | group opener opened cs ending ih => rw [shift_group, containsVar, containsVar, ih]
  | nil => rfl
  | cons c cs hc hcs => rw [List.map_cons, listContainsVar_cons, listContainsVar_cons, hc, hcs]

/-- Moving components moves no `var()` call out of them. -/
@[simp] theorem listContainsVar_map_shift (cs : List Component) :
    listContainsVar (cs.map (shift k)) = listContainsVar cs := by
  rw [listContainsVar_eq_any, listContainsVar_eq_any, List.any_map]
  exact congrArg cs.any (funext (containsVar_shift k))

/-- Moving a component nowhere. -/
@[simp] theorem shift_zero (c : Component) : c.shift 0 = c := by
  induction c using Component.rec (motive_2 := fun cs => cs.map (shift 0) = cs) with
  | token t => rw [shift_token]; rfl
  | group opener opened cs ending ih =>
    rw [shift_group, ih]
    cases ending <;> rfl
  | nil => rfl
  | cons c cs hc hcs => rw [List.map_cons, hc, hcs]

/-- Moving a component twice. -/
theorem shift_shift (j k : Nat) (c : Component) : (c.shift j).shift k = c.shift (j + k) := by
  have hspan : ∀ s : Span, (s.shift j).shift k = s.shift (j + k) := by
    intro s
    rw [Span.shift, Span.shift, Span.shift, Nat.add_assoc, Nat.add_assoc]
  induction c using Component.rec (motive_2 := fun cs =>
    (cs.map (shift j)).map (shift k) = cs.map (shift (j + k))) with
  | token t => simp [Token.shift, hspan]
  | group opener opened cs ending ih =>
    rw [shift_group, shift_group, shift_group, ih, hspan]
    cases ending with
    | closed span => simp [Ending.shift, hspan]
    | unclosed offset => simp [Ending.shift, Nat.add_assoc]
  | nil => rfl
  | cons c cs hc hcs => rw [List.map_cons, List.map_cons, List.map_cons, hc, hcs]

/-- Moving all components moves each of them past the same whitespace. -/
theorem dropWhile_map_shift (k : Nat) (cs : List Component) :
    (cs.map (shift k)).dropWhile isWhitespace = (cs.dropWhile isWhitespace).map (shift k) := by
  rw [List.dropWhile_map]
  congr 2
  funext c
  exact isWhitespace_shift k c

end Component

/-! ## The tree -/

/-- The open group further on by an offset. -/
def Frame.shift (k : Nat) (f : Frame) : Frame :=
  ⟨f.opener, f.opened.shift k, f.before.map (Component.shift k)⟩

namespace Builder

/-- What was read, further on by an offset. -/
def shift (k : Nat) (b : Builder) : Builder :=
  ⟨b.frames.map (Frame.shift k), b.current.map (Component.shift k)⟩

/-- Reading a token that was moved. -/
theorem step_shift (k : Nat) (b : Builder) (t : Token) :
    (b.shift k).step (t.shift k) = (b.step t).shift k := by
  obtain ⟨kind, span⟩ := t
  obtain ⟨frames, current⟩ := b
  cases kind with
  | closing bracket =>
    cases frames with
    | nil => simp [step, close, shift, add, Token.shift]
    | cons f fs =>
      by_cases hf : f.opener.bracketKind = bracket
      · simp [step, close, shift, Frame.shift, Token.shift, Ending.shift, hf]
      · simp [step, close, shift, Frame.shift, add, Token.shift, hf]
  | function name => simp [step, openGroup, shift, Frame.shift, Token.shift]
  | opening bracket => simp [step, openGroup, shift, Frame.shift, Token.shift]
  | _ => simp [step, add, shift, Token.shift]

theorem foldl_shift (k : Nat) (ts : List Token) (b : Builder) :
    (ts.map (Token.shift k)).foldl step (b.shift k) = (ts.foldl step b).shift k := by
  induction ts generalizing b with
  | nil => rfl
  | cons t ts ih => rw [List.map_cons, List.foldl_cons, step_shift, ih, List.foldl_cons]

/-- A text that was moved ends further on. -/
theorem finishFrom_shift (k stop : Nat) (fs : List Frame) (current : List Component) :
    finishFrom (stop + k) (current.map (Component.shift k)) (fs.map (Frame.shift k)) =
      (finishFrom stop current fs).map (Component.shift k) := by
  induction fs generalizing current with
  | nil => rw [List.map_nil, finishFrom, finishFrom, List.map_reverse]
  | cons f fs ih =>
    rw [List.map_cons, finishFrom, finishFrom, ← ih]
    simp [Frame.shift, Ending.shift]

end Builder

/-- The components of tokens that were moved. -/
theorem Component.ofTokens_shift (k stop : Nat) (ts : List Token) :
    ofTokens (stop + k) (ts.map (Token.shift k)) =
      ((ofTokens stop ts).1.map (shift k), (ofTokens stop ts).2.map (Frame.shift k)) := by
  have hrun := Builder.foldl_shift k ts .empty
  rw [show Builder.empty.shift k = .empty from rfl] at hrun
  simp only [ofTokens, Builder.finish, hrun]
  exact Prod.ext (Builder.finishFrom_shift k stop _ _) rfl

/-! ## Rules -/

/-- The block further on by an offset. -/
def BlockSyntax.shift (k : Nat) (b : BlockSyntax) : BlockSyntax :=
  ⟨b.start + k, b.stop + k, b.children.map (Component.shift k)⟩

theorem BlockSyntax.ofComponent?_shift (k : Nat) (c : Component) :
    ofComponent? (c.shift k) = (ofComponent? c).map (shift k) := by
  cases c with
  | token t =>
    rw [Component.shift_token]
    rfl
  | group opener opened cs ending =>
    rw [Component.shift_group]
    cases opener with
    | function name => rfl
    | bracket b => cases b <;> simp [ofComponent?, shift, Span.shift]

namespace RuleSyntax

/-- The rule further on by an offset. -/
def shift (k : Nat) (r : RuleSyntax) : RuleSyntax :=
  ⟨r.head, r.start + k, r.prelude.map (Component.shift k), r.block.map (BlockSyntax.shift k)⟩

namespace State

/-- The state further on by an offset. -/
def shift (k : Nat) : State → State
  | between => between
  | inside head start prelude => inside head (start + k) (prelude.map (Component.shift k))

theorem stepInside_shift (k : Nat) (head : RuleHead) (start : Nat) (prelude : List Component)
    (c : Component) :
    stepInside head (start + k) (prelude.map (Component.shift k)) (c.shift k) =
      ((stepInside head start prelude c).1.shift k,
        (stepInside head start prelude c).2.map (RuleSyntax.shift k)) := by
  simp only [stepInside, BlockSyntax.ofComponent?_shift, Component.isSemicolon_shift]
  cases BlockSyntax.ofComponent? c with
  | some block => simp [emit, shift, RuleSyntax.shift]
  | none =>
    simp only [Option.map_none]
    split
    · simp [emit, shift, RuleSyntax.shift]
    · simp [shift]

/-- Reading a component that was moved. -/
theorem step_shift (k : Nat) (state : State) (c : Component) :
    (state.shift k).step (c.shift k) =
      ((state.step c).1.shift k, (state.step c).2.map (RuleSyntax.shift k)) := by
  cases state with
  | inside head start prelude => exact stepInside_shift k head start prelude c
  | between =>
    have hother := stepInside_shift k .qualified c.start [] c
    rw [← Component.start_shift, List.map_nil] at hother
    cases c with
    | group opener opened cs ending => exact hother
    | token t =>
      obtain ⟨kind, span⟩ := t
      rw [Component.shift_token] at hother ⊢
      cases kind <;> rfl

end State

/-- The rules of components that were moved. -/
theorem value_ofComponents_shift (source source' : Source) (k : Nat) (state : State)
    (cs : List Component) :
    (ofComponents source (state.shift k) (cs.map (Component.shift k))).value =
      (ofComponents source' state cs).value.map (shift k) := by
  induction cs generalizing state with
  | nil =>
    cases state with
    | between => rfl
    | inside head start prelude =>
      cases head <;> simp [ofComponents, State.finish, State.shift, State.emit, shift]
  | cons c cs ih =>
    simp only [List.map_cons, ofComponents, State.step_shift, ih, List.map_append]
    cases (state.step c).2 <;> rfl

end RuleSyntax

/-! ## Declarations -/

theorem splitBy_map {α β : Type} {p : α → Bool} {q : β → Bool} {f : α → β} (h : ∀ a, q (f a) = p a)
    (as : List α) : splitBy q (as.map f) = (splitBy p as).map (List.map f) := by
  induction as with
  | nil => rfl
  | cons a as ih =>
    simp only [List.map_cons, splitBy, h, ih]
    cases p a with
    | true => rfl
    | false => cases hsplit : splitBy p as <;> simp

theorem dropLastWhile_map {α β : Type} {p : α → Bool} {q : β → Bool} {f : α → β}
    (h : ∀ a, q (f a) = p a) (as : List α) :
    dropLastWhile q (as.map f) = (dropLastWhile p as).map f := by
  have hcomp : q ∘ f = p := funext h
  rw [dropLastWhile, dropLastWhile, ← List.map_reverse, List.dropWhile_map, hcomp,
    List.map_reverse]

namespace DeclarationSyntax

/-- The declaration further on by an offset. -/
def shift (k : Nat) (d : DeclarationSyntax) : DeclarationSyntax :=
  ⟨d.name, d.start + k, d.important, d.value.map (Component.shift k)⟩

@[simp] theorem stop_shift (k : Nat) (d : DeclarationSyntax) : (d.shift k).stop = d.stop + k := by
  rw [stop, stop, shift, List.getLast?_map]
  cases d.value.getLast? with
  | none => exact Nat.add_right_comm ..
  | some c => exact Component.stop_shift k c

/-- The declaration between two semicolons, if there is one. -/
def ofPart? (source : Source) (part : List Component) : Option DeclarationSyntax :=
  (ofPart source part).bind Except.toOption

theorem value_ofComponents (source : Source) (cs : List Component) :
    (ofComponents source cs).value =
      (splitBy Component.isSemicolon cs).filterMap (ofPart? source) := by
  simp only [ofComponents, List.filterMap_filterMap]
  congr 1
  funext part
  rw [ofPart?]
  cases ofPart source part with
  | none => rfl
  | some read => cases read <;> rfl

theorem splitImportant_shift (k : Nat) (value : List Component) :
    splitImportant (value.map (Component.shift k)) =
      ((splitImportant value).1, (splitImportant value).2.map (Component.shift k)) := by
  have hends : ∀ cs : List Component,
      endsImportant (cs.map (Component.shift k)) = endsImportant cs := by
    intro cs
    rcases cs with _ | ⟨word, _ | ⟨bang, cs⟩⟩ <;> simp [endsImportant]
  simp only [splitImportant, ← List.map_reverse, hends]
  split
  · rw [← List.map_drop, ← List.map_reverse,
      dropLastWhile_map (Component.isWhitespace_shift k)]
  · rfl

theorem toOption_ofRest_shift (source source' : Source) (k : Nat) (name : String) (start : Nat)
    (rest : List Component) :
    (ofRest source name (start + k) (rest.map (Component.shift k))).toOption =
      (ofRest source' name start rest).toOption.map (shift k) := by
  rw [ofRest, ofRest, Component.dropWhile_map_shift]
  rcases rest.dropWhile Component.isWhitespace with _ | ⟨c, after⟩
  · rfl
  · cases c with
    | group opener opened cs ending =>
      rw [List.map_cons, Component.shift_group]
      rfl
    | token t =>
      obtain ⟨kind, span⟩ := t
      rw [List.map_cons, Component.shift_token]
      cases kind with
      | colon =>
        simp only [Token.shift, Component.dropWhile_map_shift,
          dropLastWhile_map (Component.isWhitespace_shift k), splitImportant_shift]
        rfl
      | _ => rfl

theorem ofPart?_shift (source source' : Source) (k : Nat) (part : List Component) :
    ofPart? source (part.map (Component.shift k)) = (ofPart? source' part).map (shift k) := by
  rw [ofPart?, ofPart?, ofPart, ofPart, Component.dropWhile_map_shift]
  rcases part.dropWhile Component.isWhitespace with _ | ⟨c, rest⟩
  · rfl
  · cases c with
    | group opener opened cs ending =>
      rw [List.map_cons, Component.shift_group]
      rfl
    | token t =>
      obtain ⟨kind, span⟩ := t
      rw [List.map_cons, Component.shift_token]
      cases kind with
      | ident name => exact toOption_ofRest_shift source source' k name span.start rest
      | _ => rfl

/-- The declarations of components that were moved. -/
theorem value_ofComponents_shift (source source' : Source) (k : Nat) (cs : List Component) :
    (ofComponents source (cs.map (Component.shift k))).value =
      (ofComponents source' cs).value.map (shift k) := by
  rw [value_ofComponents, value_ofComponents, splitBy_map (Component.isSemicolon_shift k),
    List.filterMap_map, List.map_filterMap]
  congr 1
  funext part
  exact ofPart?_shift source source' k part

end DeclarationSyntax

/-! ## Components within a text -/

namespace Component

/-- The component ends at the end of a text at the latest, and so does all that is inside. -/
inductive Within (n : Nat) : Component → Prop
  | token {t : Token} (le : t.stop ≤ n) : Within n (.token t)
  | group {opener : Opener} {opened : Span} {cs : List Component} {ending : Ending}
    (le : ending.stop ≤ n) (inside : ∀ c ∈ cs, Within n c) :
    Within n (.group opener opened cs ending)

namespace Within

variable {n : Nat} {c d : Component}

theorem stop_le (h : c.Within n) : c.stop ≤ n := by
  cases h with
  | token le => exact le
  | group le inside => exact le

theorem of_mem_children (h : c.Within n) (hd : d ∈ c.children) : d.Within n := by
  cases h with
  | token le => exact absurd hd List.not_mem_nil
  | group le inside => exact inside d hd

end Within

mutual

/-- A component that nests in a text and ends in it ends within it. -/
theorem within_of_nests {stop : Nat} {c : Component} (h : c.Nests stop) (hstop : c.stop ≤ stop) :
    c.Within stop ∧ c.start < c.stop := by
  cases c with
  | token t =>
    rw [Nests] at h
    exact ⟨.token hstop, h⟩
  | group opener opened cs ending =>
    cases ending with
    | closed span =>
      rw [Nests] at h
      obtain ⟨hopened, hinside, hspan⟩ := h
      have hend : span.stop ≤ stop := hstop
      obtain ⟨hwithin, hle⟩ := within_of_listNests hinside (by omega)
      exact ⟨.group hstop hwithin, by simp only [start, Component.stop, Ending.stop]; omega⟩
    | unclosed offset =>
      rw [Nests] at h
      obtain ⟨hopened, hinside, rfl⟩ := h
      obtain ⟨hwithin, hle⟩ := within_of_listNests hinside le_rfl
      exact ⟨.group hstop hwithin, by simp only [start, Component.stop, Ending.stop]; omega⟩

/-- Components that nest in a text end within it. -/
theorem within_of_listNests {stop first last : Nat} {cs : List Component}
    (h : ListNests stop first last cs) (hlast : last ≤ stop) :
    (∀ c ∈ cs, c.Within stop) ∧ first ≤ last := by
  cases cs with
  | nil =>
    rw [ListNests] at h
    exact ⟨fun _ hc => absurd hc List.not_mem_nil, h⟩
  | cons c cs =>
    rw [ListNests] at h
    obtain ⟨hfirst, hnests, hrest⟩ := h
    obtain ⟨hwithin, hstop⟩ := within_of_listNests hrest hlast
    obtain ⟨hhead, hpos⟩ := within_of_nests hnests (hstop.trans hlast)
    refine ⟨fun d hd => ?_, by omega⟩
    rcases List.mem_cons.mp hd with rfl | hd
    · exact hhead
    · exact hwithin d hd

end

end Component

/-! ## A text inside another one -/

namespace Source

/-- From offset `k` on the source shows the text of another source: its stretches are stretches of
the source. -/
def Shows (S T : Source) (k : Nat) : Prop :=
  ∀ start stop, stop ≤ T.length → S.slice (start + k) (stop + k) = T.slice start stop

variable {S T : Source} {k : Nat}

/-- The text of a component that was moved. -/
theorem Shows.textOf_shift (h : S.Shows T k) {c : Component} (hc : c.Within T.length) :
    S.textOf (c.shift k) = T.textOf c := by
  rw [textOf, textOf, Component.start_shift, Component.stop_shift]
  exact h _ _ hc.stop_le

/-- A source shows what stands in it between two other texts. -/
theorem shows_of_append {as bs : List Char} (h : S.chars = as ++ (T.chars ++ bs))
    (hk : as.length = k) : S.Shows T k := by
  intro start stop hstop
  have hdrop : S.chars.drop (start + k) = (T.chars ++ bs).drop start := by
    rw [h, Nat.add_comm, ← hk, List.drop_length_add_append]
  have hlength : stop - start ≤ (T.chars.drop start).length := by
    rw [List.length_drop]
    exact Nat.sub_le_sub_right hstop start
  simp only [slice, sliceChars, hdrop, Nat.add_sub_add_right]
  rcases Nat.le_total start T.chars.length with hle | hge
  · rw [List.drop_append_of_le_length hle, List.take_append_of_le_length hlength]
  · have hnone : stop - start = 0 := by
      rw [length] at hstop
      omega
    rw [hnone, List.take_zero, List.take_zero]

/-- A source shows each of its stretches. -/
theorem shows_sliceChars (s : Source) (start stop : Nat) :
    s.Shows ⟨s.sliceChars start stop⟩ start := by
  intro first last hlast
  rw [length, sliceChars, List.length_take] at hlast
  have htake : min (last - first) (stop - start - first) = last + start - (first + start) := by
    omega
  simp only [slice, sliceChars, List.drop_take, List.take_take, List.drop_drop, htake,
    Nat.add_comm first start]

/-- The components of a text end within it. -/
theorem within_of_components {parsed : Parsed (List Component)} (h : S.components = .ok parsed) :
    ∀ c ∈ parsed.value, c.Within S.length := by
  have hspread : Token.Spread 0 S.length S.keptTokens := (tile_lexemes S).spread_filter _
  rw [(components_cases h).2.1]
  exact (Component.within_of_listNests (Component.listNests_ofTokens hspread) le_rfl).1

end Source

end Styling
