import Styling.Proofs.Syntax.Subtree
import Styling.Proofs.Syntax.Tiling

/-!
# The tree of a text and its spans

Components are built from tokens that follow each other, so their spans nest: what stands in a group
lies between its opening token and its closing bracket, or the end of the text if it has none, and
the components at one level follow each other.  Only the groups that end at the end of the text are
reported, each of them once.

* `Token.Spread` says that tokens follow each other, with gaps where comments were.
* `Component.Nests` is the property of a component, and `Component.ListNests` that of the components
  at one level.
* `Builder.NestsIn` is the invariant of the builder: `Builder.NestsIn.step` is about one token,
  `Builder.NestsIn.foldl` about a run of them, and `Builder.NestsIn.finishFrom` about the end of the
  text.
* `Component.listUnclosed` lists the groups without closing bracket, which are the open groups that
  `Component.ofTokens` reports (`Component.listUnclosed_ofTokens`).
* `Source.exists_components_nests` is about texts without oversized integers.
-/

namespace Styling

/-! ## Tokens in order -/

namespace Token

/-- The tokens follow each other between two offsets, and none of them is empty. -/
def Spread (start stop : Nat) : List Token → Prop
  | [] => start ≤ stop
  | t :: ts => start ≤ t.start ∧ t.start < t.stop ∧ Spread t.stop stop ts

variable {start start' stop : Nat} {ts : List Token}

theorem Spread.of_le (h : Spread start stop ts) (hle : start' ≤ start) : Spread start' stop ts := by
  cases ts with
  | nil => exact hle.trans h
  | cons t ts => exact ⟨hle.trans h.1, h.2⟩

/-- Tokens that lie side by side follow each other, also where some are left out. -/
theorem Tile.spread_filter (h : Tile start stop ts) (p : Token → Bool) :
    Spread start stop (ts.filter p) := by
  induction ts generalizing start with
  | nil => exact le_of_eq h
  | cons t ts ih =>
    obtain ⟨rfl, hpos, hrest⟩ := h
    rw [List.filter_cons]
    split
    next => exact ⟨le_rfl, hpos, ih hrest⟩
    next => exact (ih hrest).of_le hpos.le

end Token

/-! ## Nested components -/

namespace Component

mutual

/-- What stands in the component lies after its opening token, before its closing bracket if it has
one, and in order; a group without closing bracket ends at the end `stop` of the text. -/
def Nests (stop : Nat) : Component → Prop
  | token t => t.start < t.stop
  | group _ opened cs ending =>
    opened.start < opened.stop ∧
      match ending with
      | .closed span => ListNests stop opened.stop span.start cs ∧ span.start < span.stop
      | .unclosed offset => ListNests stop opened.stop stop cs ∧ offset = stop

/-- The components nest and follow each other between two offsets. -/
def ListNests (stop : Nat) (first last : Nat) : List Component → Prop
  | [] => first ≤ last
  | c :: cs => first ≤ c.start ∧ c.Nests stop ∧ ListNests stop c.stop last cs

end

namespace ListNests

variable {stop first last last' : Nat} {cs : List Component}

theorem of_le (h : ListNests stop first last cs) (hle : last ≤ last') :
    ListNests stop first last' cs := by
  induction cs generalizing first with
  | nil =>
    rw [ListNests] at *
    exact h.trans hle
  | cons c cs ih =>
    rw [ListNests] at *
    exact ⟨h.1, h.2.1, ih h.2.2⟩

/-- A component more comes last. -/
theorem concat {c : Component} (h : ListNests stop first last cs) (hstart : last ≤ c.start)
    (hc : c.Nests stop) : ListNests stop first c.stop (cs ++ [c]) := by
  induction cs generalizing first with
  | nil =>
    rw [ListNests] at h
    rw [List.nil_append, ListNests, ListNests]
    exact ⟨h.trans hstart, hc, le_rfl⟩
  | cons d cs ih =>
    rw [ListNests] at h
    rw [List.cons_append, ListNests]
    exact ⟨h.1, h.2.1, ih h.2.2⟩

end ListNests

end Component

/-! ## The builder -/

namespace Builder

/-- The reversed components `current` at the innermost level and what stands before each open group
nest, follow each other and end at offset `last` at the latest. -/
def NestsIn (stop : Nat) (last : Nat) : List Frame → List Component → Prop
  | [], current => Component.ListNests stop 0 last current.reverse
  | f :: fs, current =>
    Component.ListNests stop f.opened.stop last current.reverse ∧
      f.opened.start < f.opened.stop ∧ NestsIn stop f.opened.start fs f.before

namespace NestsIn

variable {stop last last' : Nat} {fs : List Frame} {current : List Component}

theorem of_le (h : NestsIn stop last fs current) (hle : last ≤ last') :
    NestsIn stop last' fs current := by
  cases fs with
  | nil => exact Component.ListNests.of_le h hle
  | cons f fs => exact ⟨h.1.of_le hle, h.2⟩

/-- A component more at the innermost level. -/
theorem cons {c : Component} (h : NestsIn stop last fs current) (hstart : last ≤ c.start)
    (hc : c.Nests stop) : NestsIn stop c.stop fs (c :: current) := by
  cases fs with
  | nil =>
    rw [NestsIn, List.reverse_cons]
    exact Component.ListNests.concat h hstart hc
  | cons f fs =>
    rw [NestsIn, List.reverse_cons]
    exact ⟨h.1.concat hstart hc, h.2⟩

/-- One token more, behind everything that was read. -/
theorem step {b : Builder} {t : Token} (h : NestsIn stop last b.frames b.current)
    (hstart : last ≤ t.start) (hpos : t.start < t.stop) :
    NestsIn stop t.stop (b.step t).frames (b.step t).current := by
  have hopen : ∀ opener : Opener, NestsIn stop t.stop (b.openGroup opener t.span).frames
      (b.openGroup opener t.span).current := by
    intro opener
    refine ⟨?_, hpos, h.of_le hstart⟩
    rw [Builder.openGroup, List.reverse_nil, Component.ListNests]
    exact le_rfl
  have hadd : ∀ kind : TokenKind, NestsIn stop t.stop (b.add (.token ⟨kind, t.span⟩)).frames
      (b.add (.token ⟨kind, t.span⟩)).current := by
    intro kind
    exact h.cons (c := .token ⟨kind, t.span⟩) hstart (by rw [Component.Nests]; exact hpos)
  unfold Builder.step
  split
  next => exact hopen _
  next => exact hopen _
  next bracket _ =>
    unfold Builder.close
    split
    next => exact hadd _
    next f fs hframes =>
      rw [hframes] at h
      obtain ⟨hinside, hopened, hbefore⟩ := h
      split
      next =>
        refine hbefore.cons (c := .group f.opener f.opened b.current.reverse (.closed t.span))
          le_rfl ?_
        rw [Component.Nests]
        exact ⟨hopened, hinside.of_le hstart, hpos⟩
      next => exact hadd _
  next => exact hadd t.kind

/-- Tokens that follow each other behind everything that was read. -/
theorem foldl {b : Builder} {ts : List Token} (h : NestsIn stop last b.frames b.current)
    (hts : Token.Spread last last' ts) :
    NestsIn stop last' (ts.foldl Builder.step b).frames (ts.foldl Builder.step b).current := by
  induction ts generalizing b last with
  | nil => exact h.of_le hts
  | cons t ts ih =>
    obtain ⟨hstart, hpos, hrest⟩ := hts
    exact ih (h.step hstart hpos) hrest

/-- At the end of the text the open groups end there. -/
theorem finishFrom (h : NestsIn stop last fs current) (hlast : last ≤ stop) :
    Component.ListNests stop 0 stop (Builder.finishFrom stop current fs) := by
  induction fs generalizing last current with
  | nil =>
    rw [Builder.finishFrom]
    exact Component.ListNests.of_le h hlast
  | cons f fs ih =>
    obtain ⟨hinside, hopened, hbefore⟩ := h
    rw [Builder.finishFrom]
    refine ih (hbefore.cons
      (c := .group f.opener f.opened current.reverse (.unclosed stop)) le_rfl ?_) le_rfl
    rw [Component.Nests]
    exact ⟨hopened, hinside.of_le hlast, rfl⟩

end NestsIn

end Builder

namespace Component

/-- The components of tokens that follow each other in a text nest. -/
theorem listNests_ofTokens {stop : Nat} {ts : List Token} (h : Token.Spread 0 stop ts) :
    ListNests stop 0 stop (ofTokens stop ts).1 := by
  have hempty : Builder.NestsIn stop 0 Builder.empty.frames Builder.empty.current := by
    rw [Builder.empty, Builder.NestsIn, List.reverse_nil, ListNests]
  exact (hempty.foldl h).finishFrom le_rfl

/-! ## Groups without closing bracket -/

mutual

/-- The groups without closing bracket, inner ones before the groups around them. -/
def unclosed : Component → List (Opener × Span)
  | token _ => []
  | group opener opened cs ending =>
    listUnclosed cs ++
      match ending with
      | .closed _ => []
      | .unclosed _ => [(opener, opened)]

/-- The groups without closing bracket in a list of components. -/
def listUnclosed : List Component → List (Opener × Span)
  | [] => []
  | c :: cs => c.unclosed ++ listUnclosed cs

end

theorem listUnclosed_append (cs ds : List Component) :
    listUnclosed (cs ++ ds) = listUnclosed cs ++ listUnclosed ds := by
  induction cs with
  | nil => rw [List.nil_append, listUnclosed, List.nil_append]
  | cons c cs ih => rw [List.cons_append, listUnclosed, listUnclosed, ih, List.append_assoc]

theorem listUnclosed_eq_nil {cs : List Component} (h : ∀ c ∈ cs, c.unclosed = []) :
    listUnclosed cs = [] := by
  induction cs with
  | nil => rw [listUnclosed]
  | cons c cs ih =>
    rw [listUnclosed, h c List.mem_cons_self, ih fun d hd => h d (List.mem_cons_of_mem c hd),
      List.append_nil]

theorem IsClosed.unclosed_eq_nil {c : Component} (h : c.IsClosed) : c.unclosed = [] := by
  induction h with
  | token t => rw [unclosed]
  | group inside ih =>
    simp only [unclosed, listUnclosed_eq_nil ih, List.append_nil]

end Component

/-- Only open groups end at the end of the text. -/
theorem Builder.listUnclosed_finishFrom (stop : Nat) (fs : List Frame) (current : List Component)
    (hfs : ∀ f ∈ fs, ∀ c ∈ f.before, c.IsClosed) :
    Component.listUnclosed (finishFrom stop current fs) =
      Component.listUnclosed current.reverse ++ fs.map fun f => (f.opener, f.opened) := by
  induction fs generalizing current with
  | nil => rw [finishFrom, List.map_nil, List.append_nil]
  | cons f fs ih =>
    have hbefore : Component.listUnclosed f.before.reverse = [] :=
      Component.listUnclosed_eq_nil fun c hc =>
        (hfs f List.mem_cons_self c (List.mem_reverse.mp hc)).unclosed_eq_nil
    rw [finishFrom, ih _ fun g hg => hfs g (List.mem_cons_of_mem f hg), List.reverse_cons,
      Component.listUnclosed_append, hbefore, List.nil_append, Component.listUnclosed,
      Component.listUnclosed, Component.unclosed, List.append_nil, List.map_cons, List.append_assoc,
      List.singleton_append]

/-- The groups left open are those without closing bracket. -/
theorem Component.listUnclosed_ofTokens (stop : Nat) (ts : List Token) :
    listUnclosed (ofTokens stop ts).1 = (ofTokens stop ts).2.map fun f => (f.opener, f.opened) := by
  have hempty : Builder.empty.IsClosed :=
    ⟨fun _ hc => absurd hc List.not_mem_nil, fun _ hf => absurd hf List.not_mem_nil⟩
  have hclosed := hempty.foldl ts
  have hcurrent := listUnclosed_eq_nil fun c hc =>
    (hclosed.current c (List.mem_reverse.mp hc)).unclosed_eq_nil
  simp only [ofTokens, Builder.finish]
  rw [Builder.listUnclosed_finishFrom _ _ _ hclosed.frames, hcurrent, List.nil_append]

/-! ## Texts -/

namespace Source

/-- The error of a group without closing bracket. -/
def groupError (s : Source) (group : Opener × Span) : SyntaxError :=
  .ofOffset s group.1.problem group.2.start

/-- **A text without oversized integers is read as components that hold its tokens in order, each of
them once.  Their spans nest in the text, and besides the errors of the tokens there is one error
for each group without closing bracket.** -/
theorem exists_components_nests (text : String)
    (h : ∀ l ∈ (ofString text).lexemes, l.token.kind.isOversized = false) :
    ∃ lexed parsed, (ofString text).lex = .ok lexed ∧ (ofString text).components = .ok parsed ∧
      Component.listTokens parsed.value = lexed.kept ∧
      Component.ListNests (ofString text).length 0 (ofString text).length parsed.value ∧
      parsed.errors =
        lexed.errors ++ (Component.listUnclosed parsed.value).map (ofString text).groupError := by
  obtain ⟨lexed, hlex, htokens⟩ := exists_lex_of_notOversized h
  have hspread : Token.Spread 0 (ofString text).length lexed.kept := by
    rw [Lexed.kept, htokens]
    exact (tile_lexemes _).spread_filter _
  refine ⟨lexed, _, hlex, components_of_lex hlex, Component.listTokens_ofTokens _ _,
    Component.listNests_ofTokens hspread, ?_⟩
  rw [Component.listUnclosed_ofTokens, List.map_map]
  rfl

/-- Two groups end with the text, a third has its bracket, and one bracket fits no group. -/
theorem exists_components_nests_open :
    (∀ l ∈ (ofString "f(a [b] /**/ \x7bc)").lexemes, l.token.kind.isOversized = false) ∧
      ∃ lexed parsed, (ofString "f(a [b] /**/ \x7bc)").lex = .ok lexed ∧
        (ofString "f(a [b] /**/ \x7bc)").components = .ok parsed ∧
        Component.listTokens parsed.value = lexed.kept ∧
        Component.ListNests (ofString "f(a [b] /**/ \x7bc)").length 0
          (ofString "f(a [b] /**/ \x7bc)").length parsed.value ∧
        parsed.errors = lexed.errors ++
          (Component.listUnclosed parsed.value).map
            (ofString "f(a [b] /**/ \x7bc)").groupError := by
  have hsmall : ∀ l ∈ (ofString "f(a [b] /**/ \x7bc)").lexemes,
      l.token.kind.isOversized = false := by decide +kernel
  exact ⟨hsmall, exists_components_nests _ hsmall⟩

end Source

end Styling
