import Mathlib
import Styling.Proofs.Syntax.Cutting
import Styling.Proofs.Syntax.Tree

/-!
# Written component values

A value that is printed is put together from words and calls.  If every word is cut off where it
ends, the text is read as just the components it was put together from, each at its own place.

* `Written` is a word or a call, `Written.chars` its text and `Written.component` the component that
  stands for it at an offset.
* `Written.Fits` says that a scanner cuts the text where the parts end, with regard to what follows.
* `Written.listLexemes` is about lexemes and `Written.lexBy` about the tokens of a source,
  `Written.foldl_listTokens` is about the tree, and `Written.componentsBy` puts them together.
* `Written.At` relates a text to its place in a source.
-/

namespace Styling

/-- A kind of token that neither opens nor closes a group, is kept, and is accepted. -/
def TokenKind.isWord : TokenKind → Bool
  | function _ | opening _ | closing _ | comment _ => false
  | kind => !kind.isOversized

/-- A word with the kind of token it spells, or a call with what stands between its parentheses. -/
inductive Written
  | token (chars : List Char) (kind : TokenKind)
  | call (name : List Char) (inside : List Written)

namespace Written

mutual

/-- The text. -/
def chars : Written → List Char
  | token cs _ => cs
  | call name ws => name ++ '(' :: (listChars ws ++ [')'])

/-- The texts one after the other. -/
def listChars : List Written → List Char
  | [] => []
  | w :: ws => w.chars ++ listChars ws

end

mutual

/-- The component that the text stands for at an offset. -/
def component (start : Nat) : Written → Component
  | token cs kind => .token ⟨kind, ⟨start, start + cs.length⟩⟩
  | call name ws =>
    let inside := start + name.length + 1
    let closing := inside + (listChars ws).length
    .group (.function (String.ofList name)) ⟨start, inside⟩ (listComponents inside ws)
      (.closed ⟨closing, closing + 1⟩)

/-- The components that the texts stand for one after the other. -/
def listComponents (start : Nat) : List Written → List Component
  | [] => []
  | w :: ws => w.component start :: listComponents (start + w.chars.length) ws

end

mutual

/-- The scanner cuts the text off as what it stands for, before the text that follows. -/
def Fits (scan : Scanner) (rest : List Char) : Written → Prop
  | token cs kind => kind.isWord = true ∧
    ∃ a as, cs = a :: as ∧ scan a (as ++ rest) = .plain kind as.length
  | call name ws =>
    (∃ a as, name = a :: as ∧ scan a (as ++ '(' :: (listChars ws ++ ')' :: rest)) =
      .plain (.function (String.ofList name)) name.length) ∧
    ListFits scan (')' :: rest) ws ∧ scan ')' rest = .single (.closing .round)

/-- The scanner cuts each of the texts off, before those that follow. -/
def ListFits (scan : Scanner) (rest : List Char) : List Written → Prop
  | [] => True
  | w :: ws => w.Fits scan (listChars ws ++ rest) ∧ ListFits scan rest ws

end

variable {scan : Scanner} {rest : List Char}

@[simp] theorem listChars_append (ws vs : List Written) :
    listChars (ws ++ vs) = listChars ws ++ listChars vs := by
  induction ws with
  | nil => rfl
  | cons w ws ih => rw [List.cons_append, listChars, ih, listChars, List.append_assoc]

theorem listComponents_append (start : Nat) (ws vs : List Written) :
    listComponents start (ws ++ vs) =
      listComponents start ws ++ listComponents (start + (listChars ws).length) vs := by
  induction ws generalizing start with
  | nil => rfl
  | cons w ws ih =>
    rw [List.cons_append, listComponents, ih, listComponents, listChars, List.length_append,
      Nat.add_assoc, List.cons_append]

theorem listFits_append {ws vs : List Written} :
    ListFits scan rest (ws ++ vs) ↔
      ListFits scan (listChars vs ++ rest) ws ∧ ListFits scan rest vs := by
  induction ws with
  | nil => simp [ListFits]
  | cons w ws ih =>
    rw [List.cons_append, ListFits, ListFits, ih, listChars_append, List.append_assoc, and_assoc]

/-! ## Lexemes -/

mutual

/-- **A text that fits is cut into the tokens of its component**, without problems. -/
theorem lexemes {rest : List Char} {w : Written} (h : w.Fits scan rest) (start : Nat) :
    lexemesFrom scan start (w.chars ++ rest) =
      (w.component start).tokens.map (⟨·, none⟩) ++
        lexemesFrom scan (start + w.chars.length) rest := by
  match w with
  | token cs kind =>
    rw [Fits] at h
    obtain ⟨-, a, as, rfl, hscan⟩ := h
    rw [chars, List.cons_append, lexemesFrom_cons, hscan, component, Component.tokens,
      List.length_cons, Scanned.plain]
    dsimp only
    rw [List.drop_left, Nat.add_assoc]
    rfl
  | call name ws =>
    rw [Fits] at h
    obtain ⟨⟨a, as, rfl, hscan⟩, hinside, hclosing⟩ := h
    have hwithin := listLexemes hinside (start + (a :: as).length + 1)
    have hchars : (call (a :: as) ws).chars ++ rest =
        a :: (as ++ '(' :: (listChars ws ++ ')' :: rest)) := by
      simp [chars]
    have hlength : (call (a :: as) ws).chars.length =
        (a :: as).length + 1 + (listChars ws).length + 1 := by
      simp [chars]
      omega
    have hdrop : (as ++ '(' :: (listChars ws ++ ')' :: rest)).drop (a :: as).length =
        listChars ws ++ ')' :: rest := by
      rw [List.length_cons, ← List.drop_drop, List.drop_left]
      rfl
    rw [hchars, lexemesFrom_cons, hscan, component, Component.tokens, hlength, Scanned.plain]
    dsimp only
    rw [hdrop, hwithin, lexemesFrom_cons, hclosing, List.map_cons, List.map_append,
      List.cons_append, List.append_assoc]
    rw [show start + ((a :: as).length + 1 + (listChars ws).length + 1) =
      start + (a :: as).length + 1 + (listChars ws).length + 1 by omega]
    rfl

/-- The same one after the other. -/
theorem listLexemes {rest : List Char} {ws : List Written} (h : ListFits scan rest ws)
    (start : Nat) :
    lexemesFrom scan start (listChars ws ++ rest) =
      (Component.listTokens (listComponents start ws)).map (⟨·, none⟩) ++
        lexemesFrom scan (start + (listChars ws).length) rest := by
  match ws with
  | [] => rfl
  | w :: ws =>
    rw [ListFits] at h
    rw [listChars, List.append_assoc, lexemes h.1, listLexemes h.2, listComponents,
      Component.listTokens, List.map_append, List.length_append, List.append_assoc, Nat.add_assoc]

end

/-! ## Kinds of tokens -/

mutual

/-- Every word is a kind of token that neither opens nor closes a group. -/
def HasWords : Written → Prop
  | token _ kind => kind.isWord = true
  | call _ ws => ListHasWords ws

/-- The same for each of them. -/
def ListHasWords : List Written → Prop
  | [] => True
  | w :: ws => w.HasWords ∧ ListHasWords ws

end

mutual

/-- What fits is made of words. -/
theorem hasWords_of_fits {rest : List Char} {w : Written} (h : w.Fits scan rest) : w.HasWords := by
  match w with
  | token cs kind =>
    rw [Fits] at h
    exact h.1
  | call name ws =>
    rw [Fits] at h
    exact listHasWords_of_listFits h.2.1

/-- The same one after the other. -/
theorem listHasWords_of_listFits {rest : List Char} {ws : List Written}
    (h : ListFits scan rest ws) : ListHasWords ws := by
  match ws with
  | [] => trivial
  | w :: ws =>
    rw [ListFits] at h
    exact ⟨hasWords_of_fits h.1, listHasWords_of_listFits h.2⟩

end

mutual

/-- Every token of the component is kept and accepted. -/
theorem forall_mem_tokens {w : Written} (h : w.HasWords) (start : Nat) :
    ∀ t ∈ (w.component start).tokens, t.kind.isComment = false ∧ t.kind.isOversized = false := by
  match w with
  | token cs kind =>
    intro t ht
    rw [component, Component.tokens, List.mem_singleton] at ht
    subst ht
    rw [HasWords] at h
    cases kind <;> simp_all [TokenKind.isWord, TokenKind.isComment, TokenKind.isOversized]
  | call name ws =>
    intro t ht
    rw [component, Component.tokens, List.mem_cons, List.mem_append] at ht
    rcases ht with rfl | ht | ht
    · exact ⟨rfl, rfl⟩
    · exact forall_mem_listTokens h _ t ht
    · obtain rfl := List.mem_singleton.mp ht
      exact ⟨rfl, rfl⟩

/-- The same one after the other. -/
theorem forall_mem_listTokens {ws : List Written} (h : ListHasWords ws) (start : Nat) :
    ∀ t ∈ Component.listTokens (listComponents start ws),
      t.kind.isComment = false ∧ t.kind.isOversized = false := by
  match ws with
  | [] => exact fun t ht => absurd ht (by simp [listComponents, Component.listTokens])
  | w :: ws =>
    intro t ht
    rw [listComponents, Component.listTokens, List.mem_append] at ht
    rcases ht with ht | ht
    · exact forall_mem_tokens h.1 _ t ht
    · exact forall_mem_listTokens h.2 _ t ht

end

/-! ## The tree -/

theorem step_of_isWord {t : Token} (h : t.kind.isWord = true) (b : Builder) :
    b.step t = b.add (.token t) := by
  obtain ⟨kind, span⟩ := t
  cases kind <;> first | rfl | exact absurd h (by simp [TokenKind.isWord])

mutual

/-- The tokens of the component are grouped as the component. -/
theorem foldl_tokens {w : Written} (h : w.HasWords) (start : Nat) (b : Builder) :
    (w.component start).tokens.foldl Builder.step b = b.add (w.component start) := by
  match w with
  | token cs kind =>
    rw [component, Component.tokens, List.foldl_cons, List.foldl_nil]
    exact step_of_isWord (t := ⟨kind, ⟨start, start + cs.length⟩⟩) h b
  | call name ws =>
    rw [component, Component.tokens, List.foldl_cons, List.foldl_append, foldl_listTokens h,
      List.foldl_cons, List.foldl_nil]
    simp only [Builder.step, Builder.openGroup, Opener.tokenKind, Opener.bracketKind,
      Builder.close, if_pos, Builder.add, List.append_nil, List.reverse_reverse]

/-- The same one after the other. -/
theorem foldl_listTokens {ws : List Written} (h : ListHasWords ws) (start : Nat) (b : Builder) :
    (Component.listTokens (listComponents start ws)).foldl Builder.step b =
      ⟨b.frames, (listComponents start ws).reverse ++ b.current⟩ := by
  match ws with
  | [] => rfl
  | w :: ws =>
    rw [listComponents, Component.listTokens, List.foldl_append, foldl_tokens h.1,
      foldl_listTokens h.2, Builder.add, List.reverse_cons, List.append_assoc]
    rfl

end

/-- **A text that fits is read as the tokens of the components it was put together from.** -/
theorem lexBy {ws : List Written} (h : ListFits scan [] ws) :
    (Source.mk (listChars ws)).lexBy scan =
      .ok ⟨Component.listTokens (listComponents 0 ws), []⟩ := by
  have hlexemes := listLexemes h 0
  rw [List.append_nil, lexemesFrom_nil, List.append_nil] at hlexemes
  have htokens := forall_mem_listTokens (listHasWords_of_listFits h) 0
  generalize Component.listTokens (listComponents 0 ws) = ts at hlexemes htokens
  have hsmall : (ts.map fun t => (⟨t, none⟩ : Lexeme)).any (fun l => l.token.kind.isOversized) =
      false := by
    rw [List.any_eq_false]
    intro l hl
    obtain ⟨t, ht, rfl⟩ := List.mem_map.mp hl
    rw [(htokens t ht).2]
    exact Bool.false_ne_true
  have hsound : (ts.map fun t => (⟨t, none⟩ : Lexeme)).filterMap
      (Lexeme.error? (Source.mk (listChars ws))) = [] := by
    rw [List.filterMap_eq_nil_iff]
    intro l hl
    obtain ⟨t, -, rfl⟩ := List.mem_map.mp hl
    rfl
  have hmap : (ts.map fun t => (⟨t, none⟩ : Lexeme)).map (·.token) = ts := by
    rw [List.map_map]
    exact List.map_id ts
  have hsource : (Source.mk (listChars ws)).lexemesBy scan = ts.map fun t => ⟨t, none⟩ := hlexemes
  refine (if_neg (by rw [hsource, hsmall]; exact Bool.false_ne_true)).trans ?_
  rw [hsource, hmap, hsound]

/-- **A text that fits is read as the components it was put together from.** -/
theorem componentsBy {ws : List Written} (h : ListFits scan [] ws) :
    (Source.mk (listChars ws)).componentsBy scan = .ok ⟨listComponents 0 ws, []⟩ := by
  have hwords := listHasWords_of_listFits h
  have hbuilt : (Component.listTokens (listComponents 0 ws)).foldl Builder.step .empty =
      ⟨[], (listComponents 0 ws).reverse⟩ := by
    rw [foldl_listTokens hwords]
    exact congrArg (Builder.mk []) (List.append_nil _)
  have hkept : ((Component.listTokens (listComponents 0 ws)).filter
      fun t => !t.kind.isComment) = Component.listTokens (listComponents 0 ws) :=
    List.filter_eq_self.mpr fun t ht => by rw [(forall_mem_listTokens hwords 0 t ht).1]; rfl
  simp only [Source.componentsBy, lexBy h, bind, Except.bind, Lexed.kept, hkept,
    Component.ofTokens, hbuilt, Builder.finish, Builder.finishFrom, List.reverse_reverse]
  rfl

/-! ## Places in a source -/

/-- The text stands at an offset of a source. -/
def At (source : Source) (start : Nat) (cs : List Char) : Prop :=
  ∃ rest, source.chars.drop start = cs ++ rest

theorem At.left {source : Source} {start : Nat} {as bs : List Char}
    (h : At source start (as ++ bs)) : At source start as := by
  obtain ⟨rest, hrest⟩ := h
  exact ⟨bs ++ rest, by rw [hrest, List.append_assoc]⟩

theorem At.right {source : Source} {start : Nat} {as bs : List Char}
    (h : At source start (as ++ bs)) : At source (start + as.length) bs := by
  obtain ⟨rest, hrest⟩ := h
  refine ⟨rest, ?_⟩
  rw [← List.drop_drop, hrest, List.append_assoc, List.drop_left]

theorem At.tail {source : Source} {start : Nat} {c : Char} {cs : List Char}
    (h : At source start (c :: cs)) : At source (start + 1) cs :=
  At.right (show At source start ([c] ++ cs) from h)

/-- A source has its text at the start. -/
theorem at_zero (cs : List Char) : At ⟨cs⟩ 0 cs := ⟨[], (List.append_nil cs).symm⟩

theorem start_component (w : Written) (start : Nat) : (w.component start).start = start := by
  cases w <;> rfl

theorem stop_component (w : Written) (start : Nat) :
    (w.component start).stop = start + w.chars.length := by
  cases w with
  | token cs kind => rfl
  | call name ws =>
    simp only [component, Component.stop, Ending.stop, chars, List.length_append, List.length_cons,
      List.length_nil]
    omega

/-- The text of a component at its place. -/
theorem textOf_component {source : Source} {w : Written} {start : Nat}
    (h : At source start w.chars) : source.textOf (w.component start) = String.ofList w.chars := by
  obtain ⟨rest, hrest⟩ := h
  rw [Source.textOf, start_component, stop_component, Source.slice, Source.sliceChars, hrest,
    Nat.add_sub_cancel_left, List.take_left]

end Written

end Styling
