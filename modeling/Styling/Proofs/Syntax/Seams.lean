import Styling.Proofs.Syntax.Shifting

/-!
# Putting pieces of text together

If pieces of text are put one behind the other, the tokens of the whole are those of the pieces,
unless something lies across a seam.  It may be a token, or a line end of two characters; or a
string that a newline breaks, for the string ends before the newline but would not be a broken one
without it.

* `IsSeam` says that nothing lies across the place where two texts meet.
* `MeetAtSeams` says this of a list of pieces.
* `keptKinds_flatten` is about the tokens of the whole.
-/

namespace Styling

/-- A text is cut where no lexeme, taken as far as it may have a problem, lies on both sides. -/
theorem lexemesFrom_append_of_forall {as xs : List Char} {start : Nat}
    (h : ∀ l ∈ lexemesFrom scanToken start (as ++ xs),
      l.problemOffset ≤ start + as.length ∨ start + as.length ≤ l.token.start) :
    lexemesFrom scanToken start (as ++ xs) =
      lexemesFrom scanToken start as ++ lexemesFrom scanToken (start + as.length) xs := by
  induction hn : as.length using Nat.strongRecOn generalizing as start with
  | ind n ih =>
    cases as with
    | nil =>
      rw [List.nil_append, lexemesFrom_nil, List.nil_append, ← hn, List.length_nil, Nat.add_zero]
    | cons a as =>
      rw [List.length_cons] at hn h
      rw [List.cons_append, lexemesFrom_cons] at h ⊢
      obtain ⟨hfirst, hrest⟩ := List.forall_mem_cons.mp h
      -- The first token starts before the cut, so it does not reach beyond it.
      have hreach : (scanToken a (as ++ xs)).reach ≤ as.length := by
        simp only [Lexeme.problemOffset, Token.start, Token.stop] at hfirst
        rw [Scanned.reach]
        split at hfirst <;> split <;> first | omega | contradiction
      have hlocal := isLocal_reach_scanToken a as xs hreach trivial
      rw [hlocal] at hreach hrest ⊢
      have hextra := (Scanned.extra_le_reach _).trans hreach
      rw [List.drop_append_of_le_length hextra] at hrest ⊢
      have hlength := List.length_drop (i := (scanToken a as).extra) (l := as)
      have hstop : start + (scanToken a as).extra + 1 + (as.drop (scanToken a as).extra).length =
          start + (as.length + 1) := by omega
      rw [lexemesFrom_cons, List.cons_append]
      rw [ih _ (by omega) (by rwa [hstop]) rfl, hstop, hn]

@[simp] theorem Lexeme.problemOffset_shift (k : Nat) (l : Lexeme) :
    (l.shift k).problemOffset = l.problemOffset + k := by
  rw [problemOffset, problemOffset, problem_shift]
  split
  · exact Nat.add_right_comm ..
  · rfl

/-! ## Seams -/

/-- Nothing lies across the place where two texts meet: no line end is joined there, and no token of
the joined text lies on both sides.  A broken string is taken with the newline that breaks it. -/
structure IsSeam (front back : List Char) : Prop where
  lineEnd : front.getLast? = some '\r' → back.head? ≠ some '\n'
  token : ∀ l ∈ (Source.mk (Source.normalize (front ++ back))).lexemes,
    l.problemOffset ≤ (Source.normalize front).length ∨
      (Source.normalize front).length ≤ l.token.start

namespace IsSeam

variable {front back : List Char}

/-- The lexemes of two texts that meet at a seam. -/
theorem lexemesFrom_eq (h : IsSeam front back) :
    lexemesFrom scanToken 0 (Source.normalize (front ++ back)) =
      lexemesFrom scanToken 0 (Source.normalize front) ++
        (lexemesFrom scanToken 0 (Source.normalize back)).map
          (Lexeme.shift (Source.normalize front).length) := by
  have htoken := h.token
  rw [Source.normalize_append h.lineEnd] at htoken ⊢
  rw [← lexemesFrom_shift]
  exact lexemesFrom_append_of_forall fun l hl => by simpa using htoken l hl

/-- The kinds of the tokens of two texts that meet at a seam. -/
theorem keptKinds_eq (h : IsSeam front back) :
    keptKinds scanToken (Source.normalize (front ++ back)) =
      keptKinds scanToken (Source.normalize front) ++
        keptKinds scanToken (Source.normalize back) := by
  rw [keptKinds, h.lexemesFrom_eq, List.map_append, List.filter_append, ← lexemesFrom_shift,
    map_kind_lexemesFrom scanToken (0 + (Source.normalize front).length) 0]
  rfl

end IsSeam

/-- Nothing lies across the places where the pieces of a text meet. -/
def MeetAtSeams (pieces : List (List Char)) : Prop :=
  ∀ n < pieces.length, IsSeam (pieces.take n).flatten (pieces.drop n).flatten

instance (front back : List Char) : Decidable (IsSeam front back) :=
  decidable_of_iff
    ((front.getLast? = some '\r' → back.head? ≠ some '\n') ∧
      ∀ l ∈ (Source.mk (Source.normalize (front ++ back))).lexemes,
        l.problemOffset ≤ (Source.normalize front).length ∨
          (Source.normalize front).length ≤ l.token.start)
    ⟨fun h => ⟨h.1, h.2⟩, fun h => ⟨h.lineEnd, h.token⟩⟩

instance (pieces : List (List Char)) : Decidable (MeetAtSeams pieces) :=
  inferInstanceAs (Decidable (∀ n < pieces.length, _))

/-- The pieces behind the first one. -/
theorem MeetAtSeams.tail {piece : List Char} {pieces : List (List Char)}
    (h : MeetAtSeams (piece :: pieces)) : MeetAtSeams pieces := by
  intro n hn
  have hfirst := h 1 (by rw [List.length_cons]; omega)
  have hseam := h (n + 1) (Nat.succ_lt_succ hn)
  have hsplit := (congrArg List.flatten (List.take_append_drop n pieces)).symm
  rw [List.flatten_append] at hsplit
  rw [List.take_succ_cons, List.take_zero, List.drop_succ_cons, List.drop_zero, List.flatten_cons,
    List.flatten_nil, List.append_nil, hsplit] at hfirst
  rw [List.take_succ_cons, List.drop_succ_cons, List.flatten_cons] at hseam
  generalize (pieces.take n).flatten = front at hfirst hseam ⊢
  generalize (pieces.drop n).flatten = back at hfirst hseam ⊢
  have hnormalize : Source.normalize (piece ++ front) =
      Source.normalize piece ++ Source.normalize front := by
    refine Source.normalize_append fun hreturn hnewline => hfirst.lineEnd hreturn ?_
    rw [List.head?_append, hnewline, Option.some_or]
  refine ⟨fun hreturn => hseam.lineEnd ?_, fun l hl => ?_⟩
  · rw [List.getLast?_append, hreturn, Option.some_or]
  · have hmem : l.shift (Source.normalize piece).length ∈
        lexemesFrom scanToken 0 (Source.normalize (piece ++ (front ++ back))) := by
      rw [hfirst.lexemesFrom_eq]
      exact List.mem_append_right _ (List.mem_map_of_mem hl)
    rw [← List.append_assoc] at hmem
    have hsides := hseam.token _ hmem
    rw [hnormalize, List.length_append, Lexeme.problemOffset_shift, Lexeme.token_shift] at hsides
    simp only [Token.start, Token.span_shift, Span.shift] at hsides ⊢
    omega

@[simp] theorem keptKinds_nil (scan : Scanner) : keptKinds scan (Source.normalize []) = [] := by
  rw [Source.normalize, keptKinds, lexemesFrom_nil]
  rfl

/-- The kinds of the tokens of pieces, each read on its own. -/
def piecewiseKinds (pieces : List (List Char)) : List TokenKind :=
  pieces.flatMap fun piece => keptKinds scanToken (Source.normalize piece)

theorem piecewiseKinds_cons (piece : List Char) (pieces : List (List Char)) :
    piecewiseKinds (piece :: pieces) =
      keptKinds scanToken (Source.normalize piece) ++ piecewiseKinds pieces :=
  List.flatMap_cons

/-- **The tokens of pieces that meet at seams** are those of the pieces, each read on its own. -/
theorem keptKinds_flatten {pieces : List (List Char)} (h : MeetAtSeams pieces) :
    keptKinds scanToken (Source.normalize pieces.flatten) = piecewiseKinds pieces := by
  induction pieces with
  | nil => exact keptKinds_nil scanToken
  | cons piece pieces ih =>
    rw [piecewiseKinds_cons, ← ih h.tail, List.flatten_cons]
    cases pieces with
    | nil => rw [List.flatten_nil, List.append_nil, keptKinds_nil, List.append_nil]
    | cons next pieces =>
      have hseam := h 1 (by simp)
      rw [List.take_succ_cons, List.take_zero, List.drop_succ_cons, List.drop_zero,
        List.flatten_cons, List.flatten_nil, List.append_nil] at hseam
      exact hseam.keptKinds_eq

end Styling
