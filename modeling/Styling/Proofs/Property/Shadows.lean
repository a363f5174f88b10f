import Styling.Proofs.Grammar.Rereading.Shadow
import Styling.Proofs.Property.Longhands

/-!
# What a list of shadows is

A list of shadows is read in a single loop, which tries a color, then a length, then a comma or the
word `inset`.  What it accepts is said without the loop: the list is cut at its commas, and the
components of each part are the lengths, the color and the word `inset` of a shadow, in any order.

* `Grammar.ShadowPiece.Reads` says as what piece of a shadow a component is read, and
  `Grammar.ShadowState.step_eq_ok` is the step of the loop.
* `Grammar.CompletesFrom` says which components complete a shadow, `Grammar.ListCompletes` which
  complete a list of shadows, and `Grammar.exists_foldlM_step_iff` is the run of the loop.
* `Grammar.IsShadow` says what the components of a shadow are, and
  `PropertyKind.readCursor_shadows` that lists of them are read, and nothing else.
-/

namespace Styling

/-- A comma is a token. -/
theorem Component.exists_comma {c : Component} (h : c.isComma = true) :
    ∃ span, c = .token ⟨.comma, span⟩ := by
  cases c with
  | token t =>
    obtain ⟨kind, span⟩ := t
    cases kind with
    | comma => exact ⟨span, rfl⟩
    | _ => exact absurd h Bool.false_ne_true
  | group opener opened cs ending => exact absurd h Bool.false_ne_true

/-- A list of one entry at most, as an option. -/
theorem toList_eq_iff {α : Type} {o : Option α} {as : List α} :
    o.toList = as ↔ as.length ≤ 1 ∧ o = as.head? := by
  match as with
  | [] | [_] | _ :: _ :: _ => cases o <;> simp

/-- A test that one entry at most satisfies, as a truth value. -/
theorem toNat_eq_countP_iff {α : Type} {b : Bool} {p : α → Bool} {as : List α} :
    b.toNat = as.countP p ↔ as.countP p ≤ 1 ∧ b = as.any p := by
  cases hany : as.any p with
  | false =>
    have hzero : as.countP p = 0 := List.countP_eq_zero.mpr (by simpa using hany)
    cases b <;> simp [hzero]
  | true =>
    have hpos : 0 < as.countP p := List.countP_pos_iff.mpr (by simpa using hany)
    cases b <;> simp <;> omega

/-- Reading a list gives what reading each entry gives. -/
theorem mapM_eq_ok_iff {ε α β : Type} {f : α → Except ε β} {as : List α} {bs : List β} :
    as.mapM f = .ok bs ↔ List.Forall₂ (fun a b => f a = .ok b) as bs := by
  refine ⟨forall₂_of_mapM_eq_ok, fun h => ?_⟩
  induction h with
  | nil => rfl
  | cons hfirst _ ih => rw [List.mapM_cons, hfirst, ih]; rfl

/-- Partners of partners. -/
theorem forall₂_comp_iff {α β γ : Type} {R : α → β → Prop} {S : β → γ → Prop} {as : List α}
    {cs : List γ} :
    (∃ bs, List.Forall₂ R as bs ∧ List.Forall₂ S bs cs) ↔
      List.Forall₂ (fun a c => ∃ b, R a b ∧ S b c) as cs := by
  constructor
  · rintro ⟨bs, hR, hS⟩
    induction hR generalizing cs with
    | nil =>
      obtain rfl := List.forall₂_nil_left_iff.mp hS
      exact .nil
    | cons h _ ih =>
      obtain ⟨c, cs, hc, hcs, rfl⟩ := List.forall₂_cons_left_iff.mp hS
      exact .cons ⟨_, h, hc⟩ (ih hcs)
  · intro h
    induction h with
    | nil => exact ⟨[], .nil, .nil⟩
    | cons h _ ih =>
      obtain ⟨b, hR, hS⟩ := h
      obtain ⟨bs, hRs, hSs⟩ := ih
      exact ⟨b :: bs, .cons hR hRs, .cons hS hSs⟩

namespace Grammar

variable {source : Source} {allowInset : Bool} {c : Component} {cs : List Component}

/-! ## Pieces of a shadow -/

/-- A piece of a shadow. -/
inductive ShadowPiece
  | length (l : Length)
  | paint (p : Paint)
  | inset

namespace ShadowPiece

/-- The length that the piece is. -/
def length? : ShadowPiece → Option Length
  | length l => some l
  | _ => none

@[simp] theorem length?_length (l : Length) : (length l).length? = some l := rfl

/-- The color that the piece is. -/
def paint? : ShadowPiece → Option Paint
  | paint p => some p
  | _ => none

/-- The piece is the word `inset`. -/
def isInset : ShadowPiece → Bool
  | inset => true
  | _ => false

/-- The lengths among the pieces follow each other. -/
def areAdjacent (pieces : List ShadowPiece) : Bool :=
  ((pieces.dropWhile (·.length?.isNone)).dropWhile (·.length?.isSome)).all (·.length?.isNone)

/-- The component is read as this piece. -/
inductive Reads (source : Source) (c : Component) : ShadowPiece → Prop
  | length {l : Length} (read : Grammar.length source c = .ok l) : Reads source c (.length l)
  | paint {p : Paint} (read : Grammar.paint source c = .ok p) : Reads source c (.paint p)
  | inset (word : c.isKeyword "inset" = true) : Reads source c .inset

end ShadowPiece

namespace ShadowParts

/-- The parts of a shadow with one piece more. -/
def add (p : ShadowParts) : ShadowPiece → ShadowParts
  | .length l => { p with lengths := p.lengths ++ [l] }
  | .paint color => { p with paint := some color }
  | .inset => { p with inset := true }

/-- The piece can be added: there is none too many. -/
def Takes (allowInset : Bool) (p : ShadowParts) : ShadowPiece → Prop
  | .length _ => p.lengths.length ≠ 4
  | .paint _ => p.paint = none
  | .inset => allowInset = true ∧ p.inset = false

/-- The parts that pieces make of the parts given. -/
structure Extends (allowInset : Bool) (p : ShadowParts) (pieces : List ShadowPiece)
    (q : ShadowParts) : Prop where
  lengths : q.lengths = p.lengths ++ pieces.filterMap ShadowPiece.length?
  paint : q.paint.toList = p.paint.toList ++ pieces.filterMap ShadowPiece.paint?
  inset : q.inset.toNat = p.inset.toNat + pieces.countP ShadowPiece.isInset
  allowed : allowInset = false → pieces.countP ShadowPiece.isInset = 0
  most : q.lengths.length ≤ 4

variable {p q : ShadowParts} {piece : ShadowPiece} {pieces : List ShadowPiece}

theorem extends_nil (hp : p.lengths.length ≤ 4) : Extends allowInset p [] q ↔ q = p := by
  constructor
  · intro h
    obtain ⟨lengths, paint, inset⟩ := p
    obtain ⟨lengths', paint', inset'⟩ := q
    have hlengths : lengths' = lengths := by simpa using h.lengths
    have hpaint : paint'.toList = paint.toList := by simpa using h.paint
    replace hpaint := congrArg List.head? hpaint
    rw [Option.head?_toList, Option.head?_toList] at hpaint
    have hinset : inset' = inset := by
      cases inset <;> cases inset' <;> first | rfl | exact absurd h.inset (by simp)
    rw [hlengths, hpaint, hinset]
  · rintro rfl
    exact ⟨by simp, by simp, by simp, fun _ => rfl, hp⟩

theorem extends_cons_length {l : Length} :
    Extends allowInset p (.length l :: pieces) q ↔
      p.Takes allowInset (.length l) ∧ Extends allowInset (p.add (.length l)) pieces q := by
  constructor
  · intro h
    have hlengths : q.lengths = p.lengths ++ l :: pieces.filterMap ShadowPiece.length? :=
      h.lengths
    have hmost := h.most
    rw [hlengths, List.length_append, List.length_cons] at hmost
    refine ⟨show p.lengths.length ≠ 4 by omega, ?_, h.paint, h.inset, h.allowed, h.most⟩
    rw [hlengths, add, List.append_assoc]
    rfl
  · rintro ⟨-, h⟩
    refine ⟨?_, h.paint, h.inset, h.allowed, h.most⟩
    rw [h.lengths, add, List.append_assoc]
    rfl

theorem extends_cons_paint {color : Paint} :
    Extends allowInset p (.paint color :: pieces) q ↔
      p.Takes allowInset (.paint color) ∧ Extends allowInset (p.add (.paint color)) pieces q := by
  constructor
  · intro h
    have hpaint : q.paint.toList =
        p.paint.toList ++ color :: pieces.filterMap ShadowPiece.paint? := h.paint
    have hnone : p.paint = none := by
      cases hp : p.paint with
      | none => rfl
      | some first =>
        have hcount := congrArg List.length hpaint
        cases hq : q.paint <;> simp [hp, hq] at hcount
    refine ⟨hnone, h.lengths, ?_, h.inset, h.allowed, h.most⟩
    rw [hpaint, hnone]
    rfl
  · rintro ⟨hnone, h⟩
    refine ⟨h.lengths, ?_, h.inset, h.allowed, h.most⟩
    rw [h.paint, show p.paint = none from hnone]
    rfl

theorem extends_cons_inset :
    Extends allowInset p (.inset :: pieces) q ↔
      p.Takes allowInset .inset ∧ Extends allowInset (p.add .inset) pieces q := by
  have hone : (ShadowPiece.inset :: pieces).countP ShadowPiece.isInset =
      pieces.countP ShadowPiece.isInset + 1 := List.countP_cons_of_pos rfl
  constructor
  · intro h
    have hcount := h.inset
    rw [hone] at hcount
    have hmost := q.inset.toNat_le
    have hnone : p.inset = false := by
      cases hp : p.inset with
      | false => rfl
      | true =>
        rw [hp, Bool.toNat_true] at hcount
        omega
    have hallowed : allowInset = true := by
      cases hallow : allowInset with
      | true => rfl
      | false => exact absurd (h.allowed hallow) (by simp [hone])
    refine ⟨⟨hallowed, hnone⟩, h.lengths, h.paint, ?_, fun hnot => ?_, h.most⟩
    · rw [hcount, hnone, Nat.add_comm _ 1]
      exact Nat.zero_add _
    · exact absurd (hallowed.symm.trans hnot) (by simp)
  · rintro ⟨⟨hallowed, hnone⟩, h⟩
    refine ⟨h.lengths, h.paint, ?_, fun hnot => absurd hallowed (by simp [hnot]), h.most⟩
    rw [h.inset, hnone, hone, Nat.add_comm _ 1]
    exact (Nat.zero_add _).symm

/-- One piece more is a piece that can be added, and then the others. -/
theorem extends_cons :
    Extends allowInset p (piece :: pieces) q ↔
      p.Takes allowInset piece ∧ Extends allowInset (p.add piece) pieces q := by
  cases piece with
  | length l => exact extends_cons_length
  | paint color => exact extends_cons_paint
  | inset => exact extends_cons_inset

/-- Pieces alone make parts if there are at most four lengths, one color and the word `inset` once,
where it is allowed. -/
theorem extends_empty :
    Extends allowInset .empty pieces q ↔
      (pieces.filterMap ShadowPiece.length?).length ≤ 4 ∧
        (pieces.filterMap ShadowPiece.paint?).length ≤ 1 ∧
        pieces.countP ShadowPiece.isInset ≤ allowInset.toNat ∧
        q = ⟨pieces.filterMap ShadowPiece.length?, (pieces.filterMap ShadowPiece.paint?).head?,
          pieces.any ShadowPiece.isInset⟩ := by
  constructor
  · intro h
    have hlengths : q.lengths = pieces.filterMap ShadowPiece.length? := h.lengths
    obtain ⟨hpaints, hpaint⟩ := toList_eq_iff.mp (h.paint.trans (List.nil_append _))
    obtain ⟨hinsets, hinset⟩ := toNat_eq_countP_iff.mp (h.inset.trans (Nat.zero_add _))
    refine ⟨hlengths ▸ h.most, hpaints, ?_, ?_⟩
    · cases allowInset with
      | true => exact hinsets
      | false => exact (h.allowed rfl).le
    · rw [← hlengths, ← hpaint, ← hinset]
  · rintro ⟨hlengths, hpaints, hinsets, rfl⟩
    refine ⟨(List.nil_append _).symm, ?_, ?_, ?_, hlengths⟩
    · exact (toList_eq_iff.mpr ⟨hpaints, rfl⟩).trans (List.nil_append _).symm
    · have honce := hinsets.trans (Bool.toNat_le allowInset)
      exact (toNat_eq_countP_iff.mpr ⟨honce, rfl⟩).trans (Nat.zero_add _).symm
    · rintro rfl
      exact Nat.le_zero.mp hinsets

theorem length_lengths_add (hp : p.lengths.length ≤ 4) (h : p.Takes allowInset piece) :
    (p.add piece).lengths.length ≤ 4 := by
  cases piece with
  | length l =>
    have hne : p.lengths.length ≠ 4 := h
    rw [add, List.length_append, List.length_singleton]
    omega
  | paint | inset => exact hp

/-- Two to four lengths are the offsets, the blur, which may not be negative, and the spread. -/
theorem finish_of_lengths {x y : Length} {more : List Length} (h : p.lengths = x :: y :: more)
    (hmore : more.length ≤ 2) :
    p.finish = if more[0]?.any Length.isNegative then .error .negativeBlur
      else .ok (x, y, more[0]?, more[1]?) := by
  match more with
  | [] | [_] | [_, _] =>
    simp only [finish, h]
    rfl
  | _ :: _ :: _ :: _ => exact absurd hmore (by simp)

/-- Parts are a shadow if they have two to four lengths and the third is not negative. -/
theorem finish_eq_ok {r : Length × Length × Option Length × Option Length} :
    p.finish = .ok r ↔ ∃ x y more, p.lengths = x :: y :: more ∧ more.length ≤ 2 ∧
      more[0]?.any Length.isNegative = false ∧ r = (x, y, more[0]?, more[1]?) := by
  constructor
  · intro h
    obtain ⟨x, y, more, hlengths, hmore⟩ :
        ∃ x y more, p.lengths = x :: y :: more ∧ more.length ≤ 2 := by
      simp only [finish] at h
      split at h
      next x y hlengths => exact ⟨x, y, [], hlengths, by simp⟩
      next x y blur hlengths => exact ⟨x, y, [blur], hlengths, by simp⟩
      next x y blur spread hlengths => exact ⟨x, y, [blur, spread], hlengths, by simp⟩
      next => exact absurd h (by simp [throw, throwThe, MonadExceptOf.throw, bind, Except.bind])
    rw [finish_of_lengths hlengths hmore] at h
    split at h
    next => exact absurd h (by simp)
    next hblur =>
      exact ⟨x, y, more, hlengths, hmore, Bool.eq_false_iff.mpr hblur, (Except.ok.inj h).symm⟩
  · rintro ⟨x, y, more, hlengths, hmore, hblur, rfl⟩
    rw [finish_of_lengths hlengths hmore, hblur]
    rfl

end ShadowParts

/-! ## The loop -/

/-- A comma is no piece of a shadow. -/
theorem ShadowPiece.Reads.isComma {piece : ShadowPiece} (h : piece.Reads source c) :
    c.isComma = false := by
  cases hcomma : c.isComma with
  | false => rfl
  | true =>
    obtain ⟨span, rfl⟩ := Component.exists_comma hcomma
    cases h with
    | length read => exact nomatch read
    | paint read => exact nomatch read
    | inset word => exact absurd word Bool.false_ne_true

/-- What is read as a length is no other piece. -/
theorem ShadowPiece.Reads.eq_length {piece : ShadowPiece} (h : piece.Reads source c) {l : Length}
    (hl : Grammar.length source c = .ok l) : piece = .length l := by
  cases h with
  | length read => rw [Except.ok.inj (read.symm.trans hl)]
  | paint read =>
    have hnone := attempted_paint_of_length hl
    rw [read] at hnone
    exact nomatch hnone
  | inset word =>
    obtain ⟨name, span, rfl, -⟩ := Component.exists_ident word
    exact nomatch hl

/-- No word is read as a length. -/
theorem ShadowPiece.Reads.length?_eq_none {piece : ShadowPiece} {name : String} {span : Span}
    (h : piece.Reads source (.token ⟨.ident name, span⟩)) : piece.length? = none := by
  cases h with
  | length read => exact nomatch read
  | paint read => rfl
  | inset word => rfl

namespace ShadowState

variable {s t : ShadowState}

/-- A comma finishes a shadow, and the word `inset` is taken once. -/
theorem stepMark_eq_ok :
    stepMark source allowInset s c = .ok t ↔
      c.isComma = true ∧ (∃ r, s.current.finish = .ok r) ∧
          t = ⟨s.current :: s.finished, .empty⟩ ∨
        c.isComma = false ∧ c.isKeyword "inset" = true ∧ s.current.Takes allowInset .inset ∧
          t = { s with current := s.current.add .inset } := by
  rw [stepMark]
  cases c.isComma with
  | true =>
    cases s.current.finish with
    | ok r => simpa using eq_comm
    | error reason => simp
  | false =>
    cases c.isKeyword "inset" with
    | false => simp [StepError.ofLeaf, Leaf.unexpected]
    | true =>
      cases allowInset with
      | false => simp [ShadowParts.Takes, StepError.ofLeaf, Leaf.unexpected]
      | true =>
        cases hinset : s.current.inset with
        | true => simp [ShadowParts.Takes, hinset, StepError.ofLeaf, Leaf.unexpected]
        | false => simpa [ShadowParts.Takes, ShadowParts.add, hinset] using eq_comm

/-- What a step can do. -/
theorem comma_or_piece_of_step (h : step source allowInset s c = .ok t) :
    c.isComma = true ∧ (∃ r, s.current.finish = .ok r) ∧
        t = ⟨s.current :: s.finished, .empty⟩ ∨
      ∃ piece, ShadowPiece.Reads source c piece ∧ s.current.Takes allowInset piece ∧
        t = { s with current := s.current.add piece } := by
  obtain ⟨-, -, h⟩ := exists_of_bind_eq_ok h
  obtain ⟨paint?, hpaint, h⟩ := exists_of_bind_eq_ok h
  replace hpaint := ok_of_ofLeaf hpaint
  cases paint? with
  | some p =>
    dsimp only at h
    split at h
    next => exact absurd h (by simp [throw, throwThe, MonadExceptOf.throw, bind, Except.bind])
    next hcolor =>
      rw [Bool.not_eq_true, Option.isSome_eq_false_iff, Option.isNone_iff_eq_none] at hcolor
      exact Or.inr ⟨.paint p, .paint (ok_of_attempted hpaint), hcolor, (Except.ok.inj h).symm⟩
  | none =>
    obtain ⟨length?, hlength, h⟩ := exists_of_bind_eq_ok h
    replace hlength := ok_of_ofLeaf hlength
    cases length? with
    | some l =>
      dsimp only at h
      split at h
      next => exact absurd h (by simp [throw, throwThe, MonadExceptOf.throw, bind, Except.bind])
      next hcount =>
        exact Or.inr ⟨.length l, .length (ok_of_attempted hlength), hcount,
          (Except.ok.inj h).symm⟩
    | none =>
      rcases stepMark_eq_ok.mp h with hcomma | ⟨-, hword, htakes, rfl⟩
      · exact Or.inl hcomma
      · exact Or.inr ⟨.inset, .inset hword, htakes, rfl⟩

/-- A piece that can be added is added. -/
theorem step_of_reads (hvar : c.isVar = false)
    (hinset : c.isKeyword "inset" = true → Reader.attempted (paint source c) = .ok none)
    {piece : ShadowPiece} (hreads : ShadowPiece.Reads source c piece)
    (htakes : s.current.Takes allowInset piece) :
    step source allowInset s c = .ok { s with current := s.current.add piece } := by
  have hnoVar : Leaf.noVar source c = .ok () := noVar_of_not_isVar hvar
  have hcomma := hreads.isComma
  cases hreads with
  | length read =>
    have hcount : s.current.lengths.length ≠ 4 := htakes
    rw [step, hnoVar, attempted_paint_of_length read, read]
    simp [StepError.ofLeaf, Reader.attempted, bind, Except.bind, hcount]
    rfl
  | paint read =>
    have hnone : s.current.paint = none := htakes
    rw [step, hnoVar, read]
    simp [StepError.ofLeaf, Reader.attempted, bind, Except.bind, hnone]
    rfl
  | inset word =>
    have hlength : Reader.attempted (length source c) = .ok none := by
      obtain ⟨name, span, rfl, -⟩ := Component.exists_ident word
      rfl
    rw [shadowStep_of_mark hvar (hinset word) hlength]
    exact stepMark_eq_ok.mpr (Or.inr ⟨hcomma, word, htakes, rfl⟩)

/-- The step: a comma finishes the shadow that is being read, and any other component is a piece of
it.  The word `inset` is a piece unless it is read as a color. -/
theorem step_eq_ok (hvar : c.isVar = false)
    (hinset : c.isKeyword "inset" = true → Reader.attempted (paint source c) = .ok none) :
    step source allowInset s c = .ok t ↔
      c.isComma = true ∧ (∃ r, s.current.finish = .ok r) ∧
          t = ⟨s.current :: s.finished, .empty⟩ ∨
        ∃ piece, ShadowPiece.Reads source c piece ∧ s.current.Takes allowInset piece ∧
          t = { s with current := s.current.add piece } := by
  constructor
  · exact comma_or_piece_of_step
  · rintro (⟨hcomma, hfinish, rfl⟩ | ⟨piece, hreads, htakes, rfl⟩)
    · obtain ⟨span, rfl⟩ := Component.exists_comma hcomma
      rw [shadowStep_of_mark rfl rfl rfl]
      exact stepMark_eq_ok.mpr (Or.inl ⟨hcomma, hfinish, rfl⟩)
    · exact step_of_reads hvar hinset hreads htakes

end ShadowState

/-! ## Lists of shadows -/

/-- The components make a shadow of the parts given, and it is complete. -/
def CompletesFrom (source : Source) (allowInset : Bool) (p : ShadowParts) (cs : List Component)
    (q : ShadowParts) : Prop :=
  (∃ pieces, List.Forall₂ (ShadowPiece.Reads source) cs pieces ∧ p.Extends allowInset pieces q) ∧
    ∃ r, q.finish = .ok r

theorem completesFrom_nil {p q : ShadowParts} (hp : p.lengths.length ≤ 4) :
    CompletesFrom source allowInset p [] q ↔ q = p ∧ ∃ r, q.finish = .ok r := by
  simp [CompletesFrom, ShadowParts.extends_nil hp]

theorem completesFrom_cons {p q : ShadowParts} :
    CompletesFrom source allowInset p (c :: cs) q ↔
      ∃ piece, ShadowPiece.Reads source c piece ∧ p.Takes allowInset piece ∧
        CompletesFrom source allowInset (p.add piece) cs q := by
  constructor
  · rintro ⟨⟨pieces, hreads, hextends⟩, hfinish⟩
    obtain ⟨piece, pieces, hpiece, hothers, rfl⟩ := List.forall₂_cons_left_iff.mp hreads
    obtain ⟨htakes, hextends⟩ := ShadowParts.extends_cons.mp hextends
    exact ⟨piece, hpiece, htakes, ⟨pieces, hothers, hextends⟩, hfinish⟩
  · rintro ⟨piece, hpiece, htakes, ⟨pieces, hreads, hextends⟩, hfinish⟩
    exact ⟨⟨piece :: pieces, .cons hpiece hreads,
      ShadowParts.extends_cons.mpr ⟨htakes, hextends⟩⟩, hfinish⟩

/-- The components up to the first comma complete the shadow of the parts given, and each of the
other parts between commas is a shadow. -/
def ListCompletes (source : Source) (allowInset : Bool) (stop : Nat) (p : ShadowParts)
    (cs : List Component) (all : List ShadowParts) : Prop :=
  ∃ part parts q qs, (Cursor.splitAtCommas stop cs).map (·.1) = part :: parts ∧
    CompletesFrom source allowInset p part q ∧
    List.Forall₂ (CompletesFrom source allowInset .empty) parts qs ∧ all = q :: qs

section ListCompletes

variable {stop : Nat} {p : ShadowParts} {all : List ShadowParts}

theorem listCompletes_nil (hp : p.lengths.length ≤ 4) :
    ListCompletes source allowInset stop p [] all ↔ (∃ r, p.finish = .ok r) ∧ all = [p] := by
  constructor
  · rintro ⟨part, parts, q, qs, hsplit, hfirst, hothers, rfl⟩
    obtain ⟨rfl, rfl⟩ := List.cons.inj hsplit
    obtain ⟨rfl, hfinish⟩ := (completesFrom_nil hp).mp hfirst
    obtain rfl := List.forall₂_nil_left_iff.mp hothers
    exact ⟨hfinish, rfl⟩
  · rintro ⟨hfinish, rfl⟩
    exact ⟨[], [], p, [], rfl, (completesFrom_nil hp).mpr ⟨rfl, hfinish⟩, .nil, rfl⟩

/-- From no parts on, each part between commas is a shadow. -/
theorem listCompletes_empty :
    ListCompletes source allowInset stop .empty cs all ↔
      List.Forall₂ (CompletesFrom source allowInset .empty)
        ((Cursor.splitAtCommas stop cs).map (·.1)) all := by
  constructor
  · rintro ⟨part, parts, q, qs, hsplit, hfirst, hothers, rfl⟩
    rw [hsplit]
    exact .cons hfirst hothers
  · intro h
    obtain ⟨head, rest, hparts⟩ :=
      List.exists_cons_of_ne_nil (Cursor.splitAtCommas_ne_nil stop cs)
    rw [hparts, List.map_cons] at h
    obtain ⟨q, qs, hfirst, hothers, rfl⟩ := List.forall₂_cons_left_iff.mp h
    exact ⟨head.1, _, q, qs, by rw [hparts, List.map_cons], hfirst, hothers, rfl⟩

/-- At a comma the parts given are a shadow, and another one starts. -/
theorem listCompletes_comma (hcomma : c.isComma = true) (hp : p.lengths.length ≤ 4) :
    ListCompletes source allowInset stop p (c :: cs) all ↔
      (∃ r, p.finish = .ok r) ∧
        ∃ rest, ListCompletes source allowInset stop .empty cs rest ∧ all = p :: rest := by
  have hsplit : (Cursor.splitAtCommas stop (c :: cs)).map (·.1) =
      [] :: (Cursor.splitAtCommas stop cs).map (·.1) := by
    rw [Cursor.splitAtCommas, if_pos hcomma, List.map_cons]
  simp only [listCompletes_empty]
  constructor
  · rintro ⟨part, parts, q, qs, hparts, hfirst, hothers, rfl⟩
    obtain ⟨rfl, rfl⟩ := List.cons.inj (hsplit.symm.trans hparts)
    obtain ⟨rfl, hfinish⟩ := (completesFrom_nil hp).mp hfirst
    exact ⟨hfinish, qs, hothers, rfl⟩
  · rintro ⟨hfinish, qs, hothers, rfl⟩
    exact ⟨[], _, p, qs, hsplit, (completesFrom_nil hp).mpr ⟨rfl, hfinish⟩, hothers, rfl⟩

/-- Any other component is a piece of the shadow that is being read. -/
theorem listCompletes_piece (hcomma : c.isComma = false) :
    ListCompletes source allowInset stop p (c :: cs) all ↔
      ∃ piece, ShadowPiece.Reads source c piece ∧ p.Takes allowInset piece ∧
        ListCompletes source allowInset stop (p.add piece) cs all := by
  obtain ⟨head, rest, hparts, hcons⟩ := Cursor.exists_splitAtCommas_cons hcomma stop cs
  constructor
  · rintro ⟨part, parts, q, qs, hsplit, hfirst, hothers, rfl⟩
    rw [hcons, List.map_cons] at hsplit
    obtain ⟨rfl, rfl⟩ := List.cons.inj hsplit
    obtain ⟨piece, hpiece, htakes, hfirst⟩ := completesFrom_cons.mp hfirst
    exact ⟨piece, hpiece, htakes, head.1, _, q, qs, by rw [hparts, List.map_cons], hfirst, hothers,
      rfl⟩
  · rintro ⟨piece, hpiece, htakes, part, parts, q, qs, hsplit, hfirst, hothers, rfl⟩
    rw [hparts, List.map_cons] at hsplit
    obtain ⟨rfl, rfl⟩ := List.cons.inj hsplit
    exact ⟨c :: head.1, _, q, qs, by rw [hcons, List.map_cons],
      completesFrom_cons.mpr ⟨piece, hpiece, htakes, hfirst⟩, hothers, rfl⟩

end ListCompletes

/-- The run: from the shadow that is being read on, each part between commas is a shadow. -/
theorem exists_foldlM_step_iff (hvar : ∀ c ∈ cs, c.isVar = false)
    (hinset : ∀ c ∈ cs, c.isKeyword "inset" = true →
      Reader.attempted (paint source c) = .ok none)
    {finished all : List ShadowParts} {p : ShadowParts} (hp : p.lengths.length ≤ 4) (stop : Nat) :
    (∃ t, cs.foldlM (ShadowState.step source allowInset) ⟨finished, p⟩ = .ok t ∧
        (∃ r, t.current.finish = .ok r) ∧ t.all = all) ↔
      ∃ rest, ListCompletes source allowInset stop p cs rest ∧
        all = finished.reverse ++ rest := by
  induction cs generalizing finished p with
  | nil =>
    constructor
    · rintro ⟨t, ht, hfinish, rfl⟩
      obtain rfl := Except.ok.inj ht
      exact ⟨[p], (listCompletes_nil hp).mpr ⟨hfinish, rfl⟩, List.reverse_cons⟩
    · rintro ⟨rest, hrest, rfl⟩
      obtain ⟨hfinish, rfl⟩ := (listCompletes_nil hp).mp hrest
      exact ⟨_, rfl, hfinish, List.reverse_cons⟩
  | cons c cs ih =>
    obtain ⟨hcvar, hvar⟩ := List.forall_mem_cons.mp hvar
    obtain ⟨hcinset, hinset⟩ := List.forall_mem_cons.mp hinset
    have hempty : ShadowParts.empty.lengths.length ≤ 4 := Nat.zero_le 4
    have hreverse : ∀ rest, finished.reverse ++ p :: rest = (p :: finished).reverse ++ rest := by
      intro rest
      rw [List.reverse_cons, List.append_assoc, List.singleton_append]
    constructor
    · rintro ⟨t, ht, hend⟩
      obtain ⟨s, hstep, ht⟩ := foldlM_cons_eq_ok.mp ht
      rcases (ShadowState.step_eq_ok hcvar hcinset).mp hstep with
        ⟨hcomma, hdone, rfl⟩ | ⟨piece, hpiece, htakes, rfl⟩
      · obtain ⟨rest, hrest, rfl⟩ := (ih hvar hinset hempty).mp ⟨t, ht, hend⟩
        exact ⟨p :: rest, (listCompletes_comma hcomma hp).mpr ⟨hdone, rest, hrest, rfl⟩,
          (hreverse rest).symm⟩
      · obtain ⟨rest, hrest, rfl⟩ :=
          (ih hvar hinset (ShadowParts.length_lengths_add hp htakes)).mp ⟨t, ht, hend⟩
        exact ⟨rest, (listCompletes_piece hpiece.isComma).mpr ⟨piece, hpiece, htakes, hrest⟩, rfl⟩
    · rintro ⟨rest, hrest, rfl⟩
      cases hcomma : c.isComma with
      | true =>
        obtain ⟨hdone, more, hmore, rfl⟩ := (listCompletes_comma hcomma hp).mp hrest
        obtain ⟨t, ht, hend⟩ := (ih hvar hinset hempty).mpr ⟨more, hmore, hreverse more⟩
        refine ⟨t, foldlM_cons_eq_ok.mpr ⟨_, ?_, ht⟩, hend⟩
        exact (ShadowState.step_eq_ok hcvar hcinset).mpr (Or.inl ⟨hcomma, hdone, rfl⟩)
      | false =>
        obtain ⟨piece, hpiece, htakes, hmore⟩ := (listCompletes_piece hcomma).mp hrest
        obtain ⟨t, ht, hend⟩ :=
          (ih hvar hinset (ShadowParts.length_lengths_add hp htakes)).mpr ⟨rest, hmore, rfl⟩
        refine ⟨t, foldlM_cons_eq_ok.mpr ⟨_, ?_, ht⟩, hend⟩
        exact (ShadowState.step_eq_ok hcvar hcinset).mpr (Or.inr ⟨piece, hpiece, htakes, rfl⟩)

/-- A whole list: each part between commas is a shadow. -/
theorem exists_foldlM_start_iff (hvar : ∀ c ∈ cs, c.isVar = false)
    (hinset : ∀ c ∈ cs, c.isKeyword "inset" = true →
      Reader.attempted (paint source c) = .ok none) {all : List ShadowParts} (stop : Nat) :
    (∃ t, cs.foldlM (ShadowState.step source allowInset) .start = .ok t ∧
        (∃ r, t.current.finish = .ok r) ∧ t.all = all) ↔
      List.Forall₂ (CompletesFrom source allowInset .empty)
        ((Cursor.splitAtCommas stop cs).map (·.1)) all := by
  have hempty : ShadowParts.empty.lengths.length ≤ 4 := Nat.zero_le 4
  refine (exists_foldlM_step_iff hvar hinset hempty stop).trans ?_
  simp [listCompletes_empty]

/-- What the components of a shadow say: two to `most` lengths, of which the third is not negative,
at most one color and at most `insets` times the word `inset`, in any order.  The lengths are the
offsets and what follows them. -/
inductive IsShadow (source : Source) (most insets : Nat) (cs : List Component) :
    Length → Length → List Length → Option Color → Bool → Prop
  | intro {pieces : List ShadowPiece} {x y : Length} {more : List Length}
    (reads : List.Forall₂ (ShadowPiece.Reads source) cs pieces)
    (lengths : pieces.filterMap ShadowPiece.length? = x :: y :: more)
    (count : 2 + more.length ≤ most) (blur : more[0]?.any Length.isNegative = false)
    (colors : (pieces.filterMap ShadowPiece.paint?).length ≤ 1)
    (marks : pieces.countP ShadowPiece.isInset ≤ insets) :
    IsShadow source most insets cs x y more
      ((pieces.filterMap ShadowPiece.paint?).head?.bind Paint.color?)
      (pieces.any ShadowPiece.isInset)

/-- The components are a shadow of a box; what is missing is zero. -/
def IsBoxShadow (source : Source) (cs : List Component) (s : BoxShadow) : Prop :=
  ∃ more, IsShadow source 4 1 cs s.offsetX s.offsetY more s.color s.inset ∧
    s.blur = more[0]?.getD .zero ∧ s.spread = more[1]?.getD .zero

/-- The components are a shadow of text, which has no spread and no word `inset`. -/
def IsTextShadow (source : Source) (cs : List Component) (s : TextShadow) : Prop :=
  ∃ more, IsShadow source 3 0 cs s.offsetX s.offsetY more s.color false ∧
    s.blur = more[0]?.getD .zero

/-- Complete parts of a shadow say what its components say. -/
theorem exists_completes_iff (allowInset : Bool) {x y : Length} {blur spread : Option Length}
    {color : Option Color} {inset : Bool} :
    (∃ p, CompletesFrom source allowInset .empty cs p ∧ p.finish = .ok (x, y, blur, spread) ∧
        p.color? = color ∧ p.inset = inset) ↔
      ∃ more, IsShadow source 4 allowInset.toNat cs x y more color inset ∧ blur = more[0]? ∧
        spread = more[1]? := by
  constructor
  · rintro ⟨p, ⟨⟨pieces, hreads, hextends⟩, -⟩, hfinish, rfl, rfl⟩
    obtain ⟨-, hcolors, hmarks, rfl⟩ := ShadowParts.extends_empty.mp hextends
    obtain ⟨x', y', more, hlengths, hmore, hblur, hr⟩ := ShadowParts.finish_eq_ok.mp hfinish
    obtain ⟨rfl, rfl, rfl, rfl⟩ : x = x' ∧ y = y' ∧ blur = more[0]? ∧ spread = more[1]? := by
      simpa using hr
    exact ⟨more, .intro hreads hlengths (by omega) hblur hcolors hmarks, rfl, rfl⟩
  · rintro ⟨more, @⟨pieces, _, _, _, hreads, hlengths, hcount, hblur, hcolors, hmarks⟩, rfl, rfl⟩
    let p : ShadowParts := ⟨pieces.filterMap ShadowPiece.length?,
      (pieces.filterMap ShadowPiece.paint?).head?, pieces.any ShadowPiece.isInset⟩
    have hmost : (pieces.filterMap ShadowPiece.length?).length ≤ 4 := by
      rw [hlengths, List.length_cons, List.length_cons]
      omega
    have hextends := ShadowParts.extends_empty.mpr ⟨hmost, hcolors, hmarks, rfl⟩
    have hfinish : p.finish = .ok (x, y, more[0]?, more[1]?) :=
      ShadowParts.finish_eq_ok.mpr ⟨x, y, more, hlengths, by omega, hblur, rfl⟩
    exact ⟨p, ⟨⟨pieces, hreads, hextends⟩, _, hfinish⟩, hfinish, rfl, rfl⟩

theorem isBoxShadow_iff {s : BoxShadow} :
    IsBoxShadow source cs s ↔
      ∃ p, CompletesFrom source true .empty cs p ∧ boxShadowOf p = .ok s := by
  constructor
  · rintro ⟨more, hshadow, hblur, hspread⟩
    obtain ⟨p, hcompletes, hfinish, hcolor, hinset⟩ :=
      (exists_completes_iff true).mpr ⟨more, hshadow, rfl, rfl⟩
    refine ⟨p, hcompletes, ?_⟩
    simp only [boxShadowOf, hfinish, bind, Except.bind, pure, Except.pure, hcolor, hinset,
      ← hblur, ← hspread]
  · rintro ⟨p, hcompletes, h⟩
    obtain ⟨⟨x, y, blur, spread⟩, hfinish, h⟩ := exists_of_bind_eq_ok h
    obtain rfl := Except.ok.inj h
    obtain ⟨more, hshadow, rfl, rfl⟩ :=
      (exists_completes_iff _).mp ⟨p, hcompletes, hfinish, rfl, rfl⟩
    exact ⟨more, hshadow, rfl, rfl⟩

/-- Without the word `inset` and a fourth length. -/
theorem isShadow_three_zero {x y : Length} {more : List Length} {color : Option Color} :
    IsShadow source 3 0 cs x y more color false ↔
      more[1]? = none ∧ ∃ inset, IsShadow source 4 0 cs x y more color inset := by
  rw [List.getElem?_eq_none_iff]
  constructor
  · generalize hinset : false = inset
    rintro ⟨hreads, hlengths, hcount, hblur, hcolors, hmarks⟩
    exact ⟨by omega, _, .intro hreads hlengths (by omega) hblur hcolors hmarks⟩
  · rintro ⟨hmore, inset, @⟨pieces, _, _, _, hreads, hlengths, hcount, hblur, hcolors, hmarks⟩⟩
    have hnone : pieces.any ShadowPiece.isInset = false :=
      (toNat_eq_countP_iff (b := false)).mp (Nat.le_zero.mp hmarks).symm |>.2.symm
    rw [← hnone]
    exact .intro hreads hlengths (by omega) hblur hcolors hmarks

theorem isTextShadow_iff {s : TextShadow} :
    IsTextShadow source cs s ↔
      ∃ p, CompletesFrom source false .empty cs p ∧ textShadowOf p = .ok s := by
  constructor
  · rintro ⟨more, hshadow, hblur⟩
    obtain ⟨hspread, inset, hshadow⟩ := isShadow_three_zero.mp hshadow
    obtain ⟨p, hcompletes, hfinish, hcolor, -⟩ :=
      (exists_completes_iff false).mpr ⟨more, hshadow, rfl, rfl⟩
    refine ⟨p, hcompletes, ?_⟩
    simp only [textShadowOf, hfinish, hspread, bind, Except.bind, pure, Except.pure, hcolor,
      ← hblur]
    rfl
  · rintro ⟨p, hcompletes, h⟩
    obtain ⟨⟨x, y, blur, spread⟩, hfinish, h⟩ := exists_of_bind_eq_ok h
    obtain ⟨more, hshadow, rfl, rfl⟩ :=
      (exists_completes_iff _).mp ⟨p, hcompletes, hfinish, rfl, rfl⟩
    cases hspread : more[1]? with
    | some spread =>
      simp only [hspread] at h
      exact absurd h (by simp [throw, throwThe, MonadExceptOf.throw, bind, Except.bind])
    | none =>
      simp only [hspread] at h
      obtain rfl := Except.ok.inj h
      exact ⟨more, isShadow_three_zero.mpr ⟨hspread, _, hshadow⟩, rfl⟩

/-! ## The readers -/

/-- The shadows of both sorts are read in one way: as parts, and each of these as a shadow. -/
def shadows {α : Type} (allowInset : Bool) (f : ShadowParts → Except Reason α) :
    Reader (Option (List α)) := do
  match ← shadowList allowInset with
  | some parts => return some (← shadowsOf f parts)
  | none => return none

theorem boxShadow_eq_shadows : boxShadow = shadows true boxShadowOf := rfl

theorem textShadow_eq_shadows : textShadow = shadows false textShadowOf := rfl

/-- What is read of parts is the shadow of each. -/
theorem shadowsOf_eq_ok {α : Type} {f : ShadowParts → Except Reason α} {parts : List ShadowParts}
    {all : List α} {d d' : Cursor} :
    shadowsOf f parts d = .ok all d' ↔
      List.Forall₂ (fun p a => f p = .ok a) parts all ∧ d' = d := by
  rw [← mapM_eq_ok_iff, shadowsOf]
  cases parts.mapM f with
  | ok found => simp [eq_comm]
  | error reason => simp

/-- **A list of shadows is its parts between commas, each of them a shadow.** -/
theorem inside_shadows_eq_ok {α : Type} {f : ShadowParts → Except Reason α} {d : Cursor}
    (hvar : ∀ c ∈ d.pending, c.isVar = false)
    (hinset : ∀ c ∈ d.pending, c.isKeyword "inset" = true →
      Reader.attempted (paint d.source c) = .ok none)
    (hlone : ∀ c, d.pending = [c] → c.isKeyword "none" = false) (stop : Nat)
    {o : Option (List α)} :
    (shadows allowInset f).inside d = .ok o ↔
      ∃ all, List.Forall₂
          (fun part s => ∃ p, CompletesFrom d.source allowInset .empty part p ∧ f p = .ok s)
          ((Cursor.splitAtCommas stop d.pending).map (·.1)) all ∧
        o = some all := by
  have hnone := Reader.isKeywordExhausted_of_pending hlone
  rw [Reader.inside_eq_ok]
  constructor
  · rintro ⟨d', h, -⟩
    obtain ⟨o', d₁, hlist, h⟩ := Reader.exists_of_bind h
    rw [shadowList, Reader.bind_apply, hnone] at hlist
    obtain ⟨source, d₂, hsource, hlist⟩ := Reader.exists_of_bind hlist
    obtain ⟨rfl, rfl⟩ := EStateM.Result.ok.inj hsource
    obtain ⟨t, d₃, hfold, hlist⟩ := Reader.exists_of_bind hlist
    cases hfinish : t.current.finish with
    | error reason =>
      rw [hfinish] at hlist
      exact absurd hlist (by simp)
    | ok r =>
      rw [hfinish] at hlist
      obtain ⟨rfl, rfl⟩ := EStateM.Result.ok.inj hlist
      obtain ⟨all, d₄, hall, h⟩ := Reader.exists_of_bind h
      obtain ⟨rfl, rfl⟩ := EStateM.Result.ok.inj h
      have hparts := (exists_foldlM_start_iff hvar hinset stop).mp
        ⟨t, Reader.foldlM_pending_of_foldAll hfold, ⟨r, hfinish⟩, rfl⟩
      exact ⟨all, forall₂_comp_iff.mp ⟨_, hparts, (shadowsOf_eq_ok.mp hall).1⟩, rfl⟩
  · rintro ⟨all, hall, rfl⟩
    obtain ⟨parts, hparts, hall⟩ := forall₂_comp_iff.mpr hall
    obtain ⟨t, hfold, ⟨r, hfinish⟩, rfl⟩ := (exists_foldlM_start_iff hvar hinset stop).mpr hparts
    obtain ⟨d', hrun, -, hend⟩ := Reader.Takes.foldAll hfold d rfl rfl
    refine ⟨d', ?_, by rw [Cursor.peek_eq_head?, hend]; rfl⟩
    have hlist : shadowList allowInset d = .ok (some t.all) d' := by
      rw [shadowList, Reader.bind_apply, hnone]
      dsimp only
      rw [if_neg Bool.false_ne_true, Reader.bind_apply, Reader.source_apply]
      dsimp only
      rw [Reader.bind_apply, hrun]
      dsimp only
      rw [hfinish]
      rfl
    rw [shadows, Reader.bind_apply, hlist]
    dsimp only
    rw [Reader.bind_apply, shadowsOf_eq_ok.mpr ⟨hall, rfl⟩]
    rfl

end Grammar

namespace PropertyKind

open Grammar

/-- A list of shadows that is no lone keyword, without `var()` calls, is read as its parts. -/
theorem readCursor_shadows_eq_ok {α : Type} {l : Longhand} {value : List α → Value}
    {allowInset : Bool} {f : ShadowParts → Except Reason α}
    (hl : l.reader = Longhand.exactOrInitial value (shadows allowInset f)) {text : String}
    {parsed : Parsed (List Component)} (h : (Source.ofString text).components = .ok parsed)
    {cs : List Component} (hcs : ∀ c ∈ cs, c.StandsIn parsed.value)
    (hvar : Component.listContainsVar cs = false)
    (hlone : ∀ d, Component.withoutBlanks cs = [d] →
      ∀ word ∈ ["none", "initial", "inherit"], d.isKeyword word = false) (stop : Nat)
    {ps : List Property} :
    (longhand l).readCursor (.ofComponents (.ofString text) cs stop) = .ok ps ↔
      ∃ all, List.Forall₂ (fun part s => ∃ p,
          CompletesFrom (.ofString text) allowInset .empty part p ∧ f p = .ok s)
          ((Cursor.splitAtCommas stop (Component.withoutBlanks cs)).map (·.1)) all ∧
        ps = [.longhand l (.exact (value all))] := by
  let c : Cursor := .ofComponents (.ofString text) cs stop
  have hinset : ∀ d ∈ c.pending, d.isKeyword "inset" = true →
      Reader.attempted (paint (.ofString text) d) = .ok none := by
    intro d hd hword
    obtain ⟨name, span, rfl, hname⟩ := Component.exists_ident hword
    have hnone : Paint.ofName? "inset" = none := by decide +kernel
    exact attempted_paint_ident h (hcs _ (List.mem_filter.mp hd).1) (hname ▸ hnone)
  have hwide : wideValue? c.pending = none := wideValue?_eq_none_iff.mpr fun d hd =>
    ⟨hlone d hd _ (by decide), hlone d hd _ (by decide)⟩
  have hreader : l.reader = exactOrInitial value <$> shadows allowInset f := by
    rw [hl, Longhand.exactOrInitial, map_eq_pure_bind]
  have hvalue : c.holdsVar = false := hvar
  rw [readCursor_longhand_eq_ok hvalue hwide, hreader]
  simp only [Reader.inside_map_eq_ok, inside_shadows_eq_ok
    (fun d => Component.isVar_of_mem_withoutBlanks hvar) hinset
    (fun d hd => hlone d hd _ (by decide)) stop]
  constructor
  · rintro ⟨-, ⟨-, ⟨all, hall, rfl⟩, rfl⟩, rfl⟩
    exact ⟨all, hall, rfl⟩
  · rintro ⟨all, hall, rfl⟩
    exact ⟨_, ⟨_, ⟨all, hall, rfl⟩, rfl⟩, rfl⟩

/-- **A list of shadows is read if each part between its commas is a shadow.**  Take components of a
text, without `var()` calls, that are no lone keyword.  As shadows of a box they are read just if
each part between commas has two to four lengths, the third of which is not negative, at most one
color and at most once the word `inset`, in any order; as shadows of text just if each part has two
or three lengths, the third of which is not negative, and at most one color, in any order.  The
lengths are taken in their order, missing ones are zero, and the color is missing if there is none
or if it is `currentcolor`. -/
theorem readCursor_shadows {text : String} {parsed : Parsed (List Component)}
    (h : (Source.ofString text).components = .ok parsed) {cs : List Component}
    (hcs : ∀ c ∈ cs, c.StandsIn parsed.value) (hvar : Component.listContainsVar cs = false)
    (hlone : ∀ d, Component.withoutBlanks cs = [d] →
      ∀ word ∈ ["none", "initial", "inherit"], d.isKeyword word = false) (stop : Nat)
    (ps : List Property) :
    let parts := (Cursor.splitAtCommas stop (Component.withoutBlanks cs)).map (·.1)
    ((longhand .boxShadow).readCursor (.ofComponents (.ofString text) cs stop) = .ok ps ↔
        ∃ all, List.Forall₂ (IsBoxShadow (.ofString text)) parts all ∧
          ps = [.longhand .boxShadow (.exact (.boxShadows all))]) ∧
      ((longhand .textShadow).readCursor (.ofComponents (.ofString text) cs stop) = .ok ps ↔
        ∃ all, List.Forall₂ (IsTextShadow (.ofString text)) parts all ∧
          ps = [.longhand .textShadow (.exact (.textShadows all))]) := by
  intro parts
  have hbox : Longhand.boxShadow.reader =
      Longhand.exactOrInitial .boxShadows (shadows true boxShadowOf) :=
    congrArg (Longhand.exactOrInitial .boxShadows) boxShadow_eq_shadows
  have htext : Longhand.textShadow.reader =
      Longhand.exactOrInitial .textShadows (shadows false textShadowOf) :=
    congrArg (Longhand.exactOrInitial .textShadows) textShadow_eq_shadows
  constructor
  · rw [readCursor_shadows_eq_ok hbox h hcs hvar hlone stop]
    simp only [← isBoxShadow_iff, parts]
  · rw [readCursor_shadows_eq_ok htext h hcs hvar hlone stop]
    simp only [← isTextShadow_iff, parts]

/-- A shadow of a box with everything but a spread, and one with the color of the text, which is no
color of its own. -/
theorem readCursor_shadows_two :
    let source := Source.ofString "RED inset 1px 0,0 0 currentColor"
    let cs : List Component := [.token ⟨.ident "RED", ⟨0, 3⟩⟩, .token ⟨.whitespace " ", ⟨3, 4⟩⟩,
      .token ⟨.ident "inset", ⟨4, 9⟩⟩, .token ⟨.whitespace " ", ⟨9, 10⟩⟩,
      .token ⟨.dimension ⟨"1", .integer 1⟩ "px", ⟨10, 13⟩⟩, .token ⟨.whitespace " ", ⟨13, 14⟩⟩,
      .token ⟨.number ⟨"0", .integer 0⟩, ⟨14, 15⟩⟩, .token ⟨.comma, ⟨15, 16⟩⟩,
      .token ⟨.number ⟨"0", .integer 0⟩, ⟨16, 17⟩⟩, .token ⟨.whitespace " ", ⟨17, 18⟩⟩,
      .token ⟨.number ⟨"0", .integer 0⟩, ⟨18, 19⟩⟩, .token ⟨.whitespace " ", ⟨19, 20⟩⟩,
      .token ⟨.ident "currentColor", ⟨20, 32⟩⟩]
    source.components = .ok ⟨cs, []⟩ ∧
      ∃ first second, IsBoxShadow source (Component.withoutBlanks (cs.take 7)) first ∧
        IsBoxShadow source (Component.withoutBlanks (cs.drop 8)) second ∧
        (longhand .boxShadow).readCursor (.ofComponents source cs 32) =
          .ok [.longhand .boxShadow (.exact (.boxShadows [first, second]))] := by
  intro source cs
  have hcs : source.components = .ok ⟨cs, []⟩ := by cbv
  have hread : ((longhand .boxShadow).readCursor (.ofComponents source cs 32)).isOk = true := by
    decide +kernel
  have hstands : ∀ c ∈ cs, c.StandsIn cs := fun c hc => ⟨cs, .top, hc⟩
  have hvar : Component.listContainsVar cs = false := by decide
  have hmany : (Component.withoutBlanks cs).length ≠ 1 := by decide
  have hlone : ∀ d, Component.withoutBlanks cs = [d] →
      ∀ word ∈ ["none", "initial", "inherit"], d.isKeyword word = false :=
    fun d hd => absurd (congrArg List.length hd) hmany
  have hparts : (Cursor.splitAtCommas 32 (Component.withoutBlanks cs)).map (·.1) =
      [Component.withoutBlanks (cs.take 7), Component.withoutBlanks (cs.drop 8)] := rfl
  cases hps : (longhand .boxShadow).readCursor (.ofComponents source cs 32) with
  | error e => exact absurd hread (by rw [hps]; exact Bool.false_ne_true)
  | ok ps =>
    obtain ⟨all, hall, rfl⟩ := (readCursor_shadows hcs hstands hvar hlone 32 ps).1.mp hps
    rw [hparts] at hall
    obtain _ | ⟨hfirst, _ | ⟨hsecond, _ | _⟩⟩ := hall
    exact ⟨hcs, _, _, hfirst, hsecond, rfl⟩

/-- A color and the word `inset` may stand between the lengths. -/
theorem readCursor_shadows_between :
    let source := Source.ofString "1px red inset 1px"
    let cs : List Component := [.token ⟨.dimension ⟨"1", .integer 1⟩ "px", ⟨0, 3⟩⟩,
      .token ⟨.whitespace " ", ⟨3, 4⟩⟩, .token ⟨.ident "red", ⟨4, 7⟩⟩,
      .token ⟨.whitespace " ", ⟨7, 8⟩⟩, .token ⟨.ident "inset", ⟨8, 13⟩⟩,
      .token ⟨.whitespace " ", ⟨13, 14⟩⟩, .token ⟨.dimension ⟨"1", .integer 1⟩ "px", ⟨14, 17⟩⟩]
    source.components = .ok ⟨cs, []⟩ ∧
      (∀ pieces, List.Forall₂ (ShadowPiece.Reads source) (Component.withoutBlanks cs) pieces →
        ShadowPiece.areAdjacent pieces = false) ∧
      ((longhand .boxShadow).readCursor (.ofComponents source cs 17)).isOk = true := by
  intro source cs
  refine ⟨by cbv, fun pieces hpieces => ?_, by decide +kernel⟩
  have hwords : Component.withoutBlanks cs = [cs[0], cs[2], cs[4], cs[6]] := rfl
  rw [hwords] at hpieces
  obtain _ | ⟨hfirst, _ | ⟨hcolor, _ | ⟨hmark, _ | ⟨hsecond, _ | _⟩⟩⟩⟩ := hpieces
  rw [hfirst.eq_length rfl, hsecond.eq_length rfl]
  simp [ShadowPiece.areAdjacent, List.dropWhile_cons, hcolor.length?_eq_none,
    hmark.length?_eq_none]

end PropertyKind

end Styling
