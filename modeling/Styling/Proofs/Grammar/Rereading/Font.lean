import Mathlib
import Styling.Proofs.Grammar.Agreement.Leaf
import Styling.Proofs.Grammar.Rereading.Leaf
import Styling.Grammar.Font

/-!
# Fonts that are read back

The style of a font is a keyword that may have an angle after it.  A list of families is kept as the
text it is written as, so it is read back as it stands where it is still a list of families.

* `Grammar.readsBack_fontStyle` is about the style.
* `Grammar.isFamily` tells what stands between two commas of a list of families, and
  `Grammar.fontFamily_of_holdsFamilies` says that a list of such parts is read as its text.
-/

namespace Styling

open Written (At IsPhrase dimension ident listChars space isWord_dimension isWord_ident)

/-- The angle of a font style is kept. -/
def FontStyle.isKept (s : FontStyle) : Bool :=
  s.angle?.all keepsNumber

namespace Grammar

/-! ## Styles -/

/-- A style that is a keyword is read. -/
theorem readsBack_fontStyle_keyword {s : FontStyle} (h : s.angle? = none) :
    (fontStyle true).ReadsBack (.ok s.keyword) s := by
  have hname : Written.IsName s.keyword.toList ∧
      ∀ k ∈ ["initial", "inherit"], (ident s.keyword.toList).isKeyword k = false := by
    rcases s with _ | _ | _ | angle
    · decide
    · decide
    · decide
    · exact absurd h (by simp [FontStyle.angle?])
  refine ⟨[ident s.keyword.toList], s, ?_, (isWord_ident _ hname.1).phrase,
    ⟨_, [], rfl, rfl, hname.2⟩, fun source start hat => ?_, ?_⟩
  · rw [Written.listChars_singleton, ident, Written.chars, String.ofList_toList]
  · rw [Written.words_singleton rfl]
    have hkeyword : fontStyleKeyword source ((ident s.keyword.toList).component start) = .ok s := by
      rcases s with _ | _ | _ | angle
      · rfl
      · rfl
      · rfl
      · exact absurd h (by simp [FontStyle.angle?])
    refine .bind (.leaf rfl hkeyword) ?_
    split
    next => exact .bind .source_ (.bind .peek (.pure s))
    next => exact .pure s
  · rcases s with _ | _ | _ | angle
    · rfl
    · rfl
    · rfl
    · exact absurd h (by simp [FontStyle.angle?])

/-- A style with an angle is read. -/
theorem readsBack_fontStyle_angle {x : Float} (h : keepsNumber x = true) :
    (fontStyle true).ReadsBack (FontStyle.oblique (some x)).css (.oblique (some x)) := by
  obtain ⟨p, y, hp, hy, hx⟩ := exists_shows_of_keepsNumber h
  have hends : ∀ rest, EndsNumeral (['d', 'e', 'g'] ++ rest) :=
    fun rest => .cons rfl (by decide) (by decide)
  have hword := isWord_dimension ['d', 'e', 'g'] hp.plain hp.small (by decide) hends
  have hoblique := isWord_ident "oblique".toList (by decide)
  refine ⟨[ident "oblique".toList, space, dimension p ['d', 'e', 'g']], .oblique (some y), ?_,
    hoblique.phrase.spaced hword.phrase, ⟨_, _, rfl, rfl, by decide⟩,
    fun source start hat => ?_, hx⟩
  · rw [FontStyle.css, hp.text]
    refine congrArg Except.ok (String.toList_inj.mp ?_)
    simp [Written.listChars, Written.chars, ident, space, dimension, toString]
  · rw [Written.words_cons rfl]
    have hkeyword : fontStyleKeyword source ((ident "oblique".toList).component start) =
        .ok (.oblique none) := rfl
    refine .bind (.leaf rfl hkeyword) ?_
    rw [if_pos (by rfl)]
    refine .bind .source_ (.bind .peek ?_)
    have hdeg : (Text.lowercase (String.ofList ['d', 'e', 'g']) == "deg") = true := by decide
    have hrest : Written.words (start + (ident "oblique".toList).chars.length)
        [space, dimension p ['d', 'e', 'g']] =
          [(dimension p ['d', 'e', 'g']).component
            (start + (ident "oblique".toList).chars.length + 1)] := rfl
    rw [hrest]
    simp only [List.head?_cons, dimension, Written.component, hdeg, if_true]
    exact .bind (.next rfl) (.bind (.ofExcept (float_eq_ok hy)) (.pure _))

theorem readsBack_fontStyle {s : FontStyle} (h : s.isKept = true) :
    (fontStyle true).ReadsBack s.css s := by
  rcases s with _ | _ | _ | x
  · exact readsBack_fontStyle_keyword rfl
  · exact readsBack_fontStyle_keyword rfl
  · exact readsBack_fontStyle_keyword rfl
  · exact readsBack_fontStyle_angle h

/-! ## Families -/

/-- A component is an identifier. -/
def isIdent : Component → Bool
  | .token ⟨.ident _, _⟩ => true
  | _ => false

/-- A family is a string or a run of identifiers. -/
def isFamily : List Component → Bool
  | [] => false
  | [.token ⟨.string _, _⟩] => true
  | cs => cs.all isIdent

theorem isFamily_cons {c : Component} {cs : List Component} (h : isFamily (c :: cs) = true) :
    ((∃ text span, c = .token ⟨.string text, span⟩) ∧ cs = []) ∨ (c :: cs).all isIdent = true := by
  unfold isFamily at h
  split at h
  next => exact absurd h Bool.false_ne_true
  next text span heq =>
    obtain ⟨rfl, rfl⟩ := List.cons.inj heq
    exact Or.inl ⟨⟨text, span, rfl⟩, rfl⟩
  next => exact Or.inr h

/-- What may stand before the next comma of a list of families. -/
def goesOn (state : FamilyState) (cs : List Component) : Bool :=
  match state with
  | .start | .afterComma => isFamily cs
  | .inName => cs.all isIdent
  | .afterString => cs.isEmpty

/-- A component that is no comma goes on with a family. -/
theorem step_of_goesOn (source : Source) {state : FamilyState} {c : Component} {cs : List Component}
    (h : goesOn state (c :: cs) = true) :
    ∃ next, FamilyState.step source state c = .ok next ∧ goesOn next cs = true := by
  have hident : ∀ {state}, state ≠ .afterString → ∀ {cs}, (c :: cs).all isIdent = true →
      ∃ next, FamilyState.step source state c = .ok next ∧ goesOn next cs = true := by
    intro state hstate cs hall
    obtain ⟨hc, hcs⟩ := Bool.and_eq_true_iff.mp hall
    refine ⟨.inName, ?_, hcs⟩
    unfold isIdent at hc
    split at hc
    next => cases state <;> first | rfl | exact absurd rfl hstate
    next => exact absurd hc Bool.false_ne_true
  have hfamily : ∀ {state}, state = .start ∨ state = .afterComma → isFamily (c :: cs) = true →
      ∃ next, FamilyState.step source state c = .ok next ∧ goesOn next cs = true := by
    intro state hstate hall
    rcases isFamily_cons hall with ⟨⟨text, span, rfl⟩, rfl⟩ | hall
    · refine ⟨.afterString, ?_, rfl⟩
      rcases hstate with rfl | rfl <;> rfl
    · exact hident (by rcases hstate with rfl | rfl <;> simp) hall
  cases state with
  | start => exact hfamily (Or.inl rfl) h
  | afterComma => exact hfamily (Or.inr rfl) h
  | inName => exact hident (by simp) h
  | afterString => exact absurd h Bool.false_ne_true

/-- After a family a comma is read. -/
theorem step_of_isComma (source : Source) {state : FamilyState} {c : Component}
    (hcomma : c.isComma = true) (h : goesOn state [] = true) :
    FamilyState.step source state c = .ok .afterComma := by
  cases c with
  | token t =>
    obtain ⟨kind, span⟩ := t
    cases kind with
    | comma => cases state <;> first | rfl | exact absurd h Bool.false_ne_true
    | _ => exact absurd hcomma Bool.false_ne_true
  | group opener opened cs ending => exact absurd hcomma Bool.false_ne_true

/-- A list of families is read to its end. -/
theorem foldlM_step_of_goesOn (source : Source) {stop : Nat} {state : FamilyState}
    {cs : List Component} {first : List Component × Nat} {parts : List (List Component × Nat)}
    (hparts : Cursor.splitAtCommas stop cs = first :: parts) (hfirst : goesOn state first.1 = true)
    (hrest : ∀ part ∈ parts, isFamily part.1 = true) :
    ∃ final, cs.foldlM (FamilyState.step source) state = .ok final ∧ final.incomplete? = none := by
  induction cs generalizing state first parts with
  | nil =>
    obtain ⟨rfl, rfl⟩ := List.cons.inj hparts
    refine ⟨state, rfl, ?_⟩
    cases state <;> first | rfl | exact absurd hfirst Bool.false_ne_true
  | cons c cs ih =>
    cases hcomma : c.isComma with
    | true =>
      rw [Cursor.splitAtCommas, if_pos hcomma] at hparts
      obtain ⟨rfl, hsplit⟩ := List.cons.inj hparts
      obtain ⟨next, nexts, rfl⟩ := List.exists_cons_of_ne_nil (l := parts)
        fun h => Cursor.splitAtCommas_ne_nil stop cs (hsplit.trans h)
      have hnext : goesOn .afterComma next.1 = true := hrest next List.mem_cons_self
      have hstep := step_of_isComma source hcomma hfirst
      obtain ⟨final, hfinal, hend⟩ := ih hsplit hnext
        fun part hpart => hrest part (List.mem_cons_of_mem _ hpart)
      refine ⟨final, ?_, hend⟩
      rw [List.foldlM_cons, hstep]
      exact hfinal
    | false =>
      obtain ⟨p, ps, hsplit, hcons⟩ := Cursor.exists_splitAtCommas_cons hcomma stop cs
      obtain ⟨rfl, rfl⟩ := List.cons.inj (hcons.symm.trans hparts)
      obtain ⟨next, hstep, hgoes⟩ := step_of_goesOn source hfirst
      obtain ⟨final, hfinal, hend⟩ := ih hsplit hgoes hrest
      refine ⟨final, ?_, hend⟩
      rw [List.foldlM_cons, hstep]
      exact hfinal

end Grammar

namespace Reader

variable {σ : Type}

/-- A loop over all components comes to the last one, if that is no whitespace. -/
theorem foldComponents_of_foldlM (source : Source) (stop : Nat)
    {step : σ → Component → Except StepError σ} {cs : List Component} {s t : σ}
    (h : (Component.withoutBlanks cs).foldlM step s = .ok t) (hne : cs ≠ [])
    (hlast : ∀ d ∈ cs.getLast?, d.isWhitespace = false) (lastIndex index : Nat) :
    foldComponents source stop (fun s c => (step s c).map some) lastIndex index s cs =
      (index + cs.length, .ok t) := by
  induction cs generalizing s lastIndex index with
  | nil => exact absurd rfl hne
  | cons c cs ih =>
    have hmore : cs ≠ [] → ∀ d ∈ cs.getLast?, d.isWhitespace = false := by
      intro hcs d hd
      refine hlast d ?_
      rw [List.getLast?_cons_of_ne_nil hcs]
      exact hd
    cases hblank : c.isWhitespace with
    | true =>
      have hcs : cs ≠ [] := by
        rintro rfl
        exact Bool.false_ne_true ((hlast c rfl).symm.trans hblank)
      rw [Component.withoutBlanks, List.filter_cons_of_neg (by simp [hblank])] at h
      rw [foldComponents, if_pos hblank, ih h hcs (hmore hcs), List.length_cons]
      congr 1
      omega
    | false =>
      rw [Component.withoutBlanks, List.filter_cons_of_pos (by simp [hblank]),
        List.foldlM_cons] at h
      cases hstep : step s c with
      | error e =>
        rw [hstep] at h
        exact absurd h (by simp [bind, Except.bind])
      | ok s' =>
        rw [hstep] at h
        rw [foldComponents, hblank, if_neg Bool.false_ne_true, hstep]
        cases cs with
        | nil =>
          obtain rfl := Except.ok.inj h
          rfl
        | cons d ds =>
          have hrest :=
            ih h (List.cons_ne_nil _ _) (hmore (List.cons_ne_nil _ _)) (index + 1) (index + 1)
          refine hrest.trans (congrArg (·, _) ?_)
          rw [List.length_cons (a := c)]
          omega

end Reader

/-- The value is a list of families that does not end with whitespace. -/
def Cursor.holdsFamilies (c : Cursor) : Bool :=
  (c.commaParts.all fun part => Grammar.isFamily part.pending) &&
    c.rest.getLast?.any fun d => !d.isWhitespace

namespace Grammar

/-- **A list of families is read as its text.** -/
theorem fontFamily_of_holdsFamilies {c : Cursor} (h : c.holdsFamilies = true) :
    fontFamily c = .ok (Text.trim (c.toEnd.sliceFrom c.index)) c.toEnd := by
  obtain ⟨hparts, hlast⟩ := Bool.and_eq_true_iff.mp h
  have hne : c.rest ≠ [] := by
    intro hnil
    rw [hnil] at hlast
    exact Bool.false_ne_true hlast
  -- the parts of the value without blanks are families
  have hfamilies : ∀ part ∈ Cursor.splitAtCommas c.stop c.pending, isFamily part.1 = true := by
    intro part hpart
    have hmem : part.1 ∈ c.commaParts.map Cursor.pending := by
      rw [Cursor.map_pending_commaParts]
      exact List.mem_map_of_mem hpart
    obtain ⟨d, hd, hpending⟩ := List.mem_map.mp hmem
    rw [← hpending]
    exact List.all_eq_true.mp hparts d hd
  obtain ⟨first, parts, hsplit⟩ := List.exists_cons_of_ne_nil
    (Cursor.splitAtCommas_ne_nil c.stop c.pending)
  rw [hsplit] at hfamilies
  have hfirst : goesOn .start first.1 = true := hfamilies first List.mem_cons_self
  obtain ⟨final, hfold, hend⟩ := foldlM_step_of_goesOn c.source hsplit hfirst
    fun part hpart => hfamilies part (List.mem_cons_of_mem _ hpart)
  have hcomponents := Reader.foldComponents_of_foldlM c.source c.stop hfold hne
    (fun d hd => by
      rw [Option.mem_def.mp hd] at hlast
      exact (Bool.not_eq_true' _).mp hlast) c.index c.index
  have hrun : Reader.foldAll (FamilyState.step c.source) .start c = .ok final c.toEnd := by
    rw [Reader.foldAll, Reader.foldWhile, hcomponents]
    refine congrArg (fun index => EStateM.Result.ok final (c.moveTo index)) ?_
    rw [Cursor.rest, List.length_drop]
    omega
  rw [fontFamily, Reader.bind_apply, Reader.ask_apply]
  dsimp only
  rw [Reader.bind_apply, Reader.source_apply]
  dsimp only
  rw [Reader.bind_apply, hrun]
  dsimp only
  rw [hend]
  rfl

end Grammar

end Styling
