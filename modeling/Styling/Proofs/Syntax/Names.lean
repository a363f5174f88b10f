import Mathlib
import Styling.Proofs.Syntax.Numbers
import Styling.Proofs.Syntax.Words

/-!
# Names in a text without escapes

A name is kept with its escapes resolved, so that it may consist of any characters.  It consists of
the characters of an identifier if nothing is escaped in the text, and then it can be written as it
is.

* `isIdentifier_of_scanToken` is about one token and `Source.isIdentifier_of_components` about the
  components of a text.
-/

namespace Styling

open Written (IsIdentifier startsIdent_of_not_mem)

/-- Without escapes a name consists of the characters that spell it. -/
theorem scanIdent_of_not_mem {cs : List Char} (h : '\\' ∉ cs) :
    scanIdent cs = (cs.takeWhile isIdentChar, (cs.takeWhile isIdentChar).length) := by
  induction cs with
  | nil => rw [scanIdent_nil, List.takeWhile_nil, List.length_nil]
  | cons c cs ih =>
    obtain ⟨hc, hcs⟩ := not_or.mp (mt List.mem_cons.mpr h)
    rw [scanIdent_cons, startsEscape_of_ne (Ne.symm hc)]
    by_cases hchar : isIdentChar c = true
    · rw [if_pos hchar, List.takeWhile_cons_of_pos hchar, ih hcs, List.length_cons]
    · rw [if_neg hchar, List.takeWhile_cons_of_neg hchar]
      rfl

/-- Where an identifier starts, the characters of identifiers are one. -/
theorem isIdentifier_takeWhile {cs : List Char} (hslash : '\\' ∉ cs)
    (hstarts : startsIdent cs = true) : IsIdentifier (cs.takeWhile isIdentChar) := by
  have hchars : ∀ c ∈ cs.takeWhile isIdentChar, isIdentChar c = true :=
    fun c hc => List.mem_takeWhile_imp hc
  refine ⟨?_, hchars⟩
  cases cs with
  | nil => exact hstarts
  | cons c cs =>
    rw [startsIdent_of_not_mem hslash] at hstarts
    have hc : isIdentChar c = true := by
      split at hstarts
      next hminus => exact hminus ▸ rfl
      next => rw [isIdentChar, hstarts]; rfl
    rw [List.takeWhile_cons_of_pos hc] at hchars ⊢
    rw [startsIdent_of_not_mem (Written.not_mem_of_isIdentChar hchars)]
    split at hstarts
    next hminus =>
      rw [if_pos hminus]
      cases cs with
      | nil => exact absurd hstarts Bool.false_ne_true
      | cons d cs =>
        have hd : isIdentChar d = true := by
          rcases Bool.or_eq_true_iff.mp hstarts with hd | hd
          · rw [isIdentChar, hd]
            rfl
          · rw [isIdentChar, hd, Bool.or_true]
        rw [List.takeWhile_cons_of_pos hd]
        exact hstarts
    next hminus =>
      rw [if_neg hminus]
      exact hstarts

/-- An identifier that is read from a text without escapes can be written as it is. -/
theorem isIdentifier_of_scanToken {c : Char} {cs : List Char} {name : String}
    (hslash : '\\' ∉ c :: cs) (h : (scanToken c cs).kind = .ident name) :
    IsIdentifier name.toList := by
  obtain ⟨hstarts, hclose⟩ := startsIdent_of_isIdentLike (by rw [h]; rfl)
  rw [scanToken_of_startsIdent hstarts hclose] at h
  simp only [scanIdentLike] at h
  split at h
  next => exact absurd h (by simp [Scanned.plain])
  next =>
    obtain rfl := TokenKind.ident.inj h
    rw [String.toList_ofList, scanIdent_of_not_mem hslash]
    exact isIdentifier_takeWhile hslash hstarts

/-- The identifiers among the components of a text without escapes can be written as they are. -/
theorem Source.isIdentifier_of_components {s : Source} {parsed : Parsed (List Component)}
    (h : s.components = .ok parsed) (hslash : '\\' ∉ s.chars) {name : String} {span : Span}
    (hmem : .token ⟨.ident name, span⟩ ∈ parsed.value) : IsIdentifier name.toList := by
  have hkept : ⟨.ident name, span⟩ ∈ s.keptTokens :=
    listTokens_of_components h ▸
      (Component.tokens_infix_listTokens hmem).mem (List.mem_singleton_self _)
  obtain ⟨l, hl, htoken⟩ := List.mem_map.mp (List.mem_filter.mp hkept).1
  obtain ⟨before, c, rest, hchars, rfl⟩ := exists_scan_of_mem_lexemesFrom hl
  refine isIdentifier_of_scanToken (fun hmem => hslash ?_) (congrArg Token.kind htoken)
  rw [hchars]
  exact List.mem_append_right before hmem

end Styling
