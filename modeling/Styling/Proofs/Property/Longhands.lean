import Styling.Proofs.Grammar.Strokes
import Styling.Proofs.Syntax.Pieces

/-!
# Whole values of longhands

A longhand takes the keywords for every longhand where they stand alone, and otherwise reads its
value to the end with its grammar.

* `Reader.isKeywordExhausted_of_pending` is about a keyword that does not stand alone.
* `PropertyKind.holdsVar_of_readCursor` is about values of any kind,
  `PropertyKind.readCursor_longhand` about a whole value of a longhand,
  `PropertyKind.readCursor_longhand_eq_ok` about one without `var()` calls, and
  `PropertyKind.inside_of_readCursor_exact` about one that was read.
-/

namespace Styling

/-- A text that is read without errors, in terms of its components. -/
theorem Cursor.ofText_eq_ok_iff {text : String} {c : Cursor} :
    Cursor.ofText text = .ok c ↔ ∃ cs, HasComponents text.toList cs ∧
      c = .ofComponents (.ofString text) cs (Source.ofString text).length := by
  rw [ofText_eq_ok]
  constructor
  · rintro ⟨⟨cs, errors⟩, hcomponents, rfl, rfl⟩
    exact ⟨cs, hcomponents, rfl⟩
  · rintro ⟨cs, hcs, rfl⟩
    exact ⟨⟨cs, []⟩, hcs, rfl, rfl⟩

theorem Component.withoutBlanks_map_shift (k : Nat) (cs : List Component) :
    withoutBlanks (cs.map (shift k)) = (withoutBlanks cs).map (shift k) := by
  rw [withoutBlanks, List.filter_map]
  congr 1
  exact List.filter_congr fun c _ => by simp

/-! ## Keywords that stand alone -/

/-- A keyword is an identifier. -/
theorem Component.exists_ident {d : Component} {word : String} (h : d.isKeyword word = true) :
    ∃ name span, d = .token ⟨.ident name, span⟩ ∧ Text.lowercase name = word := by
  cases d with
  | token t =>
    obtain ⟨kind, span⟩ := t
    cases kind with
    | ident name => exact ⟨name, span, rfl, beq_iff_eq.mp h⟩
    | _ => exact absurd h Bool.false_ne_true
  | group opener opened cs ending => exact absurd h Bool.false_ne_true

/-- A component is one keyword at most. -/
theorem Component.eq_of_isKeyword {d : Component} {word word' : String}
    (h : d.isKeyword word = true) (h' : d.isKeyword word' = true) : word = word' := by
  obtain ⟨name, span, rfl, rfl⟩ := exists_ident h
  exact beq_iff_eq.mp h'

/-- A keyword that does not stand alone is left. -/
theorem Reader.isKeywordExhausted_of_pending {word : String} {c : Cursor}
    (h : ∀ d, c.pending = [d] → d.isKeyword word = false) :
    isKeywordExhausted word c = .ok false c := by
  cases hpeek : c.peek with
  | none => exact isKeywordExhausted_of_peek_none hpeek
  | some d =>
    rw [isKeywordExhausted_of_peek hpeek]
    cases hnext : c.advance.peek with
    | none =>
      have halone : c.pending = [d] := by
        rw [Cursor.pending_of_peek hpeek, Cursor.pending_of_peek_none hnext]
      rw [h d halone]
      rfl
    | some e => rw [Cursor.isExhausted, hnext, Option.isNone_some, Bool.and_false]; rfl

/-- What is made of what a reader gives. -/
theorem Reader.inside_map_eq_ok {α β : Type} {r : Reader α} {f : α → β} {c : Cursor} {b : β} :
    (f <$> r).inside c = .ok b ↔ ∃ a, r.inside c = .ok a ∧ b = f a := by
  simp only [inside_eq_ok, map_apply]
  constructor
  · rintro ⟨c', h, hend⟩
    split at h
    next a d hrun =>
      obtain ⟨rfl, rfl⟩ := EStateM.Result.ok.inj h
      exact ⟨a, ⟨d, hrun, hend⟩, rfl⟩
    next => exact absurd h (by simp)
  · rintro ⟨a, ⟨c', hrun, hend⟩, rfl⟩
    exact ⟨c', by rw [hrun], hend⟩

namespace Grammar

/-- What a lone keyword declares. -/
theorem wideValue?_eq_some {cs : List Component} {value : PropertyValue}
    (h : wideValue? cs = some value) :
    ∃ d, cs = [d] ∧ (d.isKeyword "initial" = true ∧ value = .initial ∨
      d.isKeyword "initial" = false ∧ d.isKeyword "inherit" = true ∧ value = .inherit) := by
  match cs with
  | [d] =>
    rw [wideValue?] at h
    split at h
    next hinitial => exact ⟨d, rfl, Or.inl ⟨hinitial, (Option.some_inj.mp h).symm⟩⟩
    next hinitial =>
      split at h
      next hinherit =>
        exact ⟨d, rfl, Or.inr ⟨Bool.eq_false_iff.mpr hinitial, hinherit,
          (Option.some_inj.mp h).symm⟩⟩
      next => exact absurd h (by simp)
  | [] | _ :: _ :: _ => exact absurd h (by simp [wideValue?])

/-- Neither keyword for every longhand stands alone. -/
theorem wideValue?_eq_none_iff {cs : List Component} :
    wideValue? cs = none ↔
      ∀ d, cs = [d] → d.isKeyword "initial" = false ∧ d.isKeyword "inherit" = false := by
  constructor
  · rintro h d rfl
    simp only [wideValue?] at h
    split at h
    next => exact absurd h (by simp)
    next hinitial =>
      split at h
      next => exact absurd h (by simp)
      next hinherit => exact ⟨Bool.eq_false_iff.mpr hinitial, Bool.eq_false_iff.mpr hinherit⟩
  · intro h
    cases hvalue : wideValue? cs with
    | none => rfl
    | some value =>
      obtain ⟨d, hd, ⟨hword, -⟩ | ⟨-, hword, -⟩⟩ := wideValue?_eq_some hvalue
      · exact absurd ((h d hd).1.symm.trans hword) Bool.false_ne_true
      · exact absurd ((h d hd).2.symm.trans hword) Bool.false_ne_true

end Grammar

/-! ## Whole values -/

namespace PropertyKind

open Grammar

variable {l : Longhand} {c : Cursor}

/-- Where no lone keyword stands, a longhand is read to its end or deferred. -/
theorem readCursor_longhand (hlone : wideValue? c.pending = none) :
    (longhand l).readCursor c =
      match l.reader.inside c with
      | .ok v => .ok [.longhand l v]
      | .error (.refused (.varCall _)) =>
        .ok [.longhand l (.deferred c.remaining c.location)]
      | .error e => .error e := by
  have hinitial := Reader.isKeywordExhausted_of_pending fun d hd =>
    (wideValue?_eq_none_iff.mp hlone d hd).1
  have hinherit := Reader.isKeywordExhausted_of_pending fun d hd =>
    (wideValue?_eq_none_iff.mp hlone d hd).2
  rw [readCursor, EStateM.run, read_longhand_apply hinitial hinherit, Reader.bind_apply,
    Reader.exactOrDeferred, EStateM.run, Reader.inside, EStateM.run]
  cases hrun : (do let v ← l.reader; Reader.expectExhausted; return v :
      Reader PropertyValue) c with
  | ok v c' => rfl
  | error e c' => rcases e with (⟨reason, l⟩ | ⟨reason, l⟩ | l) | f <;> rfl

/-- A lone keyword is what is declared. -/
theorem readCursor_longhand_wide {value : PropertyValue}
    (hlone : wideValue? c.pending = some value) :
    (longhand l).readCursor c = .ok [.longhand l value] := by
  obtain ⟨d, hd, ⟨hinitial, rfl⟩ | ⟨hinitial, hinherit, rfl⟩⟩ := wideValue?_eq_some hlone
  · obtain ⟨c', hrun, -⟩ := Reader.Takes.isKeywordExhausted_lone hinitial c rfl hd
    rw [readCursor, EStateM.run, read, Reader.bind_apply, hrun]
    rfl
  · have hfirst : Reader.isKeywordExhausted "initial" c = .ok false c :=
      Reader.isKeywordExhausted_of_pending fun e he => by
        rw [(List.cons.inj (he.symm.trans hd)).1, hinitial]
    obtain ⟨c', hrun, -⟩ := Reader.Takes.isKeywordExhausted_lone hinherit c rfl hd
    rw [readCursor, EStateM.run, read, Reader.bind_apply, hfirst]
    dsimp only
    rw [if_neg Bool.false_ne_true, Reader.bind_apply, hrun]
    rfl

/-- Without a `var()` call, a longhand is read to its end by its grammar. -/
theorem readCursor_longhand_eq_ok (hvar : c.holdsVar = false) (hlone : wideValue? c.pending = none)
    {ps : List Property} :
    (longhand l).readCursor c = .ok ps ↔
      ∃ v, l.reader.inside c = .ok v ∧ ps = [.longhand l v] := by
  have hclears := (l.clears_reader c).whole
  have hnever : ∀ at_, l.reader.inside c ≠ .error (.refused (.varCall at_)) := by
    intro at_ hinside
    rw [Reader.inside, EStateM.run] at hinside
    rw [Reader.Clears] at hclears
    split at hinside
    next => exact absurd hinside (by simp)
    next e c' hrun =>
      obtain rfl := Except.error.inj hinside
      rw [hrun] at hclears
      exact Bool.false_ne_true (hvar.symm.trans (hclears rfl))
  rw [readCursor_longhand hlone]
  cases hinside : l.reader.inside c with
  | ok v => simp [eq_comm]
  | error e =>
    rcases e with (⟨reason, at_⟩ | ⟨reason, at_⟩ | at_) | f
    case refused.varCall => exact absurd hinside (hnever at_)
    all_goals simp

/-- A value that is read at once has no `var()` calls. -/
theorem holdsVar_of_readCursor {kind : PropertyKind} {ps : List Property}
    (h : kind.readCursor c = .ok ps) (hexact : ∀ p ∈ ps, p.value.isDeferred = false) :
    c.holdsVar = false := by
  have hcases := kind.readCursor_cases c
  rw [h] at hcases
  rcases hcases with ⟨rfl, -⟩ | ⟨-, hvar⟩
  · exact absurd (hexact _ List.mem_cons_self)
      (by simp [Property.deferred, PropertyValue.isDeferred])
  · exact hvar

/-- What was read exactly was read by the grammar, and there is no `var()` call. -/
theorem inside_of_readCursor_exact {v : Value}
    (h : (longhand l).readCursor c = .ok [.longhand l (.exact v)]) :
    l.reader.inside c = .ok (.exact v) ∧ c.holdsVar = false ∧ wideValue? c.pending = none := by
  have hvar : c.holdsVar = false := holdsVar_of_readCursor h fun p hp => by
    rw [List.mem_singleton.mp hp]
    rfl
  have hlone : wideValue? c.pending = none := by
    cases hwide : wideValue? c.pending with
    | none => rfl
    | some value =>
      have hvalue := congrArg Property.value
        (List.cons.inj (Except.ok.inj ((readCursor_longhand_wide hwide).symm.trans h))).1
      obtain ⟨d, -, ⟨-, rfl⟩ | ⟨-, -, rfl⟩⟩ := wideValue?_eq_some hwide <;>
        exact absurd hvalue (by simp [Property.longhand])
  obtain ⟨v', hinside, hsame⟩ := (readCursor_longhand_eq_ok hvar hlone).mp h
  have hvalue : PropertyValue.exact v = v' := congrArg Property.value (List.cons.inj hsame).1
  exact ⟨hvalue ▸ hinside, hvar, hlone⟩

end PropertyKind

end Styling
