import Mathlib
import Styling.Property.Reading
import Styling.Proofs.Grammar.Clearing

/-!
# Three verdicts on a declaration

A declaration is refused, deferred or read.  It is deferred only if its value has a `var()` call,
and read only if it has none, so no `var()` call is lost in a value that was read.

* `Longhand.clears_reader`: the grammar of a longhand sees the `var()` calls it takes.
* `PropertyKind.readCursor_cases`: what a kind of property makes of a value.
* `Declaration.Verdict` names the three verdicts, and `Declaration.existsUnique_verdict` tells that
  exactly one of them is given.
-/

namespace Styling

namespace Longhand

variable {c : Cursor}

theorem clears_exactLeaf {α : Type} {leaf : Leaf α} (h : leaf.Clears) (value : α → Value) :
    (exactLeaf value leaf).Clears c fun v => v.isDeferred = false :=
  (Reader.Clears.leaf h).bind fun _ _ _ _ => .pure rfl

theorem clears_exactOrInitial {α : Type} {r : Reader (Option α)} (value : α → Value)
    (h : r.Clears c fun _ => True) :
    (exactOrInitial value r).Clears c fun v => v.isDeferred = false :=
  h.bind fun o _ _ _ => .pure (Grammar.isDeferred_exactOrInitial value o)

/-- The grammar of a longhand sees what it takes, and leaves nothing to be read later. -/
theorem clears_reader (l : Longhand) (c : Cursor) :
    l.reader.Clears c fun v => v.isDeferred = false := by
  have exact : ∀ {α : Type} {r : Reader α} (value : α → Value), r.Clears c (fun _ => True) →
      (do return .exact (value (← r)) : Reader PropertyValue).Clears c
        fun v => v.isDeferred = false :=
    fun _ h => h.bind fun _ _ _ _ => .pure rfl
  cases l with
  | backgroundColor | borderColor _ | color | outlineColor | selectionBackground
  | selectionColor => exact clears_exactLeaf Grammar.clears_paint _
  | backgroundImage => exact clears_exactOrInitial _ Grammar.clears_backgroundImage
  | borderRadius _ | borderWidth _ | flexBasis | outlineWidth | maximum _ | minimum _ =>
    exact clears_exactLeaf Grammar.clears_positiveLength _
  | outlineOffset => exact clears_exactLeaf Grammar.clears_length _
  | extent e =>
    cases e with
    | side _ => exact clears_exactLeaf Grammar.clears_size _
    | childSide _ | childBetween | width | height =>
      exact clears_exactLeaf Grammar.clears_positiveSize _
  | letterSpacing | wordSpacing => exact clears_exactLeaf Grammar.clears_size _
  | lineHeight => exact clears_exactLeaf Grammar.clears_positiveSize _
  | boxShadow => exact clears_exactOrInitial _ Grammar.clears_boxShadow
  | textShadow => exact clears_exactOrInitial _ Grammar.clears_textShadow
  | fontFamily => exact exact .text Grammar.clears_fontFamily
  | fontStyle => exact exact .fontStyle (Grammar.clears_fontStyle true)
  | transform => exact exact .transform Grammar.clears_transform
  | fontSize => exact clears_exactLeaf Grammar.clears_fontSize _
  | fontWeight => exact clears_exactLeaf Grammar.clears_fontWeight _
  | fontWidth => exact clears_exactLeaf Grammar.clears_fontWidth _
  | opacity => exact clears_exactLeaf Grammar.clears_opacity _
  | zIndex => exact clears_exactLeaf Grammar.clears_integer _
  | display | position | textAlign => exact clears_exactLeaf (Grammar.clears_keyword _) _

end Longhand

namespace Reader

variable {α : Type} {c : Cursor} {P : α → Prop}

/-- What is deferred waits for a `var()` call, and what is read has none. -/
theorem exactOrDeferred_cases {r : Reader α} (h : r.Clears c P) (deferred : String → Location → α) :
    match exactOrDeferred r deferred c with
    | .ok a _ => (a = deferred c.remaining c.location ∧ c.holdsVar = true) ∨
        (P a ∧ c.holdsVar = false)
    | .error e _ => e.isVarCall = false := by
  have hwhole := h.whole
  rw [Clears] at hwhole
  rw [exactOrDeferred, EStateM.run]
  cases hrun : (do let a ← r; expectExhausted; return a : Reader α) c with
  | ok a c' =>
    rw [hrun] at hwhole
    exact Or.inr hwhole.1
  | error e c' =>
    rw [hrun] at hwhole
    rcases e with (⟨reason, l⟩ | ⟨reason, l⟩ | l) | f
    · rfl
    · rfl
    · exact Or.inl ⟨rfl, hwhole rfl⟩
    · rfl

end Reader

namespace PropertyKind

/-- The longhands that a declaration of a kind can write. -/
def longhands : PropertyKind → List Longhand
  | longhand l => [l]
  | shorthand s => s.longhands

/-- Where no lone keyword stands, a longhand is read by its grammar. -/
theorem read_longhand_apply {l : Longhand} {c : Cursor}
    (hinitial : Reader.isKeywordExhausted "initial" c = .ok false c)
    (hinherit : Reader.isKeywordExhausted "inherit" c = .ok false c) :
    (longhand l).read c = (do
      let value ← Reader.exactOrDeferred l.reader .deferred
      return [.longhand l value] : Reader (List Property)) c := by
  rw [read, Reader.bind_apply, hinitial]
  dsimp only
  rw [if_neg Bool.false_ne_true, Reader.bind_apply, hinherit]
  rfl

/-- A longhand is read as a lone keyword that every longhand takes, or by its grammar. -/
theorem read_longhand_cases (l : Longhand) (c : Cursor) :
    (∃ word value, (value = .initial ∨ value = .inherit) ∧
      Reader.isKeywordExhausted word c = .ok true c.advance ∧ c.holdsVar = false ∧
      (longhand l).read c = .ok [.longhand l value] c.advance) ∨
    (longhand l).read c = (do
      let value ← Reader.exactOrDeferred l.reader .deferred
      return [.longhand l value] : Reader (List Property)) c := by
  rcases Reader.isKeywordExhausted_cases "initial" c with ⟨hrun, hvar⟩ | hinitial
  · refine Or.inl ⟨"initial", .initial, Or.inl rfl, hrun, hvar, ?_⟩
    rw [read, Reader.bind_apply, hrun]
    rfl
  rcases Reader.isKeywordExhausted_cases "inherit" c with ⟨hrun, hvar⟩ | hinherit
  · refine Or.inl ⟨"inherit", .inherit, Or.inr rfl, hrun, hvar, ?_⟩
    rw [read, Reader.bind_apply, hinitial]
    dsimp only
    rw [if_neg Bool.false_ne_true, Reader.bind_apply, hrun]
    rfl
  exact Or.inr (read_longhand_apply hinitial hinherit)

/-- What is declared for a kind of property is deferred as a whole, or settled and free of `var()`
calls. -/
theorem read_cases (kind : PropertyKind) (c : Cursor) :
    match kind.read c with
    | .ok ps _ => (ps = [.deferred kind c.remaining c.location] ∧ c.holdsVar = true) ∨
        ((∀ p ∈ ps, p.IsSettled kind.longhands) ∧ c.holdsVar = false)
    | .error e _ => e.isVarCall = false := by
  cases kind with
  | shorthand s =>
    have h := Reader.exactOrDeferred_cases (s.clears_reader c)
      fun raw location => [.deferred (shorthand s) raw location]
    rw [read]
    cases hrun : s.reader.exactOrDeferred
        (fun raw location => [.deferred (shorthand s) raw location]) c with
    | ok ps c' =>
      rw [hrun] at h
      exact h
    | error e c' =>
      rw [hrun] at h
      exact h
  | longhand l =>
    have hone : ∀ value : PropertyValue, value.isDeferred = false →
        ∀ p ∈ [Property.longhand l value], p.IsSettled (longhand l).longhands := by
      intro value hvalue p hp
      rw [List.mem_singleton.mp hp]
      exact ⟨hvalue, l, List.mem_singleton_self l, rfl⟩
    rcases read_longhand_cases l c with ⟨-, value, hkeyword, -, hvar, hread⟩ | hread
    · rw [hread]
      exact Or.inr ⟨hone value (by rcases hkeyword with rfl | rfl <;> rfl), hvar⟩
    rw [hread, Reader.bind_apply]
    have hvalue := Reader.exactOrDeferred_cases (l.clears_reader c) .deferred
    cases hread : Reader.exactOrDeferred l.reader .deferred c with
    | error e c' =>
      rw [hread] at hvalue
      exact hvalue
    | ok value c' =>
      rw [hread] at hvalue
      rcases hvalue with ⟨rfl, hvar⟩ | ⟨hsettled, hvar⟩
      · exact Or.inl ⟨rfl, hvar⟩
      · exact Or.inr ⟨hone value hsettled, hvar⟩

/-! ### A value as a whole

What is read of a value does not tell where the reader stops. -/

theorem readCursor_eq_ok_iff {kind : PropertyKind} {c : Cursor} {ps : List Property} :
    kind.readCursor c = .ok ps ↔ ∃ d, kind.read c = .ok ps d := by
  rw [readCursor, EStateM.run]
  cases kind.read c <;> simp

theorem readCursor_eq_error_iff {kind : PropertyKind} {c : Cursor} {e : ReadError} :
    kind.readCursor c = .error e ↔ ∃ d, kind.read c = .error e d := by
  rw [readCursor, EStateM.run]
  cases kind.read c <;> simp

theorem readCursor_cases (kind : PropertyKind) (c : Cursor) :
    match kind.readCursor c with
    | .ok ps => (ps = [.deferred kind c.remaining c.location] ∧ c.holdsVar = true) ∨
        ((∀ p ∈ ps, p.IsSettled kind.longhands) ∧ c.holdsVar = false)
    | .error e => e.isVarCall = false := by
  have h := kind.read_cases c
  rw [readCursor, EStateM.run]
  cases hrun : kind.read c with
  | ok ps c' =>
    rw [hrun] at h
    exact h
  | error e c' =>
    rw [hrun] at h
    exact h

end PropertyKind

namespace Declaration

/-- What becomes of a declaration with a known name. -/
inductive Verdict
  /-- It is refused for good. -/
  | refused
  /-- It is kept as text until custom properties are known. -/
  | deferred
  /-- It is read as longhands. -/
  | read
  deriving DecidableEq, Repr

/-- What a verdict tells about the value, given as components of a source, and about the result of
reading the declaration. -/
def Verdict.Holds (v : Verdict) (name : String) (source : Source) (cs : List Component)
    (result : Except ReadError (List Property)) : Prop :=
  match v with
  | refused => ∃ r : Refusal, result = .error (.refused r) ∧ r.isVarCall = false
  | deferred => ∃ kind first rest location,
      kind.name = Text.lowercase name ∧ cs = first :: rest ∧
      result = .ok [.deferred kind (Text.trim (source.slice first.start source.length)) location] ∧
      Component.listContainsVar cs = true
  | read => ∃ ps, result = .ok ps ∧ (∀ p ∈ ps, p.kind.isShorthand = false ∧
      (p.value = .initial ∨ p.value = .inherit ∨ ∃ value, p.value = .exact value)) ∧
      Component.listContainsVar cs = false

/-- No two verdicts are given on one declaration. -/
theorem Verdict.eq_of_holds {v w : Verdict} {name : String} {source : Source}
    {cs : List Component} {result : Except ReadError (List Property)}
    (hv : v.Holds name source cs result) (hw : w.Holds name source cs result) : v = w := by
  have refused_ok : ∀ {ps : List Property}, result = .ok ps →
      ¬ Verdict.refused.Holds name source cs result := by
    rintro ps hps ⟨r, hr, -⟩
    exact absurd (hps.symm.trans hr) (by simp)
  have deferred_read : Verdict.deferred.Holds name source cs result →
      ¬ Verdict.read.Holds name source cs result := by
    rintro ⟨kind, first, rest, location, -, -, -, hvar⟩ ⟨ps, -, -, hnone⟩
    exact absurd (hvar.symm.trans hnone) (by simp)
  have deferred_ok : Verdict.deferred.Holds name source cs result → ∃ ps, result = .ok ps :=
    fun ⟨_, _, _, _, _, _, h, _⟩ => ⟨_, h⟩
  have read_ok : Verdict.read.Holds name source cs result → ∃ ps, result = .ok ps :=
    fun ⟨ps, h, _⟩ => ⟨ps, h⟩
  cases v <;> cases w
  case refused.refused | deferred.deferred | read.read => rfl
  case refused.deferred => exact absurd hv (refused_ok (deferred_ok hw).choose_spec)
  case refused.read => exact absurd hv (refused_ok (read_ok hw).choose_spec)
  case deferred.refused => exact absurd hw (refused_ok (deferred_ok hv).choose_spec)
  case read.refused => exact absurd hw (refused_ok (read_ok hv).choose_spec)
  case deferred.read => exact absurd hw (deferred_read hv)
  case read.deferred => exact absurd hv (deferred_read hw)

/-- A kind of property is found by its name in any case. -/
theorem name_of_ofName? {name : String} {kind : PropertyKind}
    (h : PropertyKind.ofName? name = some kind) : kind.name = Text.lowercase name := by
  obtain ⟨before, after, hsplit, -⟩ := List.lookup_eq_some_iff.mp h
  have hmem : (Text.lowercase name, kind) ∈ PropertyKind.table := by
    rw [hsplit]
    exact List.mem_append_right before (List.mem_cons_self ..)
  obtain ⟨k, -, hk⟩ := List.mem_map.mp hmem
  rw [Prod.mk.injEq] at hk
  rw [← hk.1, hk.2]

/-- A value that is read from a text starts at its first component and ends with the text. -/
theorem eq_ofComponents_of_ofText {value : String} {c : Cursor} (h : Cursor.ofText value = .ok c) :
    c = .ofComponents (.ofString value) c.components (Source.ofString value).length := by
  obtain ⟨parsed, -, -, rfl⟩ := Cursor.ofText_eq_ok.mp h
  rfl

/-- What is settled is a longhand with the default, the parent's value or a value that was read. -/
theorem isRead_of_isSettled {ls : List Longhand} {p : Property} (h : p.IsSettled ls) :
    p.kind.isShorthand = false ∧
      (p.value = .initial ∨ p.value = .inherit ∨ ∃ value, p.value = .exact value) := by
  obtain ⟨hvalue, l, -, hkind⟩ := h
  refine ⟨by rw [hkind]; rfl, ?_⟩
  cases hp : p.value with
  | initial => exact Or.inl rfl
  | inherit => exact Or.inr (Or.inl rfl)
  | exact value => exact Or.inr (Or.inr ⟨value, rfl⟩)
  | deferred raw location =>
    rw [hp] at hvalue
    exact absurd hvalue (by simp [PropertyValue.isDeferred])

/-- **Exactly one verdict is given on a declaration with a known name and a value without syntax
errors, unless a computation with numbers fails.** -/
theorem existsUnique_verdict {name value : String} {c : Cursor}
    (hname : (PropertyKind.ofName? name).isSome = true) (hc : Cursor.ofText value = .ok c)
    (hfault : ∀ f, readText name value ≠ .error (.fault f)) :
    ∃! v : Verdict, v.Holds name (.ofString value) c.components (readText name value) := by
  obtain ⟨kind, hkind⟩ := Option.isSome_iff_exists.mp hname
  have hresult : readText name value = kind.readCursor c := by
    rw [readText, hc]
    simp only [bind, Except.bind, read, hkind]
  have hcursor := eq_ofComponents_of_ofText hc
  have hrest : c.rest = c.components := by
    rw [hcursor]
    rfl
  have hcases := kind.readCursor_cases c
  rw [Cursor.holdsVar, hrest] at hcases
  rw [hresult] at hfault ⊢
  suffices h : ∃ v : Verdict, v.Holds name (.ofString value) c.components (kind.readCursor c) by
    obtain ⟨v, hv⟩ := h
    exact ⟨v, hv, fun w hw => Verdict.eq_of_holds hw hv⟩
  cases hrun : kind.readCursor c with
  | error e =>
    rw [hrun] at hcases
    cases e with
    | fault f => exact absurd hrun (hfault f)
    | refused r => exact ⟨.refused, r, rfl, hcases⟩
  | ok ps =>
    rw [hrun] at hcases
    rcases hcases with ⟨rfl, hvar⟩ | ⟨hps, hvar⟩
    · cases hcs : c.components with
      | nil =>
        rw [hcs, Component.listContainsVar_nil] at hvar
        exact absurd hvar Bool.false_ne_true
      | cons first rest =>
        have hraw : c.remaining = Text.trim
            ((Source.ofString value).slice first.start (Source.ofString value).length) := by
          rw [Cursor.remaining, hrest, hcs]
          dsimp only
          rw [hcursor]
          rfl
        rw [hcs] at hvar
        exact ⟨.deferred, kind, first, rest, c.location, name_of_ofName? hkind, rfl,
          by rw [hraw], hvar⟩
    · exact ⟨.read, ps, rfl, fun p hp => isRead_of_isSettled (hps p hp), hvar⟩

/-- A `var()` call is deferred, whatever the case of the name of the property. -/
theorem existsUnique_verdict_var_call :
    ∃ c, Cursor.ofText "var(--c)" = .ok c ∧
      readText "Color" "var(--c)" = .ok [.deferred (.longhand .color) "var(--c)" .first] ∧
      ∃! v : Verdict,
        v.Holds "Color" (.ofString "var(--c)") c.components (readText "Color" "var(--c)") := by
  have hkind : PropertyKind.ofName? "Color" = some (.longhand .color) := by
    rw [PropertyKind.ofName?, show Text.lowercase "Color" = "color" by cbv]
    decide
  have hread : Cursor.ofText "var(--c)" >>= (PropertyKind.longhand .color).readCursor =
      .ok [.deferred (.longhand .color) "var(--c)" .first] := by cbv
  cases hc : Cursor.ofText "var(--c)" with
  | error e =>
    rw [hc] at hread
    exact absurd hread (by simp [bind, Except.bind])
  | ok c =>
    have hresult : readText "Color" "var(--c)" =
        .ok [.deferred (.longhand .color) "var(--c)" .first] := by
      rw [← hread, hc, readText, hc]
      simp only [bind, Except.bind, read, hkind]
    refine ⟨c, rfl, hresult, existsUnique_verdict (by rw [hkind]; rfl) hc fun f hf => ?_⟩
    rw [hresult] at hf
    exact absurd hf (by simp)

end Declaration

end Styling
