import Mathlib
import Styling.Proofs.Value.Running
import Styling.Proofs.Property.Verdict

/-!
# What a reader takes of a value

Readers pass over whitespace, so of all that follows a cursor only the other components matter to
them.  A reader that is known to take some of these components and to give a value can be put
together with the next one, whatever the cursor counts.

* `Cursor.pending` are the components that matter.
* `Reader.Takes` says that a reader takes components up to those that are left and gives a value,
  and `Reader.Refuses` that it refuses them.
* `Reader.Takes.bind`, `Reader.Takes.leaf`, `Reader.Takes.attempt` and `Reader.Takes.foldAll` are
  the ways of putting readers together; `Reader.Takes.inside` is about the inside of a group.
* `PropertyKind.readCursor_of_takes` is about the whole value of a longhand.
-/

namespace Styling

/-- The components that are no whitespace. -/
def Component.withoutBlanks (cs : List Component) : List Component :=
  cs.filter fun c => !c.isWhitespace

/-- Whitespace has no `var()` call in it. -/
theorem Component.listContainsVar_withoutBlanks (cs : List Component) :
    listContainsVar (withoutBlanks cs) = listContainsVar cs := by
  induction cs with
  | nil => rfl
  | cons c cs ih =>
    cases hc : c.isWhitespace with
    | false =>
      rw [withoutBlanks, List.filter_cons_of_pos (by simp [hc]), listContainsVar_cons,
        listContainsVar_cons, ← ih, withoutBlanks]
    | true =>
      rw [withoutBlanks, List.filter_cons_of_neg (by simp [hc]), listContainsVar_cons,
        containsVar_of_isTokenOf hc, Bool.false_or, ← ih, withoutBlanks]

/-- Components without `var()` calls are none themselves. -/
theorem Component.isVar_of_mem_withoutBlanks {cs : List Component} (h : listContainsVar cs = false)
    {d : Component} (hd : d ∈ withoutBlanks cs) : d.isVar = false := by
  rw [listContainsVar_eq_any, List.any_eq_false] at h
  exact Bool.eq_false_iff.mpr fun hvar => h d (List.mem_filter.mp hd).1 (containsVar_of_isVar hvar)

namespace Cursor

/-- The components after the cursor that are no whitespace. -/
def pending (c : Cursor) : List Component :=
  Component.withoutBlanks c.rest

/-- Blanks at the start do not count. -/
theorem withoutBlanks_dropWhile (cs : List Component) :
    Component.withoutBlanks (cs.dropWhile Component.isWhitespace) = Component.withoutBlanks cs := by
  induction cs with
  | nil => rfl
  | cons c cs ih =>
    cases hc : c.isWhitespace with
    | false => rw [List.dropWhile_cons_of_neg (by simp [hc])]
    | true =>
      rw [List.dropWhile_cons_of_pos hc, ih, Component.withoutBlanks, Component.withoutBlanks,
        List.filter_cons_of_neg (by simp [hc])]

theorem pending_of_peek_none {c : Cursor} (h : c.peek = none) : c.pending = [] := by
  rw [pending, ← withoutBlanks_dropWhile, rest_of_peek_none h]
  rfl

theorem pending_of_peek {c : Cursor} {d : Component} (h : c.peek = some d) :
    c.pending = d :: c.advance.pending := by
  rw [pending, ← withoutBlanks_dropWhile, rest_of_peek h, Component.withoutBlanks,
    List.filter_cons_of_pos (by simp [isWhitespace_of_peek h])]
  rfl

/-- What is looked at is the first of the components that matter. -/
theorem peek_eq_head? (c : Cursor) : c.peek = c.pending.head? := by
  cases h : c.peek with
  | none => rw [pending_of_peek_none h]; rfl
  | some d => rw [pending_of_peek h]; rfl

theorem peek_of_pending {c : Cursor} {d : Component} {ds : List Component}
    (h : c.pending = d :: ds) : c.peek = some d ∧ c.advance.pending = ds := by
  have hpeek : c.peek = some d := by rw [peek_eq_head?, h]; rfl
  refine ⟨hpeek, ?_⟩
  rw [pending_of_peek hpeek] at h
  exact (List.cons.inj h).2

/-- Blanks between commas do not count. -/
theorem map_withoutBlanks_splitAtCommas (stop : Nat) (cs : List Component) :
    ((splitAtCommas stop cs).map fun part => Component.withoutBlanks part.1) =
      (splitAtCommas stop (Component.withoutBlanks cs)).map (·.1) := by
  induction cs with
  | nil => rfl
  | cons c cs ih =>
    cases hcomma : c.isComma with
    | true =>
      have hblank : c.isWhitespace = false := by
        cases c with
        | token t =>
          obtain ⟨kind, span⟩ := t
          cases kind <;> first | rfl | exact absurd hcomma Bool.false_ne_true
        | group opener opened xs ending => rfl
      have hrest : Component.withoutBlanks (c :: cs) = c :: Component.withoutBlanks cs :=
        List.filter_cons_of_pos (by simp [hblank])
      rw [hrest, splitAtCommas, splitAtCommas, if_pos hcomma, if_pos hcomma, List.map_cons,
        List.map_cons, ih]
      rfl
    | false =>
      obtain ⟨p, ps, hsplit, hcons⟩ := exists_splitAtCommas_cons hcomma stop cs
      rw [hsplit, List.map_cons] at ih
      cases hblank : c.isWhitespace with
      | true =>
        have hskip : ∀ ds, Component.withoutBlanks (c :: ds) = Component.withoutBlanks ds :=
          fun ds => List.filter_cons_of_neg (by simp [hblank])
        rw [hcons, List.map_cons, hskip, hskip]
        exact ih
      | false =>
        have hkeep : ∀ ds, Component.withoutBlanks (c :: ds) = c :: Component.withoutBlanks ds :=
          fun ds => List.filter_cons_of_pos (by simp [hblank])
        obtain ⟨q, qs, hsplit', hcons'⟩ :=
          exists_splitAtCommas_cons hcomma stop (Component.withoutBlanks cs)
        rw [hsplit', List.map_cons] at ih
        obtain ⟨hhead, htail⟩ := List.cons.inj ih
        rw [hcons, List.map_cons, hkeep, hkeep, hcons', List.map_cons, hhead, htail]

/-- The parts between commas, without blanks. -/
theorem map_pending_commaParts (c : Cursor) :
    c.commaParts.map pending = (splitAtCommas c.stop c.pending).map (·.1) := by
  rw [pending, ← map_withoutBlanks_splitAtCommas, commaParts, List.map_map]
  rfl

theorem source_of_mem_commaParts {c d : Cursor} (h : d ∈ c.commaParts) : d.source = c.source := by
  obtain ⟨part, -, rfl⟩ := List.mem_map.mp h
  rfl

end Cursor

namespace Reader

variable {α β σ : Type}

/-- In a source, the reader takes the components `ds` up to `es` and gives a value. -/
def Takes (r : Reader α) (source : Source) (ds : List Component) (a : α) (es : List Component) :
    Prop :=
  ∀ c : Cursor, c.source = source → c.pending = ds →
    ∃ c', r c = .ok a c' ∧ c'.source = source ∧ c'.pending = es

namespace Takes

variable {source : Source} {ds es fs : List Component} {d : Component} {a : α} {b : β}

theorem bind {r : Reader α} {f : α → Reader β} (hr : r.Takes source ds a es)
    (hf : (f a).Takes source es b fs) : (r >>= f).Takes source ds b fs := by
  intro c hsource hpending
  obtain ⟨c', hrun, hsource', hpending'⟩ := hr c hsource hpending
  obtain ⟨c'', hrun', hsource'', hpending''⟩ := hf c' hsource' hpending'
  exact ⟨c'', by rw [bind_apply, hrun]; exact hrun', hsource'', hpending''⟩

theorem pure (a : α) : (pure a : Reader α).Takes source ds a ds :=
  fun c hsource hpending => ⟨c, rfl, hsource, hpending⟩

theorem source_ : Reader.source.Takes source ds source ds :=
  fun c hsource hpending => ⟨c, by rw [source_apply, hsource], hsource, hpending⟩

theorem ofExcept {x : Except ReadError α} (h : x = .ok a) :
    (Reader.ofExcept x).Takes source ds a ds :=
  fun c hsource hpending => ⟨c, by rw [h, ofExcept_ok], hsource, hpending⟩

theorem peek : (Reader.ask Cursor.peek).Takes source ds ds.head? ds :=
  fun c hsource hpending =>
    ⟨c, by rw [ask_apply, Cursor.peek_eq_head?, hpending], hsource, hpending⟩

/-- A reader that looks at the cursor as a whole. -/
theorem ask {γ : Type} {g : Cursor → γ} {f : γ → Reader β}
    (h : ∀ c : Cursor, c.source = source → c.pending = ds → (f (g c)).Takes source ds b es) :
    (Reader.ask g >>= f).Takes source ds b es :=
  fun c hsource hpending => h c hsource hpending c hsource hpending

theorem toEnd : (modify Cursor.toEnd : Reader Unit).Takes source ds () [] :=
  fun c hsource _ => ⟨c.toEnd, rfl, hsource, by rw [Cursor.pending, Cursor.rest_toEnd]; rfl⟩

theorem next (hvar : d.isVar = false) : Reader.next.Takes source (d :: ds) d ds := by
  intro c hsource hpending
  obtain ⟨hpeek, hadvance⟩ := Cursor.peek_of_pending hpending
  exact ⟨c.advance, next_of_peek hpeek hvar, hsource, hadvance⟩

/-- A component for which the leaf gives a value is taken. -/
theorem leaf {f : Leaf α} (hvar : d.isVar = false) (hf : f source d = .ok a) :
    (Reader.leaf f).Takes source (d :: ds) a ds := by
  intro c hsource hpending
  obtain ⟨hpeek, hadvance⟩ := Cursor.peek_of_pending hpending
  refine ⟨c.advance, ?_, hsource, hadvance⟩
  rw [leaf_of_peek hpeek hvar, hsource, hf, ofExcept_ok]

theorem attempt {r : Reader α} (h : r.Takes source ds a es) :
    (Reader.attempt r).Takes source ds (some a) es := by
  intro c hsource hpending
  obtain ⟨c', hrun, hrest⟩ := h c hsource hpending
  exact ⟨c', attempt_of_ok hrun, hrest⟩

theorem tryComma (hd : d.isComma = true) : Reader.tryComma.Takes source (d :: ds) true ds := by
  intro c hsource hpending
  obtain ⟨hpeek, hadvance⟩ := Cursor.peek_of_pending hpending
  exact ⟨c.advance, by rw [tryComma_of_peek hpeek, if_pos hd], hsource, hadvance⟩

theorem expectExhausted : Reader.expectExhausted.Takes source [] () [] := by
  intro c hsource hpending
  exact ⟨c, expectExhausted_of_peek_none (by rw [Cursor.peek_eq_head?, hpending]; rfl), hsource,
    hpending⟩

/-- A keyword that does not stand there is left. -/
theorem isKeywordExhausted {word : String} (h : ds.head?.any (·.isKeyword word) = false) :
    (Reader.isKeywordExhausted word).Takes source ds false ds := by
  intro c hsource hpending
  refine ⟨c, ?_, hsource, hpending⟩
  cases ds with
  | nil => exact isKeywordExhausted_of_peek_none (by rw [Cursor.peek_eq_head?, hpending]; rfl)
  | cons d ds =>
    obtain ⟨hpeek, -⟩ := Cursor.peek_of_pending hpending
    rw [isKeywordExhausted_of_peek hpeek, show d.isKeyword word = false from h]
    rfl

/-- A keyword that stands alone is taken. -/
theorem isKeywordExhausted_lone {word : String} (h : d.isKeyword word = true) :
    (Reader.isKeywordExhausted word).Takes source [d] true [] := by
  intro c hsource hpending
  obtain ⟨hpeek, hadvance⟩ := Cursor.peek_of_pending hpending
  have hexhausted : c.advance.isExhausted = true := by
    rw [Cursor.isExhausted, Cursor.peek_eq_head?, hadvance]
    rfl
  refine ⟨c.advance, ?_, hsource, hadvance⟩
  rw [isKeywordExhausted_of_peek hpeek, h, hexhausted]
  rfl

/-- The loop goes on as long as its step does. -/
theorem foldWhile_cons {step : σ → Component → Except StepError (Option σ)} {s s' t : σ}
    (hstep : step s d = .ok (some s')) (h : (Reader.foldWhile step s').Takes source ds t es) :
    (Reader.foldWhile step s).Takes source (d :: ds) t es := by
  intro c hsource hpending
  obtain ⟨hpeek, hadvance⟩ := Cursor.peek_of_pending hpending
  obtain ⟨c', hrun, hrest⟩ := h c.advance hsource hadvance
  refine ⟨c', ?_, hrest⟩
  rw [foldWhile_of_peek hpeek, hstep]
  exact hrun

/-- The loop ends at the end. -/
theorem foldWhile_nil {step : σ → Component → Except StepError (Option σ)} {s : σ} :
    (Reader.foldWhile step s).Takes source [] s [] := by
  intro c hsource hpending
  exact ⟨c, foldWhile_of_peek_none (by rw [Cursor.peek_eq_head?, hpending]; rfl), hsource, hpending⟩

/-- A loop over all components is a fold of its step. -/
theorem foldAll {step : σ → Component → Except StepError σ} {s t : σ}
    (h : ds.foldlM step s = .ok t) : (Reader.foldAll step s).Takes source ds t [] := by
  induction ds generalizing s with
  | nil =>
    obtain rfl := Except.ok.inj h
    exact foldWhile_nil
  | cons d ds ih =>
    rw [List.foldlM_cons] at h
    cases hstep : step s d with
    | error e =>
      rw [hstep] at h
      exact absurd h (by simp [Bind.bind, Except.bind])
    | ok s' =>
      rw [hstep] at h
      exact foldWhile_cons (by rw [hstep]; rfl) (ih h)

/-- A reader that takes everything inside a group uses it up. -/
theorem inside {r : Reader α} (h : r.Takes source ds a []) {c : Cursor}
    (hsource : c.source = source) (hpending : c.pending = ds) : r.inside c = .ok a := by
  have hall : (do let a ← r; Reader.expectExhausted; return a : Reader α).Takes source ds a [] :=
    h.bind (.bind expectExhausted (.pure a))
  obtain ⟨c', hrun, -, -⟩ := hall c hsource hpending
  rw [Reader.inside, EStateM.run, hrun]

end Takes

/-- In a source, the reader refuses the components as malformed. -/
def Refuses (r : Reader α) (source : Source) (ds : List Component) : Prop :=
  ∀ c : Cursor, c.source = source → c.pending = ds →
    ∃ reason l c', r c = .error (.invalid reason l) c'

namespace Refuses

variable {source : Source} {ds es : List Component} {d : Component} {a : α}

theorem leaf {f : Leaf α} {reason : Reason} {l : Location} (hvar : d.isVar = false)
    (hf : f source d = .error (.invalid reason l)) : (Reader.leaf f).Refuses source (d :: ds) := by
  intro c hsource hpending
  obtain ⟨hpeek, -⟩ := Cursor.peek_of_pending hpending
  exact ⟨reason, l, c.advance, by rw [leaf_of_peek hpeek hvar, hsource, hf, ofExcept_error]⟩

theorem bind {r : Reader α} (h : r.Refuses source ds) (f : α → Reader β) :
    (r >>= f).Refuses source ds := by
  intro c hsource hpending
  obtain ⟨reason, l, c', hrun⟩ := h c hsource hpending
  exact ⟨reason, l, c', by rw [bind_apply, hrun]⟩

/-- What is left by a reader may be refused by the next one. -/
theorem after {r : Reader α} {f : α → Reader β} (hr : r.Takes source ds a es)
    (hf : (f a).Refuses source es) : (r >>= f).Refuses source ds := by
  intro c hsource hpending
  obtain ⟨c', hrun, hsource', hpending'⟩ := hr c hsource hpending
  obtain ⟨reason, l, c'', hrun'⟩ := hf c' hsource' hpending'
  exact ⟨reason, l, c'', by rw [bind_apply, hrun]; exact hrun'⟩

/-- What is refused is left. -/
theorem attempt {r : Reader α} (h : r.Refuses source ds) :
    (Reader.attempt r).Takes source ds none ds := by
  intro c hsource hpending
  obtain ⟨reason, l, c', hrun⟩ := h c hsource hpending
  exact ⟨c, by rw [Reader.attempt, EStateM.run, hrun]; rfl, hsource, hpending⟩

end Refuses

end Reader

/-! ## Whole values -/

namespace PropertyKind

/-- A longhand whose grammar comes to the end of the value is read as what the grammar gives, unless
the value is one of the keywords that every longhand takes. -/
theorem readCursor_of_reader {l : Longhand} {c c' : Cursor} {value : PropertyValue}
    (h : l.reader c = .ok value c') (hend : c'.pending = [])
    (hinitial : Reader.isKeywordExhausted "initial" c = .ok false c)
    (hinherit : Reader.isKeywordExhausted "inherit" c = .ok false c) :
    (longhand l).readCursor c = .ok [.longhand l value] := by
  have hall : (do let v ← l.reader; Reader.expectExhausted; return v : Reader PropertyValue) c =
      .ok value c' := by
    rw [Reader.bind_apply, h]
    dsimp only
    rw [Reader.bind_apply,
      Reader.expectExhausted_of_peek_none (by rw [Cursor.peek_eq_head?, hend]; rfl)]
    rfl
  have hread : (longhand l).read c = .ok [.longhand l value] c' := by
    rw [read_longhand_apply hinitial hinherit, Reader.bind_apply, Reader.exactOrDeferred,
      EStateM.run, hall]
    rfl
  exact readCursor_eq_ok_iff.mpr ⟨c', hread⟩

/-- **A longhand whose grammar takes the whole value is read as what the grammar gives**, unless the
value is one of the keywords that every longhand takes. -/
theorem readCursor_of_takes {l : Longhand} {c : Cursor} {value : PropertyValue}
    (h : l.reader.Takes c.source c.pending value [])
    (hinitial : c.pending.head?.any (·.isKeyword "initial") = false)
    (hinherit : c.pending.head?.any (·.isKeyword "inherit") = false) :
    (longhand l).readCursor c = .ok [.longhand l value] := by
  obtain ⟨c', hrun, -, hend⟩ := h c rfl rfl
  have hlone : ∀ {word : String}, c.pending.head?.any (·.isKeyword word) = false →
      Reader.isKeywordExhausted word c = .ok false c := by
    intro word hword
    cases hpeek : c.peek with
    | none => exact Reader.isKeywordExhausted_of_peek_none hpeek
    | some d =>
      rw [← Cursor.peek_eq_head?, hpeek] at hword
      rw [Reader.isKeywordExhausted_of_peek hpeek, show d.isKeyword word = false from hword]
      rfl
  exact readCursor_of_reader hrun hend (hlone hinitial) (hlone hinherit)

end PropertyKind

end Styling
