import Mathlib.Data.List.Perm.Subperm
import Styling.Proofs.Property.Verdict
import Styling.Proofs.Value.Accepting

/-!
# The kinds that a shorthand declares

A shorthand is spread over its longhands, and no longhand is declared twice.  A lone keyword, one to
four values and a font declare all of them; a line declares its colors if a color was given, and its
widths if a width was given.

* `Reader.exists_of_bind`, `Reader.exists_of_leaf` and `Reader.invariant_of_foldAll` tell what a
  reader did that gave a value.
* `Grammar.StrokePart.Reads` says as what part of a line a component is read;
  `Grammar.StrokeState.step_eq_ok` is the step, and `Grammar.StrokeState.IsDeclared` says what has
  been declared so far.
* `Shorthand.subperm_of_reader` and `Shorthand.perm_of_reader` are about the grammars of shorthands,
  and `PropertyKind.readCursor_shorthand` is about a whole value.
-/

namespace Styling

/-! ## What a reader did -/

namespace Reader

variable {α β σ : Type} {c c' : Cursor}

/-- A chain of two readers that gave a value: both did. -/
theorem exists_of_bind {r : Reader α} {f : α → Reader β} {b : β} (h : (r >>= f) c = .ok b c') :
    ∃ a d, r c = .ok a d ∧ f a d = .ok b c' := by
  rw [bind_apply] at h
  cases hr : r c with
  | ok a d =>
    rw [hr] at h
    exact ⟨a, d, rfl, h⟩
  | error e d =>
    rw [hr] at h
    exact absurd h (by simp)

/-- A result that is given was there already. -/
theorem ofExcept_eq_ok {x : Except ReadError α} {a : α} :
    ofExcept x c = .ok a c' ↔ x = .ok a ∧ c' = c := by
  cases x with
  | ok b => simp [eq_comm]
  | error e => simp

/-- A leaf that gave a value was given the next component. -/
theorem exists_of_leaf {f : Leaf α} {a : α} (h : leaf f c = .ok a c') :
    ∃ d, c.peek = some d ∧ f c.source d = .ok a ∧ c' = c.advance := by
  cases hpeek : c.peek with
  | none =>
    rw [leaf_of_peek_none hpeek] at h
    exact absurd h (by simp)
  | some d =>
    cases hvar : d.isVar with
    | true =>
      rw [leaf_of_peek_isVar hpeek hvar] at h
      exact absurd h (by simp)
    | false =>
      rw [leaf_of_peek hpeek hvar, ofExcept_eq_ok] at h
      exact ⟨d, rfl, h⟩

/-- What every step of a loop preserves holds at its end. -/
theorem invariant_of_foldAll {step : σ → Component → Except StepError σ} {P : σ → Prop} {s s' : σ}
    (hs : P s) (hstep : ∀ s d s', P s → step s d = .ok s' → P s')
    (h : foldAll step s c = .ok s' c') : P s' := by
  rw [foldAll] at h
  induction c using Cursor.advance_induction generalizing s with
  | exhausted c hpeek =>
    rw [foldWhile_of_peek_none hpeek] at h
    obtain ⟨rfl, -⟩ := EStateM.Result.ok.inj h
    exact hs
  | next c d hpeek ih =>
    rw [foldWhile_of_peek hpeek] at h
    cases hd : step s d with
    | error e =>
      rw [hd] at h
      exact absurd h (by simp [Except.map])
    | ok next =>
      rw [hd] at h
      exact ih (hstep s d next hs hd) h

/-- The inside of a group is read if a reader comes to its end. -/
theorem inside_eq_ok {r : Reader α} {a : α} :
    r.inside c = .ok a ↔ ∃ c', r c = .ok a c' ∧ c'.peek = none := by
  rw [inside, EStateM.run]
  constructor
  · intro h
    split at h
    next hrun =>
      obtain rfl := Except.ok.inj h
      obtain ⟨b, d, hb, h⟩ := exists_of_bind hrun
      obtain ⟨used, d', hend, h⟩ := exists_of_bind h
      obtain ⟨rfl, rfl⟩ := EStateM.Result.ok.inj h
      refine ⟨d, hb, ?_⟩
      cases hpeek : d.peek with
      | none => rfl
      | some x =>
        rw [expectExhausted_of_peek hpeek] at hend
        exact absurd hend (by split <;> simp)
    next => exact absurd h (by simp)
  · rintro ⟨c', ha, hpeek⟩
    rw [bind_apply, ha]
    dsimp only
    rw [bind_apply, expectExhausted_of_peek_none hpeek]
    rfl

end Reader

namespace Grammar

variable {c c' : Cursor} {ps : List Property}

/-! ## Keywords and four values -/

theorem map_kind_fanOut (ls : List Longhand) (value : PropertyValue) :
    (fanOut ls value).map Property.kind = ls.map .longhand := by
  rw [fanOut, List.map_map]
  rfl

/-- A lone keyword is declared for every longhand. -/
theorem map_kind_of_wideKeyword {ls : List Longhand} (h : wideKeyword ls c = .ok (some ps) c') :
    ps.map Property.kind = ls.map .longhand := by
  obtain ⟨initial, d, -, h⟩ := Reader.exists_of_bind h
  split at h
  next =>
    obtain ⟨hps, -⟩ := EStateM.Result.ok.inj h
    rw [← Option.some_inj.mp hps, map_kind_fanOut]
  next =>
    obtain ⟨inherit, d, -, h⟩ := Reader.exists_of_bind h
    split at h
    next =>
      obtain ⟨hps, -⟩ := EStateM.Result.ok.inj h
      rw [← Option.some_inj.mp hps, map_kind_fanOut]
    next =>
      obtain ⟨hps, -⟩ := EStateM.Result.ok.inj h
      exact absurd hps (by simp)

/-- Every one of four longhands gets a value. -/
theorem map_kind_of_quadShorthand {α : Type} {ls : List Longhand} {leaf : Leaf α}
    {value : α → Value} (hls : ls.length = 4) (h : quadShorthand ls leaf value c = .ok ps c') :
    ps.map Property.kind = ls.map .longhand := by
  obtain ⟨wide, d, hwide, h⟩ := Reader.exists_of_bind h
  cases wide with
  | some qs =>
    obtain ⟨rfl, -⟩ := EStateM.Result.ok.inj h
    exact map_kind_of_wideKeyword hwide
  | none =>
    obtain ⟨q, d, -, h⟩ := Reader.exists_of_bind h
    obtain ⟨rfl, -⟩ := EStateM.Result.ok.inj h
    obtain ⟨l₁, l₂, l₃, l₄, rfl⟩ := List.length_eq_four.mp hls
    rfl

/-! ## Lines -/

/-- The sorts of the parts of a line. -/
inductive StrokeSort
  | color
  | width
  | style
  deriving DecidableEq

/-- A part of a line. -/
inductive StrokePart
  | color (paint : Paint)
  | width (length : Length)
  | solid

namespace StrokePart

/-- The sort of a part. -/
def sort : StrokePart → StrokeSort
  | color _ => .color
  | width _ => .width
  | solid => .style

/-- What a part declares for the colors and the widths of a line. -/
def declared (colors widths : List Longhand) : StrokePart → List Property
  | color p => fanOut colors (.exact (.paint p))
  | width l => fanOut widths (.exact (.length l))
  | solid => []

/-- A component that was tried as a color is no `var()` call. -/
theorem noVar_of_attempted_paint {source : Source} {c : Component} {o : Option Paint}
    (h : Reader.attempted (paint source c) = .ok o) : Leaf.noVar source c = .ok () := by
  cases hvar : c.isVar with
  | false => rw [Leaf.noVar, if_neg (by simp [hvar])]
  | true =>
    rw [paint, Leaf.noNestedVar, if_pos (Component.containsVar_of_isVar hvar)] at h
    change Except.error (ReadError.varCall (source.locationOf c)) = Except.ok o at h
    exact absurd h (by simp)

/-- A component is read as a part of a line: as the first of color, width and style that it is. -/
inductive Reads (source : Source) (c : Component) : StrokePart → Prop
  | color {p : Paint} (color : paint source c = .ok p) : Reads source c (.color p)
  | width {l : Length} (noColor : Reader.attempted (paint source c) = .ok none)
    (width : lineWidth source c = .ok l) : Reads source c (.width l)
  | solid (noColor : Reader.attempted (paint source c) = .ok none)
    (noWidth : Reader.attempted (lineWidth source c) = .ok none)
    (style : c.isKeyword "solid" = true) : Reads source c .solid

end StrokePart

namespace StrokeState

variable {source : Source} {colors widths : List Longhand} {s s' : StrokeState} {d : Component}

/-- A part of a sort was given. -/
def has (s : StrokeState) : StrokeSort → Bool
  | .color => s.hasColor
  | .width => s.hasWidth
  | .style => s.hasStyle

/-- A part more. -/
def add (colors widths : List Longhand) (s : StrokeState) (part : StrokePart) : StrokeState :=
  ⟨s.properties ++ part.declared colors widths, s.hasColor || part.sort = .color,
    s.hasWidth || part.sort = .width, s.hasStyle || part.sort = .style⟩

theorem has_add {part : StrokePart} (k : StrokeSort) :
    (s.add colors widths part).has k = (s.has k || part.sort = k) := by
  cases k <;> rfl

/-- The style of a line is `solid`, given once. -/
theorem stepStyle_eq_ok : stepStyle source s d = .ok s' ↔
    d.isKeyword "solid" = true ∧ s.hasStyle = false ∧ s' = { s with hasStyle := true } := by
  unfold stepStyle
  split
  next name span =>
    have hword : (Component.token ⟨.ident name, span⟩).isKeyword "solid" =
        (Text.lowercase name == "solid") := rfl
    rw [hword]
    dsimp only
    split
    next hstyle =>
      have hne : (Text.lowercase name == "solid") = false := by
        rw [beq_eq_false_iff_ne]
        intro heq
        rw [heq] at hstyle
        exact absurd hstyle (by decide)
      simp [hne]
    next =>
      split
      next h =>
        obtain ⟨hsolid, hfirst⟩ := Bool.and_eq_true_iff.mp h
        rw [hsolid, Except.ok.injEq, eq_comm]
        simpa using fun _ => hfirst
      next h =>
        refine ⟨fun h => absurd h (by simp [StepError.ofLeaf, Leaf.unexpected]), ?_⟩
        rintro ⟨hsolid, hfirst, -⟩
        exact absurd (by rw [hsolid, hfirst]; rfl) h
  next hident =>
    constructor
    · exact fun h => absurd h (by simp [StepError.ofLeaf, Leaf.unexpected])
    · rintro ⟨hword, -⟩
      cases d with
      | token t =>
        obtain ⟨kind, span⟩ := t
        cases kind with
        | ident name => exact absurd rfl (hident name span)
        | _ => exact absurd hword Bool.false_ne_true
      | group opener opened cs ending => exact absurd hword Bool.false_ne_true

/-- One component of a line is read as a part of a sort that was not given yet. -/
theorem step_eq_ok : step source colors widths s d = .ok s' ↔
    ∃ part, StrokePart.Reads source d part ∧ s.has part.sort = false ∧
      s' = s.add colors widths part := by
  constructor
  · intro h
    obtain ⟨-, -, h⟩ := exists_of_bind_eq_ok h
    obtain ⟨paint?, hpaint, h⟩ := exists_of_bind_eq_ok h
    replace hpaint := ok_of_ofLeaf hpaint
    cases paint? with
    | some p =>
      dsimp only at h
      split at h
      next => exact absurd h (by simp [throw, throwThe, MonadExceptOf.throw, bind, Except.bind])
      next hcolor =>
        refine ⟨.color p, .color (ok_of_attempted hpaint), Bool.eq_false_iff.mpr hcolor, ?_⟩
        rw [← Except.ok.inj h]
        simp [add, StrokePart.declared, StrokePart.sort]
    | none =>
      obtain ⟨width?, hlength, h⟩ := exists_of_bind_eq_ok h
      replace hlength := ok_of_ofLeaf hlength
      cases width? with
      | some w =>
        dsimp only at h
        split at h
        next => exact absurd h (by simp [throw, throwThe, MonadExceptOf.throw, bind, Except.bind])
        next hwidth =>
          refine ⟨.width w, .width hpaint (ok_of_attempted hlength),
            Bool.eq_false_iff.mpr hwidth, ?_⟩
          rw [← Except.ok.inj h]
          simp [add, StrokePart.declared, StrokePart.sort]
      | none =>
        obtain ⟨hword, hstyle, rfl⟩ := stepStyle_eq_ok.mp h
        refine ⟨.solid, .solid hpaint hlength hword, hstyle, ?_⟩
        simp [add, StrokePart.declared, StrokePart.sort]
  · rintro ⟨part, hreads, hnew, rfl⟩
    cases hreads with
    | @color p hcolor =>
      have hnone : s.hasColor = false := hnew
      have hattempt : Reader.attempted (paint source d) = .ok (some p) := by rw [hcolor]; rfl
      simp only [step, StrokePart.noVar_of_attempted_paint hattempt, hattempt, hnone]
      simp [add, StrokePart.declared, StrokePart.sort, StepError.ofLeaf, bind, Except.bind, pure,
        Except.pure]
    | @width l hcolor hwidth =>
      have hnone : s.hasWidth = false := hnew
      have hattempt : Reader.attempted (lineWidth source d) = .ok (some l) := by rw [hwidth]; rfl
      simp only [step, StrokePart.noVar_of_attempted_paint hcolor, hcolor, hattempt, hnone]
      simp [add, StrokePart.declared, StrokePart.sort, StepError.ofLeaf, bind, Except.bind, pure,
        Except.pure]
    | solid hcolor hwidth hword =>
      have hstyle : stepStyle source s d = .ok { s with hasStyle := true } :=
        stepStyle_eq_ok.mpr ⟨hword, hnew, rfl⟩
      simp only [step, StrokePart.noVar_of_attempted_paint hcolor, hcolor, hwidth]
      simp [add, StrokePart.declared, StrokePart.sort, StepError.ofLeaf, bind, Except.bind, hstyle]

/-- The longhands that the parts of a line read so far stand for. -/
def declared (colors widths : List Longhand) (s : StrokeState) : List Longhand :=
  (if s.hasColor then colors else []) ++ if s.hasWidth then widths else []

/-- The declarations of a line are those of the parts read so far. -/
def IsDeclared (colors widths : List Longhand) (s : StrokeState) : Prop :=
  (s.properties.map Property.kind).Perm ((s.declared colors widths).map .longhand)

theorem IsDeclared.start : start.IsDeclared colors widths :=
  .refl []

/-- One more component keeps a line as it is declared. -/
theorem IsDeclared.step (hs : s.IsDeclared colors widths)
    (h : StrokeState.step source colors widths s d = .ok s') : s'.IsDeclared colors widths := by
  obtain ⟨part, -, hnew, rfl⟩ := step_eq_ok.mp h
  unfold IsDeclared declared at *
  cases part with
  | color p =>
    -- The colors come last in the declarations and first in the reference.
    have hbefore : s.hasColor = false := hnew
    simp only [add, StrokePart.declared, StrokePart.sort, hbefore] at hs ⊢
    simp only [List.map_append, map_kind_fanOut] at hs ⊢
    simpa using (hs.append_right _).trans List.perm_append_comm
  | width l =>
    have hbefore : s.hasWidth = false := hnew
    simp only [add, StrokePart.declared, StrokePart.sort, hbefore] at hs ⊢
    simp only [List.map_append, map_kind_fanOut] at hs ⊢
    simpa using hs.append_right _
  | solid => simpa [add, StrokePart.declared, StrokePart.sort] using hs

end StrokeState

/-- A line declares all its colors or none, and all its widths or none. -/
theorem subperm_of_strokeShorthand {colors widths : List Longhand}
    (h : strokeShorthand colors widths c = .ok ps c') :
    (ps.map Property.kind).Subperm ((colors ++ widths).map .longhand) := by
  obtain ⟨wide, d, hwide, h⟩ := Reader.exists_of_bind h
  cases wide with
  | some qs =>
    obtain ⟨rfl, -⟩ := EStateM.Result.ok.inj h
    rw [map_kind_of_wideKeyword hwide]
  | none =>
    obtain ⟨source, d, -, h⟩ := Reader.exists_of_bind h
    obtain ⟨s, d, hrun, h⟩ := Reader.exists_of_bind h
    obtain ⟨rfl, -⟩ := EStateM.Result.ok.inj h
    have hs : s.IsDeclared colors widths :=
      Reader.invariant_of_foldAll StrokeState.IsDeclared.start (fun _ _ _ hs h => hs.step h) hrun
    refine hs.subperm.trans (List.Sublist.subperm (List.Sublist.map _ ?_))
    refine List.Sublist.append ?_ ?_
    · split
      next => exact List.Sublist.refl colors
      next => exact List.nil_sublist colors
    · split
      next => exact List.Sublist.refl widths
      next => exact List.nil_sublist widths

/-! ## Fonts -/

/-- A font declares its six longhands. -/
theorem perm_of_fontShorthand (h : fontShorthand c = .ok ps c') :
    (ps.map Property.kind).Perm ((Shorthand.longhands .font).map .longhand) := by
  obtain ⟨wide, d, hwide, h⟩ := Reader.exists_of_bind h
  cases wide with
  | some qs =>
    obtain ⟨rfl, -⟩ := EStateM.Result.ok.inj h
    rw [map_kind_of_wideKeyword hwide]
  | none =>
    obtain ⟨parts, d, -, h⟩ := Reader.exists_of_bind h
    obtain ⟨points, d, -, h⟩ := Reader.exists_of_bind h
    obtain ⟨lineHeight, d, -, h⟩ := Reader.exists_of_bind h
    obtain ⟨family, d, -, h⟩ := Reader.exists_of_bind h
    obtain ⟨rfl, -⟩ := EStateM.Result.ok.inj h
    simp only [List.map_cons, List.map_nil, Property.longhand]
    decide

end Grammar

/-! ## Shorthands -/

namespace Shorthand

/-- The shorthand is a line, which may leave out its colors or its widths. -/
def isStroke : Shorthand → Bool
  | border | borderSide _ | outline => true
  | _ => false

/-- No longhand is covered twice. -/
theorem nodup_longhands (s : Shorthand) : s.longhands.Nodup := by
  cases s with
  | borderSide side => cases side <;> decide
  | _ => decide

variable {s : Shorthand} {c c' : Cursor} {ps : List Property}

/-- A shorthand that is no line declares every longhand it covers. -/
theorem perm_of_reader (hs : s.isStroke = false) (h : s.reader c = .ok ps c') :
    (ps.map Property.kind).Perm (s.longhands.map .longhand) := by
  cases s with
  | border | borderSide | outline => exact absurd hs.symm Bool.false_ne_true
  | font => exact Grammar.perm_of_fontShorthand h
  | borderColor | borderWidth | borderRadius | space | childSpace =>
    exact .of_eq (Grammar.map_kind_of_quadShorthand rfl h)

/-- A shorthand declares longhands it covers, each of them at most once. -/
theorem subperm_of_reader (h : s.reader c = .ok ps c') :
    (ps.map Property.kind).Subperm (s.longhands.map .longhand) := by
  cases hs : s.isStroke with
  | false => exact (perm_of_reader hs h).subperm
  | true =>
    cases s with
    | border | borderSide | outline => exact Grammar.subperm_of_strokeShorthand h
    | _ => exact absurd hs Bool.false_ne_true

end Shorthand

namespace PropertyKind

/-- Without a `var()` call, a shorthand is read to its end by its grammar. -/
theorem readCursor_shorthand {s : Shorthand} {c : Cursor} (hvar : c.holdsVar = false) :
    (shorthand s).readCursor c = s.reader.inside c := by
  have hwhole := (s.clears_reader c).whole
  rw [Reader.Clears] at hwhole
  rw [readCursor, read, EStateM.run, Reader.exactOrDeferred, EStateM.run, Reader.inside,
    EStateM.run]
  cases hrun : (do let a ← s.reader; Reader.expectExhausted; return a :
      Reader (List Property)) c with
  | ok ps c' => rfl
  | error e c' =>
    rw [hrun] at hwhole
    rcases e with (⟨reason, l⟩ | ⟨reason, l⟩ | l) | f
    case refused.varCall => exact absurd ((hwhole rfl).symm.trans hvar) (by simp)
    all_goals rfl

end PropertyKind

end Styling
