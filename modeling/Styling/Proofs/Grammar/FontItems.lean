import Styling.Proofs.Grammar.FontParts
import Styling.Proofs.Grammar.Kinds
import Styling.Proofs.Syntax.Shifting
import Styling.Proofs.Value.Agreement
import Styling.Proofs.Value.Taking

/-!
# Reading the parts at the start of a font

Each part of a font has a grammar of its own, and an item is a value of one of these grammars.  An
item is one component, or two if an angle stands after `oblique`, and what may stand behind an item
can be told from such an angle.

* `Grammar.FontItem.Spells` says how an item is written, and `Grammar.exists_spells_of_fontStyle`
  and its companions that this is what the grammars take.
* `Grammar.FontItem.Spells.fontPart_eq` is the step: the reader of parts does with an item what
  `Grammar.FontParts.place` says.
* `Grammar.fontParts_of_place` and `Grammar.exists_left_of_place` are the runs over all items.
-/

namespace Styling

namespace Grammar

/-! ## Items as they are written -/

namespace FontItem

/-- The style for which an item is read. -/
def asStyle : FontItem → Option FontStyle
  | normal => some .normal
  | it => it.style?

/-- The weight for which an item is read. -/
def asWeight : FontItem → Option Float
  | normal => some 400.0
  | it => it.weight?

/-- The width for which an item is read. -/
def asWidth : FontItem → Option Float
  | normal => some 1.0
  | it => it.width?

/-- The item is written as these components. -/
inductive Spells : FontItem → List Component → Prop
  | normal {name : String} {span : Span} (word : Text.lowercase name = "normal") :
    Spells normal [.token ⟨.ident name, span⟩]
  | italic {name : String} {span : Span} (word : Text.lowercase name = "italic") :
    Spells (style .italic) [.token ⟨.ident name, span⟩]
  | oblique {name : String} {span : Span} (word : Text.lowercase name = "oblique") :
    Spells (style (.oblique none)) [.token ⟨.ident name, span⟩]
  | angle {name unit : String} {span span' : Span} {n : Numeral} {x : Float}
    (word : Text.lowercase name = "oblique") (deg : Text.lowercase unit = "deg")
    (value : float n = .ok x) :
    Spells (style (.oblique (some x)))
      [.token ⟨.ident name, span⟩, .token ⟨.dimension n unit, span'⟩]
  | bold {name : String} {span : Span} (word : Text.lowercase name = "bold") :
    Spells (weight 700.0) [.token ⟨.ident name, span⟩]
  | number {n : Numeral} {span : Span} {x : Float} (value : float n = .ok x) :
    Spells (weight (clamp 1.0 1000.0 x)) [.token ⟨.number n, span⟩]
  | named {name : String} {span : Span} {x : Float}
    (word : fontWidths.lookup (Text.lowercase name) = some x)
    (other : Text.lowercase name ≠ "normal") : Spells (width x) [.token ⟨.ident name, span⟩]
  | percentage {n : Numeral} {span : Span} {x : Float} (sign : n.quantity.isNegative = false)
    (value : ReadError.ofFault n.quantity.hundredth = .ok x) :
    Spells (width x) [.token ⟨.percentage n, span⟩]

end FontItem

/-- A component that can be told from an angle after `oblique` and from the slash before a line
height. -/
def followsItem : Component → Bool
  | .token ⟨.dimension _ unit, _⟩ => Text.lowercase unit != "deg"
  | .token ⟨kind, _⟩ => !kind.isDelim "/"
  | .group .. => false

/-- The names of widths are no other words. -/
theorem other_of_fontWidths {word : String} {x : Float} (h : fontWidths.lookup word = some x)
    (hnormal : word ≠ "normal") :
    word ∉ ["italic", "oblique", "bold", "bolder", "lighter", "initial", "inherit"] := by
  obtain ⟨before, after, hwidths, -⟩ := List.lookup_eq_some_iff.mp h
  have hmem : word ∈ fontWidths.map (·.1) := by
    rw [hwidths]
    simp
  revert hnormal
  have hall : ∀ name ∈ fontWidths.map (·.1), name ≠ "normal" →
      name ∉ ["italic", "oblique", "bold", "bolder", "lighter", "initial", "inherit"] := by
    decide
  exact hall word hmem

end Grammar

namespace Reader

variable {α : Type}

@[simp] theorem attempted_ok (a : α) : attempted (.ok a) = .ok (some a) := rfl

@[simp] theorem attempted_unexpected (source : Source) (d : Component) :
    attempted (Leaf.unexpected source d : Except ReadError α) = .ok none := rfl

/-- A component is given to a leaf, and stays where it is if it is refused. -/
theorem attempt_leaf_of_peek {f : Leaf α} {c : Cursor} {d : Component} {o : Option α}
    (hpeek : c.peek = some d) (hvar : d.isVar = false) (h : attempted (f c.source d) = .ok o) :
    attempt (leaf f) c = .ok o (if o.isSome then c.advance else c) := by
  have hleaf := leaf_of_peek (f := f) hpeek hvar
  cases hf : f c.source d with
  | ok a =>
    rw [hf] at h hleaf
    obtain rfl := Except.ok.inj h
    exact attempt_of_ok hleaf
  | error e =>
    rw [hf] at h hleaf
    rcases e with (⟨reason, l⟩ | ⟨reason, l⟩ | l) | f
    · obtain rfl := Except.ok.inj h
      exact attempt_of_error hleaf
    · obtain rfl := Except.ok.inj h
      exact attempt_of_error hleaf
    · exact absurd h (by simp [attempted])
    · exact absurd h (by simp [attempted])

/-- Where a first reader steps back, so does what starts with it. -/
theorem attempt_bind_of_none {β : Type} {r : Reader α} {c c' : Cursor}
    (h : attempt r c = .ok none c') (f : α → Reader β) : attempt (r >>= f) c = .ok none c := by
  cases hr : r c with
  | ok a d =>
    rw [attempt_of_ok hr] at h
    exact absurd h (by simp)
  | error e d =>
    have hbind : (r >>= f) c = .error e d := by rw [bind_apply, hr]
    rw [attempt_of_error hr] at h
    rw [attempt_of_error hbind]
    split at h
    next he => rw [if_pos he]
    next => exact absurd h (by simp)

end Reader

namespace Grammar

/-! ## What the grammars take -/

section

variable {c c' : Cursor} {source : Source} {d : Component} {x : Float}

/-- A keyword is an identifier of the table. -/
theorem exists_ident_of_keyword {α : Type} {table : List (String × α)} {a : α}
    (h : keyword table source d = .ok a) :
    ∃ name span, d = .token ⟨.ident name, span⟩ ∧ table.lookup (Text.lowercase name) = some a := by
  unfold keyword at h
  split at h
  next name span =>
    split at h
    next b hb =>
      obtain rfl := Except.ok.inj h
      exact ⟨name, span, rfl, hb⟩
    next => exact nomatch h
  next => exact nomatch h

/-- A weight is an item. -/
theorem exists_spells_of_fontWeight (h : fontWeight source d = .ok x) :
    ∃ it : FontItem, it.isOf FontItem.weight? = true ∧ it.Spells [d] := by
  unfold fontWeight at h
  split at h
  next name span =>
    dsimp only at h
    split at h
    next hnormal => exact ⟨.normal, rfl, .normal (beq_iff_eq.mp hnormal)⟩
    next =>
      split at h
      next hbold => exact ⟨_, rfl, .bold (beq_iff_eq.mp hbold)⟩
      next => split at h <;> exact nomatch h
  next n span =>
    obtain ⟨y, hy, -⟩ := exists_of_bind_eq_ok h
    exact ⟨_, rfl, .number hy⟩
  next => exact nomatch h

/-- A width is an item. -/
theorem exists_spells_of_fontWidth (h : fontWidth source d = .ok x) :
    ∃ it : FontItem, it.isOf FontItem.width? = true ∧ it.Spells [d] := by
  unfold fontWidth at h
  split at h
  next n span =>
    split at h
    next => exact nomatch h
    next hsign => exact ⟨_, rfl, .percentage (Bool.eq_false_iff.mpr hsign) h⟩
  next =>
    obtain ⟨name, span, rfl, hname⟩ := exists_ident_of_keyword h
    by_cases hnormal : Text.lowercase name = "normal"
    · exact ⟨.normal, rfl, .normal hnormal⟩
    · exact ⟨_, rfl, .named hname hnormal⟩

/-- What is read after `oblique`. -/
theorem fontStyle_oblique (strict : Bool) {name : String} {span : Span}
    (word : Text.lowercase name = "oblique")
    (hpeek : c.peek = some (.token ⟨.ident name, span⟩)) :
    fontStyle strict c = match c.advance.peek with
      | some (.token ⟨.dimension n unit, span⟩) =>
        if Text.lowercase unit == "deg" then
          (do return .oblique (some (← Reader.ofExcept (float n))) : Reader FontStyle)
            c.advance.advance
        else if strict then
          Reader.ofExcept (Leaf.unsupported c.source (.token ⟨.dimension n unit, span⟩)) c.advance
        else .ok (.oblique none) c.advance
      | some d =>
        (do Reader.ofExcept (Leaf.noNestedVar c.source d); return .oblique none : Reader FontStyle)
          c.advance
      | none => .ok (.oblique none) c.advance := by
  have hkeyword : fontStyleKeyword c.source (.token ⟨.ident name, span⟩) = .ok (.oblique none) := by
    simp only [fontStyleKeyword, keyword, word]
    rfl
  rw [fontStyle, Reader.bind_apply, Reader.leaf_of_peek hpeek rfl, hkeyword]
  dsimp only [Reader.ofExcept_ok]
  rw [if_pos (by rfl), Reader.bind_apply, Reader.source_apply]
  dsimp only
  rw [Reader.bind_apply, Reader.ask_apply]
  dsimp only
  cases hnext : c.advance.peek with
  | none => rfl
  | some d =>
    cases d with
    | group => rfl
    | token t =>
      obtain ⟨kind, span⟩ := t
      cases kind with
      | dimension n unit =>
        dsimp only
        split
        next =>
          rw [Reader.bind_apply, Reader.next_of_peek hnext rfl]
        next => split <;> rfl
      | _ => rfl

/-- A style with nothing behind it is an item. -/
theorem exists_spells_of_fontStyle {s : FontStyle} (hstyle : fontStyle true c = .ok s c')
    (hend : c'.peek = none) :
    ∃ it : FontItem, it.isOf FontItem.style? = true ∧ it.Spells c.pending := by
  obtain ⟨style, c₁, hleaf, h⟩ := Reader.exists_of_bind hstyle
  obtain ⟨d, hpeek, hd, rfl⟩ := Reader.exists_of_leaf hleaf
  obtain ⟨name, span, rfl, hname⟩ := exists_ident_of_keyword hd
  rw [Cursor.pending_of_peek hpeek]
  have hword : (Text.lowercase name = "normal" ∧ style = .normal) ∨
      (Text.lowercase name = "italic" ∧ style = .italic) ∨
        (Text.lowercase name = "oblique" ∧ style = .oblique none) := by
    simp only [List.lookup] at hname
    grind
  rcases hword with ⟨hword, rfl⟩ | ⟨hword, rfl⟩ | ⟨hword, rfl⟩
  · obtain ⟨-, rfl⟩ := EStateM.Result.ok.inj h
    rw [Cursor.pending_of_peek_none hend]
    exact ⟨_, rfl, .normal hword⟩
  · obtain ⟨-, rfl⟩ := EStateM.Result.ok.inj h
    rw [Cursor.pending_of_peek_none hend]
    exact ⟨_, rfl, .italic hword⟩
  · -- only an angle may follow
    rw [fontStyle_oblique true hword hpeek] at hstyle
    split at hstyle
    next n unit span' hnext =>
      split at hstyle
      next hdeg =>
        obtain ⟨x, c₁, hx, hstyle⟩ := Reader.exists_of_bind hstyle
        obtain ⟨-, rfl⟩ := EStateM.Result.ok.inj hstyle
        obtain ⟨hvalue, rfl⟩ := Reader.ofExcept_eq_ok.mp hx
        rw [Cursor.pending_of_peek hnext, Cursor.pending_of_peek_none hend]
        exact ⟨_, rfl, .angle hword (beq_iff_eq.mp hdeg) hvalue⟩
      next => exact nomatch hstyle
    next e _ hnext =>
      obtain ⟨_, c₁, hvar, hstyle⟩ := Reader.exists_of_bind hstyle
      obtain ⟨-, rfl⟩ := EStateM.Result.ok.inj hstyle
      obtain ⟨-, rfl⟩ := Reader.ofExcept_eq_ok.mp hvar
      exact absurd (hnext.symm.trans hend) (by simp)
    next hnext =>
      rw [Cursor.pending_of_peek_none hnext]
      exact ⟨_, rfl, .oblique hword⟩

end

/-! ## What the reader of parts does -/

namespace FontItem.Spells

variable {it : FontItem} {d : Component} {ds es : List Component} {c : Cursor}

/-- An item is the word `normal` if it starts with it. -/
theorem any_isKeyword (h : it.Spells ds) :
    ds.head?.any (·.isKeyword "normal") = it.isNormal := by
  have hword : ∀ {name : String} {span : Span}, Text.lowercase name ≠ "normal" →
      (Component.token ⟨.ident name, span⟩).isKeyword "normal" = false :=
    fun hne => beq_eq_false_iff_ne.mpr hne
  cases h with
  | normal word => exact beq_iff_eq.mpr word
  | italic word | oblique word | bold word | angle word => exact hword (by rw [word]; decide)
  | number | percentage => rfl
  | named word other => exact hword other

/-- An item at another place is written in the same way. -/
theorem map_shift (h : it.Spells ds) (k : Nat) :
    it.Spells (ds.map (Component.shift k)) := by
  cases h with
  | normal word => simpa [Token.shift] using .normal word
  | italic word => simpa [Token.shift] using .italic word
  | oblique word => simpa [Token.shift] using .oblique word
  | angle word deg value => simpa [Token.shift] using .angle word deg value
  | bold word => simpa [Token.shift] using .bold word
  | number value => simpa [Token.shift] using .number value
  | named word other => simpa [Token.shift] using .named word other
  | percentage sign value => simpa [Token.shift] using .percentage sign value

/-- No item has a `var()` call in it. -/
theorem listContainsVar (h : it.Spells ds) :
    Component.listContainsVar ds = false := by
  cases h <;> simp

/-- Items start with a component that stands for itself. -/
theorem head (h : it.Spells (d :: ds)) :
    d.isVar = false ∧ followsItem d = true ∧
      ∀ word ∈ ["initial", "inherit"], d.isKeyword word = false := by
  have hword : ∀ {name : String} {span : Span},
     (∀ word ∈ ["initial", "inherit"], Text.lowercase name ≠ word) →
      ∀ word ∈ ["initial", "inherit"],
        (Component.token ⟨.ident name, span⟩).isKeyword word = false := by
    intro name span hne word hmem
    exact beq_eq_false_iff_ne.mpr (hne word hmem)
  cases h with
  | normal word | italic word | oblique word | bold word | angle word =>
    exact ⟨rfl, rfl, hword (by rw [word]; decide)⟩
  | number | percentage => exact ⟨rfl, rfl, fun _ _ => rfl⟩
  | named word other =>
    have hother := other_of_fontWidths word other
    refine ⟨rfl, rfl, hword fun word hmem heq => hother ?_⟩
    rw [heq]
    exact List.mem_of_mem_drop (i := 5) hmem

theorem attempted_fontWeight (h : it.Spells (d :: ds)) (source : Source) :
    Reader.attempted (fontWeight source d) = .ok it.asWeight := by
  cases h with
  | normal word | bold word | italic word | oblique word | angle word =>
    simp [fontWeight, word, asWeight, weight?]
  | number value =>
    simp [fontWeight, value, asWeight, weight?, bind, Except.bind, pure, Except.pure]
  | named word other =>
    have hother := other_of_fontWidths word other
    simp only [List.mem_cons, not_or] at hother
    simp [fontWeight, hother, other, asWeight, weight?]
  | percentage => rfl

theorem attempted_fontWidth (h : it.Spells (d :: ds)) (source : Source) :
    Reader.attempted (fontWidth source d) = .ok it.asWidth := by
  cases h with
  | normal word | italic word | oblique word | bold word | angle word =>
    simp only [fontWidth, keyword, word]
    rfl
  | number value => rfl
  | named word other => simp [fontWidth, keyword, word, asWidth, width?]
  | percentage sign value => simp [fontWidth, sign, value, asWidth, width?]

theorem attempted_fontStyleKeyword (h : it.Spells (d :: ds)) (hstyle : it.asStyle = none)
    (source : Source) : Reader.attempted (fontStyleKeyword source d) = .ok none := by
  cases h with
  | normal | italic | oblique | angle => exact absurd hstyle (by simp [asStyle, style?])
  | bold word =>
    simp only [fontStyleKeyword, keyword, word]
    rfl
  | number | percentage => rfl
  | @named name span x word other =>
    have hother := other_of_fontWidths word other
    have hnone : ∀ w ∈ ["normal", "italic", "oblique"], (Text.lowercase name == w) = false := by
      intro w hw
      rw [beq_eq_false_iff_ne]
      rintro rfl
      simp_all
    simp only [List.forall_mem_cons] at hnone
    simp [fontStyleKeyword, keyword, List.lookup, hnone]

/-- A style is read with the angle that belongs to it. -/
theorem fontStyle_eq (h : it.Spells ds) {s : FontStyle} (hstyle : it.asStyle = some s)
    (hpending : c.pending = ds ++ es) (hnext : ∀ e ∈ es.head?, followsItem e = true) :
    fontStyle false c = .ok s (Cursor.advance^[ds.length] c) := by
  obtain ⟨d, ds, rfl⟩ : ∃ d ds', ds = d :: ds' := by cases h <;> exact ⟨_, _, rfl⟩
  obtain ⟨hpeek, hadvance⟩ := Cursor.peek_of_pending hpending
  cases h with
  | normal word | italic word =>
    obtain rfl := Option.some_inj.mp hstyle
    rw [fontStyle, Reader.bind_apply, Reader.leaf_of_peek hpeek rfl]
    simp only [fontStyleKeyword, keyword, word]
    rfl
  | oblique word =>
    obtain rfl := Option.some_inj.mp hstyle
    rw [fontStyle_oblique false word hpeek, Cursor.peek_eq_head?, hadvance]
    cases es with
    | nil => rfl
    | cons e es =>
      have he := hnext e rfl
      cases e with
      | group => exact absurd he Bool.false_ne_true
      | token t =>
        obtain ⟨kind, span⟩ := t
        cases kind with
        | dimension n unit =>
          exact if_neg (by simpa [followsItem] using he)
        | _ => rfl
  | angle word deg value =>
    obtain rfl := Option.some_inj.mp hstyle
    rw [fontStyle_oblique false word hpeek, Cursor.peek_eq_head?, hadvance]
    have hangle : (Text.lowercase _ == "deg") = true := beq_iff_eq.mpr deg
    refine (if_pos hangle).trans ?_
    rw [Reader.bind_apply, value]
    rfl
  | _ => exact absurd hstyle (by simp [asStyle, style?])

theorem attempt_fontStyle (h : it.Spells ds) (hpending : c.pending = ds ++ es)
    (hnext : ∀ e ∈ es.head?, followsItem e = true) :
    Reader.attempt (fontStyle false) c =
      .ok it.asStyle (if it.asStyle.isSome then Cursor.advance^[ds.length] c else c) := by
  cases hstyle : it.asStyle with
  | some s => exact Reader.attempt_of_ok (h.fontStyle_eq hstyle hpending hnext)
  | none =>
    obtain ⟨d, ds, rfl⟩ : ∃ d ds', ds = d :: ds' := by cases h <;> exact ⟨_, _, rfl⟩
    have hleaf := Reader.attempt_leaf_of_peek (Cursor.peek_of_pending hpending).1 h.head.1
      (h.attempted_fontStyleKeyword hstyle c.source)
    exact Reader.attempt_bind_of_none hleaf _

theorem attempt_fontWeight (h : it.Spells ds) (hpending : c.pending = ds ++ es) :
    Reader.attempt (Reader.leaf fontWeight) c =
      .ok it.asWeight (if it.asWeight.isSome then Cursor.advance^[ds.length] c else c) := by
  obtain ⟨d, ds, rfl⟩ : ∃ d ds', ds = d :: ds' := by cases h <;> exact ⟨_, _, rfl⟩
  have hleaf := Reader.attempt_leaf_of_peek (Cursor.peek_of_pending hpending).1 h.head.1
    (h.attempted_fontWeight c.source)
  rw [hleaf]
  cases h <;> rfl

theorem attempt_fontWidth (h : it.Spells ds) (hpending : c.pending = ds ++ es) :
    Reader.attempt (Reader.leaf fontWidth) c =
      .ok it.asWidth (if it.asWidth.isSome then Cursor.advance^[ds.length] c else c) := by
  obtain ⟨d, ds, rfl⟩ : ∃ d ds', ds = d :: ds' := by cases h <;> exact ⟨_, _, rfl⟩
  have hleaf := Reader.attempt_leaf_of_peek (Cursor.peek_of_pending hpending).1 h.head.1
    (h.attempted_fontWidth c.source)
  rw [hleaf]
  cases h <;> rfl

end FontItem.Spells

/-- A part that may have been read already, and otherwise is read if it stands here. -/
theorem optionalPart_apply {α β : Type} {missing : Bool} {r : Reader α} {f : Option α → Reader β}
    {rest : Reader β} {o : Option α} {c d : Cursor}
    (hr : Reader.attempt r c = .ok o (if o.isSome then d else c)) (hnone : f none = rest) :
    (if missing = true then Reader.attempt r >>= f else rest) c =
      match if missing = true then o else none with
      | some a => f (some a) d
      | none => rest c := by
  subst hnone
  cases missing with
  | false => rfl
  | true =>
    rw [if_pos rfl, if_pos rfl, Reader.bind_apply, hr]
    cases o <;> rfl

/-- An item goes to the first part that is missing and that it may stand for. -/
theorem FontParts.place_eq (p : FontParts) (it : FontItem) :
    p.place it =
      match if p.style.isNone = true then it.asStyle else none with
      | some s => some { p with style := some s }
      | none =>
        match if p.weight.isNone = true then it.asWeight else none with
        | some w => some { p with weight := some w }
        | none =>
          match if p.width.isNone = true then it.asWidth else none with
          | some x => some { p with width := some x }
          | none => none := by
  obtain ⟨style, weight, width⟩ := p
  cases it <;> cases style <;> cases weight <;> cases width <;> rfl

/-- An item is taken for the part to which it goes, and stays where it is otherwise. -/
theorem FontItem.Spells.fontPart_eq {it : FontItem} {ds es : List Component} {c : Cursor}
    (h : it.Spells ds) (p : FontParts) (hpending : c.pending = ds ++ es)
    (hnext : ∀ e ∈ es.head?, followsItem e = true) :
    fontPart p c =
      .ok (p.place it) (if (p.place it).isSome then Cursor.advance^[ds.length] c else c) := by
  rw [fontPart, FontParts.place_eq]
  refine (optionalPart_apply (h.attempt_fontStyle hpending hnext) rfl).trans ?_
  cases if p.style.isNone = true then it.asStyle else none with
  | some s => rfl
  | none =>
    refine (optionalPart_apply (h.attempt_fontWeight hpending) rfl).trans ?_
    cases if p.weight.isNone = true then it.asWeight else none with
    | some w => rfl
    | none =>
      refine (optionalPart_apply (h.attempt_fontWidth hpending) rfl).trans ?_
      cases if p.width.isNone = true then it.asWidth else none with
      | some x => rfl
      | none => rfl

/-- A number of pixels. -/
def isPixels : Component → Bool
  | .token ⟨.dimension _ unit, _⟩ => Text.lowercase unit == "px"
  | _ => false

@[simp] theorem isPixels_shift (k : Nat) (c : Component) :
    isPixels (c.shift k) = isPixels c := by
  cases c with
  | token t =>
    obtain ⟨kind, span⟩ := t
    rw [Component.shift_token]
    cases kind <;> rfl
  | group =>
    rw [Component.shift_group]
    rfl

/-- A number of pixels is no part. -/
theorem fontPart_of_isPixels {c : Cursor} {d : Component} (hpeek : c.peek = some d)
    (hd : isPixels d = true) (p : FontParts) : fontPart p c = .ok none c := by
  cases d with
  | group => exact absurd hd Bool.false_ne_true
  | token t =>
    obtain ⟨kind, span⟩ := t
    cases kind with
    | dimension n unit =>
      have hleaf : ∀ {α : Type} {f : Leaf α},
          Reader.attempted (f c.source (.token ⟨.dimension n unit, span⟩)) = .ok none →
            Reader.attempt (Reader.leaf f) c = .ok none c :=
        fun hf => Reader.attempt_leaf_of_peek hpeek rfl hf
      have hstyle : Reader.attempt (fontStyle false) c = .ok none c :=
        Reader.attempt_bind_of_none (hleaf (f := fontStyleKeyword) rfl) _
      have hmissing : ∀ (missing : Bool) (α : Type),
          (if missing = true then (none : Option α) else none) = none := by simp
      rw [fontPart]
      refine (optionalPart_apply (d := c) (o := none) hstyle rfl).trans ?_
      rw [hmissing]
      refine (optionalPart_apply (d := c) (o := none) (hleaf (f := fontWeight) rfl) rfl).trans ?_
      rw [hmissing]
      refine (optionalPart_apply (d := c) (o := none) (hleaf (f := fontWidth) rfl) rfl).trans ?_
      rw [hmissing]
      rfl
    | _ => exact absurd hd Bool.false_ne_true

theorem followsItem_of_isPixels {d : Component} (h : isPixels d = true) :
    followsItem d = true := by
  cases d with
  | group => exact absurd h Bool.false_ne_true
  | token t =>
    obtain ⟨kind, span⟩ := t
    cases kind with
    | dimension n unit =>
      have hunit : Text.lowercase unit = "px" := beq_iff_eq.mp h
      rw [followsItem, hunit]
      decide
    | _ => exact absurd h Bool.false_ne_true

end Grammar

/-- The components that are still to be read after some were taken. -/
theorem Cursor.pending_iterate_advance {c : Cursor} {ds es : List Component}
    (h : c.pending = ds ++ es) : (advance^[ds.length] c).pending = es := by
  induction ds generalizing c with
  | nil => exact h
  | cons d ds ih =>
    rw [List.length_cons, Function.iterate_succ_apply]
    exact ih (Cursor.peek_of_pending h).2

namespace Grammar

section

variable {its : List FontItem} {dss : List (List Component)} {px : Component} {es : List Component}

/-- What stands behind an item is another one, or the size. -/
theorem followsItem_of_head (h : List.Forall₂ FontItem.Spells its dss) (hpx : isPixels px = true) :
    ∀ e ∈ (dss.flatten ++ px :: es).head?, followsItem e = true := by
  intro e he
  cases h with
  | nil =>
    obtain rfl := Option.some_inj.mp he
    exact followsItem_of_isPixels hpx
  | @cons it ds its dss hit hits =>
    obtain ⟨d, ds, rfl⟩ : ∃ d ds', ds = d :: ds' := by cases hit <;> exact ⟨_, _, rfl⟩
    obtain rfl := Option.some_inj.mp he
    exact hit.head.2.1

/-- Items that find a part each are read for these parts. -/
theorem fontParts_of_place (h : List.Forall₂ FontItem.Spells its dss) (hpx : isPixels px = true)
    {count : Nat} (hcount : its.length ≤ count) {c : Cursor}
    (hpending : c.pending = dss.flatten ++ px :: es) {p q : FontParts}
    (hplace : its.foldlM FontParts.place p = some q) :
    fontParts p count c = .ok q (Cursor.advance^[dss.flatten.length] c) := by
  induction h generalizing count c p with
  | nil =>
    obtain rfl := Option.some_inj.mp hplace
    cases count with
    | zero => rfl
    | succ count =>
      have hpeek := (Cursor.peek_of_pending hpending).1
      rw [fontParts, Reader.bind_apply, fontPart_of_isPixels hpeek hpx]
      rfl
  | @cons it ds its dss hit hits ih =>
    rw [List.foldlM_cons] at hplace
    obtain ⟨next, hnext, hplace⟩ := Option.bind_eq_some_iff.mp hplace
    obtain ⟨count, rfl⟩ : ∃ k, count = k + 1 := Nat.exists_eq_add_one.mpr (by simp at hcount; omega)
    rw [List.flatten_cons, List.append_assoc] at hpending
    have hpart := hit.fontPart_eq p hpending (followsItem_of_head hits hpx)
    rw [hnext] at hpart
    rw [fontParts, Reader.bind_apply, hpart]
    dsimp only [Option.isSome_some]
    have hrest := Cursor.pending_iterate_advance hpending
    rw [if_pos rfl, ih (Nat.le_of_succ_le_succ hcount) hrest hplace, List.flatten_cons,
      List.length_append, Nat.add_comm, Function.iterate_add_apply]

/-- An item that finds no part is left, with everything behind it. -/
theorem exists_left_of_place (h : List.Forall₂ FontItem.Spells its dss) (hpx : isPixels px = true)
    {count : Nat} (hcount : its.length ≤ count) {c : Cursor}
    (hpending : c.pending = dss.flatten ++ px :: es) {p : FontParts}
    (hplace : its.foldlM FontParts.place p = none) :
    ∃ q c' it d ds es', fontParts p count c = .ok q c' ∧ FontItem.Spells it (d :: ds) ∧
      c'.pending = d :: ds ++ es' ∧ px ∈ es' ∧ ∀ e ∈ es'.head?, followsItem e = true := by
  induction h generalizing count c p with
  | nil => exact absurd hplace (by simp)
  | @cons it ds its dss hit hits ih =>
    obtain ⟨count, rfl⟩ : ∃ k, count = k + 1 := Nat.exists_eq_add_one.mpr (by simp at hcount; omega)
    rw [List.flatten_cons, List.append_assoc] at hpending
    have hpart := hit.fontPart_eq p hpending (followsItem_of_head hits hpx)
    rw [List.foldlM_cons] at hplace
    cases hnext : p.place it with
    | none =>
      rw [hnext] at hpart
      obtain ⟨d, ds, rfl⟩ : ∃ d ds', ds = d :: ds' := by cases hit <;> exact ⟨_, _, rfl⟩
      refine ⟨p, c, it, d, ds, dss.flatten ++ px :: es, ?_, hit, hpending, by simp,
        followsItem_of_head hits hpx⟩
      rw [fontParts, Reader.bind_apply, hpart]
      rfl
    | some next =>
      rw [hnext] at hpart hplace
      obtain ⟨q, c', it', d, ds', es', hrun, hleft⟩ := ih (Nat.le_of_succ_le_succ hcount)
        (Cursor.pending_iterate_advance hpending) hplace
      refine ⟨q, c', it', d, ds', es', ?_, hleft⟩
      rw [fontParts, Reader.bind_apply, hpart]
      exact hrun

end

end Grammar

end Styling
