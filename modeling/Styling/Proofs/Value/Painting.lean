import Mathlib
import Styling.Grammar.Leaf
import Styling.Proofs.Property.Range
import Styling.Proofs.Value.Accepting

/-!
# Where the colors of values come from

A color gets into a value in two ways: a component is read as a paint, or a hint between two color
stops is given a mixture of their colors.  So what holds of every paint that the components of a
value write, and passes from two paints to a mixture, holds of every color that is read.

* `Value.colors` are the colors inside of a value, and `Property.IsPainted` is about those of a
  property.
* `Component.Paints` and `Cursor.Paints` say what holds of the paints that are written.
* `Paint.PassesToHints` says what passes to mixtures, and `forall_of_normalizeStops` what placing
  stops makes of it.
-/

namespace Styling

/-! ## Colors inside of values -/

/-- The colors inside of a value. -/
def Value.colors : Value → List Color
  | .paint p => p.color?.toList
  | .boxShadows shadows => shadows.filterMap (·.color)
  | .textShadows shadows => shadows.filterMap (·.color)
  | .gradients gs => gs.flatMap fun g => g.stops.filterMap (·.color.color?)
  | _ => []

/-- The colors inside of what is declared, if a value was read. -/
def PropertyValue.colors : PropertyValue → List Color
  | .exact v => v.colors
  | _ => []

/-- Every color inside of the value is a paint that satisfies `P`. -/
def Value.IsPainted (P : Paint → Prop) (v : Value) : Prop :=
  ∀ color ∈ v.colors, P (.color color)

/-- What is declared for the property, if a value was read, is painted. -/
def Property.IsPainted (P : Paint → Prop) (p : Property) : Prop :=
  ∀ v, p.value = .exact v → v.IsPainted P

theorem Paint.color?_eq_some_iff {p : Paint} {color : Color} :
    p.color? = some color ↔ p = .color color := by
  cases p <;> simp [Paint.color?]

namespace Value

variable {P : Paint → Prop}

theorem isPainted_paint {p : Paint} (h : P p) : (paint p).IsPainted P := by
  intro color hcolor
  exact Paint.color?_eq_some_iff.mp (Option.mem_toList.mp hcolor) ▸ h

theorem isPainted_gradients {gs : List LinearGradient} (h : ∀ g ∈ gs, ∀ s ∈ g.stops, P s.color) :
    (gradients gs).IsPainted P := by
  intro color hcolor
  obtain ⟨g, hg, hcolor⟩ := List.mem_flatMap.mp hcolor
  obtain ⟨s, hs, hcolor⟩ := List.mem_filterMap.mp hcolor
  exact Paint.color?_eq_some_iff.mp hcolor ▸ h g hg s hs

end Value

/-- The value is of a sort that the longhand takes, lies in its range unless the longhand is loose,
and has colors that satisfy `P`. -/
structure Longhand.Suits (P : Paint → Prop) (l : Longhand) (v : Value) : Prop where
  takes : l.takes v = true
  admits : l.isLoose = true ∨ l.admits v = true
  painted : v.IsPainted P

/-- A value without colors. -/
theorem Longhand.Suits.of_uncolored {P : Paint → Prop} {l : Longhand} {v : Value}
    (hcolors : v.colors = []) (takes : l.takes v = true)
    (admits : l.isLoose = true ∨ l.admits v = true) : l.Suits P v :=
  ⟨takes, admits, fun _ hcolor => absurd (hcolors ▸ hcolor) List.not_mem_nil⟩

/-- If a longhand is declared with a value, the value suits it. -/
def Property.Suits (P : Paint → Prop) (p : Property) : Prop :=
  ∀ l v, p.kind = .longhand l → p.value = .exact v → l.Suits P v

namespace Property

variable {P : Paint → Prop} {p : Property}

theorem suits_longhand {l : Longhand} {value : PropertyValue}
    (h : ∀ v, value = .exact v → l.Suits P v) : (longhand l value).Suits P := by
  intro k v hk hv
  obtain rfl := PropertyKind.longhand.inj hk
  exact h v hv

/-- Only a value that was read has to suit. -/
theorem suits_of_not_isExact (h : p.value.isExact = false) : p.Suits P := by
  intro l v _ hv
  rw [hv] at h
  exact absurd h (by simp [PropertyValue.isExact])

theorem Suits.isFitting (h : p.Suits P) : p.IsFitting :=
  fun l v hl hv => ⟨(h l v hl hv).takes, (h l v hl hv).admits⟩

end Property

/-! ## Paints that are written -/

/-- Every paint that the component or a component inside of it writes satisfies `P`. -/
inductive Component.Paints (source : Source) (P : Paint → Prop) : Component → Prop
  | intro {c : Component} (here : ∀ p, Grammar.paint source c = .ok p → P p)
    (inside : ∀ d ∈ c.children, Paints source P d) : Paints source P c

namespace Component.Paints

variable {source : Source} {P : Paint → Prop} {c d : Component}

theorem here (h : c.Paints source P) {p : Paint} (hp : Grammar.paint source c = .ok p) : P p := by
  cases h with
  | intro here _ => exact here p hp

theorem of_mem_children (h : c.Paints source P) (hd : d ∈ c.children) : d.Paints source P := by
  cases h with
  | intro _ inside => exact inside d hd

/-- In a class of components that is closed under what stands inside of them, it is enough to look
at each component. -/
theorem of_closed {D : Component → Prop}
    (here : ∀ c, D c → ∀ p, Grammar.paint source c = .ok p → P p)
    (inside : ∀ c, D c → ∀ d ∈ c.children, D d) : ∀ c, D c → c.Paints source P
  | .token t, hc => .intro (here _ hc) fun d hd => absurd hd List.not_mem_nil
  | .group opener opened cs ending, hc =>
    .intro (here _ hc) fun d hd => of_closed here inside d (inside _ hc d hd)
termination_by c => sizeOf c
decreasing_by
  have hlt := List.sizeOf_lt_of_mem hd
  simp only [Component.children, Component.group.sizeOf_spec] at hlt ⊢
  omega

end Component.Paints

/-- Every paint that is written behind the cursor, at any depth, satisfies `P`. -/
def Cursor.Paints (P : Paint → Prop) (c : Cursor) : Prop :=
  ∀ d ∈ c.rest, d.Paints c.source P

namespace Cursor

variable {P : Paint → Prop} {c c' : Cursor}

/-- Nothing is asked of a paint. -/
theorem paints_true (c : Cursor) : c.Paints fun _ => True :=
  fun d _ => Component.Paints.of_closed (D := fun _ => True) (fun _ _ _ _ => trivial)
    (fun _ _ _ _ => trivial) d trivial

/-- What is written behind a cursor is written behind every cursor before it. -/
theorem Passes.paints (h : c.Passes c') (hc : c.Paints P) : c'.Paints P :=
  fun d hd => h.source ▸ hc d (h.rest hd)

theorem paints_ofComponents {source : Source} {cs : List Component} {stop : Nat}
    (h : ∀ d ∈ cs, d.Paints source P) : (ofComponents source cs stop).Paints P :=
  h

end Cursor

/-! ## Mixtures -/

/-- What holds of the paints of two stops holds of the paint of every hint between them. -/
def Paint.PassesToHints (P : Paint → Prop) : Prop :=
  ∀ {space : ColorSpace} {direction : HueDirection} {before after : Stop Paint Float}
    {position : Float} {p : Paint}, P before.color → P after.color →
      hintPaint space direction before after position = .ok p → P p

namespace StopPiece

variable {κ α ε : Type}

/-- The color of a stop. -/
def color? : StopPiece κ α → Option κ
  | stop color _ => some color
  | hint _ => none

/-- Every stop of a list has a color that satisfies `P`. -/
def AllColors (P : κ → Prop) (ps : List (StopPiece κ α)) : Prop :=
  ∀ p ∈ ps, ∀ color, p.color? = some color → P color

variable {P : κ → Prop}

theorem allColors_cons {p : StopPiece κ α} {ps : List (StopPiece κ α)} :
    AllColors P (p :: ps) ↔ (∀ color, p.color? = some color → P color) ∧ AllColors P ps :=
  List.forall_mem_cons

theorem allColors_append {ps qs : List (StopPiece κ α)} (hps : AllColors P ps)
    (hqs : AllColors P qs) : AllColors P (ps ++ qs) :=
  fun p hp => (List.mem_append.mp hp).elim (hps p) (hqs p)

@[simp] theorem color?_withDefault (default : α) (p : StopPiece κ α) :
    (p.withDefault default).color? = p.color? := by
  cases p <;> rfl

theorem map_color?_mapLast {f : StopPiece κ α → StopPiece κ α} (hf : ∀ p, (f p).color? = p.color?)
    (ps : List (StopPiece κ α)) : (mapLast f ps).map color? = ps.map color? := by
  fun_induction mapLast f ps with
  | case1 => rfl
  | case2 p => exact congrArg ([·]) (hf p)
  | case3 p ps _ ih => exact congrArg (p.color? :: ·) ih

/-- Default positions leave the colors as they are. -/
@[simp] theorem map_color?_withEnds [OfNat α 0] [OfNat α 1] (ps : List (StopPiece κ α)) :
    (withEnds ps).map color? = ps.map color? := by
  cases ps with
  | nil => rfl
  | cons p ps =>
    rw [withEnds, map_color?_mapLast (color?_withDefault 1), List.map_cons, color?_withDefault,
      List.map_cons]

/-- Whether the colors of a list of pieces satisfy `P` does not depend on the positions. -/
theorem AllColors.of_map_color? {ps qs : List (StopPiece κ α)} (h : AllColors P ps)
    (hqs : qs.map color? = ps.map color?) : AllColors P qs := by
  intro q hq color hcolor
  have hmem : some color ∈ ps.map color? := hqs ▸ List.mem_map.mpr ⟨q, hq, hcolor⟩
  obtain ⟨p, hp, hpcolor⟩ := List.mem_map.mp hmem
  exact h p hp color hpcolor

/-- A segment has the colors of the pieces it is made of. -/
theorem allColors_segment? {ps : List (StopPiece κ α)} {s : Segment κ α}
    (hs : segment? ps = some s) (h : AllColors P ps) :
    AllColors P s.inner ∧ P s.endColor ∧ AllColors P s.rest := by
  fun_induction segment? ps generalizing s with
  | case1 => exact absurd hs (by simp)
  | case2 color position ps =>
    obtain rfl := Option.some_inj.mp hs
    exact ⟨by simp [AllColors], (allColors_cons.mp h).1 color rfl, (allColors_cons.mp h).2⟩
  | case3 p ps _ ih =>
    obtain ⟨t, ht, rfl⟩ := Option.map_eq_some_iff.mp hs
    obtain ⟨hp, hps⟩ := allColors_cons.mp h
    obtain ⟨hinner, hend, hrest⟩ := ih ht hps
    exact ⟨allColors_cons.mpr ⟨hp, hinner⟩, hend, hrest⟩

section Placing

variable {ofNat : Nat → α} {mix : Stop κ α → Stop κ α → α → Except ε κ}
  (hmix : ∀ {before after : Stop κ α} {position : α} {color : κ}, P before.color → P after.color →
    mix before after position = .ok color → P color)

include hmix

/-- A hint between two stops becomes a stop with a mixture of their colors. -/
theorem forall_of_finishStop [LT α] [DecidableLT α] {before stop : Stop κ α}
    {hint : Option (Option α)} {stops : List (Stop κ α)} (hbefore : P before.color)
    (hstop : P stop.color) (h : placeInner.finishStop mix before hint stop = .ok stops) :
    ∀ s ∈ stops, P s.color := by
  have hone : ∀ s ∈ [stop], P s.color := List.forall_mem_singleton.mpr hstop
  unfold placeInner.finishStop at h
  split at h
  next => exact Except.ok.inj h ▸ hone
  next => exact absurd h (by simp)
  next raw =>
    dsimp only at h
    split at h
    next color hcolor =>
      obtain rfl := Except.ok.inj h
      exact List.forall_mem_cons.mpr ⟨hmix hbefore hstop hcolor, hone⟩
    next => exact absurd h (by simp)

theorem forall_of_placeInner [Add α] [Mul α] [LT α] [DecidableLT α] {start step : α}
    {last before : Stop κ α} {placed : Nat} {hint : Option (Option α)} {ps : List (StopPiece κ α)}
    {stops : List (Stop κ α)} (hall : AllColors P ps) (hlast : P last.color)
    (hbefore : P before.color)
    (h : placeInner ofNat mix start step last placed before hint ps = .ok stops) :
    ∀ s ∈ stops, P s.color := by
  induction ps generalizing placed before hint stops with
  | nil => exact forall_of_finishStop hmix hbefore hlast h
  | cons p ps ih =>
    obtain ⟨hp, hps⟩ := allColors_cons.mp hall
    unfold placeInner at h
    split at h
    next position =>
      split at h
      next => exact absurd h (by simp)
      next => exact ih hps hbefore h
    next color position =>
      obtain ⟨placedStops, hplaced, h⟩ := exists_of_bind_eq_ok h
      obtain ⟨more, hmore, h⟩ := exists_of_bind_eq_ok h
      obtain rfl := Except.ok.inj h
      have hcolor : P color := hp color rfl
      exact fun s hs => (List.mem_append.mp hs).elim
        (forall_of_finishStop hmix hbefore hcolor hplaced s) (ih hps hcolor hmore s)

theorem forall_of_placeFrom [Add α] [Sub α] [Mul α] [Div α] [LT α] [DecidableLT α]
    {before : Stop κ α} {ps : List (StopPiece κ α)} {stops : List (Stop κ α)}
    (hall : AllColors P ps) (hbefore : P before.color)
    (h : placeFrom ofNat mix before ps = .ok stops) : ∀ s ∈ stops, P s.color := by
  fun_induction placeFrom ofNat mix before ps generalizing stops with
  | case1 before ps hnone =>
    obtain rfl := Except.ok.inj h
    exact fun s hs => absurd hs List.not_mem_nil
  | case2 before ps segment hsegment last step =>
    rename_i ih
    obtain ⟨hinner, hend, hrest⟩ := allColors_segment? hsegment hall
    obtain ⟨inner, hplaced, h⟩ := exists_of_bind_eq_ok h
    obtain ⟨more, hmore, h⟩ := exists_of_bind_eq_ok h
    obtain rfl := Except.ok.inj h
    exact fun s hs => (List.mem_append.mp hs).elim
      (forall_of_placeInner hmix hinner hend hbefore hplaced s) (ih hrest hend hmore s)

end Placing

end StopPiece

/-- **What holds of the colors of all pieces and passes to mixtures holds of every stop.** -/
theorem forall_of_normalizeStops {κ α ε : Type} [Add α] [Sub α] [Mul α] [Div α] [LT α]
    [DecidableLT α] [OfNat α 0] [OfNat α 1] {ofNat : Nat → α}
    {mix : Stop κ α → Stop κ α → α → Except ε κ} {P : κ → Prop}
    (hmix : ∀ {before after : Stop κ α} {position : α} {color : κ}, P before.color →
      P after.color → mix before after position = .ok color → P color)
    {pieces : List (StopPiece κ α)} {stops : List (Stop κ α)}
    (hpieces : StopPiece.AllColors P pieces) (h : normalizeStops ofNat mix pieces = .ok stops) :
    ∀ s ∈ stops, P s.color := by
  have hends := hpieces.of_map_color? (StopPiece.map_color?_withEnds pieces)
  unfold normalizeStops at h
  split at h
  next => exact absurd h (by simp)
  next =>
    split at h
    next color position ps hsplit =>
      rw [hsplit] at hends
      obtain ⟨hfirst, hps⟩ := StopPiece.allColors_cons.mp hends
      obtain ⟨rest, hrest, h⟩ := exists_of_bind_eq_ok h
      obtain rfl := Except.ok.inj h
      have hcolor : P color := hfirst color rfl
      exact List.forall_mem_cons.mpr
        ⟨hcolor, StopPiece.forall_of_placeFrom hmix hps hcolor hrest⟩
    next =>
      obtain rfl := Except.ok.inj h
      exact fun s hs => absurd hs List.not_mem_nil

end Styling
