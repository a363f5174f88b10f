import Styling.Proofs.Grammar.FontShorthand
import Styling.Proofs.Property.EarlyRefusal
import Styling.Proofs.Property.Longhands

/-!
# Fonts in any order

The parts at the start of a font are a style, a weight and a width, each a text that the grammar of
its longhand accepts.  Texts that meet at seams have the components that they have alone; so a part
is the same item wherever it stands, and what remains is the order of the items.

* `Longhand.accepts`, `Grammar.startsWithSize` and `Grammar.startsWithNormal` are about texts, and
  `Grammar.FontItem.Writes` says which item a text is.
* `Grammar.exists_components_of_order` are the components of a whole font, and
  `Grammar.readText_font_of_writes` says what is read of them.
* `Declaration.readText_font_perm` compares two orders.  It needs that the words `normal` do not
  come in the way, and `Declaration.readText_font_normals_first` says what happens if they do.
-/

namespace Styling

/-! ## Texts -/

/-- The grammar of the longhand reads the whole text. -/
def Longhand.accepts (l : Longhand) (text : String) : Bool :=
  (Cursor.ofText text >>= l.reader.inside).isOk

namespace Grammar

/-- The text starts with a number of pixels, and no `var()` call is in it. -/
def startsWithSize (text : String) : Bool :=
  match Cursor.ofText text with
  | .ok c => c.peek.any isPixels && !c.holdsVar
  | .error _ => false

/-- The text starts with the word `normal`. -/
def startsWithNormal (text : String) : Bool :=
  match Cursor.ofText text with
  | .ok c => c.peek.any (·.isKeyword "normal")
  | .error _ => false

namespace FontItem

/-- The item is written as this text. -/
def Writes (it : FontItem) (text : String) : Prop :=
  ∃ cs, HasComponents text.toList cs ∧ it.Spells (Component.withoutBlanks cs)

theorem Writes.startsWithNormal {it : FontItem} {text : String} (h : it.Writes text) :
    startsWithNormal text = it.isNormal := by
  obtain ⟨cs, hcs, hspells⟩ := h
  rw [Grammar.startsWithNormal, Cursor.ofText_eq_ok_iff.mpr ⟨cs, hcs, rfl⟩]
  dsimp only
  rw [Cursor.peek_eq_head?]
  exact hspells.any_isKeyword

end FontItem

/-! ## Parts that are accepted -/

section

variable {c : Cursor} {v : PropertyValue}

/-- A value of one component is all that there is. -/
theorem exists_of_inside_exactLeaf {α : Type} {value : α → Value} {f : Leaf α}
    (h : (Longhand.exactLeaf value f).inside c = .ok v) :
    ∃ d a, c.pending = [d] ∧ f c.source d = .ok a := by
  obtain ⟨c', hrun, hend⟩ := Reader.inside_eq_ok.mp h
  obtain ⟨a, c₁, hleaf, hvalue⟩ := Reader.exists_of_bind hrun
  obtain ⟨-, rfl⟩ := EStateM.Result.ok.inj hvalue
  obtain ⟨d, hpeek, ha, rfl⟩ := Reader.exists_of_leaf hleaf
  exact ⟨d, a, by rw [Cursor.pending_of_peek hpeek, Cursor.pending_of_peek_none hend], ha⟩

theorem exists_spells_of_inside_fontStyle (h : Longhand.fontStyle.reader.inside c = .ok v) :
    ∃ it : FontItem, it.isOf FontItem.style? = true ∧ it.Spells c.pending := by
  obtain ⟨c', hrun, hend⟩ := Reader.inside_eq_ok.mp h
  obtain ⟨s, c₁, hstyle, hvalue⟩ := Reader.exists_of_bind hrun
  obtain ⟨-, rfl⟩ := EStateM.Result.ok.inj hvalue
  exact exists_spells_of_fontStyle hstyle hend

theorem exists_spells_of_inside_fontWeight (h : Longhand.fontWeight.reader.inside c = .ok v) :
    ∃ it : FontItem, it.isOf FontItem.weight? = true ∧ it.Spells c.pending := by
  obtain ⟨d, a, hpending, ha⟩ := exists_of_inside_exactLeaf h
  rw [hpending]
  exact exists_spells_of_fontWeight ha

theorem exists_spells_of_inside_fontWidth (h : Longhand.fontWidth.reader.inside c = .ok v) :
    ∃ it : FontItem, it.isOf FontItem.width? = true ∧ it.Spells c.pending := by
  obtain ⟨d, a, hpending, ha⟩ := exists_of_inside_exactLeaf h
  rw [hpending]
  exact exists_spells_of_fontWidth ha

end

/-- A part that the grammar of its longhand accepts is an item. -/
theorem exists_item_of_accepts {α : Type} {l : Longhand} {kind : FontItem → Option α}
    (hl : ∀ {c v}, l.reader.inside c = .ok v →
      ∃ it : FontItem, it.isOf kind = true ∧ it.Spells c.pending)
    {part : Option String} (h : part.all l.accepts = true) :
    ∃ item : Option FontItem, item.all (FontItem.isOf kind) = true ∧
      List.Forall₂ (fun text it => it.Writes text) part.toList item.toList ∧
      part.map startsWithNormal = item.map FontItem.isNormal := by
  cases part with
  | none => exact ⟨none, rfl, .nil, rfl⟩
  | some text =>
    rw [Option.all_some, Longhand.accepts] at h
    obtain ⟨v, hv⟩ : ∃ v, (Cursor.ofText text >>= l.reader.inside) = .ok v := by
      cases hrun : Cursor.ofText text >>= l.reader.inside with
      | ok v => exact ⟨v, rfl⟩
      | error e =>
        rw [hrun] at h
        exact absurd h Bool.false_ne_true
    obtain ⟨c, hc, hv⟩ := exists_of_bind_eq_ok hv
    obtain ⟨cs, hcs, rfl⟩ := Cursor.ofText_eq_ok_iff.mp hc
    obtain ⟨it, hkind, hspells⟩ := hl hv
    have hwrites : it.Writes text := ⟨cs, hcs, hspells⟩
    exact ⟨some it, hkind, .cons hwrites .nil, congrArg some hwrites.startsWithNormal⟩

/-- Parts that are accepted are items, and the words `normal` among them are items `normal`. -/
theorem exists_items_of_accepts {style weight width : Option String}
    (hstyle : style.all Longhand.fontStyle.accepts = true)
    (hweight : weight.all Longhand.fontWeight.accepts = true)
    (hwidth : width.all Longhand.fontWidth.accepts = true) :
    ∃ s w x : Option FontItem, s.all (FontItem.isOf FontItem.style?) = true ∧
      w.all (FontItem.isOf FontItem.weight?) = true ∧
      x.all (FontItem.isOf FontItem.width?) = true ∧
      List.Forall₂ (fun text it => it.Writes text)
        (style.toList ++ weight.toList ++ width.toList) (s.toList ++ w.toList ++ x.toList) ∧
      normalsFit startsWithNormal [style, weight, width] =
        normalsFit FontItem.isNormal [s, w, x] := by
  obtain ⟨s, hs, hwrites, hnormal⟩ :=
    exists_item_of_accepts exists_spells_of_inside_fontStyle hstyle
  obtain ⟨w, hw, hwrites', hnormal'⟩ :=
    exists_item_of_accepts exists_spells_of_inside_fontWeight hweight
  obtain ⟨x, hx, hwrites'', hnormal''⟩ :=
    exists_item_of_accepts exists_spells_of_inside_fontWidth hwidth
  refine ⟨s, w, x, hs, hw, hx, List.rel_append (List.rel_append hwrites hwrites') hwrites'', ?_⟩
  rw [normalsFit_eq_map, normalsFit_eq_map FontItem.isNormal]
  simp only [List.map_cons, List.map_nil, hnormal, hnormal', hnormal'']

/-! ## Parts before a rest -/

/-- The components of texts that write items. -/
theorem exists_components_of_writes {order : List String} {its : List FontItem}
    (h : List.Forall₂ (fun text it => it.Writes text) order its) :
    ∃ css, List.Forall₂ HasComponents (order.map String.toList) css ∧
      List.Forall₂ FontItem.Spells its (css.map Component.withoutBlanks) := by
  induction h with
  | nil => exact ⟨[], .nil, .nil⟩
  | cons hwrites _ ih =>
    obtain ⟨cs, hcs, hspells⟩ := hwrites
    obtain ⟨css, hcss, hall⟩ := ih
    exact ⟨cs :: css, .cons hcs hcss, .cons hspells hall⟩

/-- Items at other places are written in the same way. -/
theorem spells_of_moved {its : List FontItem} {css moved : List (List Component)}
    (h : List.Forall₂ FontItem.Spells its (css.map Component.withoutBlanks))
    (hmoved : List.Forall₂ Component.Moved css moved) :
    List.Forall₂ FontItem.Spells its (moved.map Component.withoutBlanks) := by
  induction hmoved generalizing its with
  | nil => exact h
  | @cons cs ds css moved hcs _ ih =>
    obtain ⟨k, rfl⟩ := hcs
    obtain ⟨it, its, hit, hits, rfl⟩ := List.forall₂_cons_right_iff.mp h
    rw [List.map_cons, Component.withoutBlanks_map_shift]
    exact .cons (hit.map_shift k) (ih hits)

/-- No items have a `var()` call in them. -/
theorem listContainsVar_of_spells {its : List FontItem} {dss : List (List Component)}
    (h : List.Forall₂ FontItem.Spells its dss) : Component.listContainsVar dss.flatten = false := by
  induction h with
  | nil => simp
  | cons hit _ ih =>
    rw [List.flatten_cons, Component.listContainsVar_append, hit.listContainsVar, ih, Bool.or_false]

section

variable {order : List String} {its : List FontItem} {tail : String} {tailParts : List Component}

/-- The components of a font: those of the items, and behind them those of the rest. -/
theorem exists_components_of_order
    (h : List.Forall₂ (fun text it => it.Writes text) order its)
    (htail : HasComponents tail.toList tailParts)
    (hseams : MeetAtSeams ((order ++ [tail]).map String.toList)) :
    ∃ front k dss, (Source.ofString (String.join (order ++ [tail]))).Shows (.ofString tail) k ∧
      HasComponents (String.join (order ++ [tail])).toList
        (front ++ tailParts.map (Component.shift k)) ∧
      Component.withoutBlanks front = dss.flatten ∧ List.Forall₂ FontItem.Spells its dss := by
  obtain ⟨css, hcss, hspells⟩ := exists_components_of_writes h
  rw [List.map_append, List.map_singleton] at hseams
  obtain ⟨moved, before, hmoved, htext, hjoined⟩ := exists_components_flatten hseams hcss htail
  have hchars : (String.join (order ++ [tail])).toList =
      (order.map String.toList ++ [tail.toList]).flatten := by
    rw [String.toList_join, List.flatMap_def, List.map_append, List.map_singleton]
  refine ⟨moved.flatten, before.length, moved.map Component.withoutBlanks, ?_, ?_, ?_,
    spells_of_moved hspells hmoved⟩
  · have hshown : (Source.ofString (String.join (order ++ [tail]))).chars =
        before ++ ((Source.ofString tail).chars ++ []) := by
      rw [Source.ofString, Source.ofString, hchars, htext, List.append_nil]
    exact Source.shows_of_append hshown rfl
  · rw [hchars]
    exact hjoined
  · exact List.filter_flatten

/-- What starts with a number of pixels. -/
theorem exists_components_of_startsWithSize (h : startsWithSize tail = true) :
    ∃ tailParts px es, HasComponents tail.toList tailParts ∧
      Component.withoutBlanks tailParts = px :: es ∧ isPixels px = true ∧
      Component.listContainsVar tailParts = false := by
  rw [startsWithSize] at h
  split at h
  next c hc =>
    obtain ⟨tailParts, htail, rfl⟩ := Cursor.ofText_eq_ok_iff.mp hc
    obtain ⟨hpeek, hvar⟩ := Bool.and_eq_true_iff.mp h
    rw [Cursor.peek_eq_head?, Option.any_eq_true_iff_get] at hpeek
    obtain ⟨hsome, hpx⟩ := hpeek
    obtain ⟨es, hes⟩ := List.head?_eq_some_iff.mp (Option.some_get hsome).symm
    exact ⟨tailParts, _, es, htail, hes, hpx, (Bool.not_eq_true' _).mp hvar⟩
  next => exact absurd h Bool.false_ne_true

/-- A font without `var()` calls is read by its grammar. -/
theorem readText_font_eq_inside {text : String} {cs : List Component}
    (h : HasComponents text.toList cs) (hvar : Component.listContainsVar cs = false) :
    Declaration.readText "font" text =
      fontShorthand.inside (.ofComponents (.ofString text) cs (Source.ofString text).length) := by
  have hname : PropertyKind.ofName? "font" = some (.shorthand .font) := by cbv
  rw [Declaration.readText_eq_bind hname, Cursor.ofText_eq_ok_iff.mpr ⟨cs, h, rfl⟩]
  exact PropertyKind.readCursor_shorthand hvar

/-- **A font is read as its items say**: if each of them finds a part, the rest is read as if it
stood alone, and if not, the font is refused. -/
theorem readText_font_of_writes
    (h : List.Forall₂ (fun text it => it.Writes text) order its) (hcount : its.length ≤ 3)
    (hsize : startsWithSize tail = true)
    (hseams : MeetAtSeams ((order ++ [tail]).map String.toList)) :
    (∀ q, its.foldlM FontParts.place ⟨none, none, none⟩ = some q →
        Alike ReadError.unplaced (Declaration.readText "font" (String.join (order ++ [tail])))
          (Cursor.ofText tail >>= (fontRest q).inside)) ∧
      (its.foldlM FontParts.place ⟨none, none, none⟩ = none →
        ∀ ps, Declaration.readText "font" (String.join (order ++ [tail])) ≠ .ok ps) := by
  obtain ⟨tailParts, px, es, htail, hblanks, hpx, hvar⟩ := exists_components_of_startsWithSize hsize
  obtain ⟨front, k, dss, hshows, hjoined, hfront, hspells⟩ :=
    exists_components_of_order h htail hseams
  let source := Source.ofString (String.join (order ++ [tail]))
  let back := tailParts.map (Component.shift k)
  let joined : Cursor := .ofComponents source (front ++ back) source.length
  have hback : Component.withoutBlanks back = px.shift k :: es.map (Component.shift k) := by
    rw [Component.withoutBlanks_map_shift, hblanks, List.map_cons]
  have hpx' : isPixels (px.shift k) = true := by
    rw [isPixels_shift]
    exact hpx
  have hholds : Component.listContainsVar (front ++ back) = false := by
    rw [Component.listContainsVar_append, ← Component.listContainsVar_withoutBlanks front, hfront,
      listContainsVar_of_spells hspells, Component.listContainsVar_map_shift, hvar, Bool.or_false]
  rw [readText_font_eq_inside hjoined hholds]
  refine ⟨fun q hplace => ?_, fun hplace => ?_⟩
  · have hwithin := Source.within_of_components htail
    rw [inside_fontShorthand_of_place hspells hcount hfront hback hpx' hplace,
      Cursor.ofText_eq_ok_iff.mpr ⟨tailParts, htail, rfl⟩]
    exact Reader.alike_inside (moves_fontRest q) (.ofComponents hshows hwithin _ _)
  · have hpending : joined.pending = dss.flatten ++ px.shift k :: es.map (Component.shift k) := by
      rw [← hfront, ← hback]
      exact List.filter_append ..
    exact inside_fontShorthand_ne_ok hspells hcount hpending hpx' hplace

end

end Grammar

namespace Declaration

open Grammar

/-- **The words `normal` must not come in the way**: where they do, the font with these words first
is not read. -/
theorem readText_font_normals_first {style weight width : Option String} {tail : String}
    (hstyle : style.all Longhand.fontStyle.accepts = true)
    (hweight : weight.all Longhand.fontWeight.accepts = true)
    (hwidth : width.all Longhand.fontWidth.accepts = true) (htail : startsWithSize tail = true)
    (hfit : normalsFit startsWithNormal [style, weight, width] = false) {parts order : List String}
    (hparts : parts = style.toList ++ weight.toList ++ width.toList)
    (horder : order = parts.filter startsWithNormal ++ parts.filter fun t => !startsWithNormal t)
    (hseams : MeetAtSeams ((order ++ [tail]).map String.toList)) (ps : List Property) :
    readText "font" (String.join (order ++ [tail])) ≠ .ok ps := by
  obtain ⟨s, w, x, hs, hw, hx, hall, hnormals⟩ := exists_items_of_accepts hstyle hweight hwidth
  let its := s.toList ++ w.toList ++ x.toList
  have hfilter : ∀ p : Bool → Bool, List.Forall₂ (fun text it => it.Writes text)
      (parts.filter fun t => p (startsWithNormal t)) (its.filter fun it => p it.isNormal) := by
    intro p
    rw [hparts]
    refine List.rel_filter ?_ hall
    intro t it hwrites
    dsimp only
    rw [FontItem.Writes.startsWithNormal hwrites]
  have hwrites := List.rel_append (hfilter id) (hfilter not)
  have hperm := List.filter_append_perm FontItem.isNormal its
  have hlength := (FontItem.counts_of_parts hs hw hx hperm).1
  subst horder
  exact (readText_font_of_writes hwrites hlength htail hseams).2
    (FontParts.foldlM_place_normals_first hs hw hx (hnormals ▸ hfit) rfl) ps

/-- **The parts of a font can be written in any order.**  Take at most one style, one weight and one
width, each accepted by the grammar of its longhand, and a rest that starts with a number of pixels.
Put the parts before the rest in two orders, so that they meet at seams.  If both fonts are read,
they are read as the same six properties.  And if the words `normal` do not come in the way, both
are read, or both are refused for the same reason. -/
theorem readText_font_perm {style weight width : Option String} {tail : String}
    (hstyle : style.all Longhand.fontStyle.accepts = true)
    (hweight : weight.all Longhand.fontWeight.accepts = true)
    (hwidth : width.all Longhand.fontWidth.accepts = true) (htail : startsWithSize tail = true)
    {order order' : List String}
    (horder : order.Perm (style.toList ++ weight.toList ++ width.toList))
    (horder' : order'.Perm (style.toList ++ weight.toList ++ width.toList))
    (hseams : MeetAtSeams ((order ++ [tail]).map String.toList))
    (hseams' : MeetAtSeams ((order' ++ [tail]).map String.toList)) :
    (∀ ps qs, readText "font" (String.join (order ++ [tail])) = .ok ps →
        readText "font" (String.join (order' ++ [tail])) = .ok qs →
          ps = qs ∧ ps.map Property.kind = [Longhand.fontStyle, .fontWeight, .fontWidth, .fontSize,
            .lineHeight, .fontFamily].map .longhand) ∧
      (normalsFit startsWithNormal [style, weight, width] = true →
        Alike ReadError.unplaced (readText "font" (String.join (order ++ [tail])))
          (readText "font" (String.join (order' ++ [tail])))) := by
  obtain ⟨s, w, x, hs, hw, hx, hall, hnormals⟩ := exists_items_of_accepts hstyle hweight hwidth
  obtain ⟨its, hits, hperm⟩ := List.perm_comp_forall₂ horder hall
  obtain ⟨its', hits', hperm'⟩ := List.perm_comp_forall₂ horder' hall
  obtain ⟨hlength, hone, hone', hone''⟩ := FontItem.counts_of_parts hs hw hx hperm
  have hlength' := (FontItem.counts_of_parts hs hw hx hperm').1
  obtain ⟨hread, hrefused⟩ := readText_font_of_writes hits hlength htail hseams
  obtain ⟨hread', hrefused'⟩ := readText_font_of_writes hits' hlength' htail hseams'
  have hsame : ∀ {q q'}, its.foldlM FontParts.place ⟨none, none, none⟩ = some q →
      its'.foldlM FontParts.place ⟨none, none, none⟩ = some q' → q = q' :=
    FontParts.eq_of_perm (hperm.trans hperm'.symm) hone hone' hone''
  constructor
  · intro ps qs hps hqs
    cases hplace : its.foldlM FontParts.place ⟨none, none, none⟩ with
    | none => exact absurd hps (hrefused hplace ps)
    | some q =>
      cases hplace' : its'.foldlM FontParts.place ⟨none, none, none⟩ with
      | none => exact absurd hqs (hrefused' hplace' qs)
      | some q' =>
        obtain rfl := hsame hplace hplace'
        have hrest := (hps ▸ hread q hplace).eq_ok
        have hrest' := (hqs ▸ hread' q hplace').eq_ok
        refine ⟨Except.ok.inj (hrest.symm.trans hrest'), ?_⟩
        obtain ⟨c, -, hinside⟩ := exists_of_bind_eq_ok hrest
        obtain ⟨c', hrun, -⟩ := Reader.inside_eq_ok.mp hinside
        exact map_kind_of_fontRest hrun
  · intro hfit
    have hfits := FontParts.fits_of_normalsFit hs hw hx (hnormals ▸ hfit)
    obtain ⟨q, hplace⟩ := (hfits.perm hperm.symm).exists_foldlM_place
    obtain ⟨q', hplace'⟩ := (hfits.perm hperm'.symm).exists_foldlM_place
    obtain rfl := hsame hplace hplace'
    exact (hread q hplace).trans (hread' q hplace').symm

/-- A style that is `normal`, a weight and a width, from the front and from the back. -/
theorem readText_font_perm_reversed :
    let parts := ["normal ", "BOLD ", "75% "]
    let tail := "12px/2 serif"
    normalsFit startsWithNormal (parts.map some) = true ∧
      MeetAtSeams ((parts ++ [tail]).map String.toList) ∧
      MeetAtSeams ((parts.reverse ++ [tail]).map String.toList) ∧
      ∃ ps, readText "font" (String.join (parts ++ [tail])) = .ok ps ∧
        readText "font" (String.join (parts.reverse ++ [tail])) = .ok ps := by
  intro parts tail
  have hstyle : (some "normal ").all Longhand.fontStyle.accepts = true := by decide +kernel
  have hweight : (some "BOLD ").all Longhand.fontWeight.accepts = true := by decide +kernel
  have hwidth : (some "75% ").all Longhand.fontWidth.accepts = true := by decide +kernel
  have htail : startsWithSize tail = true := by decide +kernel
  have hseams : MeetAtSeams ((parts ++ [tail]).map String.toList) := by decide +kernel
  have hseams' : MeetAtSeams ((parts.reverse ++ [tail]).map String.toList) := by decide +kernel
  have hfit : normalsFit startsWithNormal (parts.map some) = true := by decide +kernel
  have hread : (readText "font" (String.join (parts ++ [tail]))).isOk = true := by decide +kernel
  have horder : parts.Perm
      ((some "normal ").toList ++ (some "BOLD ").toList ++ (some "75% ").toList) := .refl parts
  have hboth := (readText_font_perm hstyle hweight hwidth htail horder
    (parts.reverse_perm.trans horder) hseams hseams').2 hfit
  refine ⟨hfit, hseams, hseams', ?_⟩
  cases hps : readText "font" (String.join (parts ++ [tail])) with
  | ok ps =>
    rw [hps] at hboth
    exact ⟨ps, rfl, hboth.eq_ok⟩
  | error e =>
    rw [hps] at hread
    exact absurd hread Bool.false_ne_true

/-- The order matters where the word `normal` is taken for the style before the style comes, and
where an escape at the end of a part takes the space that should separate it from what follows. -/
theorem readText_font_order_matters :
    Longhand.fontStyle.accepts "italic" = true ∧ Longhand.fontWeight.accepts "normal" = true ∧
      Longhand.fontWeight.accepts "+400" = true ∧
      Longhand.fontWidth.accepts "condense\\64" = true ∧ startsWithSize "12px serif" = true ∧
      (readText "font" "italic normal 12px serif").isOk = true ∧
      (readText "font" "normal italic 12px serif").isOk = false ∧
      (readText "font" "condense\\64 +400 12px serif").isOk = true ∧
      (readText "font" "+400 condense\\64 12px serif").isOk = false := by
  decide +kernel

end Declaration

end Styling
