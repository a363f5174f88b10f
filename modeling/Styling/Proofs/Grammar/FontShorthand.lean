import Styling.Proofs.Grammar.Agreement
import Styling.Proofs.Grammar.FontItems
import Styling.Proofs.Grammar.Moving
import Styling.Proofs.Grammar.Strokes
import Styling.Proofs.Value.Resuming

/-!
# Fonts without their parts

Behind the parts of a font stand its size, a line height and its families, and these are read alike
whatever the parts were.  So a font whose items find their parts is read as the rest of it; and
where an item finds no part, the font cannot be read, since that item is not a size, or else leaves
the size among the families.

* `Grammar.fontRest` reads what is behind the parts.
* `Grammar.inside_fontShorthand_of_place` and `Grammar.inside_fontShorthand_ne_ok` are the two
  cases.
-/

namespace Styling

/-- Reading to the end starts with reading. -/
theorem Reader.inside_congr {α : Type} {r r' : Reader α} {c c' : Cursor} (h : r c = r' c') :
    r.inside c = r'.inside c' := by
  rw [inside, inside, EStateM.run, EStateM.run, bind_apply, bind_apply, h]

/-- A step of a loop that takes everything was made for each component. -/
theorem exists_of_mem_of_foldlM {α σ ε : Type} {step : σ → α → Except ε σ} {as : List α} {s t : σ}
    (h : as.foldlM step s = .ok t) {a : α} (ha : a ∈ as) : ∃ s' t', step s' a = .ok t' := by
  induction as generalizing s with
  | nil => exact absurd ha List.not_mem_nil
  | cons b bs ih =>
    rw [List.foldlM_cons] at h
    obtain ⟨next, hstep, h⟩ := exists_of_bind_eq_ok h
    rcases List.mem_cons.mp ha with rfl | ha
    · exact ⟨s, next, hstep⟩
    · exact ih h ha

theorem Cursor.source_iterate_advance (c : Cursor) (n : Nat) :
    (advance^[n] c).source = c.source := by
  induction n with
  | zero => rfl
  | succ n ih => rw [Function.iterate_succ_apply', source_advance, ih]

namespace Grammar

/-! ## What is read after the parts -/

/-- The size, an optional line height and the families, and what a font declares. -/
def fontRest (parts : FontParts) : Reader (List Property) := do
  let points ← Reader.leaf fontSize
  let lineHeight ← fontLineHeight
  let family ← fontFamily
  return [
    .longhand .fontStyle (exactOrInitial .fontStyle parts.style),
    .longhand .fontWeight (exactOrInitial .real parts.weight),
    .longhand .fontWidth (exactOrInitial .fontWidth parts.width),
    .longhand .fontSize (.exact (.real points)),
    .longhand .lineHeight lineHeight,
    .longhand .fontFamily (.exact (.text family))]

theorem resumes_fontLineHeight : fontLineHeight.Resumes := by
  refine .bind .peek fun o => ?_
  cases o with
  | none => exact .pure _
  | some d =>
    dsimp only
    split
    · refine .bind .next fun _ => .bind (.tryKeyword _) fun word => ?_
      split
      · exact .pure _
      · exact .bind (.leaf _) fun _ => .pure _
    · exact .pure _

/-- The text of the families starts where they do. -/
theorem resumes_fontFamily : fontFamily.Resumes := by
  intro front c
  have hfold := Reader.Resumes.foldAll (FamilyState.step c.source) .start front c
  rw [fontFamily, Reader.bind_apply, Reader.bind_apply, Reader.ask_apply, Reader.ask_apply]
  dsimp only
  rw [Reader.bind_apply, Reader.bind_apply, Reader.source_apply, Reader.source_apply]
  dsimp only
  rw [Cursor.source_behind, Reader.bind_apply, Reader.bind_apply]
  generalize Reader.foldAll (FamilyState.step c.source) .start (c.behind front) = x at hfold
  generalize Reader.foldAll (FamilyState.step c.source) .start c = y at hfold
  cases hfold with
  | error e c' d => exact .error e c' d
  | ok state d =>
    dsimp only
    cases state.incomplete? with
    | some reason => exact Reader.Resumes.refuse reason front d
    | none =>
      have hslice : (d.behind front).sliceFrom (c.behind front).index = d.sliceFrom c.index :=
        Cursor.sliceFrom_behind front d c.index
      dsimp only
      rw [Reader.bind_apply, Reader.bind_apply, Reader.ask_apply, Reader.ask_apply, hslice]
      exact .ok _ d

theorem resumes_fontRest (parts : FontParts) : (fontRest parts).Resumes :=
  .bind (.leaf _) fun _ => .bind resumes_fontLineHeight fun _ => .bind resumes_fontFamily fun _ =>
    .pure _

theorem moves_fontRest {S T : Source} {k : Nat} (parts : FontParts) :
    Reader.Moves S T k (fontRest parts) (fontRest parts) :=
  (Reader.MovesTo.leaf moves_fontSize).bind fun _ => moves_fontLineHeight.bind fun _ =>
    moves_fontFamily.bind fun _ => .pure rfl

/-- What a font declares. -/
theorem map_kind_of_fontRest {parts : FontParts} {c c' : Cursor} {ps : List Property}
    (h : fontRest parts c = .ok ps c') :
    ps.map Property.kind = [Longhand.fontStyle, .fontWeight, .fontWidth, .fontSize, .lineHeight,
      .fontFamily].map .longhand := by
  obtain ⟨points, c₁, -, h⟩ := Reader.exists_of_bind h
  obtain ⟨lineHeight, c₂, -, h⟩ := Reader.exists_of_bind h
  obtain ⟨family, c₃, -, h⟩ := Reader.exists_of_bind h
  obtain ⟨rfl, -⟩ := EStateM.Result.ok.inj h
  rfl

/-! ## Whole values -/

section

variable {its : List FontItem} {dss : List (List Component)} {px : Component} {es : List Component}

theorem isVar_of_isPixels {d : Component} (h : isPixels d = true) : d.isVar = false := by
  cases d with
  | token t => rfl
  | group => exact absurd h Bool.false_ne_true

/-- A font that has a size is no lone keyword. -/
theorem fontShorthand_apply (h : List.Forall₂ FontItem.Spells its dss) (hpx : isPixels px = true)
    {c : Cursor} (hpending : c.pending = dss.flatten ++ px :: es) :
    fontShorthand c = (fontParts ⟨none, none, none⟩ 3 >>= fontRest) c := by
  have hhead : ∀ word ∈ ["initial", "inherit"],
      ∃ d, c.peek = some d ∧ d.isKeyword word = false := by
    intro word hword
    cases h with
    | nil =>
      refine ⟨px, (Cursor.peek_of_pending hpending).1, ?_⟩
      unfold isPixels at hpx
      split at hpx
      next => rfl
      next => exact absurd hpx Bool.false_ne_true
    | @cons it ds its dss hit hits =>
      obtain ⟨d, ds, rfl⟩ : ∃ d ds', ds = d :: ds' := by cases hit <;> exact ⟨_, _, rfl⟩
      exact ⟨d, (Cursor.peek_of_pending hpending).1, hit.head.2.2 word hword⟩
  have hwide : ∀ word ∈ ["initial", "inherit"],
      Reader.isKeywordExhausted word c = .ok false c := by
    intro word hword
    obtain ⟨d, hpeek, hd⟩ := hhead word hword
    rw [Reader.isKeywordExhausted_of_peek hpeek, hd]
    rfl
  rw [fontShorthand, Reader.bind_apply, wideKeyword_apply hwide]
  rfl

/-- **Items that find a part each are taken away**, and the rest of the font is read as if it stood
alone. -/
theorem inside_fontShorthand_of_place {source : Source} {front back : List Component} {stop : Nat}
    (h : List.Forall₂ FontItem.Spells its dss) (hcount : its.length ≤ 3)
    (hfront : Component.withoutBlanks front = dss.flatten)
    (hback : Component.withoutBlanks back = px :: es) (hpx : isPixels px = true) {q : FontParts}
    (hplace : its.foldlM FontParts.place ⟨none, none, none⟩ = some q) :
    fontShorthand.inside (.ofComponents source (front ++ back) stop) =
      (fontRest q).inside (.ofComponents source back stop) := by
  let c : Cursor := .ofComponents source (front ++ back) stop
  let d : Cursor := .ofComponents source back stop
  have hpending : c.pending = dss.flatten ++ px :: es := by
    rw [← hfront, ← hback]
    exact List.filter_append ..
  have hparts := fontParts_of_place h hpx hcount hpending hplace
  generalize hc' : Cursor.advance^[dss.flatten.length] c = c' at hparts
  have hpeek : c'.peek = some px := by
    rw [← hc']
    exact (Cursor.peek_of_pending (Cursor.pending_iterate_advance hpending)).1
  have hpeek' : (d.behind front).peek = some px := by
    rw [Cursor.peek_behind]
    exact (Cursor.peek_of_pending (c := d) hback).1
  have hsource : c'.source = (d.behind front).source := by
    rw [← hc', Cursor.source_iterate_advance]
    rfl
  have hadvance : c'.advance = (d.behind front).advance := by
    have hrest : c.rest = front ++ back := rfl
    rw [← hc', ← hfront, Cursor.advance_iterate hrest, Nat.add_comm]
    rfl
  have hvar := isVar_of_isPixels hpx
  calc fontShorthand.inside c
      = (fontRest q).inside c' := by
        refine Reader.inside_congr ((fontShorthand_apply h hpx hpending).trans ?_)
        rw [Reader.bind_apply, hparts]
    _ = (fontRest q).inside (d.behind front) := by
        refine Reader.inside_congr ?_
        rw [fontRest, Reader.bind_apply, Reader.bind_apply, Reader.leaf_of_peek hpeek hvar,
          Reader.leaf_of_peek hpeek' hvar, hsource, hadvance]
    _ = (fontRest q).inside d := (resumes_fontRest q).inside_eq front d

/-- Of what stands for a part, only a number can be read as a size. -/
theorem fontSize_of_spells {it : FontItem} {d : Component} {ds : List Component}
    (h : it.Spells (d :: ds)) {source : Source} {x : Float} (hsize : fontSize source d = .ok x) :
    ds = [] := by
  cases h with
  | angle => exact absurd hsize (by simp [fontSize, Leaf.unexpected, bind, Except.bind])
  | _ => rfl

/-- No line height is read where no slash stands. -/
theorem fontLineHeight_of_followsItem {c : Cursor}
    (h : ∀ e ∈ c.pending.head?, followsItem e = true) :
    fontLineHeight c = .ok .initial c := by
  rw [fontLineHeight, Reader.bind_apply, Reader.ask_apply, Cursor.peek_eq_head?]
  dsimp only
  cases hhead : c.pending.head? with
  | none => rfl
  | some e =>
    have hslash : e.isTokenOf (·.isDelim "/") = false := by
      have he := h e hhead
      cases e with
      | group => rfl
      | token t =>
        obtain ⟨kind, span⟩ := t
        cases kind with
        | dimension => rfl
        | _ => exact (Bool.not_eq_true' _).mp he
    dsimp only
    rw [hslash]
    rfl

/-- No number of pixels stands among the families. -/
theorem notMem_pending_of_fontFamily {c c' : Cursor} {family : String}
    (h : fontFamily c = .ok family c') (hpx : isPixels px = true) : px ∉ c.pending := by
  intro hmem
  obtain ⟨start, c₁, hstart, h⟩ := Reader.exists_of_bind h
  obtain ⟨rfl, rfl⟩ := EStateM.Result.ok.inj hstart
  obtain ⟨source, c₁, hsource, h⟩ := Reader.exists_of_bind h
  obtain ⟨rfl, rfl⟩ := EStateM.Result.ok.inj hsource
  obtain ⟨state, c₁, hfold, -⟩ := Reader.exists_of_bind h
  obtain ⟨s, t, hstep⟩ := exists_of_mem_of_foldlM (Reader.foldlM_pending_of_foldAll hfold) hmem
  unfold isPixels at hpx
  split at hpx
  next => cases s <;> exact nomatch hstep
  next => exact absurd hpx Bool.false_ne_true

/-- Where an item finds no part, the font is not read. -/
theorem inside_fontShorthand_ne_ok {c : Cursor} (h : List.Forall₂ FontItem.Spells its dss)
    (hcount : its.length ≤ 3) (hpending : c.pending = dss.flatten ++ px :: es)
    (hpx : isPixels px = true) (hplace : its.foldlM FontParts.place ⟨none, none, none⟩ = none)
    (ps : List Property) : fontShorthand.inside c ≠ .ok ps := by
  obtain ⟨q, c', it, d, ds, es', hparts, hit, hleft, hmem, hnext⟩ :=
    exists_left_of_place h hpx hcount hpending hplace
  intro hok
  obtain ⟨e, hrun, -⟩ := Reader.inside_eq_ok.mp hok
  rw [fontShorthand_apply h hpx hpending, Reader.bind_apply, hparts] at hrun
  obtain ⟨points, c₁, hsize, hrun⟩ := Reader.exists_of_bind hrun
  obtain ⟨lineHeight, c₂, hline, hrun⟩ := Reader.exists_of_bind hrun
  obtain ⟨family, c₃, hfamily, -⟩ := Reader.exists_of_bind hrun
  -- only a number can be the size, and then the families start with what follows it
  obtain ⟨hpeek, hadvance⟩ := Cursor.peek_of_pending hleft
  obtain ⟨d', hpeek', hvalue, rfl⟩ := Reader.exists_of_leaf hsize
  obtain rfl := Option.some_inj.mp (hpeek.symm.trans hpeek')
  obtain rfl := fontSize_of_spells hit hvalue
  replace hadvance : c'.advance.pending = es' := hadvance
  rw [fontLineHeight_of_followsItem (hadvance ▸ hnext)] at hline
  obtain ⟨-, rfl⟩ := EStateM.Result.ok.inj hline
  exact notMem_pending_of_fontFamily hfamily hpx (hadvance ▸ hmem)

end

end Grammar

end Styling
