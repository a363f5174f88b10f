import Styling.Proofs.Grammar.Strokes

/-!
# One to four values

A shorthand for the four sides or corners reads one value after the other and asks each time whether
anything is left.  So it reads a value for each component, up to four, and completes what is missing
from the values it has.

* `Grammar.oneTo` reads one value and up to a number of further ones;
  `Grammar.forall₂_of_oneTo` and `Grammar.takes_oneTo` say that it reads every component alone.
* `Grammar.quad_eq_map_oneTo` says that a quad is one value and up to three further ones.
* `PropertyKind.readCursor_quad` says which values of such a shorthand are read, and as what.
-/

namespace Styling

/-- Looking for the end does not move the cursor. -/
theorem Reader.eq_of_expectExhausted {c c' : Cursor} {u : Unit}
    (h : expectExhausted c = .ok u c') : c' = c := by
  cases hpeek : c.peek with
  | none =>
    rw [expectExhausted_of_peek_none hpeek] at h
    exact (EStateM.Result.ok.inj h).2.symm
  | some d =>
    rw [expectExhausted_of_peek hpeek] at h
    exact absurd h (by split <;> simp)

namespace Grammar

variable {α : Type} {leaf : Leaf α} {first : α} {more : List α}

/-! ## A bounded number of values -/

/-- One value and up to `count` further ones, to the end. -/
def oneTo (leaf : Leaf α) : Nat → Reader (α × List α)
  | 0 => do
    let first ← Reader.leaf leaf
    Reader.expectExhausted
    return (first, [])
  | count + 1 => do
    let first ← Reader.leaf leaf
    if ← Reader.ask Cursor.isExhausted then return (first, [])
    let more ← oneTo leaf count
    return (first, more.1 :: more.2)

/-- The values are those of all the components, each read alone. -/
theorem forall₂_of_oneTo {count : Nat} {c c' : Cursor}
    (h : oneTo leaf count c = .ok (first, more) c') (hend : c'.peek = none) :
    more.length ≤ count ∧
      List.Forall₂ (fun d a => leaf c.source d = .ok a) c.pending (first :: more) := by
  induction count generalizing c c' first more with
  | zero =>
    obtain ⟨a, c₁, ha, h⟩ := Reader.exists_of_bind h
    obtain ⟨d, hpeek, hd, rfl⟩ := Reader.exists_of_leaf ha
    obtain ⟨used, c₂, hused, h⟩ := Reader.exists_of_bind h
    obtain ⟨hgiven, rfl⟩ := EStateM.Result.ok.inj h
    obtain ⟨rfl, rfl⟩ := Prod.mk.inj hgiven
    obtain rfl := Reader.eq_of_expectExhausted hused
    rw [Cursor.pending_of_peek hpeek, Cursor.pending_of_peek_none hend]
    exact ⟨Nat.le_refl _, .cons hd .nil⟩
  | succ count ih =>
    obtain ⟨a, c₁, ha, h⟩ := Reader.exists_of_bind h
    obtain ⟨d, hpeek, hd, rfl⟩ := Reader.exists_of_leaf ha
    rw [Reader.bind_apply, Reader.ask_apply] at h
    dsimp only at h
    rw [Cursor.pending_of_peek hpeek]
    split at h
    next hexhausted =>
      obtain ⟨hgiven, rfl⟩ := EStateM.Result.ok.inj h
      obtain ⟨rfl, rfl⟩ := Prod.mk.inj hgiven
      rw [Cursor.pending_of_peek_none hend]
      exact ⟨Nat.zero_le _, .cons hd .nil⟩
    next =>
      obtain ⟨⟨second, others⟩, c₂, hothers, h⟩ := Reader.exists_of_bind h
      obtain ⟨hgiven, rfl⟩ := EStateM.Result.ok.inj h
      obtain ⟨rfl, rfl⟩ := Prod.mk.inj hgiven
      obtain ⟨hlength, hreads⟩ := ih hothers hend
      exact ⟨Nat.succ_le_succ hlength, .cons hd hreads⟩

/-- Components that are read alone are read in turn. -/
theorem takes_oneTo {source : Source} {ds : List Component} {count : Nat}
    (hlength : more.length ≤ count)
    (hreads : List.Forall₂ (fun d a => leaf source d = .ok a) ds (first :: more))
    (hvar : ∀ d ∈ ds, d.isVar = false) :
    (oneTo leaf count).Takes source ds (first, more) [] := by
  induction count generalizing ds first more with
  | zero =>
    obtain rfl := List.length_eq_zero_iff.mp (Nat.le_zero.mp hlength)
    obtain ⟨d, ds, hd, hnil, rfl⟩ := List.forall₂_cons_right_iff.mp hreads
    obtain rfl := List.forall₂_nil_right_iff.mp hnil
    exact (Reader.Takes.leaf (hvar d List.mem_cons_self) hd).bind
      (Reader.Takes.expectExhausted.bind (.pure _))
  | succ count ih =>
    obtain ⟨d, ds, hd, hothers, rfl⟩ := List.forall₂_cons_right_iff.mp hreads
    obtain ⟨hdvar, hvar⟩ := List.forall_mem_cons.mp hvar
    refine (Reader.Takes.leaf hdvar hd).bind (.ask fun c _ hpending => ?_)
    rw [Cursor.isExhausted, Cursor.peek_eq_head?, hpending]
    cases more with
    | nil =>
      obtain rfl := List.forall₂_nil_right_iff.mp hothers
      exact .pure _
    | cons second more =>
      have htail := ih (Nat.le_of_succ_le_succ hlength) hothers hvar
      obtain ⟨e, es, -, -, rfl⟩ := List.forall₂_cons_right_iff.mp hothers
      exact htail.bind (.pure _)

/-! ## Four values -/

/-- What is missing of four values is taken from the ones that were given: the right and the bottom
from the top, the left from the right. -/
def Quad.ofGiven (first : α) (more : List α) : Quad α where
  top := first
  right := more[0]?.getD first
  bottom := more[1]?.getD first
  left := (more[2]?.or more[0]?).getD first

/-- A quad is one value and up to three further ones. -/
theorem quad_eq_map_oneTo (leaf : Leaf α) :
    quad leaf = (fun given => Quad.ofGiven given.1 given.2) <$> oneTo leaf 3 := by
  simp [quad, oneTo, Quad.ofGiven, apply_ite]

/-- A shorthand of four longhands reads its components as one to four values, and gives the four
that these are completed to. -/
theorem quadShorthand_eq_ok {ls : List Longhand} {value : α → Value} {ps : List Property}
    {c : Cursor} (hvar : ∀ d ∈ c.pending, d.isVar = false) (hlone : wideValue? c.pending = none) :
    (∃ c', quadShorthand ls leaf value c = .ok ps c' ∧ c'.peek = none) ↔
      ∃ first more, more.length ≤ 3 ∧
        List.Forall₂ (fun d a => leaf c.source d = .ok a) c.pending (first :: more) ∧
        ps = ls.zipWith (fun l a => .longhand l (.exact (value a)))
          (Quad.ofGiven first more).toList := by
  obtain ⟨es, hwide, hrest, -⟩ := takes_wideKeyword ls c.pending
  obtain rfl := hrest hlone
  rw [hlone] at hwide
  constructor
  · rintro ⟨c', h, hend⟩
    obtain ⟨d, hrun, hsource, hpending⟩ := hwide c rfl rfl
    rw [quadShorthand, Reader.bind_apply, hrun, quad_eq_map_oneTo] at h
    obtain ⟨q, d', hq, h⟩ := Reader.exists_of_bind h
    obtain ⟨rfl, rfl⟩ := EStateM.Result.ok.inj h
    rw [Reader.map_apply] at hq
    split at hq
    next given d'' hgiven =>
      obtain ⟨rfl, rfl⟩ := EStateM.Result.ok.inj hq
      obtain ⟨hlength, hreads⟩ := forall₂_of_oneTo hgiven hend
      rw [hpending, hsource] at hreads
      exact ⟨given.1, given.2, hlength, hreads, rfl⟩
    next => exact absurd hq (by simp)
  · rintro ⟨first, more, hlength, hreads, rfl⟩
    have hquad : (quad leaf).Takes c.source c.pending (Quad.ofGiven first more) [] := by
      rw [quad_eq_map_oneTo, map_eq_pure_bind]
      exact (takes_oneTo hlength hreads hvar).bind (.pure _)
    have hall : (quadShorthand ls leaf value).Takes c.source c.pending
        (ls.zipWith (fun l a => .longhand l (.exact (value a)))
          (Quad.ofGiven first more).toList) [] := hwide.bind (hquad.bind (.pure _))
    obtain ⟨c', hrun, -, hend⟩ := hall c rfl rfl
    exact ⟨c', hrun, by rw [Cursor.peek_eq_head?, hend]; rfl⟩

/-- It does not matter where the values of a shorthand are made. -/
theorem quadShorthand_eq_map (ls : List Longhand) (leaf : Leaf α) (value : α → Value) :
    quadShorthand ls leaf value =
      quadShorthand ls (fun source c => value <$> leaf source c) id := by
  have hleaf : Reader.leaf (fun source c => value <$> leaf source c) =
      value <$> Reader.leaf leaf := by
    have hmap : ∀ x : Except ReadError α,
        Reader.ofExcept (value <$> x) = value <$> Reader.ofExcept x := by
      intro x
      cases x <;> rfl
    simp [Reader.leaf, hmap]
  have hquad : quad (fun source c => value <$> leaf source c) =
      (fun q : Quad α => ⟨value q.top, value q.right, value q.bottom, value q.left⟩) <$>
        quad leaf := by
    simp [quad, hleaf, apply_ite]
  have hzip : ∀ q : Quad α, ls.zipWith (fun l a => Property.longhand l (.exact a))
      [value q.top, value q.right, value q.bottom, value q.left] =
        ls.zipWith (fun l a => .longhand l (.exact (value a))) q.toList := by
    intro q
    rw [show [value q.top, value q.right, value q.bottom, value q.left] = q.toList.map value
      from rfl, List.zipWith_map_right]
  simp [quadShorthand, hquad, hzip, Quad.toList]

end Grammar

open Grammar

/-- What reads one of the values of a shorthand for four sides or corners. -/
def Shorthand.quadLeaf? : Shorthand → Option (Leaf Value)
  | borderColor => some fun source c => .paint <$> paint source c
  | borderWidth => some fun source c => .length <$> lineWidth source c
  | borderRadius => some fun source c => .length <$> positiveLength source c
  | space | childSpace => some fun source c => .size <$> size source c
  | border | borderSide _ | font | outline => none

/-- Such a shorthand covers four longhands and is read as a quad. -/
theorem Shorthand.reader_of_quadLeaf {s : Shorthand} {leaf : Leaf Value}
    (h : s.quadLeaf? = some leaf) :
    s.longhands.length = 4 ∧ s.reader = quadShorthand s.longhands leaf id := by
  cases s with
  | borderColor | borderWidth | borderRadius | space | childSpace =>
    obtain rfl := Option.some_inj.mp h
    exact ⟨rfl, quadShorthand_eq_map _ _ _⟩
  | border | borderSide | font | outline => exact absurd h (by simp [quadLeaf?])

namespace PropertyKind

/-- **One to four values are completed to four.**  Take some components without `var()` calls that
are no lone keyword for every longhand, as the value of a shorthand for four sides or corners.  It
is read just if one to four of them are no whitespace and each of these, alone, is a value.  Then
the four longhands are declared in their order: the first value, the second or else the first, the
third or else the first, and the fourth or else the second or else the first. -/
theorem readCursor_quad {s : Shorthand} {leaf : Leaf Value} (hleaf : s.quadLeaf? = some leaf)
    (source : Source) {cs : List Component} (hvar : Component.listContainsVar cs = false)
    (hlone : wideValue? (Component.withoutBlanks cs) = none) (stop : Nat) :
    ((∃ ps, (shorthand s).readCursor (.ofComponents source cs stop) = .ok ps) ↔
        1 ≤ (Component.withoutBlanks cs).length ∧ (Component.withoutBlanks cs).length ≤ 4 ∧
          ∀ d ∈ Component.withoutBlanks cs, ∃ v, leaf source d = .ok v) ∧
      ∀ ps, (shorthand s).readCursor (.ofComponents source cs stop) = .ok ps →
        ∃ first more,
          List.Forall₂ (fun d v => leaf source d = .ok v) (Component.withoutBlanks cs)
            (first :: more) ∧
          s.longhands.length = 4 ∧
          ps = s.longhands.zipWith (fun l v => .longhand l (.exact v))
            [first, more[0]?.getD first, more[1]?.getD first,
              (more[2]?.or more[0]?).getD first] := by
  obtain ⟨hfour, hreader⟩ := Shorthand.reader_of_quadLeaf hleaf
  have hvalue : (Cursor.ofComponents source cs stop).holdsVar = false := hvar
  have hpending : ∀ d ∈ (Cursor.ofComponents source cs stop).pending, d.isVar = false :=
    fun d => Component.isVar_of_mem_withoutBlanks hvar
  have hread : ∀ ps, (shorthand s).readCursor (.ofComponents source cs stop) = .ok ps ↔
      ∃ first more, more.length ≤ 3 ∧
        List.Forall₂ (fun d v => leaf source d = .ok v) (Component.withoutBlanks cs)
          (first :: more) ∧
        ps = s.longhands.zipWith (fun l v => .longhand l (.exact v))
          (Quad.ofGiven first more).toList := by
    intro ps
    rw [readCursor_shorthand hvalue, Reader.inside_eq_ok, hreader]
    exact quadShorthand_eq_ok hpending hlone
  refine ⟨⟨?_, fun ⟨hone, hmost, hall⟩ => ?_⟩, fun ps hps => ?_⟩
  · rintro ⟨ps, hps⟩
    obtain ⟨first, more, hlength, hreads, -⟩ := (hread ps).mp hps
    rw [hreads.length_eq, List.length_cons]
    exact ⟨Nat.succ_pos _, Nat.succ_le_succ hlength, exists_forall₂_iff.mp ⟨_, hreads⟩⟩
  · obtain ⟨given, hreads⟩ := exists_forall₂_iff.mpr hall
    rw [hreads.length_eq] at hone hmost
    obtain ⟨first, more, rfl⟩ := List.exists_cons_of_length_pos hone
    exact ⟨_, (hread _).mpr ⟨first, more, Nat.le_of_succ_le_succ hmost, hreads, rfl⟩⟩
  · obtain ⟨first, more, -, hreads, rfl⟩ := (hread ps).mp hps
    exact ⟨first, more, hreads, hfour, rfl⟩

/-- A keyword, a length and a zero are widths for top, right and bottom, and the left is as wide as
the right. -/
theorem readCursor_quad_three :
    let source := Source.ofString "Thin 2PX 0"
    let cs : List Component := [.token ⟨.ident "Thin", ⟨0, 4⟩⟩, .token ⟨.whitespace " ", ⟨4, 5⟩⟩,
      .token ⟨.dimension ⟨"2", .integer 2⟩ "PX", ⟨5, 8⟩⟩, .token ⟨.whitespace " ", ⟨8, 9⟩⟩,
      .token ⟨.number ⟨"0", .integer 0⟩, ⟨9, 10⟩⟩]
    source.components = .ok ⟨cs, []⟩ ∧
      ∃ first second third,
        (shorthand .borderWidth).readCursor (.ofComponents source cs 10) =
          .ok [.longhand (.borderWidth .top) (.exact first),
            .longhand (.borderWidth .right) (.exact second),
            .longhand (.borderWidth .bottom) (.exact third),
            .longhand (.borderWidth .left) (.exact second)] := by
  intro source cs
  have hcs : source.components = .ok ⟨cs, []⟩ := by cbv
  have hwidths : ∀ d ∈ Component.withoutBlanks cs, (lineWidth source d).isOk = true := by
    decide +kernel
  have hvalues : ∀ d ∈ Component.withoutBlanks cs,
      ∃ v, (Value.length <$> lineWidth source d : Except ReadError Value) = .ok v := by
    intro d hd
    cases hwidth : lineWidth source d with
    | ok l => exact ⟨.length l, rfl⟩
    | error e =>
      have hok := hwidths d hd
      rw [hwidth] at hok
      exact absurd hok Bool.false_ne_true
  have hvar : Component.listContainsVar cs = false := by decide
  obtain ⟨hread, hgives⟩ := readCursor_quad (s := .borderWidth) rfl source hvar (by decide) 10
  obtain ⟨ps, hps⟩ := hread.mpr ⟨by decide, by decide, hvalues⟩
  obtain ⟨first, more, hreads, -, rfl⟩ := hgives ps hps
  have hlength : 3 = more.length + 1 := hreads.length_eq
  obtain ⟨second, third, rfl⟩ := List.length_eq_two.mp (Nat.succ.inj hlength).symm
  exact ⟨hcs, first, second, third, hps⟩

end PropertyKind

end Styling
