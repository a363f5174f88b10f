import Mathlib
import Styling.Proofs.Value.Normalizing

/-!
# Where the stops of a gradient stand

Normalization moves the stops of a gradient: a written position is raised to the highest one in
front of it, stops without a position are spread evenly between those that have one, and a hint is
moved between the stops next to it.  Here this is said of a list as a whole, with positions that are
exact: each stop by the positions that were written, and not by the segment it was found in.

Raising the end of a segment changes the distance of the stops in it, and they bound the hints
between them.  `Stop.Laid` holds all of this together.  It goes from stop to stop and carries two
numbers: where the last stop with a written position came to stand, which no later one may precede,
and the distance up to the next stop, which is the same up to the next written position.

* `Stop.ArePlaced` says of a list of stops where they stand, given their pieces.
* `StopPiece.laid_of_placeInner` is about one segment and `StopPiece.exists_laid_of_placeFrom` about
  all of them.
* `Stop.Laid.isGreatest`, `Stop.Laid.exists_evenly_spread` and `Stop.Laid.exists_hint` read off the
  positions.
* `arePlaced_of_normalizeStops` is about lists of pieces.
-/

namespace Styling

/-! ## The positions that are written -/

namespace StopPiece

variable {κ α : Type}

/-- The position that is written for a stop. -/
def written? : StopPiece κ α → Option α
  | stop _ position => position
  | hint _ => none

/-- The piece is a stop without a position. -/
def isUnplaced : StopPiece κ α → Bool
  | stop _ none => true
  | _ => false

/-- The pieces after the first has got the position 0 and the last the position 1, if they are stops
without a position. -/
def defaulted [OfNat α 0] [OfNat α 1] (ps : List (StopPiece κ α)) : List (StopPiece κ α) :=
  ps.mapIdx fun i p =>
    if i = 0 then p.withDefault 0 else if i + 1 = ps.length then p.withDefault 1 else p

/-- The positions that are written for the stops up to an index. -/
def writtenUpTo (ps : List (StopPiece κ α)) (i : Nat) : List α :=
  (ps.take (i + 1)).filterMap written?

/-- The number of stops without a position behind one index and before another. -/
def unplacedBetween (ps : List (StopPiece κ α)) (i j : Nat) : Nat :=
  ((ps.take j).drop (i + 1)).countP isUnplaced

theorem getElem?_mapLast (f : StopPiece κ α → StopPiece κ α) (ps : List (StopPiece κ α))
    (i : Nat) :
    (mapLast f ps)[i]? = (ps[i]?).map fun p => if i + 1 = ps.length then f p else p := by
  fun_induction mapLast f ps generalizing i with
  | case1 => rfl
  | case2 p => cases i <;> simp
  | case3 p ps hps ih =>
    cases i with
    | zero => simp [List.length_eq_zero_iff, show ps ≠ [] from hps]
    | succ i => simp [ih]

theorem withEnds_eq_defaulted [OfNat α 0] [OfNat α 1] (ps : List (StopPiece κ α)) :
    withEnds ps = defaulted ps := by
  cases ps with
  | nil => rfl
  | cons p ps =>
    refine List.ext_getElem? fun i => ?_
    rw [withEnds, getElem?_mapLast, defaulted, List.getElem?_mapIdx]
    cases i with
    | zero => cases p <;> simp [withDefault]
    | succ i => simp

theorem mem_writtenUpTo_of_head {p : StopPiece κ α} {x : α} (h : p.written? = some x)
    (ps : List (StopPiece κ α)) (i : Nat) : x ∈ writtenUpTo (p :: ps) i :=
  List.mem_filterMap.mpr ⟨p, by simp, h⟩

/-- What stands behind a piece in a list. -/
theorem getElem?_behind (front : List (StopPiece κ α)) (p : StopPiece κ α)
    (more : List (StopPiece κ α)) (k : Nat) :
    (front ++ p :: more)[front.length + 1 + k]? = more[k]? := by
  have hk : front.length + 1 + k - front.length = k + 1 := by omega
  rw [List.getElem?_append_right (by omega), hk, List.getElem?_cons_succ]

theorem unplacedBetween_behind (front : List (StopPiece κ α)) (p : StopPiece κ α)
    (more : List (StopPiece κ α)) (k : Nat) :
    unplacedBetween (front ++ p :: more) front.length (front.length + 1 + k) =
      (more.take k).countP isUnplaced := by
  have hcut : front.length + 1 = (front ++ [p]).length := by simp
  rw [unplacedBetween, hcut, List.append_cons front p more, List.take_length_add_append,
    List.drop_left]

/-- One more number in front raises the greatest one, if it is greater than those before it. -/
theorem isGreatest_raise {x start m : ℚ} {ys : List ℚ}
    (h : IsGreatest {y | y = max x start ∨ y ∈ ys} m) :
    IsGreatest {y | y = start ∨ y ∈ x :: ys} m := by
  obtain ⟨hmem, hle⟩ := h
  have hmax : max x start ≤ m := hle (Or.inl rfl)
  refine ⟨?_, ?_⟩
  · rcases hmem with hmem | hmem
    · rcases max_choice x start with hx | hx
      · exact Or.inr (List.mem_cons.mpr (Or.inl (hmem.trans hx)))
      · exact Or.inl (hmem.trans hx)
    · exact Or.inr (List.mem_cons_of_mem x hmem)
  · rintro y (rfl | hy)
    · exact (le_max_right x y).trans hmax
    · rcases List.mem_cons.mp hy with rfl | hy
      · exact (le_max_left y start).trans hmax
      · exact hle (Or.inr hy)

/-- The first written position of a list that has one. -/
theorem exists_first_written {ps : List (StopPiece κ α)} {q : StopPiece κ α} (hq : q ∈ ps)
    (h : q.written?.isSome) :
    ∃ front first back, ps = front ++ first :: back ∧ first.written?.isSome ∧
      ∀ r ∈ front, r.written? = none := by
  obtain ⟨first, hfind⟩ := Option.isSome_iff_exists.mp
    (List.find?_isSome (p := fun r : StopPiece κ α => r.written?.isSome).mpr ⟨q, hq, h⟩)
  obtain ⟨hfirst, front, back, hps, hfront⟩ := List.find?_eq_some_iff_append.mp hfind
  exact ⟨front, first, back, hps, hfirst, fun r hr => by simpa using hfront r hr⟩

/-- The last written position of a list that has one. -/
theorem exists_last_written {ps : List (StopPiece κ α)} {q : StopPiece κ α} (hq : q ∈ ps)
    (h : q.written?.isSome) :
    ∃ front last back, ps = front ++ last :: back ∧ last.written?.isSome ∧
      ∀ r ∈ back, r.written? = none := by
  obtain ⟨front, last, back, hps, hlast, hfront⟩ := exists_first_written (List.mem_reverse.mpr hq) h
  have hsplit : ps = back.reverse ++ last :: front.reverse := by
    simpa using congrArg List.reverse hps
  exact ⟨_, last, _, hsplit, hlast, fun r hr => hfront r (List.mem_reverse.mp hr)⟩

/-- In a list that begins and ends with a written position, every other piece stands between two
written positions that have none between them. -/
theorem exists_around {ps : List (StopPiece κ α)} {j : Nat} {p : StopPiece κ α}
    (hp : ps[j]? = some p) (hunwritten : p.written? = none)
    (hhead : ∀ q, ps.head? = some q → q.written?.isSome)
    (hlast : ∀ q, ps.getLast? = some q → q.written?.isSome) :
    ∃ front first inner second rest k, ps = front ++ first :: (inner ++ second :: rest) ∧
      first.written?.isSome ∧ second.written?.isSome ∧ (∀ q ∈ inner, q.written? = none) ∧
      inner[k]? = some p ∧ j = front.length + 1 + k := by
  obtain ⟨hj, hget⟩ := List.getElem?_eq_some_iff.mp hp
  have hsplit : ps.take j ++ p :: ps.drop (j + 1) = ps := by
    rw [← hget, List.cons_getElem_drop_succ, List.take_append_drop]
  have hne : p.written?.isSome ≠ true := by simp [hunwritten]
  have hbefore : ∃ q ∈ ps.take j, q.written?.isSome := by
    cases hfront : ps.take j with
    | nil => exact absurd (hhead p (by rw [← hsplit, hfront]; rfl)) hne
    | cons q front => exact ⟨q, List.mem_cons_self, hhead q (by rw [← hsplit, hfront]; rfl)⟩
  have hbehind : ∃ q ∈ ps.drop (j + 1), q.written?.isSome := by
    cases hback : (ps.drop (j + 1)).getLast? with
    | none =>
      rw [List.getLast?_eq_none_iff.mp hback] at hsplit
      exact absurd (hlast p (by rw [← hsplit, List.getLast?_concat])) hne
    | some q =>
      refine ⟨q, List.mem_of_getLast? hback, hlast q ?_⟩
      rw [← hsplit, List.getLast?_append, List.getLast?_cons, hback]
      rfl
  obtain ⟨q, hq, hsome⟩ := hbefore
  obtain ⟨front, first, back, hfront, hfirst, hunwrittenBack⟩ := exists_last_written hq hsome
  obtain ⟨q, hq, hsome⟩ := hbehind
  obtain ⟨more, second, rest, hrest, hsecond, hunwrittenMore⟩ := exists_first_written hq hsome
  refine ⟨front, first, back ++ p :: more, second, rest, back.length, ?_, hfirst, hsecond, ?_, ?_,
    ?_⟩
  · rw [hfront, hrest] at hsplit
    simp [← hsplit]
  · exact List.forall_mem_append.mpr
      ⟨hunwrittenBack, List.forall_mem_cons.mpr ⟨hunwritten, hunwrittenMore⟩⟩
  · simp
  · have hlength := congrArg List.length hfront
    rw [List.length_take, Nat.min_eq_left hj.le, List.length_append, List.length_cons] at hlength
    omega

end StopPiece

/-! ## Stops side by side -/

/-- The stop as a piece with a position of its own. -/
def Stop.toPiece {κ α : Type} (s : Stop κ α) : StopPiece κ α := .stop s.color (some s.position)

/-- Where stops stand, given the pieces they come from.  A written position is raised to the highest
one up to it.  The stops without a position between two written ones stand at equal distances.  A
hint is moved between the stops on both sides. -/
structure Stop.ArePlaced {κ : Type} (ps : List (StopPiece κ ℚ)) (stops : List (Stop κ ℚ)) :
    Prop where
  length_eq : stops.length = ps.length
  written (i : ℕ) (x : ℚ) : ps[i]?.bind StopPiece.written? = some x →
    ∃ s, stops[i]? = some s ∧ IsGreatest {y | y ∈ StopPiece.writtenUpTo ps i} s.position
  unplaced (j : ℕ) (color : κ) : ps[j]? = some (.stop color none) →
    ∃ a b first second s t u, a < j ∧ j < b ∧
      ps[a]? = some first ∧ first.written?.isSome ∧ ps[b]? = some second ∧ second.written?.isSome ∧
      (∀ i q, a < i → i < b → ps[i]? = some q → q.written? = none) ∧
      stops[a]? = some s ∧ stops[b]? = some t ∧ stops[j]? = some u ∧
      u.position = s.position + StopPiece.unplacedBetween ps a (j + 1) *
        ((t.position - s.position) / (StopPiece.unplacedBetween ps a b + 1))
  hint (j : ℕ) (position : Option ℚ) : ps[j]? = some (.hint position) →
    ∃ i x first second s t u, j = i + 1 ∧ position = some x ∧
      ps[i]? = some first ∧ first.isHint = false ∧
      ps[i + 2]? = some second ∧ second.isHint = false ∧
      stops[i]? = some s ∧ stops[i + 1]? = some u ∧ stops[i + 2]? = some t ∧
      u.position = min (max x s.position) t.position

/-- Stops behind a stop `before` and the pieces they come from, one after the other.  No written
position comes to stand in front of `start`, which is where the last one before it came to stand.
Up to the next written position, the stops are `step` apart. -/
inductive Stop.Laid {κ : Type} :
    ℚ → ℚ → Stop κ ℚ → List (StopPiece κ ℚ) → List (Stop κ ℚ) → Prop
  | nil {start step : ℚ} {before : Stop κ ℚ} : Laid start step before [] []
  | unplaced {start step : ℚ} {before stop : Stop κ ℚ} {ps : List (StopPiece κ ℚ)}
    {stops : List (Stop κ ℚ)} (hstep : stop.position = before.position + step)
    (h : Laid start step stop ps stops) :
    Laid start step before (.stop stop.color none :: ps) (stop :: stops)
  | written {start step next x : ℚ} {before stop : Stop κ ℚ} {ps : List (StopPiece κ ℚ)}
    {stops : List (Stop κ ℚ)} (hmax : stop.position = max x start)
    (hstep : stop.position = before.position + step) (hnext : 0 ≤ next)
    (h : Laid stop.position next stop ps stops) :
    Laid start step before (.stop stop.color (some x) :: ps) (stop :: stops)
  | hint {start step x : ℚ} {before hint stop : Stop κ ℚ} {p : StopPiece κ ℚ}
    {ps : List (StopPiece κ ℚ)} {stops : List (Stop κ ℚ)} (hp : p.isHint = false)
    (hclamp : hint.position = min (max x before.position) stop.position)
    (h : Laid start step before (p :: ps) (stop :: stops)) :
    Laid start step before (.hint (some x) :: p :: ps) (hint :: stop :: stops)

namespace Stop.Laid

variable {κ : Type} {start step : ℚ} {before : Stop κ ℚ} {ps : List (StopPiece κ ℚ)}
  {stops : List (Stop κ ℚ)}

theorem length_eq (h : Laid start step before ps stops) : stops.length = ps.length := by
  induction h with
  | nil => rfl
  | unplaced _ _ ih => exact congrArg (· + 1) ih
  | written _ _ _ _ ih => exact congrArg (· + 1) ih
  | hint _ _ _ ih => exact congrArg (· + 1) ih

/-- No stop stands in front of the one before it. -/
theorem isChain (h : Laid start step before ps stops) (hstep : 0 ≤ step) :
    (before :: stops).IsChain fun s t => s.position ≤ t.position := by
  induction h with
  | nil => exact .singleton _
  | unplaced hposition _ ih =>
    exact List.isChain_cons_cons.mpr ⟨by linarith, ih hstep⟩
  | written _ hposition hnext _ ih =>
    exact List.isChain_cons_cons.mpr ⟨by linarith, ih hnext⟩
  | hint _ hclamp _ ih =>
    obtain ⟨hle, hrest⟩ := List.isChain_cons_cons.mp (ih hstep)
    refine List.isChain_cons_cons.mpr ⟨?_, List.isChain_cons_cons.mpr ⟨?_, hrest⟩⟩
    · rw [hclamp]
      exact le_min (le_max_right _ _) hle
    · exact hclamp ▸ min_le_right _ _

/-- A written position is raised to the highest one up to it. -/
theorem isGreatest (h : Laid start step before ps stops) {i : ℕ} {x : ℚ}
    (hi : ps[i]?.bind StopPiece.written? = some x) :
    ∃ s, stops[i]? = some s ∧
      IsGreatest {y | y = start ∨ y ∈ StopPiece.writtenUpTo ps i} s.position := by
  induction h generalizing i with
  | nil => exact absurd hi (by simp)
  | @unplaced start step before stop ps stops hposition _ ih =>
    cases i with
    | zero => exact absurd hi (by simp [StopPiece.written?])
    | succ i => exact ih hi
  | @written start step next y before stop ps stops hmax _ _ _ ih =>
    cases i with
    | zero =>
      refine ⟨stop, rfl, StopPiece.isGreatest_raise ?_⟩
      rw [hmax]
      exact ⟨Or.inl rfl, fun z hz => hz.elim le_of_eq fun h => absurd h List.not_mem_nil⟩
    | succ i =>
      obtain ⟨s, hs, hgreatest⟩ := ih hi
      exact ⟨s, hs, StopPiece.isGreatest_raise (hmax ▸ hgreatest)⟩
  | hint hp _ _ ih =>
    cases i with
    | zero => exact absurd hi (by simp [StopPiece.written?])
    | succ i => exact ih hi

/-- Behind a stop with a written position the stops are laid from there on. -/
theorem exists_written {front rest : List (StopPiece κ ℚ)} {p : StopPiece κ ℚ}
    (h : Laid start step before (front ++ p :: rest) stops) (hp : p.written?.isSome) :
    ∃ s more next, stops[front.length]? = some s ∧ stops.drop (front.length + 1) = more ∧
      0 ≤ next ∧ Laid s.position next s rest more := by
  generalize hps : front ++ p :: rest = ps at h
  induction h generalizing front with
  | nil => exact absurd hps (by simp)
  | unplaced _ _ ih =>
    cases front with
    | nil =>
      obtain ⟨rfl, -⟩ := List.cons.inj hps
      exact absurd hp (by simp [StopPiece.written?])
    | cons q front => exact ih (List.cons.inj hps).2
  | @written _ _ next _ _ stop _ stops _ _ hnext hrest ih =>
    cases front with
    | nil =>
      obtain ⟨-, rfl⟩ := List.cons.inj hps
      exact ⟨stop, stops, next, rfl, rfl, hnext, hrest⟩
    | cons q front => exact ih (List.cons.inj hps).2
  | hint _ _ _ ih =>
    cases front with
    | nil =>
      obtain ⟨rfl, -⟩ := List.cons.inj hps
      exact absurd hp (by simp [StopPiece.written?])
    | cons q front => exact ih (List.cons.inj hps).2

/-- Up to the next written position, each stop stands one step behind the one before it. -/
theorem exists_spread {inner rest : List (StopPiece κ ℚ)} {p : StopPiece κ ℚ}
    (h : Laid start step before (inner ++ p :: rest) stops)
    (hinner : ∀ q ∈ inner, q.written? = none) (hp : p.written?.isSome) :
    (∃ t, stops[inner.length]? = some t ∧
      t.position = before.position + (inner.countP StopPiece.isUnplaced + 1) * step) ∧
    ∀ k color, inner[k]? = some (.stop color none) → ∃ u, stops[k]? = some u ∧
      u.position = before.position + (inner.take (k + 1)).countP StopPiece.isUnplaced * step := by
  generalize hps : inner ++ p :: rest = ps at h
  induction h generalizing inner with
  | nil => exact absurd hps (by simp)
  | @unplaced start step before stop ps stops hstep _ ih =>
    cases inner with
    | nil =>
      obtain ⟨rfl, -⟩ := List.cons.inj hps
      exact absurd hp (by simp [StopPiece.written?])
    | cons q inner =>
      obtain ⟨rfl, htail⟩ := List.cons.inj hps
      obtain ⟨⟨t, ht, hposition⟩, hspread⟩ :=
        ih (fun q hq => hinner q (List.mem_cons_of_mem _ hq)) htail
      refine ⟨⟨t, ht, ?_⟩, fun k color hk => ?_⟩
      · rw [hposition, hstep, List.countP_cons_of_pos rfl]
        push_cast
        ring
      · cases k with
        | zero =>
          refine ⟨stop, rfl, ?_⟩
          rw [hstep, List.take_succ_cons, List.countP_cons_of_pos rfl]
          simp
        | succ k =>
          obtain ⟨u, hu, hposition⟩ := hspread k color hk
          refine ⟨u, hu, ?_⟩
          rw [hposition, hstep, List.take_succ_cons, List.countP_cons_of_pos rfl]
          push_cast
          ring
  | @written _ _ next _ _ stop _ stops _ hstep hnext hrest ih =>
    cases inner with
    | nil => exact ⟨⟨stop, rfl, by simp [hstep]⟩, fun k color hk => absurd hk (by simp)⟩
    | cons q inner =>
      obtain ⟨rfl, -⟩ := List.cons.inj hps
      exact absurd (hinner _ List.mem_cons_self) (by simp [StopPiece.written?])
  | hint _ _ _ ih =>
    cases inner with
    | nil =>
      obtain ⟨rfl, -⟩ := List.cons.inj hps
      exact absurd hp (by simp [StopPiece.written?])
    | cons q inner =>
      obtain ⟨rfl, htail⟩ := List.cons.inj hps
      obtain ⟨⟨t, ht, hposition⟩, hspread⟩ :=
        ih (fun q hq => hinner q (List.mem_cons_of_mem _ hq)) htail
      refine ⟨⟨t, ht, hposition⟩, fun k color hk => ?_⟩
      cases k with
      | zero => exact absurd hk (by simp)
      | succ k => exact hspread k color hk

/-- A stop without a position stands where the written ones around it spread it to. -/
theorem exists_evenly_spread {front inner rest : List (StopPiece κ ℚ)}
    {first second : StopPiece κ ℚ}
    (h : Laid start step before (front ++ first :: (inner ++ second :: rest)) stops)
    (hfirst : first.written?.isSome) (hsecond : second.written?.isSome)
    (hinner : ∀ q ∈ inner, q.written? = none) :
    ∃ s t, stops[front.length]? = some s ∧ stops[front.length + 1 + inner.length]? = some t ∧
      ∀ k color, inner[k]? = some (.stop color none) →
        ∃ u, stops[front.length + 1 + k]? = some u ∧ u.position = s.position +
          (inner.take (k + 1)).countP StopPiece.isUnplaced *
            ((t.position - s.position) / (inner.countP StopPiece.isUnplaced + 1)) := by
  obtain ⟨s, _, next, hs, rfl, -, hrest⟩ := h.exists_written hfirst
  obtain ⟨⟨t, ht, hend⟩, hspread⟩ := hrest.exists_spread hinner hsecond
  rw [List.getElem?_drop] at ht
  have hnext : (t.position - s.position) / (inner.countP StopPiece.isUnplaced + 1) = next := by
    have hpositive : (0 : ℚ) < inner.countP StopPiece.isUnplaced + 1 := by positivity
    rw [hend, add_sub_cancel_left, mul_div_cancel_left₀ _ hpositive.ne']
  refine ⟨s, t, hs, ht, fun k color hk => ?_⟩
  obtain ⟨u, hu, hposition⟩ := hspread k color hk
  rw [List.getElem?_drop] at hu
  exact ⟨u, hu, hnext ▸ hposition⟩

/-- A hint stands between two stops and is moved between them. -/
theorem exists_hint {p : StopPiece κ ℚ} (hp : p.isHint = false)
    (h : Laid start step before ps stops) {j : ℕ} {position : Option ℚ}
    (hj : (p :: ps)[j]? = some (.hint position)) :
    ∃ i x first second s t u, j = i + 1 ∧ position = some x ∧
      (p :: ps)[i]? = some first ∧ first.isHint = false ∧
      (p :: ps)[i + 2]? = some second ∧ second.isHint = false ∧
      (before :: stops)[i]? = some s ∧ (before :: stops)[i + 1]? = some u ∧
      (before :: stops)[i + 2]? = some t ∧
      u.position = min (max x s.position) t.position := by
  have hne : ∀ {q : StopPiece κ ℚ}, q.isHint = false → some q ≠ some (.hint position) := by
    intro q hq h
    rw [Option.some_inj.mp h] at hq
    exact Bool.noConfusion hq
  induction h generalizing p j with
  | nil =>
    cases j with
    | zero => exact absurd hj (hne hp)
    | succ j => exact absurd hj (by simp)
  | unplaced _ _ ih | written _ _ _ _ ih =>
    cases j with
    | zero => exact absurd hj (hne hp)
    | succ j =>
      obtain ⟨i, x, first, second, s, t, u, rfl, hstops⟩ := ih rfl hj
      exact ⟨i + 1, x, first, second, s, t, u, rfl, hstops⟩
  | @hint _ _ x before hint stop q _ _ hq hclamp _ ih =>
    match j with
    | 0 => exact absurd hj (hne hp)
    | 1 =>
      have hx : position = some x := (StopPiece.hint.inj (Option.some_inj.mp hj)).symm
      exact ⟨0, x, p, q, before, stop, hint, rfl, hx, rfl, hp, rfl, hq, rfl, rfl, rfl, hclamp⟩
    | j + 2 =>
      obtain ⟨i, y, first, second, s, t, u, hij, hstops⟩ := ih hp (j := j + 1) hj
      obtain rfl : j = i := Nat.succ_injective hij
      cases j with
      | zero => exact absurd hj (hne hq)
      | succ i => exact ⟨i + 2, y, first, second, s, t, u, rfl, hstops⟩

end Stop.Laid

/-! ## Placing -/

namespace StopPiece

variable {κ ε : Type} {mix : Stop κ ℚ → Stop κ ℚ → ℚ → Except ε κ}

theorem larger_eq_max (a b : ℚ) : larger a b = max a b := by
  rw [larger, max_def]
  grind

theorem smaller_eq_min (a b : ℚ) : smaller a b = min a b := by
  rw [smaller, min_def]
  grind

theorem clamp_eq (low high a : ℚ) : clamp low high a = min (max a low) high := by
  rw [clamp, larger_eq_max, smaller_eq_min]

/-- The pieces of a segment before its end have no position that is written for a stop, and its
stops are counted. -/
theorem unwritten_of_segment? {ps : List (StopPiece κ ℚ)} {s : Segment κ ℚ}
    (h : segment? ps = some s) :
    (∀ p ∈ s.inner, p.written? = none) ∧ s.unplaced = s.inner.countP isUnplaced := by
  fun_induction segment? ps generalizing s with
  | case1 => exact absurd h (by simp)
  | case2 color position ps =>
    obtain rfl := Option.some_inj.mp h
    exact ⟨fun p hp => absurd hp List.not_mem_nil, rfl⟩
  | case3 p ps hp ih =>
    obtain ⟨t, ht, rfl⟩ := Option.map_eq_some_iff.mp h
    obtain ⟨hinner, hcount⟩ := ih ht
    cases p with
    | hint position =>
      exact ⟨List.forall_mem_cons.mpr ⟨rfl, hinner⟩, by simpa [isHint, isUnplaced] using hcount⟩
    | stop color position =>
      cases position with
      | none =>
        refine ⟨List.forall_mem_cons.mpr ⟨rfl, hinner⟩, ?_⟩
        exact (congrArg (· + 1) hcount).trans (List.countP_cons_of_pos rfl).symm
      | some position => exact absurd rfl (hp color position)

/-- A stop comes behind the hint that waits for it. -/
theorem laid_of_finishStop {start step : ℚ} {before stop : Stop κ ℚ} {waiting : Option (Option ℚ)}
    {placed more : List (Stop κ ℚ)} {p : StopPiece κ ℚ} {ps : List (StopPiece κ ℚ)}
    (h : placeInner.finishStop mix before waiting stop = .ok placed) (hp : p.isHint = false)
    (hlaid : Stop.Laid start step before (p :: ps) (stop :: more)) :
    Stop.Laid start step before (waiting.toList.map hint ++ p :: ps) (placed ++ more) := by
  unfold placeInner.finishStop at h
  split at h
  next =>
    obtain rfl := Except.ok.inj h
    exact hlaid
  next => exact absurd h (by simp)
  next raw =>
    dsimp only at h
    split at h
    next color hcolor =>
      obtain rfl := Except.ok.inj h
      exact .hint hp (clamp_eq _ _ _) hlaid
    next => exact absurd h (by simp)

/-- The pieces of a segment are laid up to its end, if it has room for its steps. -/
theorem laid_of_placeInner {start step : ℚ} {last before : Stop κ ℚ} {placed : ℕ}
    {waiting : Option (Option ℚ)} {ps rest : List (StopPiece κ ℚ)} {stops more : List (Stop κ ℚ)}
    (h : placeInner Nat.cast mix start step last placed before waiting ps = .ok stops)
    (hps : ∀ p ∈ ps, p.written? = none) (hbefore : before.position = start + step * placed)
    (hlast : last.position = start + step * (placed + ps.countP isUnplaced + 1))
    {x next : ℚ} (hmax : last.position = max x start) (hnext : 0 ≤ next)
    (hrest : Stop.Laid last.position next last rest more) :
    Stop.Laid start step before
      (waiting.toList.map hint ++ (ps ++ stop last.color (some x) :: rest)) (stops ++ more) := by
  induction ps generalizing placed before waiting stops with
  | nil =>
    refine laid_of_finishStop h rfl (.written hmax ?_ hnext hrest)
    rw [hlast, hbefore, List.countP_nil]
    push_cast
    ring
  | cons p ps ih =>
    obtain ⟨hp, hunwritten⟩ := List.forall_mem_cons.mp hps
    cases p with
    | hint position =>
      cases waiting with
      | some waiting => exact absurd h (by simp [placeInner])
      | none => exact ih h hunwritten hbefore hlast
    | stop color position =>
      obtain rfl : position = none := hp
      rw [placeInner] at h
      obtain ⟨placedStops, hstops, h⟩ := exists_of_bind_eq_ok h
      obtain ⟨behind, hbehind, h⟩ := exists_of_bind_eq_ok h
      obtain rfl := Except.ok.inj h
      rw [List.append_assoc]
      refine laid_of_finishStop hstops rfl (.unplaced ?_ (ih hbehind hunwritten ?_ ?_))
      · rw [hbefore]
        push_cast
        ring
      · rfl
      · rw [hlast, List.countP_cons_of_pos rfl]
        push_cast
        ring

/-- The pieces behind a stop are laid, if the last of them has a position. -/
theorem exists_laid_of_placeFrom {before : Stop κ ℚ} {ps : List (StopPiece κ ℚ)}
    {stops : List (Stop κ ℚ)} (h : placeFrom Nat.cast mix before ps = .ok stops)
    (hclosed : ∀ p, ps.getLast? = some p → p.IsPlaced) :
    ∃ step, 0 ≤ step ∧ Stop.Laid before.position step before ps stops := by
  fun_induction placeFrom Nat.cast mix before ps generalizing stops with
  | case1 before ps hnone =>
    obtain rfl := eq_nil_of_segment?_eq_none hnone hclosed
    obtain rfl := Except.ok.inj h
    exact ⟨0, le_rfl, .nil⟩
  | case2 before ps s hsegment last step =>
    rename_i ih
    obtain ⟨hinner, hcount⟩ := unwritten_of_segment? hsegment
    obtain ⟨placed, hplaced, h⟩ := exists_of_bind_eq_ok h
    obtain ⟨more, hmore, h⟩ := exists_of_bind_eq_ok h
    obtain rfl := Except.ok.inj h
    obtain rfl := eq_of_segment?_eq_some hsegment
    have hclosedRest : ∀ p, s.rest.getLast? = some p → p.IsPlaced := fun p hp =>
      hclosed p (by rw [List.getLast?_append, List.getLast?_cons, hp]; rfl)
    obtain ⟨next, hnext, hrest⟩ := ih hmore hclosedRest
    have hmax : last.position = max s.endPosition before.position := larger_eq_max _ _
    have hle : before.position ≤ last.position := hmax ▸ le_max_right _ _
    have hroom : (0 : ℚ) < (s.unplaced + 1 : ℕ) := by positivity
    have hlast : last.position = before.position + step * (s.unplaced + 1 : ℕ) := by
      rw [div_mul_cancel₀ _ hroom.ne', add_sub_cancel]
    refine ⟨step, div_nonneg (sub_nonneg.mpr hle) hroom.le, ?_⟩
    refine laid_of_placeInner hplaced hinner (by simp) ?_ hmax hnext hrest
    rw [hlast, hcount]
    push_cast
    ring

/-- Stops that are in order already stay where they are. -/
theorem placeFrom_map_toPiece {before : Stop κ ℚ} {stops : List (Stop κ ℚ)}
    (h : (before :: stops).IsChain fun s t => s.position ≤ t.position) :
    placeFrom Nat.cast mix before (stops.map Stop.toPiece) = .ok stops := by
  induction stops generalizing before with
  | nil =>
    rw [placeFrom]
    rfl
  | cons stop stops ih =>
    obtain ⟨hle, hrest⟩ := List.isChain_cons_cons.mp h
    have hlast : (⟨larger stop.position before.position, stop.color⟩ : Stop κ ℚ) = stop := by
      rw [larger_eq_max, max_eq_left hle]
    rw [List.map_cons, placeFrom]
    split
    next hnone => exact absurd hnone (by simp [Stop.toPiece, segment?])
    next s hs =>
      obtain rfl : ⟨[], 0, stop.color, stop.position, stops.map Stop.toPiece⟩ = s :=
        Option.some_inj.mp hs
      simp only [hlast, placeInner, placeInner.finishStop, ih hrest]
      rfl

end StopPiece

/-! ## Lists of pieces -/

section Lists

variable {κ ε : Type} {mix : Stop κ ℚ → Stop κ ℚ → ℚ → Except ε κ}

/-- A list of pieces that is normalized begins with a stop, and its other pieces are laid from
there on. -/
theorem exists_laid_of_normalizeStops {pieces : List (StopPiece κ ℚ)} {stops : List (Stop κ ℚ)}
    (h : normalizeStops Nat.cast mix pieces = .ok stops) :
    ∃ first ps more step, stops = first :: more ∧
      StopPiece.defaulted pieces = first.toPiece :: ps ∧ ps ≠ [] ∧
      (∀ p, ps.getLast? = some p → p.IsPlaced) ∧
      0 ≤ step ∧ Stop.Laid first.position step first ps more := by
  rw [normalizeStops] at h
  cases hshape : StopPiece.shapeError? pieces with
  | some reason => exact absurd h (by simp [hshape])
  | none =>
    rw [hshape] at h
    obtain ⟨htwo, hhead, hlast⟩ := StopPiece.shapeError?_eq_none_iff.mp hshape
    rcases pieces with _ | ⟨p, _ | ⟨q, qs⟩⟩
    · exact absurd htwo (by simp)
    · exact absurd (htwo.trans (List.length_filter_le _ _)) (by simp)
    cases p with
    | hint position => exact absurd (hhead _ rfl) (by simp [StopPiece.isHint])
    | stop color position =>
      obtain ⟨more, hmore, h⟩ := exists_of_bind_eq_ok h
      obtain rfl := Except.ok.inj h
      have hclosed : ∀ p,
          (StopPiece.mapLast (StopPiece.withDefault 1) (q :: qs)).getLast? = some p →
            p.IsPlaced := by
        intro p hp
        rw [StopPiece.getLast?_mapLast] at hp
        obtain ⟨r, hr, rfl⟩ := Option.map_eq_some_iff.mp hp
        exact StopPiece.isPlaced_withDefault 1 (hlast r (List.getLast?_cons_cons.trans hr))
      have hne : StopPiece.mapLast (StopPiece.withDefault 1) (q :: qs) ≠ [] :=
        List.ne_nil_of_length_pos (by simp)
      obtain ⟨step, hstep, hlaid⟩ := StopPiece.exists_laid_of_placeFrom hmore hclosed
      rw [← StopPiece.withEnds_eq_defaulted]
      exact ⟨_, _, more, step, rfl, rfl, hne, hclosed, hstep, hlaid⟩

/-- Stops with positions in order are normalized already. -/
theorem normalizeStops_map_toPiece {first : Stop κ ℚ} {more : List (Stop κ ℚ)} (hmore : more ≠ [])
    (h : (first :: more).IsChain fun s t => s.position ≤ t.position) :
    normalizeStops Nat.cast mix ((first :: more).map Stop.toPiece) = .ok (first :: more) := by
  have hhint : ∀ p ∈ (first :: more).map Stop.toPiece, p.isHint = false := by
    intro p hp
    obtain ⟨s, -, rfl⟩ := List.mem_map.mp hp
    rfl
  have hshape : StopPiece.shapeError? ((first :: more).map Stop.toPiece) = none := by
    refine StopPiece.shapeError?_eq_none_iff.mpr ⟨?_, fun p hp => hhint p (List.mem_of_head? hp),
      fun p hp => hhint p (List.mem_of_getLast? hp)⟩
    rw [List.filter_eq_self.mpr fun p hp => by simp [hhint p hp], List.length_map,
      List.length_cons]
    exact Nat.succ_le_succ (List.length_pos_iff.mpr hmore)
  have hends : StopPiece.withEnds ((first :: more).map Stop.toPiece) =
      first.toPiece :: more.map Stop.toPiece := by
    rw [StopPiece.withEnds_eq_defaulted, StopPiece.defaulted, ← List.map_cons]
    refine List.ext_getElem? fun i => ?_
    rw [List.getElem?_mapIdx, List.getElem?_map, Option.map_map]
    congr 1
    funext s
    simp only [Function.comp_apply, Stop.toPiece, StopPiece.withDefault]
    split_ifs <;> rfl
  rw [normalizeStops, hshape, hends]
  exact congrArg (· >>= fun rest => .ok (first :: rest)) (StopPiece.placeFrom_map_toPiece h)

/-- The last piece has a written position, if the pieces behind the first one are closed. -/
theorem StopPiece.isSome_written?_of_getLast? {α : Type} {first q : StopPiece κ α}
    {ps : List (StopPiece κ α)} (hfirst : first.written?.isSome)
    (hclosed : ∀ p, ps.getLast? = some p → p.IsPlaced) (hq : (first :: ps).getLast? = some q) :
    q.written?.isSome := by
  rw [List.getLast?_cons] at hq
  cases hp : ps.getLast? with
  | none =>
    rw [hp] at hq
    rwa [← Option.some_inj.mp hq]
  | some p =>
    rw [hp] at hq
    obtain ⟨color, position, hplaced⟩ := hclosed p hp
    rw [← Option.some_inj.mp hq, Option.getD_some, hplaced]
    rfl

/-- Stops that are laid behind the first stop are placed. -/
theorem Stop.Laid.arePlaced {first : Stop κ ℚ} {step : ℚ} {ps : List (StopPiece κ ℚ)}
    {stops : List (Stop κ ℚ)} (h : Stop.Laid first.position step first ps stops)
    (hstep : 0 ≤ step) (hclosed : ∀ p, ps.getLast? = some p → p.IsPlaced) :
    Stop.ArePlaced (first.toPiece :: ps) (first :: stops) := by
  -- The first stop may be laid itself, at no distance from where it stands.
  have hall : Stop.Laid first.position 0 first (first.toPiece :: ps) (first :: stops) :=
    .written (max_self _).symm (add_zero _).symm hstep h
  have hlast : ∀ q, (first.toPiece :: ps).getLast? = some q → q.written?.isSome :=
    fun q hq => StopPiece.isSome_written?_of_getLast? rfl hclosed hq
  refine ⟨hall.length_eq, fun i x hi => ?_, fun j color hj => ?_, fun j position hj =>
    h.exists_hint rfl hj⟩
  · obtain ⟨s, hs, hmem, hle⟩ := hall.isGreatest hi
    refine ⟨s, hs, ?_, fun y hy => hle (Or.inr hy)⟩
    exact hmem.elim (fun hs => hs ▸ StopPiece.mem_writtenUpTo_of_head rfl ps i) id
  · obtain ⟨front, before, inner, after, rest, k, hps, hbefore, hafter, hinner, hk, rfl⟩ :=
      StopPiece.exists_around hj rfl (fun q hq => by rw [← Option.some_inj.mp hq]; rfl) hlast
    rw [hps] at hall ⊢
    obtain ⟨s, t, hs, ht, hspread⟩ := hall.exists_evenly_spread hbefore hafter hinner
    obtain ⟨u, hu, hposition⟩ := hspread k color hk
    obtain ⟨hklt, -⟩ := List.getElem?_eq_some_iff.mp hk
    refine ⟨front.length, front.length + 1 + inner.length, before, after, s, t, u, by omega,
      by omega, ?_, hbefore, ?_, hafter, ?_, hs, ht, hu, ?_⟩
    · simp
    · rw [StopPiece.getElem?_behind, List.getElem?_append_right le_rfl, Nat.sub_self]
      rfl
    · intro i q hi hib hq
      obtain ⟨d, rfl⟩ := Nat.exists_eq_add_of_le hi
      have hd : d < inner.length := by omega
      rw [StopPiece.getElem?_behind, List.getElem?_append_left hd] at hq
      exact hinner q (List.mem_of_getElem? hq)
    · rw [show front.length + 1 + k + 1 = front.length + 1 + (k + 1) by omega,
        StopPiece.unplacedBetween_behind, StopPiece.unplacedBetween_behind, List.take_left,
        List.take_append_of_le_length hklt]
      exact hposition

/-- **Normalization places the stops of a gradient.**  A written position is raised to the highest
one up to it, the stops without a position are spread evenly between those that have one, and hints
are moved between the stops next to them.  So the positions never decrease, and normalizing the
stops once more changes nothing. -/
theorem arePlaced_of_normalizeStops {pieces : List (StopPiece κ ℚ)} {stops : List (Stop κ ℚ)}
    (h : normalizeStops Nat.cast mix pieces = .ok stops) :
    Stop.ArePlaced (StopPiece.defaulted pieces) stops ∧
      (stops.map Stop.position).Pairwise (· ≤ ·) ∧
      normalizeStops Nat.cast mix (stops.map Stop.toPiece) = .ok stops := by
  obtain ⟨first, ps, more, step, rfl, hpieces, hps, hclosed, hstep, hlaid⟩ :=
    exists_laid_of_normalizeStops h
  have hchain := hlaid.isChain hstep
  have hmore : more ≠ [] := by
    rw [← List.length_pos_iff, hlaid.length_eq]
    exact List.length_pos_iff.mpr hps
  refine ⟨hpieces ▸ hlaid.arePlaced hstep hclosed, ?_, normalizeStops_map_toPiece hmore hchain⟩
  exact List.isChain_iff_pairwise.mp (List.isChain_map .. |>.mpr hchain)

/-- The end of the second segment is raised to the end of the first, and so is the hint in front of
it; the first hint is moved back to a stop that has no position of its own. -/
theorem arePlaced_of_normalizeStops_raised :
    ∃ (pieces : List (StopPiece ℕ ℚ)) (stops : List (Stop ℕ ℚ)),
      normalizeStops Nat.cast (fun _ _ _ => (.ok 9 : Except Empty ℕ)) pieces = .ok stops ∧
      pieces = [.stop 0 none, .hint (some (1 / 2)), .stop 1 none, .stop 2 (some (3 / 5)),
        .hint (some (4 / 5)), .stop 3 (some (1 / 5)), .stop 4 none] ∧
      stops.map Stop.position = [0, 3 / 10, 3 / 10, 3 / 5, 3 / 5, 3 / 5, 1] ∧
      Stop.ArePlaced (StopPiece.defaulted pieces) stops ∧
      (stops.map Stop.position).Pairwise (· ≤ ·) ∧
      normalizeStops Nat.cast (fun _ _ _ => (.ok 9 : Except Empty ℕ)) (stops.map Stop.toPiece) =
        .ok stops := by
  have hrun : normalizeStops Nat.cast (fun _ _ _ => (.ok 9 : Except Empty ℕ))
      [.stop 0 none, .hint (some (1 / 2)), .stop 1 none, .stop 2 (some (3 / 5)),
        .hint (some (4 / 5)), .stop 3 (some (1 / 5)), .stop 4 none] =
      .ok ([⟨0, 0⟩, ⟨3 / 10, 9⟩, ⟨3 / 10, 1⟩, ⟨3 / 5, 2⟩, ⟨3 / 5, 9⟩, ⟨3 / 5, 3⟩, ⟨1, 4⟩] :
        List (Stop ℕ ℚ)) := by cbv
  exact ⟨_, _, hrun, rfl, rfl, arePlaced_of_normalizeStops hrun⟩

end Lists

end Styling
