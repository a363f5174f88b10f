import Styling.Proofs.Grammar.Moving
import Styling.Proofs.Property.EarlyRefusal
import Styling.Proofs.Property.Longhands
import Styling.Proofs.Value.Composition

/-!
# Transforms as compositions

A transform is read call by call, and each call is read alone.  So the maps of a transform are those
of its calls in order, and two transforms one behind the other have the maps of both.

* `Grammar.transformMaps` reads the maps, and `Grammar.transform_eq_map` says that a transform is
  their composition.
* `Grammar.TransformMaps` says which maps components have, and
  `Grammar.inside_transformMaps_eq_ok` that these are read.
* `PropertyKind.readCursor_transform_compose` is about the points that a transform moves and about
  two transforms, and `Declaration.readText_transform_append` about two texts.
-/

namespace Styling

namespace Grammar

variable {source : Source} {c : Cursor} {ms ns : List (Affine Float)} {m : Affine Float}

/-! ## The maps of a transform -/

/-- The maps of a list of calls, or none for the keyword `none`. -/
def transformMaps : Reader (List (Affine Float)) := do
  if ← Reader.isKeywordExhausted "none" then return []
  let cursor ← Reader.ask id
  let maps ← Reader.foldAll
    (fun ms c => StepError.ofLeaf (do return (← transformCall cursor cursor.source c) :: ms)) []
  return maps.reverse

/-- A transform is the composition of its maps. -/
theorem transform_eq_map : transform = Affine.compose <$> transformMaps := by
  simp [transform, transformMaps, apply_ite, Affine.compose]

/-- A call is read alone: only the source of the value matters. -/
theorem transformCall_eq_of_source {c d : Cursor} (h : c.source = d.source) :
    transformCall c = transformCall d := by
  funext source x
  simp only [transformCall, Cursor.nested, h]

/-- The components of a transform have these maps: none if they are the keyword `none`, otherwise
one for each call. -/
inductive TransformMaps (source : Source) : List Component → List (Affine Float) → Prop
  | keyword {d : Component} (h : d.isKeyword "none" = true) : TransformMaps source [d] []
  | calls {ds : List Component} {ms : List (Affine Float)}
    (h : List.Forall₂ (fun d m => transformCall (.ofList source []) source d = .ok m) ds ms) :
    TransformMaps source ds ms

/-- The run: each call is read, and its map put before those read so far. -/
theorem foldlM_transformCall_eq_ok {ds : List Component} {all : List (Affine Float)} :
    ds.foldlM (fun ms d => StepError.ofLeaf (do return (← transformCall c source d) :: ms)) ms =
        .ok all ↔
      ∃ ns, List.Forall₂ (fun d n => transformCall c source d = .ok n) ds ns ∧
        all = ns.reverse ++ ms := by
  induction ds generalizing ms with
  | nil =>
    constructor
    · intro h
      exact ⟨[], .nil, (Except.ok.inj h).symm⟩
    · rintro ⟨ns, hns, rfl⟩
      obtain rfl := List.forall₂_nil_left_iff.mp hns
      rfl
  | cons d ds ih =>
    constructor
    · intro h
      obtain ⟨next, hstep, h⟩ := foldlM_cons_eq_ok.mp h
      obtain ⟨n, hn, hnext⟩ := exists_of_bind_eq_ok (ok_of_ofLeaf hstep)
      obtain rfl := Except.ok.inj hnext
      obtain ⟨ns, hns, rfl⟩ := ih.mp h
      exact ⟨n :: ns, .cons hn hns, by rw [List.reverse_cons, List.append_assoc]; rfl⟩
    · rintro ⟨ns, hns, rfl⟩
      obtain ⟨n, ns, hn, hrest, rfl⟩ := List.forall₂_cons_left_iff.mp hns
      refine foldlM_cons_eq_ok.mpr ⟨n :: ms, by rw [hn]; rfl, ?_⟩
      exact ih.mpr ⟨ns, hrest, by rw [List.reverse_cons, List.append_assoc]; rfl⟩

/-- A call is no keyword. -/
theorem isKeyword_of_transformCall {d : Component} (h : transformCall c source d = .ok m)
    (word : String) : d.isKeyword word = false := by
  obtain ⟨-, -, h⟩ := exists_of_bind_eq_ok h
  cases d with
  | token t => exact absurd h (by simp [Leaf.unexpected])
  | group opener opened children ending => rfl

/-- A transform is no keyword for every longhand. -/
theorem TransformMaps.wideValue?_eq_none {ds : List Component} (h : TransformMaps source ds ms) :
    wideValue? ds = none := by
  refine wideValue?_eq_none_iff.mpr ?_
  rintro d rfl
  cases h with
  | keyword hword =>
    have hother : ∀ word ≠ "none", d.isKeyword word = false := fun word hne =>
      Bool.eq_false_iff.mpr fun h => hne (Component.eq_of_isKeyword h hword)
    exact ⟨hother _ (by decide), hother _ (by decide)⟩
  | calls hcalls =>
    obtain ⟨m, hm⟩ := exists_forall₂_iff.mp ⟨_, hcalls⟩ d (List.mem_singleton_self d)
    exact ⟨isKeyword_of_transformCall hm _, isKeyword_of_transformCall hm _⟩

/-- The maps of two transforms one behind the other, unless one is the keyword `none`. -/
theorem TransformMaps.append {ds es : List Component} (h : TransformMaps source ds ms)
    (h' : TransformMaps source es ns) (hnone : ∀ d ∈ ds ++ es, d.isKeyword "none" = false) :
    TransformMaps source (ds ++ es) (ms ++ ns) := by
  cases h with
  | @keyword d hword =>
    exact absurd ((hnone d (by simp)).symm.trans hword) Bool.false_ne_true
  | calls hcalls =>
    cases h' with
    | @keyword e hword =>
      exact absurd ((hnone e (by simp)).symm.trans hword) Bool.false_ne_true
    | calls hcalls' => exact .calls (List.rel_append hcalls hcalls')

/-- The reader takes all the components and gives their maps. -/
theorem inside_transformMaps_eq_ok :
    transformMaps.inside c = .ok ms ↔ TransformMaps c.source c.pending ms := by
  constructor
  · intro h
    obtain ⟨c', hrun, -⟩ := Reader.inside_eq_ok.mp h
    rcases takes_isKeywordExhausted "none" c.pending with ⟨d, hd, hword, htakes⟩ | ⟨hnot, -⟩
    · obtain ⟨c'', hlone, -⟩ := htakes c rfl rfl
      rw [transformMaps, Reader.bind_apply, hlone] at hrun
      obtain ⟨rfl, -⟩ := EStateM.Result.ok.inj hrun
      rw [hd]
      exact .keyword hword
    · have hlone := Reader.isKeywordExhausted_of_pending fun d hd =>
        Bool.eq_false_iff.mpr fun hword => hnot ⟨d, hd, hword⟩
      rw [transformMaps, Reader.bind_apply, hlone] at hrun
      obtain ⟨cursor, c₁, hcursor, hrun⟩ := Reader.exists_of_bind hrun
      obtain ⟨rfl, rfl⟩ := EStateM.Result.ok.inj hcursor
      obtain ⟨all, c₂, hfold, hrun⟩ := Reader.exists_of_bind hrun
      obtain ⟨rfl, -⟩ := EStateM.Result.ok.inj hrun
      obtain ⟨ns, hns, rfl⟩ :=
        foldlM_transformCall_eq_ok.mp (Reader.foldlM_pending_of_foldAll hfold)
      rw [List.append_nil, List.reverse_reverse]
      exact .calls hns
  · intro h
    refine Reader.Takes.inside ?_ rfl rfl
    generalize c.source = source, c.pending = ds at h ⊢
    cases h with
    | keyword hword => exact (Reader.Takes.isKeywordExhausted_lone hword).bind (.pure _)
    | calls hcalls =>
      have hhead : ds.head?.any (·.isKeyword "none") = false := by
        cases hcalls with
        | nil => rfl
        | cons hcall => exact isKeyword_of_transformCall hcall "none"
      refine (Reader.Takes.isKeywordExhausted hhead).bind (.ask fun d hsource _ => ?_)
      have hfold : ds.foldlM (fun ms x =>
          StepError.ofLeaf (do return (← transformCall d d.source x) :: ms)) [] =
            .ok ms.reverse := by
        rw [hsource, transformCall_eq_of_source (d := .ofList source []) hsource]
        exact foldlM_transformCall_eq_ok.mpr ⟨ms, hcalls, (List.append_nil _).symm⟩
      rw [← List.reverse_reverse ms]
      exact (Reader.Takes.foldAll hfold).bind (.pure _)

end Grammar

namespace PropertyKind

open Grammar

variable {source : Source} {cs ds : List Component} {c : Cursor}

/-- A transform is read as the composition of its maps. -/
theorem readCursor_transform {m : Affine Float} :
    (longhand .transform).readCursor c = .ok [.longhand .transform (.exact (.transform m))] ↔
      ∃ ms, TransformMaps c.source c.pending ms ∧ m = .compose ms := by
  have hinside : Longhand.transform.reader.inside c = .ok (.exact (.transform m)) ↔
      ∃ ms, TransformMaps c.source c.pending ms ∧ m = .compose ms := by
    have hreader : Longhand.transform.reader =
        (fun ms => .exact (.transform (.compose ms))) <$> transformMaps := by
      simp [Longhand.reader, transform_eq_map]
    simp only [hreader, Reader.inside_map_eq_ok, inside_transformMaps_eq_ok,
      PropertyValue.exact.injEq, Value.transform.injEq]
  constructor
  · intro h
    exact hinside.mp (inside_of_readCursor_exact h).1
  · rintro ⟨ms, hms, hm⟩
    rw [readCursor_longhand hms.wideValue?_eq_none, hinside.mpr ⟨ms, hms, hm⟩]

/-- **Transforms compose from left to right.**  A transform that is read is the composition of the
maps of its functions.  With the entries read as numbers that obey the laws of arithmetic, the
composition moves any point as the maps do in turn, and composing is associative with the identity
on both sides.  So two lists of functions one behind the other are read as the first result before
the second. -/
theorem readCursor_transform_compose {R : Type} [Semiring R] (value : Float → R) {stop : Nat}
    {m : Affine Float}
    (h : (longhand .transform).readCursor (.ofComponents source cs stop) =
      .ok [.longhand .transform (.exact (.transform m))]) :
    ∃ ms, TransformMaps source (Component.withoutBlanks cs) ms ∧ m = .compose ms ∧
      (∀ x y, (Affine.composeOver value ms).apply x y =
        ms.foldl (fun p m => (m.map value).apply p.1 p.2) (x, y)) ∧
      (∀ k l n : Affine R, (k.before l).before n = k.before (l.before n) ∧
        Affine.identity.before l = l ∧ l.before .identity = l) ∧
      ∀ {ds : List Component} {stop' : Nat} {n : Affine Float},
        (longhand .transform).readCursor (.ofComponents source ds stop') =
            .ok [.longhand .transform (.exact (.transform n))] →
          (∀ d ∈ cs ++ ds, d.isKeyword "none" = false) →
            ∃ ns, TransformMaps source (Component.withoutBlanks ds) ns ∧ n = .compose ns ∧
              (∀ stop'', (longhand .transform).readCursor (.ofComponents source (cs ++ ds) stop'') =
                .ok [.longhand .transform (.exact (.transform (.compose (ms ++ ns))))]) ∧
              Affine.composeOver value (ms ++ ns) =
                (Affine.composeOver value ms).before (.composeOver value ns) := by
  obtain ⟨ms, hms, hm⟩ := readCursor_transform.mp h
  refine ⟨ms, hms, hm, Affine.apply_composeOver value ms, fun k l n =>
    ⟨Affine.before_assoc k l n, Affine.identity_before l, Affine.before_identity l⟩,
    fun {ds stop' n} h' hnone => ?_⟩
  obtain ⟨ns, hns, hn⟩ := readCursor_transform.mp h'
  refine ⟨ns, hns, hn, fun stop'' => ?_, Affine.composeOver_append value ms ns⟩
  refine readCursor_transform.mpr ⟨ms ++ ns, ?_, rfl⟩
  rw [show (Cursor.ofComponents source (cs ++ ds) stop'').pending =
    Component.withoutBlanks cs ++ Component.withoutBlanks ds from List.filter_append ..]
  refine hms.append hns fun d hd => hnone d ?_
  rcases List.mem_append.mp hd with hd | hd
  · exact List.mem_append_left ds (List.mem_filter.mp hd).1
  · exact List.mem_append_right cs (List.mem_filter.mp hd).1

/-- A move and a scaling, each read alone and the one behind the other. -/
theorem readCursor_transform_compose_two :
    let source := Source.ofString "translate(10px)SCALE(2)"
    let move : Component := .group (.function "translate") ⟨0, 10⟩
      [.token ⟨.dimension ⟨"10", .integer 10⟩ "px", ⟨10, 14⟩⟩] (.closed ⟨14, 15⟩)
    let double : Component := .group (.function "SCALE") ⟨15, 21⟩
      [.token ⟨.number ⟨"2", .integer 2⟩, ⟨21, 22⟩⟩] (.closed ⟨22, 23⟩)
    source.components = .ok ⟨[move, double], []⟩ ∧
      ∃ ms ns, TransformMaps source [move] ms ∧ TransformMaps source [double] ns ∧
        (longhand .transform).readCursor (.ofComponents source [move, double] 23) =
          .ok [.longhand .transform (.exact (.transform (.compose (ms ++ ns))))] ∧
        Affine.composeOver Binary64.exactly (ms ++ ns) =
          (Affine.composeOver Binary64.exactly ms).before (.composeOver Binary64.exactly ns) := by
  intro source move double
  have hmove : (longhand .transform).readCursor (.ofComponents source [move] 15) =
      .ok [.longhand .transform (.exact (.transform (.compose [.shift 10.0 0.0])))] := by
    decide +kernel
  have hdouble : (longhand .transform).readCursor (.ofComponents source [double] 23) =
      .ok [.longhand .transform (.exact (.transform (.compose [.scaling 2.0 2.0])))] := by
    decide +kernel
  obtain ⟨ms, hms, -, -, -, happend⟩ := readCursor_transform_compose Binary64.exactly hmove
  obtain ⟨ns, hns, -, hread, hbefore⟩ := happend hdouble (by decide)
  exact ⟨by cbv, ms, ns, hms, hns, hread 23, hbefore⟩

end PropertyKind

/-! ## Transforms as texts -/

namespace Grammar

/-- A transform has the same maps where its text stands in a larger one. -/
theorem TransformMaps.map_shift {S T : Source} {k : Nat} (hS : S.Shows T k) {ds : List Component}
    {ms : List (Affine Float)} (h : TransformMaps T ds ms) (hds : ∀ d ∈ ds, d.Within T.length) :
    TransformMaps S (ds.map (Component.shift k)) ms := by
  cases h with
  | @keyword d hword => exact .keyword (by rwa [Component.isKeyword_shift])
  | calls hcalls =>
    have hcursor : (Cursor.ofList S []).Shown S T k (.ofList T []) :=
      .ofComponents hS (fun d hd => absurd hd List.not_mem_nil) _ _
    refine .calls (List.forall₂_map_left_iff.mpr ?_)
    induction hcalls with
    | nil => exact .nil
    | @cons d m ds ms hcall _ ih =>
      obtain ⟨hd, hds⟩ := List.forall_mem_cons.mp hds
      have halike := alike_transformCall hcursor hd
      rw [hcall] at halike
      exact .cons halike.symm.eq_ok (ih hds)

end Grammar

namespace Declaration

open Grammar

/-- A text is read as a transform if its components have maps. -/
theorem readText_transform {text : String} {m : Affine Float} :
    readText "transform" text = .ok [.longhand .transform (.exact (.transform m))] ↔
      ∃ cs ms, HasComponents text.toList cs ∧
        TransformMaps (.ofString text) (Component.withoutBlanks cs) ms ∧ m = .compose ms := by
  have hname : PropertyKind.ofName? "transform" = some (.longhand .transform) := by cbv
  rw [readText_eq_bind hname]
  constructor
  · intro h
    obtain ⟨c, hc, h⟩ := exists_of_bind_eq_ok h
    obtain ⟨cs, hcs, rfl⟩ := Cursor.ofText_eq_ok_iff.mp hc
    obtain ⟨ms, hms, hm⟩ := PropertyKind.readCursor_transform.mp h
    exact ⟨cs, ms, hcs, hms, hm⟩
  · rintro ⟨cs, ms, hcs, hms, hm⟩
    rw [Cursor.ofText_eq_ok_iff.mpr ⟨cs, hcs, rfl⟩]
    exact PropertyKind.readCursor_transform.mpr ⟨ms, hms, hm⟩

/-- Two texts that are lists of functions and meet at a seam are read as the maps of the first
before those of the second. -/
theorem readText_transform_append {front back : String} {cs ds : List Component}
    {ms ns : List (Affine Float)} (hcs : HasComponents front.toList cs)
    (hds : HasComponents back.toList ds)
    (hms : TransformMaps (.ofString front) (Component.withoutBlanks cs) ms)
    (hns : TransformMaps (.ofString back) (Component.withoutBlanks ds) ns)
    (hnone : ∀ d ∈ cs ++ ds, d.isKeyword "none" = false)
    (hseam : IsSeam front.toList back.toList) :
    readText "transform" (front ++ back) =
      .ok [.longhand .transform (.exact (.transform (.compose (ms ++ ns))))] := by
  let k := (Source.normalize front.toList).length
  have hjoined : HasComponents (front ++ back).toList (cs ++ ds.map (Component.shift k)) := by
    rw [String.toList_append]
    exact hseam.components_append hcs hds
  have hchars : (Source.ofString (front ++ back)).chars =
      (Source.ofString front).chars ++ (Source.ofString back).chars := by
    rw [Source.ofString, String.toList_append, Source.normalize_append hseam.lineEnd]
    rfl
  have hfront : (Source.ofString (front ++ back)).Shows (.ofString front) 0 :=
    Source.shows_of_append (show _ = [] ++ (_ ++ _) from hchars) rfl
  have hback : (Source.ofString (front ++ back)).Shows (.ofString back) k :=
    Source.shows_of_append (hchars.trans (by rw [List.append_nil]; rfl)) rfl
  have hms' := hms.map_shift hfront fun d hd =>
    Source.within_of_components hcs d (List.mem_filter.mp hd).1
  have hns' := hns.map_shift hback fun d hd =>
    Source.within_of_components hds d (List.mem_filter.mp hd).1
  have hzero : ∀ es : List Component, es.map (Component.shift 0) = es := fun es => by
    rw [funext Component.shift_zero, List.map_id']
  rw [hzero] at hms'
  refine readText_transform.mpr ⟨_, ms ++ ns, hjoined, ?_, rfl⟩
  rw [show Component.withoutBlanks (cs ++ ds.map (Component.shift k)) =
      Component.withoutBlanks cs ++ Component.withoutBlanks (ds.map (Component.shift k)) from
    List.filter_append .., Component.withoutBlanks_map_shift]
  refine hms'.append hns' fun d hd => ?_
  rcases List.mem_append.mp hd with hd | hd
  · exact hnone d (List.mem_append_left ds (List.mem_filter.mp hd).1)
  · obtain ⟨e, he, rfl⟩ := List.mem_map.mp hd
    rw [Component.isKeyword_shift]
    exact hnone e (List.mem_append_right cs (List.mem_filter.mp he).1)

end Declaration

end Styling
