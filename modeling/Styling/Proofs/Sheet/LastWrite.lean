import Mathlib
import Styling.Proofs.Property.Verdict
import Styling.Sheet.Cascade

/-!
# The last write counts

The cascade goes through the properties twice, expands what was deferred and resolves `currentcolor`
on the way.  Here its outcome is compared with a definition that does none of this in order: every
field of the style is given by the last of all writes to it.

* `Property.writes` is what a property writes, and `Property.failure?` why it writes nothing.
* `Cascade.lastWriter` is the style given by a list of writes, field by field.
* `Computed.writeExpanded_eq_ok` is the step, `Computed.foldlM_writeExpanded_eq_ok` the run.
* `Cascade.compute_eq_lastWriter` compares the two.
-/

namespace Styling

/-! ## The reference -/

/-- A longhand and what is written for it. -/
abbrev Write := Longhand × PropertyValue

namespace Property

/-- The write of a property that is a longhand. -/
def write? (p : Property) : Option Write :=
  p.kind.longhand?.map fun l => (l, p.value)

/-- The longhands that a property writes: its own, or those its resolved text reads as. -/
def writes (vars : Variables) (limit : Option Int) (p : Property) : List Write :=
  match (p.expand vars limit).result with
  | .ok (.ok ps) => ps.filterMap write?
  | _ => []

/-- Why a property writes nothing, if its text cannot be resolved or read. -/
def failure? (vars : Variables) (limit : Option Int) (p : Property) : Option ResolveError :=
  match (p.expand vars limit).result with
  | .ok (.error e) => some e
  | _ => none

end Property

/-- The keyword `currentcolor` is declared. -/
def PropertyValue.isCurrentColor : PropertyValue → Bool
  | .exact (.paint .current) => true
  | _ => false

namespace Cascade

/-- What rules declare, in the order in which they are applied. -/
def declared (rules : List Rule) : List Property :=
  (Rule.cascadeOrder rules).flatMap Rule.properties

/-- The custom properties of a node: those of its rules over those of its parent. -/
def customProperties (rules : List Rule) (parentVariables : Option Variables) : Variables :=
  (parentVariables.getD .empty).child ((Rule.cascadeOrder rules).flatMap Rule.vars)

/-- The last write to a longhand. -/
def lastWrite? (ws : List Write) (l : Longhand) : Option PropertyValue :=
  ((ws.filter fun w => w.1 = l).getLast?).map Prod.snd

/-- The value that a write gives to a longhand of a node with a color. -/
def written (parent : Option Style) (color : Value) (l : Longhand) : PropertyValue → Value
  | .initial => Style.defaultValue l
  | .inherit => (parent.getD .initial).get l
  | .exact (.paint .current) => color
  | .exact (.size .auto) =>
    if l = .letterSpacing ∨ l = .wordSpacing then .none else .size .auto
  | .exact v => v
  | .deferred _ _ => .none

/-- The color of a node: what the last write that is not `currentcolor` gives. -/
def lastColor (parent : Option Style) (ws : List Write) : Value :=
  let inherited := (Style.fresh parent).get .color
  match lastWrite? (ws.filter fun w => !w.2.isCurrentColor) .color with
  | some v => written parent inherited .color v
  | none => inherited

/-- The style in which every longhand has what the last write to it gives. -/
def lastWriter (parent : Option Style) (ws : List Write) : Style where
  get l :=
    if l = .color then lastColor parent ws
    else
      match lastWrite? ws l with
      | some v => written parent (lastColor parent ws) l v
      | none => (Style.fresh parent).get l

end Cascade

/-! ## Writing one after the other -/

namespace Style

/-- A write that is not deferred sets one field. -/
theorem write_eq_set (s : Style) (parent : Option Style) (l : Longhand) {v : PropertyValue}
    (h : v.isDeferred = false) :
    s.write parent l v = s.set l (Cascade.written parent (s.get .color) l v) := by
  cases v with
  | initial => rfl
  | inherit => rfl
  | deferred raw location => exact absurd h (by simp [PropertyValue.isDeferred])
  | exact value =>
    cases value with
    | paint p => cases p <;> rfl
    | size z => cases z <;> rfl
    | _ => rfl

/-- The writes of a list, one after the other. -/
def writeAll (parent : Option Style) (s : Style) (ws : List Write) : Style :=
  ws.foldl (fun s w => s.write parent w.1 w.2) s

theorem writeAll_append (parent : Option Style) (s : Style) (ws vs : List Write) :
    s.writeAll parent (ws ++ vs) = (s.writeAll parent ws).writeAll parent vs :=
  List.foldl_append

end Style

namespace Cascade

theorem lastWrite?_concat (ws : List Write) (w : Write) (l : Longhand) :
    lastWrite? (ws ++ [w]) l = if w.1 = l then some w.2 else lastWrite? ws l := by
  rw [lastWrite?, List.filter_append, lastWrite?]
  by_cases h : w.1 = l
  · simp [h]
  · simp [h]

theorem written_of_isCurrentColor {parent : Option Style} {color : Value} {l : Longhand}
    {v : PropertyValue} (h : v.isCurrentColor = true) : written parent color l v = color := by
  unfold PropertyValue.isCurrentColor at h
  split at h
  next => rfl
  next => exact absurd h Bool.false_ne_true

/-- Only `currentcolor` depends on the color of the node. -/
theorem written_congr {parent : Option Style} {l : Longhand} {v : PropertyValue}
    (h : v.isCurrentColor = false) (color color' : Value) :
    written parent color l v = written parent color' l v := by
  unfold written
  split
  case h_3 => exact absurd h (by simp [PropertyValue.isCurrentColor])
  all_goals rfl

end Cascade

namespace Style

variable {parent : Option Style} {s : Style} {ws : List Write}

/-- Writes to other longhands leave a field as it is. -/
theorem get_writeAll_of_ne {l : Longhand} (h : ∀ w ∈ ws, w.1 ≠ l) :
    (s.writeAll parent ws).get l = s.get l := by
  induction ws generalizing s with
  | nil => rfl
  | cons w ws ih =>
    have hw := h w (List.mem_cons_self ..)
    have hrest := ih (s := s.write parent w.1 w.2) fun v hv => h v (List.mem_cons_of_mem w hv)
    exact hrest.trans (get_write_of_ne s parent w.2 hw.symm)

/-- Writes to other longhands leave the color as it is. -/
theorem get_color_writeAll (h : ∀ w ∈ ws, w.1 ≠ .color) :
    (s.writeAll parent ws).get .color = s.get .color :=
  get_writeAll_of_ne h

/-- Writes of the color leave every other field as it is. -/
theorem get_writeAll_color_of_ne (h : ∀ w ∈ ws, w.1 = .color) {l : Longhand} (hl : l ≠ .color) :
    (s.writeAll parent ws).get l = s.get l :=
  get_writeAll_of_ne fun w hw hwl => hl (hwl.symm.trans (h w hw))

/-- After writes of the color, it is what the last of them that is not `currentcolor` gives. -/
theorem get_color_writeAll_color (hcolor : ∀ w ∈ ws, w.1 = .color)
    (hdeferred : ∀ w ∈ ws, w.2.isDeferred = false) (current : Value) :
    (s.writeAll parent ws).get .color =
      match Cascade.lastWrite? (ws.filter fun w => !w.2.isCurrentColor) .color with
      | some v => Cascade.written parent current .color v
      | none => s.get .color := by
  induction ws using List.reverseRecOn with
  | nil => rfl
  | append_singleton ws w ih =>
    have hbefore : ∀ v ∈ ws, v ∈ ws ++ [w] := fun v hv => List.mem_append_left [w] hv
    have hw : w ∈ ws ++ [w] := List.mem_append_right ws (List.mem_singleton_self w)
    have ih := ih (fun v hv => hcolor v (hbefore v hv)) fun v hv => hdeferred v (hbefore v hv)
    rw [writeAll_append, List.filter_append]
    change ((s.writeAll parent ws).write parent w.1 w.2).get .color = _
    rw [write_eq_set _ _ _ (hdeferred w hw), hcolor w hw, get_set_self]
    cases hcurrent : w.2.isCurrentColor with
    | true =>
      rw [Cascade.written_of_isCurrentColor hcurrent, ih]
      simp [hcurrent]
    | false =>
      rw [Cascade.written_congr hcurrent _ current]
      simp [hcurrent, Cascade.lastWrite?_concat, hcolor w hw]

/-- After writes to other longhands than the color, a field has what the last write to it gives. -/
theorem get_writeAll (hcolor : ∀ w ∈ ws, w.1 ≠ .color)
    (hdeferred : ∀ w ∈ ws, w.2.isDeferred = false) (l : Longhand) :
    (s.writeAll parent ws).get l =
      match Cascade.lastWrite? ws l with
      | some v => Cascade.written parent (s.get .color) l v
      | none => s.get l := by
  induction ws using List.reverseRecOn with
  | nil => rfl
  | append_singleton ws w ih =>
    have hbefore : ∀ v ∈ ws, v ∈ ws ++ [w] := fun v hv => List.mem_append_left [w] hv
    have hw : w ∈ ws ++ [w] := List.mem_append_right ws (List.mem_singleton_self w)
    have hsame : (s.writeAll parent ws).get .color = s.get .color :=
      get_color_writeAll fun v hv => hcolor v (hbefore v hv)
    rw [writeAll_append, Cascade.lastWrite?_concat]
    change ((s.writeAll parent ws).write parent w.1 w.2).get l = _
    rw [write_eq_set _ _ _ (hdeferred w hw), hsame]
    by_cases hl : w.1 = l
    · rw [if_pos hl, hl, get_set_self]
    · rw [if_neg hl, get_set_of_ne _ _ (Ne.symm hl)]
      exact ih (fun v hv => hcolor v (hbefore v hv)) fun v hv => hdeferred v (hbefore v hv)

end Style

/-! ## What a property writes -/

/-- The color belongs to no kind of property but its own. -/
theorem PropertyKind.color_notMem_longhands {kind : PropertyKind}
    (h : kind ≠ .longhand .color) : .color ∉ kind.longhands := by
  cases kind with
  | longhand l =>
    intro hmem
    exact h (congrArg PropertyKind.longhand (List.mem_singleton.mp hmem).symm)
  | shorthand s =>
    cases s with
    | borderSide side => cases side <;> decide
    | _ => decide

/-- What a resolved text reads as was read by its kind of property, and nothing is deferred. -/
theorem PropertyKind.exists_readCursor_of_reread {kind : PropertyKind} {text raw : String}
    {location : Location} {ps : List Property}
    (h : (kind.reread text raw location).result = .ok (.ok ps)) :
    ps.any (·.value.isDeferred) = false ∧
      ∃ c, Cursor.ofText text = .ok c ∧ kind.readCursor c = .ok ps := by
  rw [reread] at h
  cases hread : Cursor.ofText text >>= kind.readCursor with
  | error e =>
    rw [hread] at h
    cases e with
    | fault f => exact absurd h (by simp)
    | refused r =>
      simp only [Traced.bind_result_eq_ok] at h
      obtain ⟨-, -, h⟩ := h
      exact absurd h (by simp)
  | ok read =>
    obtain ⟨c, htext, hc⟩ : ∃ c, Cursor.ofText text = .ok c ∧ kind.readCursor c = .ok read := by
      cases hc : Cursor.ofText text with
      | error e =>
        rw [hc] at hread
        exact absurd hread (by simp [bind, Except.bind])
      | ok c =>
        rw [hc] at hread
        exact ⟨c, rfl, hread⟩
    rw [hread] at h
    cases hdeferred : read.any (·.value.isDeferred) with
    | true => exact absurd h (by simp [hdeferred])
    | false =>
      have hps : read = ps := by simpa [hdeferred] using h
      exact hps ▸ ⟨hdeferred, c, htext, hc⟩

/-- What is read and not deferred are longhands of the kind. -/
theorem PropertyKind.isSettled_of_readCursor {kind : PropertyKind} {c : Cursor}
    {ps : List Property} (hdeferred : ps.any (·.value.isDeferred) = false)
    (h : kind.readCursor c = .ok ps) : ∀ p ∈ ps, p.IsSettled kind.longhands := by
  have hcases := kind.readCursor_cases c
  rw [h] at hcases
  rcases hcases with ⟨rfl, -⟩ | ⟨hsettled, -⟩
  · exact absurd hdeferred (by simp [Property.deferred, PropertyValue.isDeferred])
  · exact hsettled

namespace Property

variable {vars : Variables} {limit : Option Int} {p : Property}

/-- What is written for a property is the property itself, or what its kind reads from a text. -/
theorem exists_readCursor_of_expand {ps : List Property}
    (h : (p.expand vars limit).result = .ok (.ok ps)) :
    (p.value.isDeferred = false ∧ ps = [p]) ∨
      (ps.any (·.value.isDeferred) = false ∧
        ∃ text c, Cursor.ofText text = .ok c ∧ p.kind.readCursor c = .ok ps) := by
  cases hvalue : p.value with
  | deferred raw location =>
    refine Or.inr ?_
    rw [expand, hvalue] at h
    simp only [Traced.bind_result_eq_ok] at h
    obtain ⟨resolved, -, hread⟩ := h
    cases resolved with
    | error e => exact absurd hread (by simp)
    | ok text =>
      obtain ⟨hsettled, c, hc, hps⟩ := PropertyKind.exists_readCursor_of_reread hread
      exact ⟨hsettled, text, c, hc, hps⟩
  | initial | inherit | exact value =>
    rw [expand, hvalue] at h
    exact Or.inl ⟨rfl, by simpa using h.symm⟩

/-- What is written for a property is the property itself, or longhands of its kind. -/
theorem expand_eq_ok {ps : List Property} (h : (p.expand vars limit).result = .ok (.ok ps)) :
    (p.value.isDeferred = false ∧ ps = [p]) ∨ ∀ q ∈ ps, q.IsSettled p.kind.longhands :=
  (exists_readCursor_of_expand h).imp_right fun ⟨hdeferred, _, _, _, hread⟩ =>
    PropertyKind.isSettled_of_readCursor hdeferred hread

/-- A property writes longhands of its kind. -/
theorem mem_longhands_of_mem_writes {w : Write} (h : w ∈ p.writes vars limit) :
    w.1 ∈ p.kind.longhands := by
  rw [writes] at h
  split at h
  next ps hexpand =>
    obtain ⟨q, hq, hw⟩ := List.mem_filterMap.mp h
    obtain ⟨l, hl, rfl⟩ := Option.map_eq_some_iff.mp hw
    rcases expand_eq_ok hexpand with ⟨-, rfl⟩ | hsettled
    · rw [List.mem_singleton.mp hq] at hl
      cases hkind : p.kind with
      | longhand k =>
        rw [hkind] at hl
        exact List.mem_singleton.mpr (Option.some_inj.mp hl).symm
      | shorthand s =>
        rw [hkind] at hl
        exact absurd hl (by simp [PropertyKind.longhand?])
    · obtain ⟨-, k, hk, hkind⟩ := hsettled q hq
      rw [hkind] at hl
      exact Option.some_inj.mp hl ▸ hk
  next => exact absurd h (by simp)

/-- Only a property of the color writes the color, and it writes nothing else. -/
theorem writes_color_iff {w : Write} (h : w ∈ p.writes vars limit) :
    w.1 = .color ↔ Cascade.isColor p = true := by
  have hmem := mem_longhands_of_mem_writes h
  constructor
  · intro hcolor
    by_contra hp
    have hkind : p.kind ≠ .longhand .color := by
      intro hkind
      exact hp (by simp [Cascade.isColor, hkind])
    rw [hcolor] at hmem
    exact PropertyKind.color_notMem_longhands hkind hmem
  · intro hp
    have hkind : p.kind = .longhand .color := by simpa [Cascade.isColor] using hp
    rw [hkind] at hmem
    exact List.mem_singleton.mp hmem

end Property

/-! ## The run -/

namespace Computed

variable {parent : Option Style} {limit : Option Int} {file : Option String} {c c' : Computed}

/-- Writing a property succeeds only for a longhand that is not deferred. -/
theorem write_eq_ok {p : Property} (h : c.write parent p = .ok c') :
    ∃ l, p.kind = .longhand l ∧ p.value.isDeferred = false ∧
      c'.style = c.style.write parent l p.value ∧ c'.vars = c.vars ∧ c'.errors = c.errors := by
  rw [write] at h
  cases hkind : p.kind with
  | shorthand s => exact absurd h (by simp [Style.apply, hkind])
  | longhand l =>
    cases hvalue : p.value.isDeferred with
    | true => exact absurd h (by simp [Style.apply, hkind, hvalue])
    | false =>
      simp only [Style.apply, hkind, hvalue] at h
      rw [← Except.ok.inj h]
      exact ⟨l, rfl, rfl, rfl, rfl, rfl⟩

/-- Writing properties one after the other. -/
theorem foldlM_write_eq_ok {ps : List Property} (h : ps.foldlM (write parent) c = .ok c') :
    c'.style = c.style.writeAll parent (ps.filterMap Property.write?) ∧
      (∀ w ∈ ps.filterMap Property.write?, w.2.isDeferred = false) ∧
      c'.vars = c.vars ∧ c'.errors = c.errors := by
  induction ps generalizing c with
  | nil =>
    have hc : c = c' := Except.ok.inj h
    exact hc ▸ ⟨rfl, by simp, rfl, rfl⟩
  | cons p ps ih =>
    rw [List.foldlM_cons] at h
    cases hp : c.write parent p with
    | error e =>
      rw [hp] at h
      exact absurd h (by simp [bind, Except.bind])
    | ok next =>
      rw [hp] at h
      obtain ⟨l, hkind, hvalue, hstyle, hvars, herrors⟩ := write_eq_ok hp
      obtain ⟨hstyle', hdeferred, hvars', herrors'⟩ := ih h
      have hone : p.write? = some (l, p.value) := by
        rw [Property.write?, hkind]
        rfl
      rw [List.filterMap_cons_some hone]
      refine ⟨?_, ?_, hvars'.trans hvars, herrors'.trans herrors⟩
      · rw [hstyle', hstyle]
        rfl
      · intro w hw
        rcases List.mem_cons.mp hw with rfl | hw
        · exact hvalue
        · exact hdeferred w hw

/-- A property is written as what it stands for, or the error that keeps it from being written is
collected. -/
theorem writeExpanded_ok_cases {p : Property}
    (h : (c.writeExpanded parent limit file p).result = .ok c') :
    (∃ ps, (p.expand c.vars limit).result = .ok (.ok ps) ∧ ps.foldlM (write parent) c = .ok c') ∨
      ∃ e, (p.expand c.vars limit).result = .ok (.error e) ∧
        c' = { c with errors := c.errors ++ [e] } := by
  rw [writeExpanded, Traced.bind_result_eq_ok] at h
  obtain ⟨expanded, hexpand, h⟩ := h
  have hresult : (p.expand c.vars limit).result = .ok expanded := by
    cases hres : (p.expand c.vars limit).result with
    | error f => exact absurd hexpand (by simp [Traced.mapError, hres, Except.mapError])
    | ok o => simpa [Traced.mapError, hres, Except.mapError] using hexpand
  cases expanded with
  | ok ps => exact Or.inl ⟨ps, hresult, h⟩
  | error e =>
    simp only [Traced.bind_result_eq_ok] at h
    obtain ⟨-, -, -, -, h⟩ := h
    exact Or.inr ⟨e, hresult, (Except.ok.inj h).symm⟩

/-- The step: a property writes what it stands for, or its failure is collected. -/
theorem writeExpanded_eq_ok {p : Property}
    (h : (c.writeExpanded parent limit file p).result = .ok c') :
    c'.style = c.style.writeAll parent (p.writes c.vars limit) ∧
      (∀ w ∈ p.writes c.vars limit, w.2.isDeferred = false) ∧
      c'.vars = c.vars ∧ c'.errors = c.errors ++ (p.failure? c.vars limit).toList := by
  rcases writeExpanded_ok_cases h with ⟨ps, hresult, h⟩ | ⟨e, hresult, rfl⟩
  · obtain ⟨hstyle, hdeferred, hvars, herrors⟩ := foldlM_write_eq_ok h
    simp only [Property.writes, Property.failure?, hresult]
    exact ⟨hstyle, hdeferred, hvars, by simpa using herrors⟩
  · have hwrites : p.writes c.vars limit = [] := by simp only [Property.writes, hresult]
    have hfailure : p.failure? c.vars limit = some e := by
      simp only [Property.failure?, hresult]
    rw [hwrites, hfailure]
    exact ⟨rfl, fun w hw => absurd hw List.not_mem_nil, rfl, rfl⟩

/-- The run: all writes one after the other, and all failures. -/
theorem foldlM_writeExpanded_eq_ok {ps : List Property}
    (h : (ps.foldlM (writeExpanded parent limit file) c).result = .ok c') :
    c'.style = c.style.writeAll parent (ps.flatMap (Property.writes c.vars limit)) ∧
      (∀ w ∈ ps.flatMap (Property.writes c.vars limit), w.2.isDeferred = false) ∧
      c'.errors = c.errors ++ ps.filterMap (Property.failure? c.vars limit) := by
  induction ps generalizing c with
  | nil =>
    have hc : c = c' := Except.ok.inj h
    exact hc ▸ ⟨rfl, by simp, by simp⟩
  | cons p ps ih =>
    rw [List.foldlM_cons, Traced.bind_result_eq_ok] at h
    obtain ⟨next, hp, h⟩ := h
    obtain ⟨hstyle, hdeferred, hvars, herrors⟩ := writeExpanded_eq_ok hp
    obtain ⟨hstyle', hdeferred', herrors'⟩ := ih h
    rw [hvars] at hstyle' hdeferred' herrors'
    rw [List.flatMap_cons]
    refine ⟨?_, ?_, ?_⟩
    · rw [hstyle', hstyle, Style.writeAll_append]
    · intro w hw
      rcases List.mem_append.mp hw with hw | hw
      · exact hdeferred w hw
      · exact hdeferred' w hw
    · rw [herrors', herrors, List.append_assoc]
      cases hfail : p.failure? c.vars limit with
      | none => simp [hfail]
      | some e => simp [hfail]

end Computed

/-! ## Two passes and one -/

namespace Cascade

variable {parent : Option Style} {vars : Variables} {limit : Option Int}

/-- A choice among the writes that is a choice among the properties. -/
theorem filter_flatMap_writes {q : Write → Bool} {r : Property → Bool}
    (h : ∀ p, ∀ w ∈ p.writes vars limit, q w = r p) (ps : List Property) :
    (ps.flatMap (Property.writes vars limit)).filter q =
      (ps.filter r).flatMap (Property.writes vars limit) := by
  induction ps with
  | nil => rfl
  | cons p ps ih =>
    rw [List.flatMap_cons, List.filter_append, ih, List.filter_cons]
    cases hp : r p with
    | true =>
      have hall : (p.writes vars limit).filter q = p.writes vars limit :=
        List.filter_eq_self.mpr fun w hw => (h p w hw).trans hp
      rw [hall, if_pos rfl, List.flatMap_cons]
    | false =>
      have hnone : (p.writes vars limit).filter q = [] :=
        List.filter_eq_nil_iff.mpr fun w hw => by simp [h p w hw, hp]
      rw [hnone, if_neg Bool.false_ne_true, List.nil_append]

/-- Writes of other longhands do not matter for the last write. -/
theorem lastWrite?_filter {ws : List Write} {q : Write → Bool} {l : Longhand}
    (h : ∀ w, w.1 = l → q w = true) : lastWrite? (ws.filter q) l = lastWrite? ws l := by
  rw [lastWrite?, lastWrite?, List.filter_filter]
  congr 2
  refine List.filter_congr fun w _ => ?_
  by_cases hw : w.1 = l
  · simp [hw, h w hw]
  · simp [hw]

/-- Writing the color first and everything else after it gives what the last writes give. -/
theorem writeAll_color_first {ws : List Write} (hdeferred : ∀ w ∈ ws, w.2.isDeferred = false) :
    ((Style.fresh parent).writeAll parent (ws.filter fun w => w.1 = .color)).writeAll parent
      (ws.filter fun w => w.1 ≠ .color) = lastWriter parent ws := by
  have hcolors : ∀ w ∈ ws.filter fun w => w.1 = .color, w.1 = .color :=
    fun w hw => of_decide_eq_true (List.mem_filter.mp hw).2
  have hothers : ∀ w ∈ ws.filter fun w => w.1 ≠ .color, w.1 ≠ .color :=
    fun w hw => of_decide_eq_true (List.mem_filter.mp hw).2
  have hcolor : ((Style.fresh parent).writeAll parent
      (ws.filter fun w => w.1 = .color)).get .color = lastColor parent ws := by
    have hswap : (ws.filter fun w => w.1 = .color).filter (fun w => !w.2.isCurrentColor) =
        (ws.filter fun w => !w.2.isCurrentColor).filter fun w => w.1 = .color := by
      rw [List.filter_filter, List.filter_filter]
      exact List.filter_congr fun w _ => Bool.and_comm ..
    rw [Style.get_color_writeAll_color hcolors (fun w hw => hdeferred w (List.mem_filter.mp hw).1)
      ((Style.fresh parent).get .color), hswap, lastWrite?_filter fun w hw => decide_eq_true hw]
    rfl
  ext l
  by_cases hl : l = .color
  · rw [hl, Style.get_color_writeAll hothers, hcolor]
    rfl
  · rw [Style.get_writeAll hothers (fun w hw => hdeferred w (List.mem_filter.mp hw).1), hcolor,
      lastWrite?_filter fun w hw => decide_eq_true (hw ▸ hl),
      Style.get_writeAll_color_of_ne hcolors hl]
    exact (if_neg hl).symm

/-- The cascade writes the color first. -/
theorem flatMap_writes_cascadeOrder (rules : List Rule) :
    (writes (Rule.cascadeOrder rules)).flatMap (Property.writes vars limit) =
      ((declared rules).flatMap (Property.writes vars limit)).filter (fun w => w.1 = .color) ++
        ((declared rules).flatMap (Property.writes vars limit)).filter fun w => w.1 ≠ .color := by
  have hcolor : ∀ p, ∀ w ∈ p.writes vars limit, decide (w.1 = .color) = isColor p := by
    intro p w hw
    rw [Bool.eq_iff_iff, decide_eq_true_iff]
    exact Property.writes_color_iff hw
  have hother : ∀ p, ∀ w ∈ p.writes vars limit, decide (w.1 ≠ .color) = !isColor p := by
    intro p w hw
    rw [decide_not, hcolor p w hw]
  rw [filter_flatMap_writes hcolor, filter_flatMap_writes hother, ← List.flatMap_append]
  rfl

/-- What the cascade writes is what the rules declare. -/
theorem mem_writes_iff {rules : List Rule} {p : Property} :
    p ∈ writes rules ↔ ∃ rule ∈ rules, p ∈ rule.properties := by
  rw [writes, List.mem_append, List.mem_filter, List.mem_filter, ← and_or_left, List.mem_flatMap]
  exact and_iff_left (by cases isColor p <;> simp)

/-- **The cascade gives every field of a style what the last write to it gives, and reports exactly
the failures.** -/
theorem compute_eq_lastWriter {rules : List Rule} {parentVariables : Option Variables}
    {file : Option String} {c : Computed}
    (h : (compute rules parent parentVariables limit file).result = .ok c) :
    c.style = lastWriter parent ((declared rules).flatMap
        (Property.writes (customProperties rules parentVariables) limit)) ∧
      c.errors.Perm ((declared rules).filterMap
        (Property.failure? (customProperties rules parentVariables) limit)) := by
  generalize hvars : customProperties rules parentVariables = vars
  obtain ⟨hstyle, hdeferred, herrors⟩ := Computed.foldlM_writeExpanded_eq_ok h
  have hstart : (Computed.start parent parentVariables
      ((Rule.cascadeOrder rules).flatMap Rule.vars)).vars = vars := hvars
  rw [hstart, flatMap_writes_cascadeOrder] at hstyle hdeferred
  rw [hstart] at herrors
  have hsettled : ∀ w ∈ (declared rules).flatMap (Property.writes vars limit),
      w.2.isDeferred = false := by
    intro w hw
    by_cases hl : w.1 = .color
    · exact hdeferred w (List.mem_append_left _ (List.mem_filter.mpr ⟨hw, decide_eq_true hl⟩))
    · exact hdeferred w (List.mem_append_right _ (List.mem_filter.mpr ⟨hw, decide_eq_true hl⟩))
  refine ⟨?_, ?_⟩
  · rw [hstyle, Style.writeAll_append]
    exact writeAll_color_first hsettled
  · rw [herrors]
    exact (List.filter_append_perm isColor (declared rules)).filterMap _

/-- A deferred write of the more specific rule comes last; the one that fails leaves no trace but
its error. -/
theorem compute_eq_lastWriter_unresolved :
    ∃ rules c, (compute rules none none (some 8) none).result = .ok c ∧
      (rules.flatMap Rule.properties).length = 4 ∧
      c.style = lastWriter none ((declared rules).flatMap
        (Property.writes (customProperties rules none) (some 8))) ∧
      c.style.get .zIndex = .integer 2 ∧ c.errors.map (·.problem) = [.unresolved] := by
  let rules : List Rule :=
    [.ofSelector [.className "a"]
        [.deferred (.longhand .zIndex) "var(--n)" .first,
          .deferred (.longhand .textAlign) "var(--m)" .first] [("--n", "2")] 1,
      .ofSelector [.wildcard]
        [.deferred (.longhand .zIndex) "var(--n)" .first, .longhand .zIndex .initial] [] 0]
  have hrun : (compute rules none none (some 8) none).result.toOption.map
      (fun c => (c.style.get .zIndex, c.errors.map (·.problem))) =
        some (.integer 2, [.unresolved]) := by cbv
  cases hc : (compute rules none none (some 8) none).result with
  | error e =>
    rw [hc] at hrun
    exact absurd hrun (by simp [Except.toOption])
  | ok c =>
    rw [hc] at hrun
    have hvalues := Option.some_inj.mp hrun
    rw [Prod.mk.injEq] at hvalues
    exact ⟨rules, c, hc, rfl, (compute_eq_lastWriter hc).1, hvalues.1, hvalues.2⟩

end Cascade

end Styling
