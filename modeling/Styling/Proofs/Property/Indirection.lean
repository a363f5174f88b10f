import Mathlib
import Styling.Proofs.Grammar.Agreement
import Styling.Proofs.Property.Accepting
import Styling.Proofs.Property.EarlyRefusal
import Styling.Proofs.Variable.References

/-!
# Indirection through a custom property

A value can be written directly, or be given to a custom property and called by its name.  The
first is read by a grammar at once.  The second is deferred, the call is replaced in a pass, a
further pass finds nothing to replace, and then the same grammar reads the text.  Both ways lead to
the same properties.

The passes refuse more than syntax errors: a closing bracket that closes nothing has no place in a
resolved text, at any depth.  So the two ways could differ on a value with such a bracket; but no
grammar reads one.

* `PropertyKind.readCursor_of_atVar` says that a value that starts with a `var()` call is deferred,
  whatever the kind of property.
* `PropertyKind.hasStray_of_readCursor` says that what is read has no closing bracket of its own.
* `Declaration.expand_indirect` compares the two ways.
-/

namespace Styling

/-! ## Values that start with a call -/

namespace Reader

/-- The reader is refused because of a `var()` call. -/
def Awaits {α : Type} (r : Reader α) (c : Cursor) : Prop :=
  ∃ l c', r c = .error (.refused (.varCall l)) c'

namespace Awaits

variable {α β : Type} {S : Source} {c : Cursor}

theorem bind {r : Reader α} (h : r.Awaits c) (f : α → Reader β) : (r >>= f).Awaits c := by
  obtain ⟨l, c', hrun⟩ := h
  exact ⟨l, c', by rw [bind_apply, hrun]⟩

theorem ask {γ : Type} {f : Cursor → γ} {k : γ → Reader α} (h : (k (f c)).Awaits c) :
    (Reader.ask f >>= k).Awaits c :=
  h

theorem source {k : Source → Reader α} (h : (k c.source).Awaits c) :
    (Reader.source >>= k).Awaits c :=
  h

theorem attempt {r : Reader α} (h : r.Awaits c) : (Reader.attempt r).Awaits c := by
  obtain ⟨l, c', hrun⟩ := h
  exact ⟨l, c', by rw [attempt_of_error hrun]; rfl⟩

theorem leaf (hc : c.AtVar S) (f : Leaf α) : (Reader.leaf f).Awaits c := by
  obtain ⟨d, hpeek, hvar⟩ := hc.next
  exact ⟨_, _, leaf_of_peek_isVar hpeek hvar⟩

/-- A loop whose step is refused because of the call. -/
theorem foldAll (hc : c.AtVar S) {step : α → Component → Except StepError α}
    (hstep : ∀ s d, d.isVar = true → ∃ l, step s d = .error (.here (.varCall l))) (s : α) :
    (Reader.foldAll step s).Awaits c := by
  obtain ⟨d, hpeek, hvar⟩ := hc.next
  obtain ⟨l, hd⟩ := hstep s d hvar
  refine ⟨l, c.advance, ?_⟩
  rw [Reader.foldAll, foldWhile_of_peek hpeek, hd]
  rfl

theorem inside {r : Reader α} (h : r.Awaits c) : ∃ l, r.inside c = .error (.varCall l) := by
  obtain ⟨l, c', hrun⟩ := h.bind fun a => do Reader.expectExhausted; return a
  refine ⟨l, ?_⟩
  rw [Reader.inside, EStateM.run, hrun]
  rfl

/-- Where a `var()` call follows, no keyword stands alone. -/
theorem unlessLone (hvar : c.holdsVar = true) {word : String} {f : Bool → Reader α}
    (h : (f false).Awaits c) : (isKeywordExhausted word >>= f).Awaits c := by
  obtain ⟨l, c', hrun⟩ := h
  exact ⟨l, c', by rw [bind_apply, isKeywordExhausted_of_holdsVar hvar]; exact hrun⟩

end Awaits

end Reader

theorem Cursor.AtVar.holdsVar {S : Source} {c : Cursor} (h : c.AtVar S) : c.holdsVar = true := by
  obtain ⟨d, hpeek, hvar⟩ := h.next
  exact holdsVar_of_containsVar hpeek (Component.containsVar_of_isVar hvar)

namespace Grammar

variable {S : Source} {c : Cursor}

/-- A step that looks for `var()` calls first is refused because of one. -/
theorem exists_noVar_bind_eq {σ : Type} {source : Source} {d : Component} (h : d.isVar = true)
    (f : Unit → Except StepError σ) :
    ∃ l, (StepError.ofLeaf (Leaf.noVar source d) >>= f) = .error (.here (.varCall l)) := by
  rw [noVar_of_isVar h]
  exact ⟨_, rfl⟩

theorem awaits_fontFamily (hc : c.AtVar S) : fontFamily.Awaits c := by
  refine .ask (.source ?_)
  exact (Reader.Awaits.foldAll hc (fun _ _ hd => exists_noVar_bind_eq hd _) _).bind _

/-- A call in front of everything is in front of the first part. -/
theorem awaits_backgroundImage (hc : c.AtVar S) : backgroundImage.Awaits c := by
  refine .unlessLone hc.holdsVar ?_
  obtain ⟨d, hpeek, hvar⟩ := hc.next
  have hhead : (c.rest.dropWhile Component.isWhitespace).head?.any Component.isVar = true := by
    rw [Cursor.rest_of_peek hpeek]
    exact hvar
  obtain ⟨p, ps, hsplit, hp⟩ := exists_splitAtCommas_of_isVar hhead c.stop
  have hpart : (Cursor.ofComponents c.source p.1 p.2).AtVar c.source := by
    obtain ⟨x, hx, hxvar⟩ := (Option.any_eq_true _ _).mp hp
    exact ⟨rfl, x, hx, hxvar⟩
  obtain ⟨l, hinside⟩ := (Reader.Awaits.leaf hpart gradientLeaf).inside
  rw [← gradientCall_eq_leaf] at hinside
  have hread : (some <$> Reader.ofExcept (c.commaParts.mapM gradientCall.inside)) c.toEnd =
      .error (.varCall l) c.toEnd := by
    rw [Cursor.commaParts, hsplit, List.map_cons, List.mapM_cons, hinside]
    rfl
  exact ⟨l, c.toEnd, hread⟩

theorem awaits_transform (hc : c.AtVar S) : transform.Awaits c := by
  refine .unlessLone hc.holdsVar ?_
  refine (Reader.Awaits.foldAll hc (fun maps d hd => ?_) []).bind _
  refine ⟨c.source.locationOf d, ?_⟩
  unfold transformCall
  rw [noVar_of_isVar hd]
  rfl

theorem awaits_shadowList (hc : c.AtVar S) (allowInset : Bool) :
    (shadowList allowInset).Awaits c := by
  refine .unlessLone hc.holdsVar (Reader.Awaits.source ?_)
  exact (Reader.Awaits.foldAll hc (fun _ _ hd => exists_noVar_bind_eq hd _) _).bind _

/-- Where a `var()` call follows, a shorthand comes to its grammar. -/
theorem awaits_unlessWide {ls : List Longhand} {f : Option (List Property) → Reader (List Property)}
    (hc : c.AtVar S) (h : (f none).Awaits c) : (wideKeyword ls >>= f).Awaits c := by
  obtain ⟨l, c', hrun⟩ := h
  exact ⟨l, c', by rw [Reader.bind_apply, wideKeyword_of_holdsVar hc.holdsVar]; exact hrun⟩

theorem awaits_strokeShorthand (hc : c.AtVar S) (colors widths : List Longhand) :
    (strokeShorthand colors widths).Awaits c := by
  refine awaits_unlessWide hc (Reader.Awaits.source ?_)
  exact (Reader.Awaits.foldAll hc (fun _ _ hd => exists_noVar_bind_eq hd _) _).bind _

theorem awaits_quadShorthand {α : Type} (hc : c.AtVar S) (ls : List Longhand) (leaf : Leaf α)
    (value : α → Value) : (quadShorthand ls leaf value).Awaits c :=
  awaits_unlessWide hc (((Reader.Awaits.leaf hc leaf).bind _).bind _)

theorem awaits_fontShorthand (hc : c.AtVar S) : fontShorthand.Awaits c := by
  refine awaits_unlessWide hc (Reader.Awaits.bind ?_ _)
  have hstyle : (fontStyle false).Awaits c := (Reader.Awaits.leaf hc fontStyleKeyword).bind _
  exact (hstyle.attempt.bind _).bind _

end Grammar

/-- The grammar of a longhand is refused because of a call in front of everything. -/
theorem Longhand.awaits_reader (l : Longhand) {S : Source} {c : Cursor} (hc : c.AtVar S) :
    l.reader.Awaits c := by
  cases l with
  | backgroundImage => exact (Grammar.awaits_backgroundImage hc).bind _
  | boxShadow => exact ((Grammar.awaits_shadowList hc true).bind _).bind _
  | textShadow => exact ((Grammar.awaits_shadowList hc false).bind _).bind _
  | fontFamily => exact (Grammar.awaits_fontFamily hc).bind _
  | fontStyle => exact ((Reader.Awaits.leaf hc Grammar.fontStyleKeyword).bind _).bind _
  | transform => exact (Grammar.awaits_transform hc).bind _
  | extent e => cases e <;> exact (Reader.Awaits.leaf hc _).bind _
  | _ => exact (Reader.Awaits.leaf hc _).bind _

/-- The grammar of a shorthand is refused because of a call in front of everything. -/
theorem Shorthand.awaits_reader (s : Shorthand) {S : Source} {c : Cursor} (hc : c.AtVar S) :
    s.reader.Awaits c := by
  cases s with
  | border | borderSide | outline => exact Grammar.awaits_strokeShorthand hc _ _
  | font => exact Grammar.awaits_fontShorthand hc
  | _ => exact Grammar.awaits_quadShorthand hc _ _ _

/-- A reader that is refused because of a call is deferred. -/
theorem Reader.Awaits.exactOrDeferred {α : Type} {r : Reader α} {c : Cursor} (h : r.Awaits c)
    (deferred : String → Location → α) :
    Reader.exactOrDeferred r deferred c = .ok (deferred c.remaining c.location) c.toEnd := by
  obtain ⟨l, c', hrun⟩ := h.bind fun a => do Reader.expectExhausted; return a
  rw [Reader.exactOrDeferred, EStateM.run, hrun]

/-- **A value that starts with a `var()` call is deferred**, whatever the kind of property. -/
theorem PropertyKind.readCursor_of_atVar (kind : PropertyKind) {S : Source} {c : Cursor}
    (hc : c.AtVar S) : kind.readCursor c = .ok [.deferred kind c.remaining c.location] := by
  rw [readCursor, EStateM.run]
  cases kind with
  | shorthand s => rw [read, (s.awaits_reader hc).exactOrDeferred]
  | longhand l =>
    have hlone := Reader.isKeywordExhausted_of_holdsVar hc.holdsVar
    rw [read_longhand_apply (hlone "initial") (hlone "inherit"), Reader.bind_apply,
      (l.awaits_reader hc).exactOrDeferred]
    rfl

/-! ## The text of a value -/

namespace Cursor

/-- A text that is refused as a value has a syntax error. -/
theorem errors_of_ofText {text : String} {r : Refusal} (h : ofText text = .error (.refused r)) :
    ∃ parsed, (Source.ofString text).components = .ok parsed ∧ parsed.errors ≠ [] := by
  cases hparsed : (Source.ofString text).components with
  | error f =>
    simp only [ofText, bind, Except.bind, hparsed, ReadError.ofFault] at h
    exact absurd (Except.error.inj h) (by simp)
  | ok parsed =>
    refine ⟨parsed, rfl, fun herrors => ?_⟩
    have hok := ofText_eq_ok.mpr ⟨parsed, hparsed, herrors, rfl⟩
    exact absurd (hok.symm.trans h) (by simp)

end Cursor

/-- **A value without `var()` calls that is read has no closing bracket that closes nothing**, at
any depth. -/
theorem PropertyKind.hasStray_of_readCursor {kind : PropertyKind} {text : String} {c : Cursor}
    (hc : Cursor.ofText text = .ok c) (hvar : c.holdsVar = false) {ps : List Property}
    (h : kind.readCursor c = .ok ps) : Component.listHasStray c.components = false := by
  have hrecognized := recognized_of_readCursor (Cursor.isComparable_ofText hc) hvar h
  obtain ⟨parsed, hparsed, herrors, rfl⟩ := Cursor.ofText_eq_ok.mp hc
  obtain ⟨hsound, -, -⟩ := Source.components_eq_ok hparsed herrors
  rw [Component.listHasStray_eq_any, List.any_eq_false]
  intro d hd
  have hnone := Component.hasStray_of_recognized (fun _ => Source.isNormal_of_mem_normalize) hsound
    (Source.holds_of_components hparsed herrors d hd) (hrecognized d hd)
  rw [hnone]
  exact Bool.false_ne_true

/-! ## The passes -/

section Passes

variable {value : String} {vars : Variables}

/-- With a limit of two the passes get to the value. -/
theorem resolve_call {result : Except ResolveProblem String} (h : vars.lookup "--x" = some value)
    {limit : Int} (hlimit : 2 ≤ limit)
    (hvalue : ∀ n, (resolveFrom vars value (n + 1)).result = .ok result) (location : Location) :
    (resolve "var(--x)" location vars limit).result =
      .ok (result.mapError fun problem => ⟨problem, "var(--x)", location⟩) := by
  obtain ⟨n, rfl⟩ : ∃ n : Nat, limit = (n + 1 + 1 : Nat) := ⟨limit.toNat - 2, by omega⟩
  have hcall : varReference "--x" = "var(--x)" := by decide
  have hpass := substitute_varReference_of_found (by decide : IsCustomName "--x") h
  rw [hcall] at hpass
  refine resolve_of_resolveFrom ?_ location
  rw [resolveFrom_of_replaced one_ne_zero hpass]
  exact hvalue n

end Passes

/-! ## Names of kinds -/

theorem Side.mem_all (s : Side) : s ∈ all := by
  cases s <;> decide

theorem Corner.mem_all (c : Corner) : c ∈ all := by
  cases c <;> decide

theorem Extent.mem_all (e : Extent) : e ∈ all := by
  cases e <;> simp [all, Side.mem_all]

theorem Longhand.mem_all (l : Longhand) : l ∈ all := by
  cases l <;> simp [all, Side.mem_all, Corner.mem_all, Extent.mem_all]

theorem Shorthand.mem_all (s : Shorthand) : s ∈ all := by
  cases s <;> simp [all, Side.mem_all]

namespace PropertyKind

theorem mem_all (kind : PropertyKind) : kind ∈ all := by
  cases kind with
  | longhand l => exact List.mem_append_left _ (List.mem_map_of_mem l.mem_all)
  | shorthand s => exact List.mem_append_right _ (List.mem_map_of_mem s.mem_all)

/-- Every name is in lowercase. -/
theorem lowercase_name (kind : PropertyKind) : Text.lowercase kind.name = kind.name := by
  have hall : all.all (fun kind => Text.lowercase kind.name == kind.name) = true := by
    decide +kernel
  exact eq_of_beq (List.all_eq_true.mp hall kind kind.mem_all)

/-- No two kinds of properties share a name. -/
theorem nodup_names : (table.map (·.1)).Nodup := by
  decide +kernel

/-- A kind of property is found by its name. -/
theorem ofName?_name (kind : PropertyKind) : ofName? kind.name = some kind := by
  have hmem : (kind.name, kind) ∈ table := List.mem_map_of_mem kind.mem_all
  obtain ⟨before, after, hsplit⟩ := List.append_of_mem hmem
  have hnodup := nodup_names
  rw [hsplit, List.map_append, List.map_cons] at hnodup
  rw [ofName?, lowercase_name]
  refine List.lookup_eq_some_iff.mpr ⟨before, after, hsplit, fun entry hentry => ?_⟩
  have hne := (List.nodup_append.mp hnodup).2.2 entry.1 (List.mem_map_of_mem hentry) kind.name
    List.mem_cons_self
  simpa using hne.symm

end PropertyKind

/-! ## The two ways -/

namespace Declaration

variable {kind : PropertyKind} {value : String} {vars : Variables} {limit : Int}

/-- The call is deferred by every kind of property. -/
theorem readText_call (kind : PropertyKind) :
    readText kind.name "var(--x)" = .ok [.deferred kind "var(--x)" .first] := by
  let c : Cursor := .ofComponents (.ofString "var(--x)")
    [.group (.function "var") ⟨0, 4⟩ [.token ⟨.ident "--x", ⟨4, 7⟩⟩] (.closed ⟨7, 8⟩)] 8
  have hc : Cursor.ofText "var(--x)" = .ok c := by cbv
  have hatVar : c.AtVar c.source := ⟨rfl, _, rfl, by cbv⟩
  have hremaining : c.remaining = "var(--x)" := by cbv
  have hlocation : c.location = .first := by cbv
  rw [readText_eq_bind kind.ofName?_name, hc]
  exact (kind.readCursor_of_atVar hatVar).trans (by rw [hremaining, hlocation])

/-- A value in which nothing is replaced is read in place of the call. -/
theorem expand_call_of_nothing {t : String} (hlookup : vars.lookup "--x" = some value)
    (hlimit : 2 ≤ limit) (hpass : substitute value vars = .ok (.ok (t, 0)))
    {result : Except ResolveError (List Property)}
    (hread : (kind.reread value "var(--x)" .first).result = .ok result) :
    ((Property.deferred kind "var(--x)" .first).expand vars (some limit)).result = .ok result := by
  have hresolve := resolve_call hlookup hlimit (resolveFrom_of_nothing hpass) .first
  exact Traced.bind_result_eq_ok.mpr ⟨_, hresolve, hread⟩

/-- A value that a pass refuses is refused in place of the call. -/
theorem expand_call_of_refused {problem : ResolveProblem} (hlookup : vars.lookup "--x" = some value)
    (hlimit : 2 ≤ limit) (hpass : substitute value vars = .ok (.error problem)) :
    ((Property.deferred kind "var(--x)" .first).expand vars (some limit)).result =
      .ok (.error ⟨problem, "var(--x)", .first⟩) := by
  have hresolve := resolve_call hlookup hlimit (resolveFrom_of_refused hpass) .first
  exact Traced.bind_result_eq_ok.mpr ⟨_, hresolve, rfl⟩

/-- What the passes and the grammar make of a value without `var()` calls. -/
theorem substitute_and_reread (kind : PropertyKind) {c : Cursor} (hc : Cursor.ofText value = .ok c)
    (hvar : Component.listContainsVar c.components = false) (vars : Variables) :
    substitute value vars = .ok (if Component.listHasStray c.components then .error .notReadable
      else .ok ((Source.ofString value).text, 0)) ∧
    c.holdsVar = false ∧
    (kind.reread value "var(--x)" .first).result =
      match kind.readCursor c with
      | .ok ps => .ok (.ok ps)
      | .error (.refused _) => .ok (.error ⟨.notReadable, "var(--x)", .first⟩)
      | .error (.fault f) => .error f := by
  have hholds : c.holdsVar = false := by
    rw [eq_ofComponents_of_ofText hc]
    exact hvar
  have hreread := kind.reread_of_noVar hc hholds "var(--x)" .first
  refine ⟨?_, hholds, hreread⟩
  obtain ⟨parsed, hparsed, herrors, rfl⟩ := Cursor.ofText_eq_ok.mp hc
  exact substitute_of_noVar hparsed herrors hvar vars

/-- What is read directly is read by way of the call. -/
theorem expand_call_of_readText (hlookup : vars.lookup "--x" = some value) (hlimit : 2 ≤ limit)
    (hvar : ∀ c, Cursor.ofText value = .ok c → Component.listContainsVar c.components = false)
    {ps : List Property} (h : readText kind.name value = .ok ps) :
    ((Property.deferred kind "var(--x)" .first).expand vars (some limit)).result =
      .ok (.ok ps) := by
  rw [readText_eq_bind kind.ofName?_name] at h
  obtain ⟨c, hc, hread⟩ := exists_of_bind_eq_ok h
  obtain ⟨hpass, hholds, hreread⟩ := substitute_and_reread kind hc (hvar c hc) vars
  rw [PropertyKind.hasStray_of_readCursor hc hholds hread, if_neg Bool.false_ne_true] at hpass
  rw [hread] at hreread
  exact expand_call_of_nothing hlookup hlimit hpass hreread

/-- What is refused directly is refused by way of the call, by a pass or by the grammar. -/
theorem expand_call_of_readText_refused (hlookup : vars.lookup "--x" = some value)
    (hlimit : 2 ≤ limit)
    (hvar : ∀ c, Cursor.ofText value = .ok c → Component.listContainsVar c.components = false)
    {r : Refusal} (h : readText kind.name value = .error (.refused r)) :
    ((Property.deferred kind "var(--x)" .first).expand vars (some limit)).result =
      .ok (.error ⟨.notReadable, "var(--x)", .first⟩) := by
  rw [readText_eq_bind kind.ofName?_name] at h
  cases hc : Cursor.ofText value with
  | error e =>
    rw [hc] at h
    obtain rfl := Except.error.inj h
    obtain ⟨parsed, hparsed, herrors⟩ := Cursor.errors_of_ofText hc
    refine expand_call_of_refused hlookup hlimit ?_
    simp [substitute, bind, Except.bind, pure, Except.pure, hparsed, herrors]
  | ok c =>
    rw [hc] at h
    have hread : kind.readCursor c = .error (.refused r) := h
    obtain ⟨hpass, -, hreread⟩ := substitute_and_reread kind hc (hvar c hc) vars
    rw [hread] at hreread
    split at hpass
    next => exact expand_call_of_refused hlookup hlimit hpass
    next => exact expand_call_of_nothing hlookup hlimit hpass hreread

/-- **Indirection through a custom property is transparent.**  The call of a custom property is
deferred by every kind of property.  Where the value of the custom property has no `var()` call, the
deferred call expands to what is read directly from the value, and where the value is refused, so is
the call, as not readable and with its own text and place. -/
theorem expand_indirect (kind : PropertyKind) (hlookup : vars.lookup "--x" = some value)
    (hlimit : 2 ≤ limit)
    (hvar : ∀ c, Cursor.ofText value = .ok c → Component.listContainsVar c.components = false) :
    readText kind.name "var(--x)" = .ok [.deferred kind "var(--x)" .first] ∧
    (∀ ps, readText kind.name value = .ok ps →
      ((Property.deferred kind "var(--x)" .first).expand vars (some limit)).result =
        .ok (.ok ps)) ∧
    ∀ r, readText kind.name value = .error (.refused r) →
      ((Property.deferred kind "var(--x)" .first).expand vars (some limit)).result =
        .ok (.error ⟨.notReadable, "var(--x)", .first⟩) :=
  ⟨readText_call kind, fun _ => expand_call_of_readText hlookup hlimit hvar,
    fun _ => expand_call_of_readText_refused hlookup hlimit hvar⟩

/-- A number is read in place of its call, and with a bracket too many it is refused there. -/
theorem expand_indirect_zIndex :
    ((Property.deferred (.longhand .zIndex) "var(--x)" .first).expand
      ⟨[[("--x", "5")]]⟩ (some 2)).result = .ok (.ok [.longhand .zIndex (.exact (.integer 5))]) ∧
    ((Property.deferred (.longhand .zIndex) "var(--x)" .first).expand
      ⟨[[("--x", "5]")]]⟩ (some 2)).result =
        .ok (.error ⟨.notReadable, "var(--x)", .first⟩) := by
  have hnoCall : ∀ value, (Cursor.ofText value).map (fun c =>
      Component.listContainsVar c.components) = .ok false →
      ∀ c, Cursor.ofText value = .ok c → Component.listContainsVar c.components = false := by
    intro value h c hc
    rw [hc] at h
    exact Except.ok.inj h
  have hnumber : readText (PropertyKind.longhand .zIndex).name "5" =
      .ok [.longhand .zIndex (.exact (.integer 5))] := by decide +kernel
  have hbracket : readText (PropertyKind.longhand .zIndex).name "5]" =
      .error (.invalid (.unexpected "]") ⟨1, 2⟩) := by decide +kernel
  have hfive : (Variables.mk [[("--x", "5")]]).lookup "--x" = some "5" := by decide
  have hclosed : (Variables.mk [[("--x", "5]")]]).lookup "--x" = some "5]" := by decide
  obtain ⟨-, hread, -⟩ := expand_indirect (.longhand .zIndex) hfive (Int.le_refl 2)
    (hnoCall _ (by decide +kernel))
  obtain ⟨-, -, hrefused⟩ := expand_indirect (.longhand .zIndex) hclosed (Int.le_refl 2)
    (hnoCall _ (by decide +kernel))
  exact ⟨hread _ hnumber, hrefused _ hbracket⟩

end Declaration

end Styling
