import Styling.Proofs.Grammar.Moving
import Styling.Proofs.Syntax.Numbers
import Styling.Proofs.Syntax.Slicing
import Styling.Sheet.Stylesheet

/-!
# A declaration means the same inside a sheet and on its own

In a sheet the value of a declaration is read from components that were cut out of the sheet.  Later
on, and in an assignment to a single property, it is read from a text of its own.  Both come to the
same properties or to the same refusal: the text of the value has the same components, only moved,
and no grammar sees where a component stands.  What is left out of account are the locations of
refusals and of deferred values, which tell places in different texts.

* `Property.unplaced` and `Declaration.unplaced` leave these locations out.
* `Declaration.unplaced_read` is about cursors at the same place of two texts.
* `Declaration.read_eq_readText` is the statement about the declarations of a sheet.
-/

namespace Styling

/-! ## Properties without locations -/

/-- What is declared, without its location. -/
def PropertyValue.unplaced : PropertyValue → PropertyValue
  | deferred raw _ => deferred raw .first
  | value => value

theorem PropertyValue.isExact_unplaced (value : PropertyValue) :
    value.unplaced.isExact = value.isExact := by
  cases value <;> rfl

/-- The property without the location of what is declared. -/
def Property.unplaced (p : Property) : Property :=
  ⟨p.kind, p.value.unplaced, fun h => p.exact_longhand (p.value.isExact_unplaced ▸ h)⟩

/-- A declaration that was read, without locations. -/
def Declaration.unplaced : Except ReadError (List Property) → Except ReadError (List Property)
  | .ok properties => .ok (properties.map Property.unplaced)
  | .error e => .error e.unplaced

/-! ## Readers of values -/

variable {S T : Source} {k : Nat} {c d : Cursor}

namespace Reader

variable {α : Type} {R : α → α → Prop}

/-- A lone keyword is found at both places, or nothing is taken at either. -/
theorem alike_isKeywordExhausted (hcd : c.Shown S T k d) (word : String) {f g : Bool → Reader α}
    (hfound : MovesTo S T k R (f true) (g true)) (hmissed : Alike S T k R (f false c) (g false d)) :
    Alike S T k R ((isKeywordExhausted word >>= f) c) ((isKeywordExhausted word >>= g) d) := by
  rw [bind_apply, bind_apply]
  cases hd : d.peek with
  | none =>
    rw [isKeywordExhausted_of_peek_none hd, isKeywordExhausted_of_peek_none (hcd.peek_none hd)]
    exact hmissed
  | some x =>
    rw [isKeywordExhausted_of_peek hd, isKeywordExhausted_of_peek (hcd.peek_some hd).1,
      Component.isKeyword_shift, hcd.advance.isExhausted]
    cases x.isKeyword word && d.advance.isExhausted with
    | true => exact hfound _ _ hcd.advance
    | false => exact hmissed

/-- A value is read alike or deferred at both places, with the same text if the same text
remains. -/
theorem alike_exactOrDeferred {r : Reader α} (h : Moves S T k r r)
    {deferred : String → Location → α}
    (hvalue : ∀ a, R a a) (hdeferred : ∀ raw l l', R (deferred raw l) (deferred raw l'))
    (hcd : c.Shown S T k d) (hremaining : c.remaining = d.remaining) :
    Alike S T k R (exactOrDeferred r deferred c) (exactOrDeferred r deferred d) := by
  have hwhole := MovesTo.whole h c d hcd
  rw [exactOrDeferred, exactOrDeferred, EStateM.run, EStateM.run]
  generalize (do let a ← r; expectExhausted; return a : Reader α) c = x at hwhole
  generalize (do let a ← r; expectExhausted; return a : Reader α) d = y at hwhole
  cases hwhole with
  | ok value cursor => exact .ok (value ▸ hvalue _) cursor
  | @error e e' c' d' he =>
    have hdefer : Alike S T k R (.ok (deferred c.remaining c.location) c.toEnd)
        (.ok (deferred d.remaining d.location) d.toEnd) :=
      .ok (hremaining ▸ hdeferred _ _ _) hcd.toEnd
    cases e with
    | fault f =>
      cases e' with
      | fault f' => exact .error _ _ he
      | refused r' => exact absurd he (by simp [ReadError.unplaced])
    | refused r =>
      cases e' with
      | fault f' => exact absurd he (by simp [ReadError.unplaced])
      | refused r' =>
        cases r <;> cases r' <;>
          first
          | exact hdefer
          | exact .error _ _ he
          | exact absurd he (by simp [ReadError.unplaced, Refusal.unplaced])

end Reader

/-- The properties of a value are read alike up to the locations of deferred ones. -/
theorem PropertyKind.alike_read (kind : PropertyKind) (hcd : c.Shown S T k d)
    (hremaining : c.remaining = d.remaining) :
    Reader.Alike S T k (fun ps qs => ps.map Property.unplaced = qs.map Property.unplaced)
      (kind.read c) (kind.read d) := by
  cases kind with
  | shorthand s =>
    rw [read]
    exact Reader.alike_exactOrDeferred s.moves_reader (fun _ => rfl) (fun _ _ _ => rfl) hcd
      hremaining
  | longhand l =>
    refine Reader.alike_isKeywordExhausted hcd _ (.pure rfl) ?_
    refine Reader.alike_isKeywordExhausted hcd _ (.pure rfl) ?_
    have hvalue : Reader.Alike S T k
        (fun v w : PropertyValue => v.unplaced = w.unplaced)
        (Reader.exactOrDeferred l.reader .deferred c)
        (Reader.exactOrDeferred l.reader .deferred d) :=
      Reader.alike_exactOrDeferred l.moves_reader (fun _ => rfl) (fun _ _ _ => rfl) hcd hremaining
    simp only [Bool.false_eq_true, if_false, Reader.bind_apply]
    generalize Reader.exactOrDeferred l.reader .deferred c = x at hvalue
    generalize Reader.exactOrDeferred l.reader .deferred d = y at hvalue
    cases hvalue with
    | @ok v w c' d' value cursor =>
      refine .ok ?_ cursor
      have hproperty : (Property.longhand l v).unplaced = (Property.longhand l w).unplaced := by
        simp only [Property.unplaced, Property.longhand, value]
      exact congrArg (fun p => [p]) hproperty
    | error c' d' h => exact .error c' d' h

namespace Declaration

/-- **Reading a declaration depends on no place**: at the same place of two texts it comes to the
same, up to locations. -/
theorem unplaced_read (name : String) (hcd : c.Shown S T k d)
    (hremaining : c.remaining = d.remaining) : unplaced (read name c) = unplaced (read name d) := by
  unfold read
  cases PropertyKind.ofName? name with
  | none => rfl
  | some kind =>
    have hread := kind.alike_read hcd hremaining
    simp only [PropertyKind.readCursor, EStateM.run]
    generalize kind.read c = x at hread
    generalize kind.read d = y at hread
    cases hread with
    | ok value cursor => exact congrArg Except.ok value
    | error c' d' h => exact congrArg Except.error h

end Declaration

/-! ## The text of a value -/

namespace Cursor

/-- The text of a run of components, read on its own, has the components of the run. -/
theorem exists_ofText_slice {text : String} {cs run : List Component} {first last : Component}
    (hcomponents : (Source.ofString text).components = .ok ⟨cs, []⟩)
    (hrun : (Source.ofString text).HoldsRun run) (hfirst : run.head? = some first)
    (hlast : run.getLast? = some last) :
    ∃ c, ofText ((Source.ofString text).slice first.start last.stop) = .ok c ∧
      Shown (.ofString text) c.source first.start
        (ofComponents (.ofString text) run last.stop) c ∧
      last.stop = c.stop + first.start ∧ c.stop ≤ c.source.length := by
  obtain ⟨ds, hds, rfl⟩ := Source.HoldsRun.components_slice hcomponents rfl hrun hfirst hlast
  have hsource := Source.ofString_slice text first.start last.stop
  have hshows := (Source.ofString text).shows_sliceChars first.start last.stop
  rw [← hsource] at hds hshows
  have hwithin := Source.within_of_components hds
  refine ⟨_, ofText_eq_ok.mpr ⟨_, hds, rfl, rfl⟩, .ofComponents hshows hwithin _ _, ?_, le_rfl⟩
  -- The last component ends where its text does, since it is not cut off.
  rw [List.getLast?_map] at hlast
  obtain ⟨l, hl, rfl⟩ := Option.map_eq_some_iff.mp hlast
  have hle := (hwithin l (List.mem_of_getLast? hl)).stop_le
  rw [Component.stop_shift] at hle hsource ⊢
  rw [hsource, Source.length, Source.sliceChars, List.length_take] at hle
  simp only [ofComponents, hsource, Source.length, Source.sliceChars, List.length_take]
  omega

end Cursor

namespace DeclarationSyntax

/-- The text from the first to the last component of the value. -/
def valueText (source : Source) (d : DeclarationSyntax) : String :=
  match d.value.head?, d.value.getLast? with
  | some first, some last => source.slice first.start last.stop
  | _, _ => ""

/-- The text of a value, read on its own, has the components of the value. -/
theorem exists_ofText_valueText {text : String} {d : DeclarationSyntax} {cs : List Component}
    (hcomponents : (Source.ofString text).components = .ok ⟨cs, []⟩)
    (hrun : (Source.ofString text).HoldsRun d.value) :
    ∃ c k, Cursor.ofText (d.valueText (.ofString text)) = .ok c ∧
      Cursor.Shown (.ofString text) c.source k (.ofComponents (.ofString text) d.value d.stop) c ∧
      (Cursor.ofComponents (.ofString text) d.value d.stop).remaining = c.remaining := by
  cases hlast : d.value.getLast? with
  | none =>
    have hnil := List.getLast?_eq_none_iff.mp hlast
    have hempty : Cursor.ofText "" = .ok (.ofComponents (.ofString "") [] 0) :=
      Cursor.ofText_eq_ok.mpr ⟨⟨[], []⟩, by cbv, rfl, rfl⟩
    have hchars : (Source.ofString text).chars =
        [] ++ ((Source.ofString "").chars ++ (Source.ofString text).chars) := rfl
    have hshows : (Source.ofString text).Shows (.ofString "") 0 :=
      Source.shows_of_append hchars rfl
    simp only [valueText, hnil, List.head?_nil]
    exact ⟨_, 0, hempty, .ofComponents hshows (fun _ hx => absurd hx List.not_mem_nil) _ _, rfl⟩
  | some last =>
    cases hfirst : d.value.head? with
    | none => exact absurd (List.head?_eq_none_iff.mp hfirst ▸ hlast) (by simp)
    | some first =>
      obtain ⟨c, hc, hshown, hstop, hle⟩ :=
        Cursor.exists_ofText_slice hcomponents hrun hfirst hlast
      simp only [valueText, stop, hfirst, hlast]
      exact ⟨c, first.start, hc, hshown, hshown.remaining hstop hle⟩

end DeclarationSyntax

/-- The value of a declaration in a block is a run of components of its text. -/
theorem Source.holdsRun_value {s : Source} {parsed : Parsed (List RuleSyntax)} {r : RuleSyntax}
    {block : BlockSyntax} {d : DeclarationSyntax} (h : s.rules = .ok parsed)
    (herrors : parsed.errors = []) (hr : r ∈ parsed.value) (hblock : r.block = some block)
    (hd : d ∈ (DeclarationSyntax.ofComponents s block.children).value) :
    ∃ cs, s.components = .ok ⟨cs, []⟩ ∧ s.HoldsRun d.value := by
  obtain ⟨components, hcomponents, rfl⟩ := rules_eq_ok_iff.mp h
  obtain ⟨hnone, -⟩ := List.append_eq_nil_iff.mp herrors
  obtain ⟨c, hc, hchildren⟩ := RuleSyntax.exists_children_of_block hr hblock
  refine ⟨components.value, by rw [hcomponents, ← hnone], ?_⟩
  have hblockRun := (holdsRun_of_components hcomponents hnone).children hc
  exact hblockRun.of_infix (hchildren ▸ DeclarationSyntax.isInfix_value hd)

/-- **A declaration means the same inside a sheet and on its own.**  In a sheet without syntax
errors, a declaration of a block is read as the text of its value is read under its name: to the
same properties, or to the same refusal or fault, up to locations. -/
theorem Declaration.read_eq_readText {text : String} {parsed : Parsed (List RuleSyntax)}
    {r : RuleSyntax} {block : BlockSyntax} {d : DeclarationSyntax}
    (hrules : (Source.ofString text).rules = .ok parsed) (herrors : parsed.errors = [])
    (hr : r ∈ parsed.value) (hblock : r.block = some block)
    (hd : d ∈ (DeclarationSyntax.ofComponents (.ofString text) block.children).value) :
    unplaced (read d.name (.ofComponents (.ofString text) d.value d.stop)) =
      unplaced (readText d.name (d.valueText (.ofString text))) := by
  obtain ⟨cs, hcomponents, hrun⟩ := Source.holdsRun_value hrules herrors hr hblock hd
  obtain ⟨c, k, hc, hshown, hremaining⟩ :=
    DeclarationSyntax.exists_ofText_valueText hcomponents hrun
  rw [unplaced_read d.name hshown hremaining, readText, hc]
  rfl

/-- A value with a comment behind it is deferred in its sheet and on its own, where it has another
location. -/
theorem Declaration.read_eq_readText_deferred :
    ∃ source parsed r block d,
      source = Source.ofString ".a\x7bcolor:red;z-index: var(--x)/**/ ;\x7d" ∧
      source.rules = .ok parsed ∧ parsed.errors = [] ∧ r ∈ parsed.value ∧ r.block = some block ∧
      d ∈ (DeclarationSyntax.ofComponents source block.children).value ∧
      read d.name (.ofComponents source d.value d.stop) =
        .ok [.deferred (.longhand .zIndex) "var(--x)" ⟨1, 23⟩] ∧
      readText d.name (d.valueText source) =
        .ok [.deferred (.longhand .zIndex) "var(--x)" ⟨1, 1⟩] ∧
      unplaced (read d.name (.ofComponents source d.value d.stop)) =
        unplaced (readText d.name (d.valueText source)) := by
  let source := Source.ofString ".a\x7bcolor:red;z-index: var(--x)/**/ ;\x7d"
  have hsheet : (source.rules.toOption.bind fun parsed =>
      parsed.value.head?.bind fun r => r.block.bind fun block =>
        (DeclarationSyntax.ofComponents source block.children).value[1]?.map fun d =>
          (parsed.errors.length, (read d.name (.ofComponents source d.value d.stop)).toOption,
            (readText d.name (d.valueText source)).toOption)) =
      some (0, some [.deferred (.longhand .zIndex) "var(--x)" ⟨1, 23⟩],
        some [.deferred (.longhand .zIndex) "var(--x)" ⟨1, 1⟩]) := by decide +kernel
  obtain ⟨parsed, hparsed, hsheet⟩ := Option.bind_eq_some_iff.mp hsheet
  obtain ⟨r, hr, hsheet⟩ := Option.bind_eq_some_iff.mp hsheet
  obtain ⟨block, hblock, hsheet⟩ := Option.bind_eq_some_iff.mp hsheet
  obtain ⟨d, hd, hsheet⟩ := Option.map_eq_some_iff.mp hsheet
  simp only [Prod.mk.injEq] at hsheet
  obtain ⟨herrors, hread, halone⟩ := hsheet
  have hrules := eq_ok_of_toOption hparsed
  have hnone := List.eq_nil_of_length_eq_zero herrors
  have hmem := List.mem_of_mem_head? hr
  have hdecl := List.mem_of_getElem? hd
  exact ⟨source, parsed, r, block, d, rfl, hrules, hnone, hmem, hblock, hdecl,
    eq_ok_of_toOption hread, eq_ok_of_toOption halone,
    read_eq_readText hrules hnone hmem hblock hdecl⟩

end Styling
