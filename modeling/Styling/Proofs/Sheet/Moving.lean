import Styling.Proofs.Property.Placement
import Styling.Proofs.Sheet.Reading

/-!
# Rules are read alike wherever they stand

The rules of a text that stands in another one are read as they are read alone: their selectors,
their custom properties and their properties are the same.  Only the locations of deferred values
and of refusals differ, and what is refused is skipped.

* `Rule.unplaced` leaves out the locations in a rule and its number.
* `Selector.alike_listOfCursor` is about selectors, `Stylesheet.readDeclarations_shift` about the
  declarations of a block.
* `Stylesheet.readRules_shift` collects the rules.
-/

namespace Styling

/-- The rule without the locations of what it declares and without its number. -/
def Rule.unplaced (r : Rule) : Rule :=
  { r with properties := r.properties.map Property.unplaced, order := 0 }

variable {S T : Source} {k : Nat}

/-! ## Selectors -/

namespace Selector

/-- A component that is neither a name, a colon nor whitespace is read alike, if what is behind it
is. -/
theorem alike_mark (h : S.Shows T k) {c : Component} (hc : c.Within T.length)
    {f g : Partial → Except Refusal Selector} (hrest : ∀ p, Alike Refusal.unplaced (f p) (g p))
    (p : Partial) :
    Alike Refusal.unplaced
      (if (c.shift k).isTokenOf (·.isDelim ">") then f { p with waiting := some .child }
      else if (c.shift k).isTokenOf (·.isDelim "*") then f (p.push .wildcard)
      else if (c.shift k).isTokenOf (·.isDelim ".") then f p
      else .error (.invalid (.unexpected (S.textOf (c.shift k))) (S.locationOf (c.shift k))))
      (if c.isTokenOf (·.isDelim ">") then g { p with waiting := some .child }
      else if c.isTokenOf (·.isDelim "*") then g (p.push .wildcard)
      else if c.isTokenOf (·.isDelim ".") then g p
      else .error (.invalid (.unexpected (T.textOf c)) (T.locationOf c))) := by
  simp only [Component.isTokenOf_shift, h.textOf_shift hc]
  split_ifs
  · exact hrest _
  · exact hrest _
  · exact hrest _
  · exact .error rfl

/-- A chain is read alike wherever it stands. -/
theorem alike_ofComponents (h : S.Shows T k) (stop stop' : Nat) (p : Partial) {cs : List Component}
    (hcs : ∀ c ∈ cs, c.Within T.length) :
    Alike Refusal.unplaced (ofComponents S stop p (cs.map (Component.shift k)))
      (ofComponents T stop' p cs) := by
  induction hn : cs.length using Nat.strongRecOn generalizing cs p with
  | ind n ih =>
    cases cs with
    | nil =>
      rw [List.map_nil, ofComponents, ofComponents]
      cases p.finish? with
      | some s => exact .ok s
      | none => exact .error rfl
    | cons c cs =>
      obtain ⟨hc, htail⟩ := List.forall_mem_cons.mp hcs
      rw [List.length_cons] at hn
      have hrest : ∀ p, Alike Refusal.unplaced
          (ofComponents S stop p (cs.map (Component.shift k))) (ofComponents T stop' p cs) :=
        fun p => ih cs.length (by omega) p htail rfl
      have hmark := alike_mark h hc hrest p
      cases c with
      | group opener opened children ending =>
        rw [List.map_cons, Component.shift_group] at *
        exact hmark
      | token t =>
        obtain ⟨kind, span⟩ := t
        rw [Component.shift_token] at hmark
        rw [List.map_cons, Component.shift_token]
        cases kind with
        | whitespace content => exact hrest _
        | ident name => exact hrest _
        | colon =>
          cases cs with
          | nil => exact .error rfl
          | cons next rest =>
            rw [List.map_cons]
            cases next with
            | group opener opened children ending =>
              rw [Component.shift_group]
              exact .error rfl
            | token u =>
              obtain ⟨word, span'⟩ := u
              rw [Component.shift_token]
              cases word with
              | ident name =>
                rw [List.length_cons] at hn
                simp only [Token.shift, ofComponents]
                cases PseudoClass.ofName? (Text.lowercase name) with
                | none => exact .error rfl
                | some pseudo =>
                  exact ih rest.length (by omega) _ (List.forall_mem_cons.mp htail).2 rfl
              | _ => exact .error rfl
        | _ => exact hmark

/-- Chains between commas are read alike wherever they stand. -/
theorem alike_listOfCursor {c d : Cursor} (h : c.Shown S T k d) :
    Alike Refusal.unplaced (listOfCursor c) (listOfCursor d) := by
  refine .mapM (h.commaParts.imp fun part part' hpart => ?_)
  rw [hpart.source, hpart.source', hpart.components]
  exact alike_ofComponents hpart.shows _ _ _ hpart.within

end Selector

/-! ## Declarations -/

/-- Two chains of computations with the same results up to what is left out. -/
theorem Traced.map_result_bind {ε α β γ δ : Type} {x y : Traced ε α} {f g : α → Traced ε β}
    {p : α → γ} {q : β → δ} (hxy : x.result.map p = y.result.map p)
    (hfg : ∀ a b, p a = p b → (f a).result.map q = (g b).result.map q) :
    (x >>= f).result.map q = (y >>= g).result.map q := by
  cases hx : x.result with
  | error e =>
    cases hy : y.result with
    | error e' =>
      rw [hx, hy] at hxy
      rw [bind_result_of_error hx, bind_result_of_error hy]
      exact congrArg Except.error (Except.error.inj hxy)
    | ok b =>
      rw [hx, hy] at hxy
      exact absurd hxy (by simp [Except.map])
  | ok a =>
    cases hy : y.result with
    | error e' =>
      rw [hx, hy] at hxy
      exact absurd hxy (by simp [Except.map])
    | ok b =>
      rw [hx, hy] at hxy
      rw [bind_result_of_ok hx, bind_result_of_ok hy]
      exact hfg a b (Except.ok.inj hxy)

namespace DeclarationSyntax

variable {d : DeclarationSyntax}

/-- Cursors at the value of a declaration that was moved. -/
theorem shown_cursor (h : S.Shows T k) (hd : ∀ c ∈ d.value, c.Within T.length) :
    Cursor.Shown S T k ((d.shift k).cursor S) (d.cursor T) :=
  .ofComponents h hd _ _

/-- The text of a value that was moved. -/
theorem remaining_cursor_shift (h : S.Shows T k) (hd : ∀ c ∈ d.value, c.Within T.length) :
    ((d.shift k).cursor S).remaining = (d.cursor T).remaining := by
  cases hlast : d.value.getLast? with
  | none =>
    have hnil := List.getLast?_eq_none_iff.mp hlast
    have hempty : (d.cursor T).rest = [] := hnil
    have hshown := (shown_cursor h hd).rest
    rw [hempty] at hshown
    simp only [Cursor.remaining, hempty, hshown, List.map_nil]
  | some last =>
    have hle : d.stop ≤ T.length := by
      rw [stop, hlast]
      exact (hd last (List.mem_of_getLast? hlast)).stop_le
    exact (shown_cursor h hd).remaining (stop_shift k d) hle

end DeclarationSyntax

namespace Stylesheet

/-- What was declared, without locations. -/
def unplacedDeclared (declared : List Property × VariableLayer) : List Property × VariableLayer :=
  (declared.1.map Property.unplaced, declared.2)

theorem unplacedDeclared_eq_iff {ps qs : List Property} {vars vars' : VariableLayer} :
    unplacedDeclared (ps, vars) = unplacedDeclared (qs, vars') ↔
      ps.map Property.unplaced = qs.map Property.unplaced ∧ vars = vars' :=
  Prod.ext_iff

/-- A declaration is read alike wherever it stands. -/
theorem readDeclaration_shift (h : S.Shows T k) (file : Option String) {d : DeclarationSyntax}
    (hd : ∀ c ∈ d.value, c.Within T.length) :
    (readDeclaration S file (d.shift k)).result.map unplacedDeclared =
      (readDeclaration T file d).result.map unplacedDeclared := by
  have hremaining := DeclarationSyntax.remaining_cursor_shift h hd
  have hraw : (d.shift k).raw S = d.raw T := hremaining
  have hread := Declaration.unplaced_read d.name (DeclarationSyntax.shown_cursor h hd) hremaining
  have hcustom : (d.shift k).isCustom = d.isCustom := rfl
  have hname : (d.shift k).name = d.name := rfl
  rw [readDeclaration_result, readDeclaration_result, hraw, hcustom, hname]
  split
  · rfl
  · generalize Declaration.read d.name ((d.shift k).cursor S) = x at hread
    generalize Declaration.read d.name (d.cursor T) = y at hread
    cases x with
    | ok ps =>
      cases y with
      | ok qs =>
        exact congrArg (fun ps => Except.ok (ps, ([] : VariableLayer))) (Except.ok.inj hread)
      | error e => exact absurd hread (by simp [Declaration.unplaced])
    | error e =>
      cases y with
      | ok qs => exact absurd hread (by simp [Declaration.unplaced])
      | error e' =>
        have herror : e.unplaced = e'.unplaced := Except.error.inj hread
        cases e <;> cases e' <;>
          first
          | rfl
          | exact congrArg Except.error (ReadError.fault.inj herror)
          | exact absurd herror (by simp [ReadError.unplaced])

theorem readDeclarations_shift (h : S.Shows T k) (file : Option String)
    {ds : List DeclarationSyntax} (hds : ∀ d ∈ ds, ∀ c ∈ d.value, c.Within T.length) :
    (readDeclarations S file (ds.map (DeclarationSyntax.shift k))).result.map unplacedDeclared =
      (readDeclarations T file ds).result.map unplacedDeclared := by
  induction ds with
  | nil => rfl
  | cons d ds ih =>
    obtain ⟨hd, hds⟩ := List.forall_mem_cons.mp hds
    rw [List.map_cons, readDeclarations, readDeclarations]
    refine Traced.map_result_bind (readDeclaration_shift h file hd) ?_
    rintro ⟨ps, vars⟩ ⟨qs, vars'⟩ hfirst
    refine Traced.map_result_bind (ih hds) ?_
    rintro ⟨ps', more⟩ ⟨qs', more'⟩ hrest
    obtain ⟨hps, rfl⟩ := unplacedDeclared_eq_iff.mp hfirst
    obtain ⟨hps', rfl⟩ := unplacedDeclared_eq_iff.mp hrest
    simp [unplacedDeclared, Except.map, hps, hps']

/-- A block is read alike wherever it stands. -/
theorem readBlock_shift (h : S.Shows T k) (file : Option String) {cs : List Component}
    (hcs : ∀ c ∈ cs, c.Within T.length) :
    (readBlock S file (cs.map (Component.shift k))).result.map unplacedDeclared =
      (readBlock T file cs).result.map unplacedDeclared := by
  have hwithin : ∀ d ∈ (DeclarationSyntax.ofComponents T cs).value, ∀ c ∈ d.value,
      c.Within T.length :=
    fun d hd c hc => hcs c ((DeclarationSyntax.isInfix_value hd).mem hc)
  have hdeclarations := readDeclarations_shift h file hwithin
  rwa [← DeclarationSyntax.value_ofComponents_shift S] at hdeclarations

end Stylesheet

/-! ## Rules -/

namespace RuleSyntax

/-- What is inside the rule ends within a text. -/
structure Within (n : Nat) (r : RuleSyntax) : Prop where
  prelude : ∀ c ∈ r.prelude, c.Within n
  block : ∀ block, r.block = some block → ∀ c ∈ block.children, c.Within n

/-- What was read of the prelude of a rule. -/
def State.held : State → List Component
  | between => []
  | inside _ _ prelude => prelude

theorem State.held_step {P : Component → Prop} {state : State} {c : Component}
    (hheld : ∀ x ∈ state.held, P x) (hc : P c) :
    (∀ x ∈ (state.step c).1.held, P x) ∧ ∀ r ∈ (state.step c).2, ∀ x ∈ r.prelude, P x := by
  have hinside : ∀ head start prelude, (∀ x ∈ prelude, P x) →
      (∀ x ∈ (stepInside head start prelude c).1.held, P x) ∧
        ∀ r ∈ (stepInside head start prelude c).2, ∀ x ∈ r.prelude, P x := by
    intro head start prelude hprelude
    unfold stepInside
    split
    · simpa [held, emit] using hprelude
    · split
      · simpa [held, emit] using hprelude
      · simpa [held] using ⟨hc, hprelude⟩
  unfold step
  split
  · simp [held]
  · simp [held]
  · simp [held]
  · simp [held]
  · exact hinside _ _ _ hheld
  · exact hinside _ _ _ hheld

/-- A prelude is made of the components of the text. -/
theorem prelude_ofComponents {P : Component → Prop} {source : Source} {state : State}
    {cs : List Component} (hheld : ∀ x ∈ state.held, P x) (hcs : ∀ c ∈ cs, P c) :
    ∀ r ∈ (ofComponents source state cs).value, ∀ x ∈ r.prelude, P x := by
  induction cs generalizing state with
  | nil =>
    rw [ofComponents]
    cases state with
    | between => exact fun r hr => absurd hr List.not_mem_nil
    | inside head start prelude =>
      cases head with
      | qualified => exact fun r hr => absurd hr List.not_mem_nil
      | atRule name => simpa [State.finish, State.emit, State.held] using hheld
  | cons c cs ih =>
    obtain ⟨hc, hcs⟩ := List.forall_mem_cons.mp hcs
    obtain ⟨hnext, hdone⟩ := State.held_step hheld hc
    rw [ofComponents]
    intro r hr
    rcases List.mem_append.mp hr with hr | hr
    · exact hdone r (Option.mem_toList.mp hr)
    · exact ih hnext hcs r hr

theorem within_ofComponents {source : Source} {n : Nat} {cs : List Component}
    (hcs : ∀ c ∈ cs, c.Within n) : ∀ r ∈ (ofComponents source .between cs).value, r.Within n := by
  refine fun r hr => ⟨?_, fun block hblock c hc => ?_⟩
  · exact prelude_ofComponents (fun x hx => absurd hx List.not_mem_nil) hcs r hr
  · obtain ⟨d, hd, hchildren⟩ := exists_children_of_block hr hblock
    exact (hcs d hd).of_mem_children (hchildren ▸ hc)

end RuleSyntax

/-- The rules of a text end within it. -/
theorem Source.within_of_rules {parsed : Parsed (List RuleSyntax)} (h : T.rules = .ok parsed) :
    ∀ r ∈ parsed.value, r.Within T.length := by
  obtain ⟨components, hcomponents, rfl⟩ := rules_eq_ok_iff.mp h
  exact RuleSyntax.within_ofComponents (within_of_components hcomponents)

namespace Stylesheet

/-- A rule is read alike wherever it stands. -/
theorem readRule_shift (h : S.Shows T k) (file : Option String) {r : RuleSyntax}
    (hr : r.Within T.length) :
    (readRule S file (r.shift k)).result.map (List.map Rule.unplaced) =
      (readRule T file r).result.map (List.map Rule.unplaced) := by
  obtain ⟨head, start, prelude, block⟩ := r
  cases head with
  | atRule name => rfl
  | qualified =>
    cases block with
    | none => rfl
    | some block =>
      have hskipped : ∀ e e' : Event, (do
          Traced.report e
          Traced.report e'
          return [] : Traced Fault (List Rule)).result = .ok [] := fun _ _ => rfl
      have hselectors := Selector.alike_listOfCursor
        (.ofComponents h hr.prelude (block.shift k).start block.start)
      simp only [RuleSyntax.shift, Option.map_some, readRule]
      generalize Selector.listOfCursor (.ofComponents S _ (block.shift k).start) = x at hselectors ⊢
      generalize Selector.listOfCursor (.ofComponents T prelude block.start) = y at hselectors ⊢
      cases hselectors with
      | error _ => rw [hskipped, hskipped]
      | ok selectors =>
        refine Traced.map_result_bind (readBlock_shift h file (hr.block block rfl)) ?_
        rintro ⟨ps, vars⟩ ⟨qs, vars'⟩ hdeclared
        obtain ⟨hps, rfl⟩ := unplacedDeclared_eq_iff.mp hdeclared
        simp [Except.map, Rule.unplaced, Rule.ofSelector, hps]

/-- **Rules are read alike wherever they stand**: in a text that shows another one they come to the
same fault or to the same rules, up to locations. -/
theorem readRules_shift (h : S.Shows T k) (file : Option String) {rs : List RuleSyntax}
    (hrs : ∀ r ∈ rs, r.Within T.length) :
    (readRules S file (rs.map (RuleSyntax.shift k))).result.map (List.map Rule.unplaced) =
      (readRules T file rs).result.map (List.map Rule.unplaced) := by
  induction rs with
  | nil => rfl
  | cons r rs ih =>
    obtain ⟨hr, hrs⟩ := List.forall_mem_cons.mp hrs
    rw [List.map_cons, readRules, readRules]
    refine Traced.map_result_bind (readRule_shift h file hr) fun first first' hfirst => ?_
    refine Traced.map_result_bind (ih hrs) fun more more' hmore => ?_
    simp only [Traced.pure_result, Except.map, List.map_append, hfirst, hmore]

end Stylesheet

end Styling
