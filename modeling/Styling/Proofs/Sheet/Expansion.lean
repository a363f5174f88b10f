import Mathlib
import Styling.Proofs.Grammar.Kinds
import Styling.Proofs.Sheet.Faults

/-!
# Properties are expanded once

What a declaration is read as needs no further expansion: a longhand stands for itself, and a
shorthand is spread over longhands at once, unless it waits for custom properties.  When these are
known it is read again and leaves nothing to wait for.  So the cascade comes to the longhands in one
step, whatever a sheet declares.

Only the declaration of the color itself writes the color.  The cascade treats these declarations
first, and so everything that refers to the color finds it settled.

* `PropertyKind.Declares` is what a kind of property may be read as, and
  `PropertyKind.declares_of_readCursor` says that it is read as nothing else.
* `Property.isSettled_of_expand` is about the expansion of what was read.
* `Cascade.compute_eq_colorPass` splits the cascade after the color, and
  `Cascade.get_color_of_colorPass` is about all that comes after it.
* `Stylesheet.expands_once` puts these together.
-/

namespace Styling

/-! ## Declarations -/

namespace PropertyKind

/-- What a kind of property may be read as: a longhand declares itself; a shorthand is deferred as
a whole, or declares longhands it covers, and all of them unless it is a line. -/
def Declares (ps : List Property) : PropertyKind → Prop
  | longhand l => ∃ value, ps = [.longhand l value]
  | shorthand s =>
    (∃ raw location, ps = [.deferred (shorthand s) raw location]) ∨
      ((∀ p ∈ ps, p.IsSettled s.longhands) ∧
        (s.isStroke = false → (ps.map Property.kind).Perm (s.longhands.map longhand)))

variable {kind : PropertyKind} {c c' : Cursor} {ps : List Property}

/-- A longhand is read as one property. -/
theorem exists_of_read_longhand {l : Longhand} (h : (longhand l).read c = .ok ps c') :
    ∃ value, ps = [.longhand l value] := by
  rcases read_longhand_cases l c with ⟨-, value, -, -, -, hread⟩ | hread
  · obtain ⟨rfl, -⟩ := EStateM.Result.ok.inj (hread.symm.trans h)
    exact ⟨value, rfl⟩
  · obtain ⟨value, d, -, h⟩ := Reader.exists_of_bind (hread.symm.trans h)
    obtain ⟨rfl, -⟩ := EStateM.Result.ok.inj h
    exact ⟨value, rfl⟩

/-- What is read or deferred is deferred, or read as a whole. -/
theorem exists_of_exactOrDeferred {α : Type} {r : Reader α} {deferred : String → Location → α}
    {a : α} (h : r.exactOrDeferred deferred c = .ok a c') :
    (∃ raw location, a = deferred raw location) ∨ ∃ d, r c = .ok a d := by
  rw [Reader.exactOrDeferred, EStateM.run] at h
  split at h
  next => exact Or.inl ⟨_, _, (EStateM.Result.ok.inj h).1.symm⟩
  next =>
    obtain ⟨b, d, hr, h⟩ := Reader.exists_of_bind h
    obtain ⟨-, d', -, h⟩ := Reader.exists_of_bind h
    obtain ⟨rfl, -⟩ := EStateM.Result.ok.inj h
    exact Or.inr ⟨d, hr⟩

/-- A kind of property declares distinct kinds. -/
theorem nodup_of_readCursor (h : kind.readCursor c = .ok ps) : (ps.map Property.kind).Nodup := by
  obtain ⟨d, hread⟩ := readCursor_eq_ok_iff.mp h
  cases kind with
  | longhand l =>
    obtain ⟨value, rfl⟩ := exists_of_read_longhand hread
    exact List.nodup_singleton _
  | shorthand s =>
    rw [read] at hread
    rcases exists_of_exactOrDeferred hread with ⟨raw, location, rfl⟩ | ⟨d', hreader⟩
    · exact List.nodup_singleton _
    · obtain ⟨ks, hperm, hsub⟩ := Shorthand.subperm_of_reader hreader
      have hall : (s.longhands.map longhand).Nodup :=
        s.nodup_longhands.map fun _ _ heq => PropertyKind.longhand.inj heq
      exact hperm.nodup_iff.mp (hall.sublist hsub)

/-- A kind of property is read as what it may be read as. -/
theorem declares_of_readCursor (h : kind.readCursor c = .ok ps) : kind.Declares ps := by
  obtain ⟨d, hread⟩ := readCursor_eq_ok_iff.mp h
  cases kind with
  | longhand l => exact exists_of_read_longhand hread
  | shorthand s =>
    rw [read] at hread
    have hcases := (shorthand s).readCursor_cases c
    rw [h] at hcases
    rcases hcases with ⟨rfl, -⟩ | ⟨hsettled, -⟩
    · exact Or.inl ⟨_, _, rfl⟩
    · rcases exists_of_exactOrDeferred hread with ⟨raw, location, rfl⟩ | ⟨d', hreader⟩
      · exact Or.inl ⟨raw, location, rfl⟩
      · exact Or.inr ⟨hsettled, fun hs => Shorthand.perm_of_reader hs hreader⟩

/-- Only the color declares the color. -/
theorem eq_color_of_readCursor (h : kind.readCursor c = .ok ps) {p : Property} (hp : p ∈ ps)
    (hcolor : p.kind = .longhand .color) : kind = .longhand .color := by
  have hcases := kind.readCursor_cases c
  rw [h] at hcases
  rcases hcases with ⟨rfl, -⟩ | ⟨hsettled, -⟩
  · obtain rfl := List.mem_singleton.mp hp
    exact hcolor
  · obtain ⟨-, l, hl, hkind⟩ := hsettled p hp
    obtain rfl := PropertyKind.longhand.inj (hkind.symm.trans hcolor)
    by_contra hne
    exact color_notMem_longhands hne hl

end PropertyKind

/-- A declaration is read by the kind of property of its name. -/
theorem Declaration.exists_kind_of_read {name : String} {c : Cursor} {ps : List Property}
    (h : read name c = .ok ps) :
    ∃ kind, PropertyKind.ofName? name = some kind ∧ kind.readCursor c = .ok ps := by
  rw [read] at h
  split at h
  next kind hkind => exact ⟨kind, hkind, h⟩
  next => exact absurd h (by simp)

/-! ## Expansion -/

namespace Property

variable {vars : Variables} {limit : Option Int} {p : Property} {ps : List Property}

/-- What was read is deferred, or a longhand of its own kind. -/
theorem IsRead.isDeferred_or_isSettled_longhands (h : p.IsRead) :
    p.value.isDeferred = true ∨ p.IsSettled p.kind.longhands := by
  rcases h.isDeferred_or_isSettled with hdeferred | ⟨ls, hvalue, l, -, hkind⟩
  · exact Or.inl hdeferred
  · refine Or.inr ⟨hvalue, l, ?_, hkind⟩
    rw [hkind]
    exact List.mem_singleton_self l

/-- What is written for a property that was read are distinct longhands of its kind, none of which
is deferred. -/
theorem isSettled_of_expand (h : p.IsRead) (hexpand : (p.expand vars limit).result = .ok (.ok ps)) :
    (ps.map Property.kind).Nodup ∧ ∀ q ∈ ps, q.IsSettled p.kind.longhands := by
  rcases exists_readCursor_of_expand hexpand with ⟨hvalue, rfl⟩ | ⟨hdeferred, text, c, -, hread⟩
  · refine ⟨List.nodup_singleton _, fun q hq => ?_⟩
    obtain rfl := List.mem_singleton.mp hq
    exact h.isDeferred_or_isSettled_longhands.resolve_left fun hdeferred =>
      Bool.false_ne_true (hvalue.symm.trans hdeferred)
  · exact ⟨PropertyKind.nodup_of_readCursor hread,
      PropertyKind.isSettled_of_readCursor hdeferred hread⟩

/-- A property that is not deferred is written as it is. -/
theorem expand_of_not_isDeferred (h : p.value.isDeferred = false) (vars : Variables)
    (limit : Option Int) : p.expand vars limit = pure (.ok [p]) := by
  rw [expand]
  cases hvalue : p.value with
  | deferred raw location =>
    rw [hvalue] at h
    exact absurd h (by simp [PropertyValue.isDeferred])
  | _ => rfl

end Property

/-! ## The two passes -/

namespace Cascade

variable (rules : List Rule) (parent : Option Style) (parentVariables : Option Variables)
  (limit : Option Int) (file : Option String)

/-- The first pass of the cascade, which writes the color. -/
def colorPass : Traced CascadeError Computed :=
  ((declared rules).filter isColor).foldlM (Computed.writeExpanded parent limit file)
    (.start parent parentVariables ((Rule.cascadeOrder rules).flatMap Rule.vars))

/-- The cascade is the first pass and then everything else. -/
theorem compute_eq_colorPass :
    compute rules parent parentVariables limit file =
      colorPass rules parent parentVariables limit file >>=
        ((declared rules).filter fun p => !isColor p).foldlM
          (Computed.writeExpanded parent limit file) := by
  rw [compute, writes, List.foldlM_append]
  rfl

/-- What is not declared for the color leaves it as it is. -/
theorem get_color_of_foldlM {ps : List Property} {c c' : Computed}
    (hps : ∀ p ∈ ps, isColor p = false)
    (h : (ps.foldlM (Computed.writeExpanded parent limit file) c).result = .ok c') :
    c'.style.get .color = c.style.get .color := by
  obtain ⟨hstyle, -, -⟩ := Computed.foldlM_writeExpanded_eq_ok h
  rw [hstyle]
  refine Style.get_color_writeAll fun w hw hcolor => ?_
  obtain ⟨p, hp, hw⟩ := List.mem_flatMap.mp hw
  exact Bool.false_ne_true ((hps p hp).symm.trans ((Property.writes_color_iff hw).mp hcolor))

/-- After the first pass the color stays as it is, however far the second pass has come. -/
theorem get_color_of_prefix {ps : List Property} {c c' : Computed}
    (hps : ps <+: (declared rules).filter fun p => !isColor p)
    (h : (ps.foldlM (Computed.writeExpanded parent limit file) c).result = .ok c') :
    c'.style.get .color = c.style.get .color := by
  refine get_color_of_foldlM parent limit file (fun p hp => ?_) h
  have hother := (List.mem_filter.mp (hps.mem hp)).2
  rwa [Bool.not_eq_true'] at hother

/-- The cascade is never given a property that it cannot write. -/
theorem ne_unresolved_of_isRead {rules : List Rule}
    (h : ∀ rule ∈ rules, ∀ p ∈ rule.properties, p.IsRead) (p : Property) :
    (compute rules parent parentVariables limit file).result ≠ .error (.unresolved p) := by
  intro hrun
  have hcases := compute_cases h parent parentVariables limit file
  rw [hrun] at hcases
  obtain ⟨f, hf, -⟩ := hcases
  exact absurd hf (by simp)

end Cascade

/-! ## Style sheets -/

namespace Stylesheet

/-- **Whatever is declared is expanded at most once.**  A declaration that is read declares distinct
kinds: a longhand itself, a shorthand as a whole or the longhands it covers, and the color only
under its own name.  So for any rules of a sheet that was read nothing comes to the style that
cannot be written, what a deferred property is expanded to is not expanded again, and the color does
not change after the first pass. -/
theorem expands_once :
    (∀ name c ps, Declaration.read name c = .ok ps →
      (ps.map Property.kind).Nodup ∧
      (∃ kind, PropertyKind.ofName? name = some kind ∧ kind.Declares ps) ∧
      ∀ p ∈ ps, p.kind = .longhand .color → Text.lowercase name = "color") ∧
    ∀ text options sheet, (read text options).result = .ok sheet →
      ∀ rules : List Rule, (∀ rule ∈ rules, rule ∈ sheet.rules) →
      ∀ parent parentVariables limit file,
        (∀ p, (Cascade.compute rules parent parentVariables limit file).result ≠
          .error (.unresolved p)) ∧
        (∀ rule ∈ rules, ∀ p ∈ rule.properties, ∀ vars ps,
          (p.expand vars limit).result = .ok (.ok ps) → (ps.map Property.kind).Nodup ∧
            ∀ q ∈ ps, q.IsSettled p.kind.longhands ∧ q.expand vars limit = pure (.ok [q])) ∧
        Cascade.compute rules parent parentVariables limit file =
          Cascade.colorPass rules parent parentVariables limit file >>=
            ((Cascade.declared rules).filter fun p => !Cascade.isColor p).foldlM
              (Computed.writeExpanded parent limit file) ∧
        ∀ first, (Cascade.colorPass rules parent parentVariables limit file).result = .ok first →
          ∀ ps, ps <+: ((Cascade.declared rules).filter fun p => !Cascade.isColor p) →
          ∀ later, (ps.foldlM (Computed.writeExpanded parent limit file) first).result =
            .ok later → later.style.get .color = first.style.get .color := by
  constructor
  · intro name c ps h
    obtain ⟨kind, hkind, hread⟩ := Declaration.exists_kind_of_read h
    refine ⟨PropertyKind.nodup_of_readCursor hread,
      ⟨kind, hkind, PropertyKind.declares_of_readCursor hread⟩, fun p hp hcolor => ?_⟩
    obtain rfl := PropertyKind.eq_color_of_readCursor hread hp hcolor
    exact (Declaration.name_of_ofName? hkind).symm
  · intro text options sheet hsheet rules hrules parent parentVariables limit file
    have hisRead : ∀ rule ∈ rules, ∀ p ∈ rule.properties, p.IsRead :=
      fun rule hrule p hp => isRead_of_read hsheet rule (hrules rule hrule) p hp
    refine ⟨Cascade.ne_unresolved_of_isRead parent parentVariables limit file hisRead,
      fun rule hrule p hp vars ps hexpand => ?_,
      Cascade.compute_eq_colorPass rules parent parentVariables limit file,
      fun first _ ps hps later hrun => Cascade.get_color_of_prefix rules parent limit file hps hrun⟩
    obtain ⟨hnodup, hsettled⟩ := Property.isSettled_of_expand (hisRead rule hrule p hp) hexpand
    exact ⟨hnodup, fun q hq => ⟨hsettled q hq,
      Property.expand_of_not_isDeferred (hsettled q hq).1 vars limit⟩⟩

/-- A border with a width and a color declares eight longhands.  One that waits for a custom
property and uses the color of the text finds it settled, although it is declared first. -/
theorem expands_once_border :
    (∃ d ps, Cursor.ofText "2px red" = .ok d ∧ Declaration.read "border" d = .ok ps ∧
      ps.length = 8 ∧ (ps.map Property.kind).Nodup) ∧
    ∃ sheet first c,
      (read ".a\x7b--b:1px currentcolor;border:var(--b);color:red\x7d" .default).result =
        .ok sheet ∧
      (Cascade.colorPass sheet.rules none none (some 8) none).result = .ok first ∧
      (Cascade.compute sheet.rules none none (some 8) none).result = .ok c ∧
      c.style.get .color = first.style.get .color ∧
      c.style.get (.borderColor .top) = .color ⟨1.0, 0.0, 0.0, 1.0⟩ := by
  obtain ⟨hdeclared, hsheets⟩ := expands_once
  constructor
  · have hborder : (Cursor.ofText "2px red").toOption.bind (fun d =>
        (Declaration.read "border" d).toOption.map List.length) = some 8 := by decide +kernel
    obtain ⟨d, hd, h⟩ := Option.bind_eq_some_iff.mp hborder
    obtain ⟨ps, hps, hlength⟩ := Option.map_eq_some_iff.mp h
    have hread := eq_ok_of_toOption hps
    exact ⟨d, ps, eq_ok_of_toOption hd, hread, hlength, (hdeclared "border" d ps hread).1⟩
  · have hrun : (read ".a\x7b--b:1px currentcolor;border:var(--b);color:red\x7d"
        .default).result.toOption.bind (fun sheet =>
          (Cascade.compute sheet.rules none none (some 8) none).result.toOption.map
            fun c => c.style.get (.borderColor .top)) = some (.color ⟨1.0, 0.0, 0.0, 1.0⟩) := by
      decide +kernel
    obtain ⟨sheet, hsheet, h⟩ := Option.bind_eq_some_iff.mp hrun
    obtain ⟨c, hc, hborder⟩ := Option.map_eq_some_iff.mp h
    have hread := eq_ok_of_toOption hsheet
    have hcompute := eq_ok_of_toOption hc
    obtain ⟨-, -, hpasses, hcolor⟩ :=
      hsheets _ _ sheet hread sheet.rules (fun _ hrule => hrule) none none (some 8) none
    rw [hpasses, Traced.bind_result_eq_ok] at hcompute
    obtain ⟨first, hfirst, hrest⟩ := hcompute
    exact ⟨sheet, first, c, hread, hfirst, eq_ok_of_toOption hc,
      hcolor first hfirst _ List.prefix_rfl c hrest, hborder⟩

end Stylesheet

end Styling
