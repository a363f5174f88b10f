import Mathlib
import Styling.Proofs.Sheet.Reading

/-!
# Declarations stand alone

A semicolon between two declarations keeps them apart whatever they are: a part that starts with no
name, has no colon or no value, ends with `!important` or declares a custom property is read up to
its semicolon and no further, and what follows is read as if it stood at the start of the block.
Only semicolons of the block itself do so.  A semicolon inside a function or a block belongs to the
value that the group is part of.

* `DeclarationSyntax.ofComponents_append` is about declarations and errors.
* `DeclarationSyntax.length_ofComponents` says that a part without such a semicolon is one
  declaration or one error, unless it is blank.
* `Stylesheet.readBlock_append` is about what the declarations are read as.
-/

namespace Styling

/-- Where nothing is dropped there is one part. -/
theorem splitBy_eq_singleton {α : Type} {p : α → Bool} {as : List α} (h : ∀ a ∈ as, p a = false) :
    splitBy p as = [as] := by
  induction as with
  | nil => rfl
  | cons a as ih =>
    obtain ⟨ha, has⟩ := List.forall_mem_cons.mp h
    rw [splitBy, ha, if_neg Bool.false_ne_true, ih has]

namespace DeclarationSyntax

variable {source : Source}

/-- The declarations and errors on both sides of a semicolon. -/
theorem ofComponents_append {semicolon : Component} (h : semicolon.isSemicolon = true)
    (as bs : List Component) :
    ofComponents source (as ++ semicolon :: bs) =
      ⟨(ofComponents source as).value ++ (ofComponents source bs).value,
        (ofComponents source as).errors ++ (ofComponents source bs).errors⟩ := by
  simp only [ofComponents, splitBy_append_cons h, List.filterMap_append]

/-- A part without a semicolon of its own is one declaration or one error, unless it is blank. -/
theorem length_ofComponents {part : List Component} (h : ∀ c ∈ part, c.isSemicolon = false) :
    (ofComponents source part).value.length + (ofComponents source part).errors.length =
      if part.all Component.isWhitespace then 0 else 1 := by
  simp only [ofComponents, splitBy_eq_singleton h, List.filterMap_cons, List.filterMap_nil]
  cases hpart : part.dropWhile Component.isWhitespace with
  | nil =>
    have hblank : part.all Component.isWhitespace = true :=
      List.all_eq_true.mpr (List.dropWhile_eq_nil_iff.mp hpart)
    rw [if_pos hblank, ofPart, hpart]
    rfl
  | cons c rest =>
    have hnot : ¬ part.all Component.isWhitespace = true := by
      intro hall
      rw [List.dropWhile_eq_nil_iff.mpr (List.all_eq_true.mp hall)] at hpart
      exact absurd hpart (List.cons_ne_nil c rest).symm
    obtain ⟨read, hread⟩ : ∃ read, ofPart source part = some read := by
      unfold ofPart
      rw [hpart]
      split
      next hnil => exact absurd hnil (List.cons_ne_nil c rest)
      next => exact ⟨_, rfl⟩
      next => exact ⟨_, rfl⟩
    rw [if_neg hnot, hread]
    cases read <;> rfl

end DeclarationSyntax

namespace Stylesheet

variable {source : Source} {file : Option String}

theorem readDeclarations_append (ds es : List DeclarationSyntax) :
    readDeclarations source file (ds ++ es) = (do
      let (properties, vars) ← readDeclarations source file ds
      let (more, moreVariables) ← readDeclarations source file es
      return (properties ++ more, vars ++ moreVariables)) := by
  induction ds with
  | nil => simp [readDeclarations]
  | cons d ds ih =>
    rw [List.cons_append, readDeclarations, readDeclarations, ih]
    simp only [bind_assoc, pure_bind, List.append_assoc]

/-- What is read on both sides of a semicolon; if one of them fails, the first failure counts. -/
theorem readBlock_append {semicolon : Component} (h : semicolon.isSemicolon = true)
    (as bs : List Component) :
    (readBlock source file (as ++ semicolon :: bs)).result = (do
      let (properties, vars) ← (readBlock source file as).result
      let (more, moreVariables) ← (readBlock source file bs).result
      return (properties ++ more, vars ++ moreVariables)) := by
  have hresult : ∀ cs, (readBlock source file cs).result =
      (readDeclarations source file (DeclarationSyntax.ofComponents source cs).value).result :=
    fun _ => rfl
  rw [hresult, hresult, hresult, DeclarationSyntax.ofComponents_append h, readDeclarations_append,
    Traced.result_bind]
  congr 1
  funext first
  rw [Traced.result_bind]
  rfl

/-- **Declarations stand alone across semicolons.**  The declarations and the errors of a block are
those in front of a semicolon followed by those behind it, and so are the properties and the custom
properties that they are read as.  Semicolons inside groups separate nothing: a part whose own
tokens are no semicolons is one declaration or one error, unless it is blank, and the value of the
declaration is a stretch of the part with all its groups. -/
theorem readBlock_separates (source : Source) (file : Option String) (as bs : List Component)
    (span : Span) :
    let read := DeclarationSyntax.ofComponents source
    let joined := as ++ .token ⟨.semicolon, span⟩ :: bs
    ((read joined).value = (read as).value ++ (read bs).value ∧
      (read joined).errors = (read as).errors ++ (read bs).errors) ∧
    (∀ front back, (readBlock source file as).result = .ok front →
      (readBlock source file bs).result = .ok back →
        (readBlock source file joined).result = .ok (front.1 ++ back.1, front.2 ++ back.2)) ∧
    ∀ part, (∀ t, .token t ∈ part → t.kind.isSemicolon = false) →
      (read part).value.length + (read part).errors.length =
        (if part.all Component.isWhitespace then 0 else 1) ∧
      ∀ d ∈ (read part).value, d.value <:+: part := by
  dsimp only
  have hsemicolon : (Component.token ⟨.semicolon, span⟩).isSemicolon = true := rfl
  refine ⟨?_, fun front back hfront hback => ?_, fun part hpart => ⟨?_, fun d hd => ?_⟩⟩
  · rw [DeclarationSyntax.ofComponents_append hsemicolon]
    exact ⟨rfl, rfl⟩
  · rw [readBlock_append hsemicolon, hfront, hback]
    rfl
  · refine DeclarationSyntax.length_ofComponents fun c hc => ?_
    cases c with
    | token t => exact hpart t hc
    | group opener opened cs ending => rfl
  · exact DeclarationSyntax.isInfix_value hd

/-- A declaration without a colon stands in front of the semicolon, and behind it a custom property
with a semicolon inside a function and another inside a block. -/
theorem readBlock_separates_nested :
    ∃ as bs : List Component, ∃ span : Span, ∃ source : Source,
      source = .ofString "z-index x;--a:f(;)[;]" ∧
      source.components = .ok ⟨as ++ .token ⟨.semicolon, span⟩ :: bs, []⟩ ∧
      (readBlock source none as).result = .ok ([], []) ∧
      (readBlock source none bs).result = .ok ([], [("--a", "f(;)[;]")]) ∧
      (readBlock source none (as ++ .token ⟨.semicolon, span⟩ :: bs)).result =
        .ok ([], [("--a", "f(;)[;]")]) ∧
      (∀ t, .token t ∈ bs → t.kind.isSemicolon = false) ∧
      (DeclarationSyntax.ofComponents source bs).value.length +
        (DeclarationSyntax.ofComponents source bs).errors.length = 1 := by
  let as : List Component := [.token ⟨.ident "z-index", ⟨0, 7⟩⟩, .token ⟨.whitespace " ", ⟨7, 8⟩⟩,
    .token ⟨.ident "x", ⟨8, 9⟩⟩]
  let bs : List Component := [.token ⟨.ident "--a", ⟨10, 13⟩⟩, .token ⟨.colon, ⟨13, 14⟩⟩,
    .group (.function "f") ⟨14, 16⟩ [.token ⟨.semicolon, ⟨16, 17⟩⟩] (.closed ⟨17, 18⟩),
    .group (.bracket .square) ⟨18, 19⟩ [.token ⟨.semicolon, ⟨19, 20⟩⟩] (.closed ⟨20, 21⟩)]
  let source : Source := .ofString "z-index x;--a:f(;)[;]"
  have hcomponents : source.components = .ok ⟨as ++ .token ⟨.semicolon, ⟨9, 10⟩⟩ :: bs, []⟩ := by
    cbv
  have hfront : (readBlock source none as).result = .ok ([], []) := by cbv
  have hback : (readBlock source none bs).result = .ok ([], [("--a", "f(;)[;]")]) := by cbv
  have hbs : ∀ t, .token t ∈ bs → t.kind.isSemicolon = false := by
    simp [bs, TokenKind.isSemicolon]
  obtain ⟨-, hjoined, hpart⟩ := readBlock_separates source none as bs ⟨9, 10⟩
  exact ⟨as, bs, ⟨9, 10⟩, source, rfl, hcomponents, hfront, hback, hjoined _ _ hfront hback, hbs,
    (hpart bs hbs).1⟩

end Stylesheet

end Styling
