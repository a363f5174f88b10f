import Mathlib
import Styling.Proofs.Grammar.Rereading.Leaf
import Styling.Grammar.Transform

/-!
# Transforms that are read back

A map is written as the keyword `none` if it is the identity, otherwise as a call of `matrix` with
the literals of its entries.  What is read is the composition of the identity and the map, and this
equals the map if its entries are finite.

* `Affine.identity_before_beq` is about the composition.
* `Grammar.readsBack_transform` is the main result.
-/

namespace Styling

open Written (At IsPhrase StartsUnlike comma ident number listChars space isWord_ident
  isWord_number)

/-! ## Composition with the identity -/

namespace Affine

/-- The entries of a map are finite. -/
def isKept (m : Affine Float) : Bool := m.entries.all Float.isFinite

theorem beq_of_entries {m n : Affine Float}
    (h : (m.a == n.a) = true ∧ (m.b == n.b) = true ∧ (m.c == n.c) = true ∧ (m.d == n.d) = true ∧
      (m.e == n.e) = true ∧ (m.f == n.f) = true) : (m == n) = true := by
  change (m.a == n.a && (m.b == n.b && (m.c == n.c && (m.d == n.d &&
    (m.e == n.e && m.f == n.f))))) = true
  simp only [h.1, h.2.1, h.2.2.1, h.2.2.2.1, h.2.2.2.2.1, h.2.2.2.2.2, Bool.and_self]

theorem entries_of_beq {m n : Affine Float} (h : (m == n) = true) :
    (m.a == n.a) = true ∧ (m.b == n.b) = true ∧ (m.c == n.c) = true ∧ (m.d == n.d) = true ∧
      (m.e == n.e) = true ∧ (m.f == n.f) = true := by
  change (m.a == n.a && (m.b == n.b && (m.c == n.c && (m.d == n.d &&
    (m.e == n.e && m.f == n.f))))) = true at h
  simpa only [Bool.and_eq_true] using h

/-- **Applying the identity first changes no finite map.** -/
theorem identity_before_beq {m : Affine Float} (h : m.isKept = true) :
    (identity.before m == m) = true := by
  simp only [isKept, entries, List.all_cons, List.all_nil, Bool.and_true, Bool.and_eq_true] at h
  obtain ⟨ha, hb, hc, hd, he, hf⟩ := h
  have hfirst : ∀ {x y : Float}, x.isFinite = true → y.isFinite = true →
      (x * 1.0 + y * 0.0 == x) = true := fun hx hy => by
    rw [Binary64.mul_one hx]
    exact (Binary64.add_beq (Binary64.isNaN_of_isFinite hx) (Binary64.isZero_mul_zero hy)).1
  have hsecond : ∀ {x y : Float}, x.isFinite = true → y.isFinite = true →
      (x * 0.0 + y * 1.0 == y) = true := fun hx hy => by
    rw [Binary64.mul_one hy]
    exact (Binary64.add_beq (Binary64.isNaN_of_isFinite hy) (Binary64.isZero_mul_zero hx)).2
  have hthird : ∀ {x y z : Float}, x.isFinite = true → y.isFinite = true → z.isFinite = true →
      (x * 0.0 + y * 0.0 + z == z) = true := fun hx hy hz =>
    (Binary64.add_beq (Binary64.isNaN_of_isFinite hz)
      ((Binary64.isZero_mul_zero hx).add (Binary64.isZero_mul_zero hy))).2
  exact beq_of_entries ⟨hfirst ha hc, hfirst hb hd, hsecond ha hc, hsecond hb hd, hthird ha hc he,
    hthird hb hd hf⟩

end Affine

namespace Grammar

/-! ## Literals -/

/-- Finite numbers are written with commas between them and are read one after the other. -/
theorem exists_phrases_literals {xs : List Float} (h : ∀ x ∈ xs, x.isFinite = true) :
    ∃ ps : List NumeralParts, ps.map (fun p => String.ofList p.chars) = xs.map literal ∧
      (∀ p ∈ ps, (number p).IsWord) ∧
      List.Forall₂ (fun p x => Leaf.Reads Reader.numberLeaf (number p) x) ps xs := by
  induction xs with
  | nil => exact ⟨[], rfl, fun _ hp => absurd hp List.not_mem_nil, .nil⟩
  | cons x xs ih =>
    obtain ⟨p, hplain, hsmall, htext, hvalue⟩ := exists_literal (h x List.mem_cons_self)
    obtain ⟨ps, htexts, hwords, hreads⟩ := ih fun y hy => h y (List.mem_cons_of_mem _ hy)
    refine ⟨p :: ps, by rw [List.map_cons, List.map_cons, htext, htexts],
      List.forall_mem_cons.mpr ⟨isWord_number hplain hsmall, hwords⟩,
      .cons (fun _ _ _ => ?_) hreads⟩
    exact float_eq_ok hvalue

/-- Further numbers are read after commas. -/
theorem reads_moreNumbers {ps : List NumeralParts} {xs : List Float}
    (hwords : ∀ p ∈ ps, (number p).IsWord)
    (h : List.Forall₂ (fun p x => Leaf.Reads Reader.numberLeaf (number p) x) ps xs) :
    (moreNumbers xs.length).Reads (ps.flatMap fun p => [comma, space, number p]) xs := by
  induction h with
  | nil => exact .pure _
  | @cons p x ps xs hp _ ih =>
    have hrest := ih fun q hq => hwords q (List.mem_cons_of_mem _ hq)
    have hone : (Reader.leaf Reader.numberLeaf).Reads [number p] x :=
      .leaf (hwords p List.mem_cons_self) hp
    have hmore : (do return x :: (← moreNumbers xs.length) : Reader (List Float)).Reads
        (ps.flatMap fun p => [comma, space, number p]) (x :: xs) := by
      have hbind := hrest.bind (f := fun more => Pure.pure (x :: more)) (.pure _)
      rwa [List.append_nil] at hbind
    have hcomma : Reader.tryComma.Reads [comma] true := .tryComma
    exact hcomma.bind (hone.space.bind hmore)

/-- A call of `matrix` with the given arguments. -/
def matrixCall (ps : List NumeralParts) : Written :=
  .call ['m', 'a', 't', 'r', 'i', 'x'] ([comma, space].intercalate (ps.map ([number ·])))

theorem isWord_matrixCall {ps : List NumeralParts} (hne : ps ≠ [])
    (hwords : ∀ p ∈ ps, (number p).IsWord) : (matrixCall ps).IsWord := by
  refine Written.isWord_call _ (by decide) (by decide)
    (Written.isPhrase_listed (by simpa using hne) fun vs hvs => ?_)
  obtain ⟨p, hp, rfl⟩ := List.mem_map.mp hvs
  exact (hwords p hp).phrase

section Matrix

variable {ps : List NumeralParts} {m : Affine Float}

/-- The arguments of `matrix` are read as the entries of a map. -/
theorem reads_matrix (hwords : ∀ p ∈ ps, (number p).IsWord)
    (h : List.Forall₂ (fun p x => Leaf.Reads Reader.numberLeaf (number p) x) ps m.entries) :
    matrix.ReadsAll ([comma, space].intercalate (ps.map ([number ·]))) m := by
  match ps, h.length_eq with
  | [p, q, r, s, t, u], _ =>
    obtain ⟨hp, hrest⟩ := List.forall₂_cons.mp h
    have hone : (Reader.leaf Reader.numberLeaf).Reads [number p] m.a :=
      .leaf (hwords p List.mem_cons_self) hp
    have hmore := reads_moreNumbers (fun q hq => hwords q (List.mem_cons_of_mem _ hq)) hrest
    exact hone.bind_all (hmore.all.bind_pure _)

/-- A call of `matrix` is read as the map of its entries. -/
theorem transformCall_matrixCall (hwords : ∀ p ∈ ps, (number p).IsWord)
    (h : List.Forall₂ (fun p x => Leaf.Reads Reader.numberLeaf (number p) x) ps m.entries)
    {source : Source} {start : Nat} (hat : At source start (matrixCall ps).chars) {c : Cursor}
    (hsource : c.source = source) :
    transformCall c source ((matrixCall ps).component start) = .ok m := by
  have hlookup : transformFunctions.lookup (Text.lowercase (String.ofList
      ['m', 'a', 't', 'r', 'i', 'x'])) = some matrix := rfl
  have hcall : transformCall c source ((matrixCall ps).component start) =
      matrix.inside (c.nested ((matrixCall ps).component start)) := by
    simp only [transformCall, bind, Except.bind, matrixCall, Written.component]
    rw [hlookup]
    rfl
  rw [hcall]
  exact (reads_matrix hwords h).inside_call hat hsource

end Matrix

/-- The word `none` is the identity. -/
theorem readsBack_identity {m : Affine Float} (h : (m == .identity) = true) :
    transform.ReadsBack (.ok m.css) m := by
  refine ⟨[ident ['n', 'o', 'n', 'e']], .identity, ?_, (isWord_ident _ (by decide)).phrase,
    ⟨_, [], rfl, rfl, by decide⟩, fun source start _ => ?_, ?_⟩
  · rw [Affine.css, if_pos h]
    rfl
  · exact .bind (.isKeywordExhausted_lone (by rw [Written.isKeyword_component]; decide)) (.pure _)
  · obtain ⟨ha, hb, hc, hd, he, hf⟩ := Affine.entries_of_beq h
    exact Affine.beq_of_entries ⟨Binary64.beq_symm ha, Binary64.beq_symm hb, Binary64.beq_symm hc,
      Binary64.beq_symm hd, Binary64.beq_symm he, Binary64.beq_symm hf⟩

/-- **A transform that is kept is read back.** -/
theorem readsBack_transform {m : Affine Float} (h : m.isKept = true) :
    transform.ReadsBack (.ok m.css) m := by
  by_cases hidentity : (m == .identity) = true
  · exact readsBack_identity hidentity
  obtain ⟨ps, htexts, hwords, hreads⟩ := exists_phrases_literals (List.all_eq_true.mp h)
  have hw : (matrixCall ps).IsWord := isWord_matrixCall (by rintro rfl; cases hreads) hwords
  refine ⟨[matrixCall ps], Affine.identity.before m, ?_, hw.phrase,
    ⟨_, [], rfl, rfl, fun _ _ => rfl⟩, fun source start hat => ?_, Affine.identity_before_beq h⟩
  · have htext : String.intercalate ", " (m.entries.map literal) =
        String.ofList (listChars ([comma, space].intercalate (ps.map ([number ·])))) := by
      rw [← htexts, ← Written.intercalate_comma, List.map_map]
      congr 1
      exact List.map_congr_left fun p _ =>
        congrArg String.ofList (Written.listChars_singleton (number p)).symm
    rw [Affine.css, if_neg hidentity, htext, Written.listChars_singleton]
    refine congrArg Except.ok (String.toList_inj.mp ?_)
    simp [matrixCall, Written.chars]
  · rw [Written.listChars_singleton] at hat
    rw [Written.words_singleton rfl]
    refine .bind (.isKeywordExhausted rfl) ?_
    rw [if_neg Bool.false_ne_true]
    refine .ask fun c hsource _ => .bind (.foldAll (t := [m]) ?_) (.pure _)
    rw [id, List.foldlM_cons, hsource, transformCall_matrixCall hwords hreads hat hsource]
    rfl

end Grammar

end Styling
