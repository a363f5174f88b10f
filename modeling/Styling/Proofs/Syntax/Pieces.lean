import Styling.Proofs.Syntax.Joining
import Styling.Proofs.Syntax.Seams

/-!
# The components of pieces of text

If pieces of text that are read without errors meet at seams, the components of the whole are those
of the pieces, each further on by what stands before it.

* `IsSeam.components_append` is about two texts.
* `exists_components_flatten` is about pieces before a last one, whose text the whole shows.
-/

namespace Styling

/-- The components of a piece of text that is read without errors. -/
def HasComponents (piece : List Char) (cs : List Component) : Prop :=
  (Source.mk (Source.normalize piece)).components = .ok ⟨cs, []⟩

/-- Two texts that meet at a seam and are read without errors. -/
theorem IsSeam.components_append {front back : List Char} (h : IsSeam front back)
    {cs ds : List Component} (hfront : HasComponents front cs) (hback : HasComponents back ds) :
    HasComponents (front ++ back)
      (cs ++ ds.map (Component.shift (Source.normalize front).length)) := by
  refine Source.components_append_of_sound h.lexemesFrom_eq ?_ hfront hback
  rw [Source.length, Source.normalize_append h.lineEnd, List.length_append, Nat.add_comm]
  rfl

/-- Components at another place. -/
def Component.Moved (cs ds : List Component) : Prop :=
  ∃ k, ds = cs.map (shift k)

theorem Component.Moved.refl (cs : List Component) : Moved cs cs :=
  ⟨0, by rw [funext shift_zero, List.map_id']⟩

theorem Component.Moved.map_shift {cs ds : List Component} (h : Moved cs ds) (k : Nat) :
    Moved cs (ds.map (shift k)) := by
  obtain ⟨j, rfl⟩ := h
  refine ⟨j + k, ?_⟩
  rw [List.map_map]
  exact List.map_congr_left fun c _ => shift_shift j k c

/-- **The components of pieces that meet at seams** are those of the pieces, each at its place; the
last piece stands behind all the others. -/
theorem exists_components_flatten {pieces : List (List Char)} {last : List Char}
    {css : List (List Component)} {ds : List Component} (h : MeetAtSeams (pieces ++ [last]))
    (hpieces : List.Forall₂ HasComponents pieces css) (hlast : HasComponents last ds) :
    ∃ moved before, List.Forall₂ Component.Moved css moved ∧
      Source.normalize (pieces ++ [last]).flatten = before ++ Source.normalize last ∧
      HasComponents (pieces ++ [last]).flatten
        (moved.flatten ++ ds.map (Component.shift before.length)) := by
  induction hpieces with
  | nil =>
    have hstay : ds.map (Component.shift 0) = ds := by
      rw [funext Component.shift_zero, List.map_id']
    refine ⟨[], [], .nil, by simp, ?_⟩
    simpa [hstay] using hlast
  | @cons piece cs pieces css hpiece _ ih =>
    have hseam := h 1 (by simp)
    rw [List.cons_append, List.take_succ_cons, List.take_zero, List.drop_succ_cons, List.drop_zero,
      List.flatten_cons, List.flatten_nil, List.append_nil] at hseam
    obtain ⟨moved, before, hmoved, htext, hrest⟩ := ih h.tail
    refine ⟨cs :: moved.map (List.map (Component.shift (Source.normalize piece).length)),
      Source.normalize piece ++ before, .cons (.refl cs) ?_, ?_, ?_⟩
    · exact List.forall₂_map_right_iff.mpr (hmoved.imp fun _ _ hcs => hcs.map_shift _)
    · rw [List.cons_append, List.flatten_cons, Source.normalize_append hseam.lineEnd, htext,
        List.append_assoc]
    · have hboth := hseam.components_append hpiece hrest
      have hstep : (ds.map (Component.shift before.length)).map
          (Component.shift (Source.normalize piece).length) =
            ds.map (Component.shift (Source.normalize piece ++ before).length) := by
        rw [List.map_map, List.length_append, Nat.add_comm]
        exact List.map_congr_left fun c _ => Component.shift_shift _ _ c
      rwa [List.map_append, hstep, List.map_flatten, ← List.append_assoc,
        ← List.flatten_cons] at hboth

end Styling
