import Mathlib
import Styling.Proofs.Color.Brackets
import Styling.Proofs.Syntax.Shifting
import Styling.Proofs.Syntax.Slicing
import Styling.Variable.Substitution

/-!
# What stands outside of calls

A pass goes into functions and blocks, and into no `var()` call.  So what it meets are the
components at the top of the tree and those inside groups that are met themselves and are no calls,
in the order of the text.  The calls among them are the outermost ones: each of them ends before the
next one starts.

* `Component.IsOutside` says that a component stands outside of calls, and `Component.listOutside`
  lists these components.
* `Component.StandsBefore` is the order of the list, and `Source.listOutside_of_components` is about
  the components of a text.
* `Source.Holds.stop_closing` says where the inside of a call ends.
-/

namespace Styling

namespace Component

/-- The component stands outside of `var()` calls: at the top, or inside a group that does so and is
no call. -/
inductive IsOutside (top : List Component) : Component → Prop
  | here {c : Component} (mem : c ∈ top) : IsOutside top c
  | inside {c d : Component} (above : IsOutside top c) (call : c.isVar = false)
    (mem : d ∈ c.children) : IsOutside top d

mutual

/-- A component and, unless it is a `var()` call, what stands in it outside of calls. -/
def outside : Component → List Component
  | token t => [token t]
  | group opener opened cs ending =>
    group opener opened cs ending :: if opener.isFunction "var" then [] else listOutside cs

/-- What stands outside of calls, in the order of the text. -/
def listOutside : List Component → List Component
  | [] => []
  | c :: cs => c.outside ++ listOutside cs

end

theorem mem_outside_self (c : Component) : c ∈ c.outside := by
  cases c with
  | token t =>
    rw [outside]
    exact List.mem_singleton_self _
  | group opener opened cs ending =>
    rw [outside]
    exact List.mem_cons_self

theorem outside_subset_listOutside {c : Component} {cs : List Component} (h : c ∈ cs) :
    c.outside ⊆ listOutside cs := by
  induction cs with
  | nil => exact absurd h List.not_mem_nil
  | cons d cs ih =>
    rw [listOutside]
    rcases List.mem_cons.mp h with rfl | h
    · exact List.subset_append_left _ _
    · exact List.Subset.trans (ih h) (List.subset_append_right _ _)

section

variable {opener : Opener} {opened : Span} {cs : List Component} {ending : Ending}

/-- What stands inside a call is not listed. -/
theorem outside_call (h : opener.isFunction "var" = true) :
    (group opener opened cs ending).outside = [group opener opened cs ending] := by
  rw [outside, h, if_pos rfl]

/-- What stands inside another group is listed behind it. -/
theorem outside_group (h : opener.isFunction "var" = false) :
    (group opener opened cs ending).outside = group opener opened cs ending :: listOutside cs := by
  rw [outside, h, if_neg Bool.false_ne_true]

end

mutual

theorem mem_outside_of_children {c d e : Component} (h : d ∈ c.outside) (hcall : d.isVar = false)
    (he : e ∈ d.children) : e ∈ c.outside := by
  cases c with
  | token t =>
    rw [outside] at h
    obtain rfl := List.mem_singleton.mp h
    exact absurd he List.not_mem_nil
  | group opener opened cs ending =>
    cases hopener : opener.isFunction "var" with
    | true =>
      rw [outside_call hopener] at h
      obtain rfl := List.mem_singleton.mp h
      exact absurd (hcall.symm.trans hopener) Bool.false_ne_true
    | false =>
      rw [outside_group hopener] at h ⊢
      refine List.mem_cons_of_mem _ ?_
      rcases List.mem_cons.mp h with rfl | h
      · exact outside_subset_listOutside he (mem_outside_self e)
      · exact mem_listOutside_of_children h hcall he

theorem mem_listOutside_of_children {cs : List Component} {d e : Component}
    (h : d ∈ listOutside cs) (hcall : d.isVar = false) (he : e ∈ d.children) :
    e ∈ listOutside cs := by
  cases cs with
  | nil =>
    rw [listOutside] at h
    exact absurd h List.not_mem_nil
  | cons c cs =>
    rw [listOutside] at h ⊢
    rcases List.mem_append.mp h with h | h
    · exact List.mem_append_left _ (mem_outside_of_children h hcall he)
    · exact List.mem_append_right _ (mem_listOutside_of_children h hcall he)

end

mutual

theorem isOutside_of_mem_outside {top : List Component} {c d : Component} (hc : IsOutside top c)
    (h : d ∈ c.outside) : IsOutside top d := by
  cases c with
  | token t =>
    rw [outside] at h
    obtain rfl := List.mem_singleton.mp h
    exact hc
  | group opener opened cs ending =>
    cases hopener : opener.isFunction "var" with
    | true =>
      rw [outside_call hopener] at h
      obtain rfl := List.mem_singleton.mp h
      exact hc
    | false =>
      rw [outside_group hopener] at h
      rcases List.mem_cons.mp h with rfl | h
      · exact hc
      · exact isOutside_of_mem_listOutside (fun e he => hc.inside hopener he) h

theorem isOutside_of_mem_listOutside {top cs : List Component} {d : Component}
    (hcs : ∀ c ∈ cs, IsOutside top c) (h : d ∈ listOutside cs) : IsOutside top d := by
  cases cs with
  | nil =>
    rw [listOutside] at h
    exact absurd h List.not_mem_nil
  | cons c cs =>
    rw [listOutside] at h
    obtain ⟨hc, hcs⟩ := List.forall_mem_cons.mp hcs
    rcases List.mem_append.mp h with h | h
    · exact isOutside_of_mem_outside hc h
    · exact isOutside_of_mem_listOutside hcs h

end

/-- Exactly the components outside of calls are listed. -/
theorem mem_listOutside {top : List Component} {c : Component} :
    c ∈ listOutside top ↔ IsOutside top c := by
  constructor
  · exact isOutside_of_mem_listOutside fun c hc => .here hc
  · intro h
    induction h with
    | here mem => exact outside_subset_listOutside mem (mem_outside_self _)
    | inside above call mem ih => exact mem_listOutside_of_children ih call mem

/-! ## The order of the text -/

/-- A component stands before another one that starts later and, if the first is a call, after its
end. -/
def StandsBefore (c d : Component) : Prop :=
  c.start < d.start ∧ (c.isVar = true → c.stop ≤ d.start)

/-- The component stands between two offsets and is not empty. -/
def Lies (first last : Nat) (c : Component) : Prop :=
  first ≤ c.start ∧ c.start < c.stop ∧ c.stop ≤ last

theorem Lies.of_le {first first' last last' : Nat} {c : Component} (h : c.Lies first last)
    (hfirst : first' ≤ first) (hlast : last ≤ last') : c.Lies first' last' :=
  ⟨hfirst.trans h.1, h.2.1, h.2.2.trans hlast⟩

mutual

/-- What stands in a component outside of calls lies in it, in order. -/
theorem outside_of_nests {stop : Nat} {c : Component} (h : c.Nests stop) (hstop : c.stop ≤ stop) :
    (∀ d ∈ c.outside, d.Lies c.start c.stop) ∧ c.outside.Pairwise StandsBefore := by
  have hself : c.Lies c.start c.stop := ⟨le_rfl, (within_of_nests h hstop).2, le_rfl⟩
  cases c with
  | token t =>
    rw [outside]
    exact ⟨List.forall_mem_singleton.mpr hself, List.pairwise_singleton _ _⟩
  | group opener opened cs ending =>
    have hinside : ∃ last, ListNests stop opened.stop last cs ∧ last ≤ ending.stop ∧
        opened.start < opened.stop := by
      cases ending with
      | closed span =>
        rw [Nests] at h
        exact ⟨span.start, h.2.1, h.2.2.le, h.1⟩
      | unclosed offset =>
        rw [Nests] at h
        exact ⟨stop, h.2.1, h.2.2.ge, h.1⟩
    obtain ⟨last, hnests, hlast, hopened⟩ := hinside
    obtain ⟨hlies, hbefore⟩ := listOutside_of_listNests hnests (hlast.trans hstop)
    cases hopener : opener.isFunction "var" with
    | true =>
      rw [outside_call hopener]
      exact ⟨List.forall_mem_singleton.mpr hself, List.pairwise_singleton _ _⟩
    | false =>
      rw [outside_group hopener]
      refine ⟨List.forall_mem_cons.mpr ⟨hself, fun d hd => ?_⟩,
        List.pairwise_cons.mpr ⟨fun d hd => ⟨?_, fun hcall => ?_⟩, hbefore⟩⟩
      · exact (hlies d hd).of_le hopened.le hlast
      · exact hopened.trans_le (hlies d hd).1
      · exact absurd (hopener.symm.trans hcall) Bool.false_ne_true

/-- What stands in components outside of calls lies between the same offsets, in order. -/
theorem listOutside_of_listNests {stop first last : Nat} {cs : List Component}
    (h : ListNests stop first last cs) (hlast : last ≤ stop) :
    (∀ d ∈ listOutside cs, d.Lies first last) ∧ (listOutside cs).Pairwise StandsBefore := by
  cases cs with
  | nil =>
    rw [listOutside]
    exact ⟨fun d hd => absurd hd List.not_mem_nil, .nil⟩
  | cons c cs =>
    rw [ListNests] at h
    obtain ⟨hfirst, hnests, hrest⟩ := h
    have hle := (within_of_listNests hrest hlast).2
    have hpos := (within_of_nests hnests (hle.trans hlast)).2
    obtain ⟨hhead, hheadBefore⟩ := outside_of_nests hnests (hle.trans hlast)
    obtain ⟨htail, htailBefore⟩ := listOutside_of_listNests hrest hlast
    rw [listOutside]
    refine ⟨fun d hd => ?_,
      List.pairwise_append.mpr ⟨hheadBefore, htailBefore, fun d hd e he => ?_⟩⟩
    · rcases List.mem_append.mp hd with hd | hd
      · exact (hhead d hd).of_le hfirst hle
      · exact (htail d hd).of_le (hfirst.trans hpos.le) le_rfl
    · have hbetween := (hhead d hd).2.2.trans (htail e he).1
      exact ⟨(hhead d hd).2.1.trans_le hbetween, fun _ => hbetween⟩

end

end Component

/-- What stands in a text outside of calls is met in the order of the text. -/
theorem Source.listOutside_of_components {s : Source} {parsed : Parsed (List Component)}
    (h : s.components = .ok parsed) :
    (∀ c ∈ Component.listOutside parsed.value, c.Lies 0 s.length) ∧
      (Component.listOutside parsed.value).Pairwise Component.StandsBefore := by
  have hspread : Token.Spread 0 s.length s.keptTokens := (tile_lexemes s).spread_filter _
  rw [(components_cases h).2.1]
  exact Component.listOutside_of_listNests (Component.listNests_ofTokens hspread) le_rfl

/-! ## Closing brackets -/

/-- A closing bracket is one character. -/
theorem extra_of_isClosing {c : Char} {cs : List Char}
    (h : (scanToken c cs).kind.isClosing = true) : (scanToken c cs).extra = 0 := by
  have hscan := scans_scanToken c cs
  generalize scanToken c cs = s at h hscan
  have hother : s.kind.isClosing = false → s.extra = 0 :=
    fun hfalse => absurd (hfalse.symm.trans h) Bool.false_ne_true
  cases hscan with
  | closing char => rfl
  | quoted quote => exact hother (test_scanQuoted (fun _ => rfl) (fun _ => rfl) c cs)
  | hash sign => exact hother (test_scanHash (fun _ _ => rfl) (fun _ => rfl) cs)
  | numeric starts =>
    exact hother (test_scanNumeric (fun _ => rfl) (fun _ => rfl) (fun _ _ => rfl) (c :: cs))
  | identLike starts unmarked =>
    exact hother (test_scanIdentLike (fun _ => rfl) (fun _ => rfl) (c :: cs))
  | _ => exact hother rfl

/-- The bracket that closes a group is one character. -/
theorem Source.Holds.stop_closing {s : Source} {opener : Opener} {opened closing : Span}
    {cs : List Component} (h : s.Holds (.group opener opened cs (.closed closing))) :
    closing.stop = closing.start + 1 := by
  have hmem : (⟨.closing opener.bracketKind, closing⟩ : Token) ∈ s.keptTokens := by
    refine h.tokens.mem ?_
    rw [Component.tokens]
    simp
  obtain ⟨l, hl, htoken⟩ := List.mem_map.mp (List.mem_filter.mp hmem).1
  obtain ⟨before, c, rest, -, rfl⟩ := exists_scan_of_mem_lexemesFrom hl
  obtain ⟨hkind, rfl⟩ := Token.mk.inj htoken
  have hextra : (scanToken c rest).extra = 0 := extra_of_isClosing (by rw [hkind]; rfl)
  dsimp only
  rw [hextra]

end Styling
