import Mathlib
import Styling.File.Watching
import Styling.Proofs.Value.Running

/-!
# What a reload replaces

A reload that gives an answer replaces the modification time and the sheet together or leaves both
as they are, whatever was found of the file.  A reload that fails does neither: the modification
time is noted before the bytes are read, so the sheet in front of the failure stays with the time of
the file that could not be loaded, and the file is not read again until its time moves on.

* `WatchedSheet.IsTakenFrom` says that the sheet and the modification time belong together.
* `WatchedSheet.reloadFrom_cases` is the step, `WatchedSheet.exists_isTakenFrom_reloads` the run.
* `WatchedSheet.reloads_replaceOrKeep` is about every reload of a run, and
  `WatchedSheet.exists_stale_of_failure` is a reload that fails and is not tried again.
-/

namespace Styling

namespace WatchedSheet

/-- The sheet that is followed after a row of reloads. -/
def reloads (w : WatchedSheet) (views : List FileView) : WatchedSheet :=
  views.foldl (fun w view => (w.reloadFrom view).2) w

/-- No reload of the row fails. -/
def AllAnswer (w : WatchedSheet) : List FileView → Prop
  | [] => True
  | view :: views =>
    (∃ changed, (w.reloadFrom view).1.result = .ok changed) ∧ AllAnswer (w.reloadFrom view).2 views

/-- The sheet is what was read of the file when it was found with the noted modification time. -/
structure IsTakenFrom (w : WatchedSheet) (view : FileView) : Prop where
  modified : view.modified = some w.modified
  sheet : (Stylesheet.loadBytes view.bytes w.options).result = .ok w.sheet

/-- The outcome of a reload: a new time with its sheet, nothing new, or a new time without its
sheet. -/
inductive Outcome (w : WatchedSheet) (view : FileView) :
    Except LoadError Bool → WatchedSheet → Prop
  | replaced {modified : Int} {sheet : Stylesheet} (found : view.modified = some modified)
    (newer : w.modified < modified)
    (loaded : (Stylesheet.loadBytes view.bytes w.options).result = .ok sheet) :
    Outcome w view (.ok true) { w with modified := modified, sheet := sheet }
  | kept (older : ∀ modified, view.modified = some modified → modified ≤ w.modified) :
    Outcome w view (.ok false) w
  | failed {modified : Int} {e : LoadError} (found : view.modified = some modified)
    (newer : w.modified < modified)
    (unloaded : (Stylesheet.loadBytes view.bytes w.options).result = .error e) :
    Outcome w view (.error e) { w with modified := modified }

variable {w w' w₀ : WatchedSheet} {view : FileView} {r : Except LoadError Bool}

/-- The step: every reload has one of the three outcomes. -/
theorem reloadFrom_cases (w : WatchedSheet) (view : FileView) :
    Outcome w view (w.reloadFrom view).1.result (w.reloadFrom view).2 := by
  rw [reloadFrom]
  cases hfound : view.modified with
  | none => exact .kept fun modified h => absurd (hfound.symm.trans h) (by simp)
  | some modified =>
    dsimp only
    split
    next holder => exact .kept fun t h => Option.some_inj.mp (hfound.symm.trans h) ▸ holder
    next hnewer =>
      cases hloaded : (Stylesheet.loadBytes view.bytes w.options).result with
      | ok sheet => exact .replaced hfound (Int.not_le.mp hnewer) hloaded
      | error e => exact .failed hfound (Int.not_le.mp hnewer) hloaded

/-- A file that is not newer is not read. -/
theorem reloadFrom_of_older
    (h : ∀ modified, view.modified = some modified → modified ≤ w.modified) :
    (w.reloadFrom view).1.result = .ok false ∧ (w.reloadFrom view).2 = w := by
  rw [reloadFrom]
  cases hfound : view.modified with
  | none => exact ⟨rfl, rfl⟩
  | some modified =>
    dsimp only
    rw [if_pos (h modified hfound)]
    exact ⟨rfl, rfl⟩

namespace Outcome

/-- The options are those with which the sheet was opened. -/
theorem options (h : Outcome w view r w') : w'.options = w.options := by
  cases h <;> rfl

/-- The modification time is the one that was found or the one before. -/
theorem modified_cases (h : Outcome w view r w') :
    view.modified = some w'.modified ∨ w'.modified = w.modified := by
  cases h with
  | replaced found _ _ => exact Or.inl found
  | kept _ => exact Or.inr rfl
  | failed found _ _ => exact Or.inl found

/-- The sheet is the one that was found or the one before. -/
theorem sheet_cases (h : Outcome w view r w') :
    (Stylesheet.loadBytes view.bytes w.options).result = .ok w'.sheet ∨ w'.sheet = w.sheet := by
  cases h with
  | replaced _ _ loaded => exact Or.inl loaded
  | kept _ => exact Or.inr rfl
  | failed _ _ _ => exact Or.inr rfl

/-- A reload that gives an answer replaces both or keeps both. -/
theorem isTakenFrom_or_eq {changed : Bool} (h : Outcome w view (.ok changed) w') :
    w'.IsTakenFrom view ∨ w' = w := by
  cases h with
  | replaced found _ loaded => exact Or.inl ⟨found, loaded⟩
  | kept _ => exact Or.inr rfl

/-- A reload that fails neither replaces both nor keeps both. -/
theorem torn {e : LoadError} (h : Outcome w view (.error e) w') :
    ¬ (w'.IsTakenFrom view ∨ w' = w) ∧ w'.sheet = w.sheet := by
  cases h with
  | @failed modified _ _ newer unloaded =>
    refine ⟨?_, rfl⟩
    rintro (htaken | hkept)
    · exact absurd (unloaded.symm.trans htaken.sheet) (by simp)
    · have hsame : modified = w.modified := congrArg WatchedSheet.modified hkept
      exact absurd newer (Int.not_lt.mpr (Int.le_of_eq hsame))

end Outcome

/-! ## Runs -/

/-- A sheet that was just opened is the one of its modification time. -/
theorem isTakenFrom_of_startFrom {path : String} {options : Options}
    (h : (startFrom path options view).result = .ok w) :
    w.options = options ∧ w.IsTakenFrom view := by
  rw [startFrom] at h
  split at h
  next => exact absurd h (by simp)
  next modified hfound =>
    obtain ⟨sheet, hsheet, h⟩ := Traced.bind_result_eq_ok.mp h
    obtain rfl := Except.ok.inj h
    exact ⟨rfl, hfound, hsheet⟩

/-- The options are kept through a run. -/
theorem options_reloads (w : WatchedSheet) (views : List FileView) :
    (w.reloads views).options = w.options := by
  induction views generalizing w with
  | nil => rfl
  | cons view views ih => exact (ih _).trans (reloadFrom_cases w view).options

/-- Whatever the reloads of a run came to, the modification time is one at which the file was found,
and the sheet is one that was read of it. -/
theorem exists_found_reloads (views : List FileView) {seen : List FileView}
    (hmodified : ∃ view ∈ seen, view.modified = some w.modified)
    (hsheet : ∃ view ∈ seen, (Stylesheet.loadBytes view.bytes w.options).result = .ok w.sheet) :
    (∃ view ∈ seen ++ views, view.modified = some (w.reloads views).modified) ∧
      ∃ view ∈ seen ++ views,
        (Stylesheet.loadBytes view.bytes w.options).result = .ok (w.reloads views).sheet := by
  induction views generalizing w seen with
  | nil => exact ⟨seen.append_nil.symm ▸ hmodified, seen.append_nil.symm ▸ hsheet⟩
  | cons view views ih =>
    have hstep := reloadFrom_cases w view
    have hlast : view ∈ seen ++ [view] := List.mem_append_right seen (List.mem_singleton_self view)
    have hmodified' : ∃ u ∈ seen ++ [view], u.modified = some (w.reloadFrom view).2.modified := by
      rcases hstep.modified_cases with hfound | hkept
      · exact ⟨view, hlast, hfound⟩
      · obtain ⟨u, hu, hfound⟩ := hmodified
        exact ⟨u, List.mem_append_left _ hu, hkept ▸ hfound⟩
    have hsheet' : ∃ u ∈ seen ++ [view],
        (Stylesheet.loadBytes u.bytes w.options).result = .ok (w.reloadFrom view).2.sheet := by
      rcases hstep.sheet_cases with hfound | hkept
      · exact ⟨view, hlast, hfound⟩
      · obtain ⟨u, hu, hfound⟩ := hsheet
        exact ⟨u, List.mem_append_left _ hu, hkept ▸ hfound⟩
    have hrest := ih hmodified' (hstep.options ▸ hsheet')
    rwa [List.append_assoc, hstep.options] at hrest

/-- In a run whose reloads all give an answer the sheet stays the one of its modification time. -/
theorem exists_isTakenFrom_reloads {views seen : List FileView}
    (h : ∃ view ∈ seen, w.IsTakenFrom view) (hanswer : w.AllAnswer views) :
    ∃ view ∈ seen ++ views, (w.reloads views).IsTakenFrom view := by
  induction views generalizing w seen with
  | nil => exact seen.append_nil.symm ▸ h
  | cons view views ih =>
    obtain ⟨⟨changed, hresult⟩, hanswer⟩ := hanswer
    have hstep := reloadFrom_cases w view
    rw [hresult] at hstep
    have htaken : ∃ u ∈ seen ++ [view], (w.reloadFrom view).2.IsTakenFrom u := by
      rcases hstep.isTakenFrom_or_eq with hnew | hkept
      · exact ⟨view, List.mem_append_right seen (List.mem_singleton_self view), hnew⟩
      · rw [hkept]
        obtain ⟨u, hu, htaken⟩ := h
        exact ⟨u, List.mem_append_left _ hu, htaken⟩
    have hrest := ih htaken hanswer
    rwa [List.append_assoc] at hrest

/-! ## Every reload of a run -/

section

variable {path : String} {options : Options} {first : FileView}

/-- **A reload that gives an answer replaces the modification time and the sheet together, or keeps
both.**  Whatever the file was found to be before, the modification time is one at which it was
found and the sheet is one that was read as a whole; as long as no reload has failed they belong
together.  A reload that fails keeps the sheet and notes the new modification time, and until the
file is found with a newer one it is taken to be up to date. -/
theorem reloads_replaceOrKeep (hstart : (startFrom path options first).result = .ok w₀)
    (views : List FileView) (view : FileView) :
    (∃ found ∈ first :: views, found.modified = some (w₀.reloads views).modified) ∧
    (∃ read ∈ first :: views,
      (Stylesheet.loadBytes read.bytes options).result = .ok (w₀.reloads views).sheet) ∧
    (w₀.AllAnswer views → ∃ read ∈ first :: views, (w₀.reloads views).IsTakenFrom read) ∧
    match ((w₀.reloads views).reloadFrom view).1.result with
    | .ok true => ((w₀.reloads views).reloadFrom view).2.IsTakenFrom view ∧
        (w₀.reloads views).modified < ((w₀.reloads views).reloadFrom view).2.modified
    | .ok false => ((w₀.reloads views).reloadFrom view).2 = w₀.reloads views
    | .error e => ∃ modified,
        view.modified = some modified ∧ (w₀.reloads views).modified < modified ∧
        (Stylesheet.loadBytes view.bytes options).result = .error e ∧
        ((w₀.reloads views).reloadFrom view).2 =
          { w₀.reloads views with modified := modified } ∧
        ∀ again : FileView, (∀ t, again.modified = some t → t ≤ modified) →
          (((w₀.reloads views).reloadFrom view).2.reloadFrom again).1.result = .ok false := by
  obtain ⟨rfl, htaken⟩ := isTakenFrom_of_startFrom hstart
  have hfirst : first ∈ [first] := List.mem_singleton_self first
  obtain ⟨hmodified, hsheet⟩ :=
    exists_found_reloads views ⟨first, hfirst, htaken.modified⟩
      ⟨first, hfirst, htaken.sheet⟩
  refine ⟨hmodified, hsheet, exists_isTakenFrom_reloads ⟨first, hfirst, htaken⟩, ?_⟩
  have hoptions := options_reloads w₀ views
  generalize w₀.reloads views = w at hoptions ⊢
  rw [← hoptions]
  have hcases := reloadFrom_cases w view
  generalize (w.reloadFrom view).1.result = r, (w.reloadFrom view).2 = w' at hcases
  cases hcases with
  | replaced found newer loaded => exact ⟨⟨found, loaded⟩, newer⟩
  | kept _ => rfl
  | @failed modified e found newer unloaded =>
    exact ⟨modified, found, newer, unloaded, rfl, fun again h => (reloadFrom_of_older h).1⟩

/-- The file is replaced, then touched and removed before it is read: the new sheet is kept, with
the time of the file that is gone. -/
theorem reloads_replaceOrKeep_removed :
    ∃ w₀ w : WatchedSheet,
      (startFrom "a.css" .default ⟨some 1, some []⟩).result = .ok w₀ ∧
      w = w₀.reloads [⟨some 2, some (".b\x7b\x7d".toList.map Char.toNat)⟩] ∧
      w.IsTakenFrom ⟨some 2, some (".b\x7b\x7d".toList.map Char.toNat)⟩ ∧
      (w.reloadFrom ⟨some 3, none⟩).1.result = .error .missing ∧
      (w.reloadFrom ⟨some 3, none⟩).2 = { w with modified := 3 } ∧
      ((w.reloadFrom ⟨some 3, none⟩).2.reloadFrom ⟨some 3, none⟩).1.result = .ok false := by
  let replaced : FileView := ⟨some 2, some (".b\x7b\x7d".toList.map Char.toNat)⟩
  let gone : FileView := ⟨some 3, none⟩
  have hrun : (startFrom "a.css" .default ⟨some 1, some []⟩).result.toOption.map (fun w₀ =>
      ((w₀.reloadFrom replaced).1.result, ((w₀.reloads [replaced]).reloadFrom gone).1.result)) =
      some (.ok true, .error .missing) := by
    decide +kernel
  obtain ⟨w₀, hstart, hresults⟩ := exists_ok_of_observed hrun
  obtain ⟨hreplaced, hgone⟩ := Prod.mk.inj hresults
  obtain ⟨-, -, -, hfirst⟩ := reloads_replaceOrKeep hstart [] replaced
  obtain ⟨-, -, -, hsecond⟩ := reloads_replaceOrKeep hstart [replaced] gone
  rw [show w₀.reloads [] = w₀ from rfl, hreplaced] at hfirst
  rw [hgone] at hsecond
  obtain ⟨modified, hfound, -, -, hnoted, hagain⟩ := hsecond
  obtain rfl : 3 = modified := Option.some_inj.mp hfound
  refine ⟨w₀, _, hstart, rfl, hfirst.1, hgone, hnoted, hagain gone fun t ht => ?_⟩
  exact Int.le_of_eq (Option.some_inj.mp ht).symm

/-- A file with a charset that is no text encoding cannot be loaded, but its modification time is
noted.  So the time and the sheet are neither both replaced nor both kept, and the same file is
taken to be up to date from then on. -/
theorem exists_stale_of_failure :
    ∃ (w : WatchedSheet) (broken : FileState),
      (start "a.css" .default (some ⟨".a\x7b\x7d".toList.map Char.toNat, 1⟩)).result = .ok w ∧
      (w.reload (some broken)).1.result = .error (.decoding (.noTextEncoding "utf-8")) ∧
      ¬ ((w.reload (some broken)).2.IsTakenFrom (.ofFile (some broken)) ∨
        (w.reload (some broken)).2 = w) ∧
      (w.reload (some broken)).2.sheet = w.sheet ∧
      ((w.reload (some broken)).2.reload (some broken)).1.result = .ok false := by
  let broken : FileState := ⟨"@charset \"hex\";.b\x7b\x7d".toList.map Char.toNat, 2⟩
  have hrun : (start "a.css" .default
      (some ⟨".a\x7b\x7d".toList.map Char.toNat, 1⟩)).result.toOption.map (fun w =>
        ((w.reload (some broken)).1.result,
          ((w.reload (some broken)).2.reload (some broken)).1.result)) =
      some (.error (.decoding (.noTextEncoding "utf-8")), .ok false) := by
    decide +kernel
  obtain ⟨w, hstart, hresults⟩ := exists_ok_of_observed hrun
  obtain ⟨hfailed, hagain⟩ := Prod.mk.inj hresults
  have hcases := reloadFrom_cases w (.ofFile (some broken))
  rw [show (w.reloadFrom (.ofFile (some broken))).1.result = _ from hfailed] at hcases
  obtain ⟨hboth, hsheet⟩ :
      ¬ ((w.reload (some broken)).2.IsTakenFrom (.ofFile (some broken)) ∨
        (w.reload (some broken)).2 = w) ∧ (w.reload (some broken)).2.sheet = w.sheet :=
    hcases.torn
  exact ⟨w, broken, hstart, hfailed, hboth, hsheet, hagain⟩

end

end WatchedSheet

end Styling
