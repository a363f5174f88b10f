import Mathlib
import Styling.Proofs.Variable.Walk

/-!
# One pass and its reference

A pass replaces the outermost `var()` calls of a text and keeps every other character where it is in
order.  It puts the result together from stretches between calls, by offsets; seen from the
characters, each of them stays or goes by itself, and the first one of a call makes room for the
replacement.

* `Component.replaceAt` is what becomes of a character, and `Splice.render_eq_flatMap` compares it
  with putting stretches together.
* `substitute_eq_reference` is the statement about a pass.
-/

namespace Styling

/-! ## Characters that stay and go -/

namespace Component

/-- What becomes of a character with its offset: in a call the replacement stands in place of the
first character and nothing in place of the others, and every other character stays. -/
def replaceAt (calls : List Component) (replacement : Component → String) (c : Char × Nat) :
    List Char :=
  match calls.find? fun call => decide (call.start ≤ c.2 ∧ c.2 < call.stop) with
  | some call => if c.2 = call.start then (replacement call).toList else []
  | none => [c.1]

section

variable {calls : List Component} {replacement : Component → String} {call : Component}
  {c : Char × Nat} {start : Nat} {text : List Char}

/-- A character outside of all calls stays. -/
theorem replaceAt_of_forall (h : ∀ call ∈ calls, ¬ (call.start ≤ c.2 ∧ c.2 < call.stop)) :
    replaceAt calls replacement c = [c.1] := by
  rw [replaceAt, List.find?_eq_none.mpr fun call hcall => by simpa using h call hcall]

theorem replaceAt_of_mem (h : call.start ≤ c.2 ∧ c.2 < call.stop) :
    replaceAt (call :: calls) replacement c =
      if c.2 = call.start then (replacement call).toList else [] := by
  rw [replaceAt, List.find?_cons_of_pos (by simpa using h)]

theorem replaceAt_of_notMem (h : ¬ (call.start ≤ c.2 ∧ c.2 < call.stop)) :
    replaceAt (call :: calls) replacement c = replaceAt calls replacement c := by
  rw [replaceAt, List.find?_cons_of_neg (by simpa using h), replaceAt]

/-- Characters in front of all calls stay. -/
theorem flatMap_replaceAt_before (h : ∀ call ∈ calls, start + text.length ≤ call.start) :
    (text.zipIdx start).flatMap (replaceAt calls replacement) = text := by
  have hstay : ∀ c ∈ text.zipIdx start, replaceAt calls replacement c = [c.1] := by
    intro c hc
    refine replaceAt_of_forall fun call hcall hmem => ?_
    have hbefore := h call hcall
    have hc := List.snd_lt_add_of_mem_zipIdx hc
    omega
  rw [List.flatMap_congr hstay, ← List.map_eq_flatMap, List.zipIdx_map_fst]

/-- The characters of a call make room for its replacement. -/
theorem flatMap_replaceAt_call (hne : text ≠ []) (hstop : call.stop = call.start + text.length) :
    (text.zipIdx call.start).flatMap (replaceAt (call :: calls) replacement) =
      (replacement call).toList := by
  obtain ⟨first, rest, rfl⟩ := List.exists_cons_of_ne_nil hne
  rw [List.length_cons] at hstop
  have hgo : ∀ c ∈ rest.zipIdx (call.start + 1),
      replaceAt (call :: calls) replacement c = [] := by
    intro c hc
    have hle := List.le_snd_of_mem_zipIdx hc
    have hlt := List.snd_lt_add_of_mem_zipIdx hc
    rw [replaceAt_of_mem ⟨by omega, by omega⟩, if_neg (by omega)]
  rw [List.zipIdx_cons, List.flatMap_cons, List.flatMap_eq_nil_iff.mpr hgo, List.append_nil,
    replaceAt_of_mem ⟨le_rfl, by dsimp only; omega⟩, if_pos rfl]

/-- Behind a call the others count. -/
theorem flatMap_replaceAt_behind (h : call.stop ≤ start) :
    (text.zipIdx start).flatMap (replaceAt (call :: calls) replacement) =
      (text.zipIdx start).flatMap (replaceAt calls replacement) := by
  refine List.flatMap_congr fun c hc => replaceAt_of_notMem fun hmem => ?_
  have hle := List.le_snd_of_mem_zipIdx hc
  omega

end

end Component

/-- Putting a text together from its stretches is what becomes of its characters. -/
theorem Splice.render_eq_flatMap {calls : List Component} {start : Nat} {text : List Char}
    (horder : calls.Pairwise fun c d => c.stop ≤ d.start)
    (hlies : ∀ c ∈ calls, c.Lies start (start + text.length))
    (replacement : Component → String) :
    render start text (calls.map fun c => ⟨⟨c.start, c.stop⟩, replacement c⟩) =
      (text.zipIdx start).flatMap (Component.replaceAt calls replacement) := by
  induction calls generalizing start text with
  | nil => exact (Component.flatMap_replaceAt_before fun call h => absurd h List.not_mem_nil).symm
  | cons call calls ih =>
    obtain ⟨hbehind, horder⟩ := List.pairwise_cons.mp horder
    obtain ⟨⟨hfirst, hpos, hlast⟩, hlies⟩ := List.forall_mem_cons.mp hlies
    -- The text in front of the call, that of the call and the text behind it.
    obtain ⟨before, inside, behind, rfl, hbefore, hinside⟩ : ∃ before inside behind,
        text = before ++ (inside ++ behind) ∧ start + before.length = call.start ∧
          call.start + inside.length = call.stop := by
      refine ⟨text.take (call.start - start),
        (text.drop (call.start - start)).take (call.stop - call.start),
        (text.drop (call.start - start)).drop (call.stop - call.start), ?_, ?_, ?_⟩
      · rw [List.take_append_drop, List.take_append_drop]
      · rw [List.length_take]
        omega
      · rw [List.length_take, List.length_drop]
        omega
    have hbeforeAll : ∀ c ∈ call :: calls, start + before.length ≤ c.start :=
      List.forall_mem_cons.mpr ⟨hbefore.le, fun c hc => by have := hbehind c hc; omega⟩
    have hne : inside ≠ [] := List.ne_nil_of_length_pos (by omega)
    have hliesBehind : ∀ c ∈ calls, c.Lies call.stop (call.stop + behind.length) := by
      intro c hc
      have hlast := (hlies c hc).2.2
      simp only [List.length_append] at hlast
      exact ⟨hbehind c hc, (hlies c hc).2.1, by omega⟩
    have htake : call.start - start = before.length := by omega
    have hdrop : call.stop - start = (before ++ inside).length := by
      rw [List.length_append]
      omega
    rw [List.map_cons, render, htake, hdrop, List.take_left, ← List.append_assoc before inside,
      List.drop_left, ih horder hliesBehind, List.zipIdx_append, List.flatMap_append,
      List.zipIdx_append, List.flatMap_append, Component.flatMap_replaceAt_before hbeforeAll,
      hbefore, Component.flatMap_replaceAt_call hne hinside.symm, List.length_append,
      ← Nat.add_assoc, hbefore, hinside, Component.flatMap_replaceAt_behind le_rfl]

/-! ## One pass -/

/-- The calls outside of others follow each other. -/
theorem Source.pairwise_calls {s : Source} {parsed : Parsed (List Component)}
    (h : s.components = .ok parsed) :
    ((Component.listOutside parsed.value).filter Component.isVar).Pairwise
      fun c d => c.stop ≤ d.start := by
  have horder := (listOutside_of_components h).2.filter Component.isVar
  refine horder.imp_of_mem fun hc _ hbefore => ?_
  exact hbefore.2 (List.mem_filter.mp hc).2

section Pass

variable {text : String} {parsed : Parsed (List Component)}

/-- What stands outside of calls is part of the text. -/
theorem holds_of_isOutside (h : (Source.ofString text).components = .ok parsed)
    (herrors : parsed.errors = []) {c : Component} (hc : c.IsOutside parsed.value) :
    (Source.ofString text).Holds c := by
  induction hc with
  | here mem => exact Source.holds_of_components h herrors _ mem
  | inside above call mem ih => exact ih.of_mem_children mem

/-- What a pass comes to in a text without syntax errors. -/
theorem substitute_of_components (h : (Source.ofString text).components = .ok parsed)
    (herrors : parsed.errors = []) (vars : Variables) :
    substitute text vars = .ok (do
      let splices ← (Component.listOutside parsed.value).mapM
        (Component.met (Source.ofString text) vars)
      return (String.ofList (Splice.render 0 (Source.ofString text).chars splices.flatten),
        splices.flatten.length)) := by
  simp only [substitute, bind, Except.bind, h, herrors, Component.listSplices_eq]
  cases (Component.listOutside parsed.value).mapM
    (Component.met (Source.ofString text) vars) <;> rfl

/-- A pass ends early at the first component that stops it. -/
theorem substitute_eq_error_iff (h : (Source.ofString text).components = .ok parsed)
    (herrors : parsed.errors = []) (vars : Variables) (problem : ResolveProblem) :
    substitute text vars = .ok (.error problem) ↔
      ∃ c : Component, c.IsOutside parsed.value ∧ c.Stops vars problem ∧
        ∀ (d : Component) problem', d.IsOutside parsed.value → d.Stops vars problem' →
          c.start ≤ d.start := by
  have hwalk : substitute text vars = .ok (.error problem) ↔
      (Component.listOutside parsed.value).mapM (Component.met (Source.ofString text) vars) =
        .error problem := by
    rw [substitute_of_components h herrors]
    cases (Component.listOutside parsed.value).mapM
      (Component.met (Source.ofString text) vars) <;> simp [bind, Except.bind, pure, Except.pure]
  rw [hwalk, Component.mapM_met_eq_error_iff (Source.listOutside_of_components h).2]
  simp only [Component.mem_listOutside]
  refine exists_congr fun c => and_congr_right fun _ => and_congr_right fun _ => ?_
  exact ⟨fun hfirst d problem' hd => hfirst d hd problem', fun hfirst d hd problem' =>
    hfirst d problem' hd⟩

/-- A pass that comes to its end replaces every call outside of others by what it gives. -/
theorem eq_of_substitute (h : (Source.ofString text).components = .ok parsed)
    (herrors : parsed.errors = []) {vars : Variables} {out : String} {n : Nat}
    (hsubstitute : substitute text vars = .ok (.ok (out, n))) :
    let calls := (Component.listOutside parsed.value).filter Component.isVar
    n = calls.length ∧ ∃ replacement : Component → String,
      (∀ c ∈ calls, c.Gives (Source.ofString text) vars (replacement c)) ∧
      out = String.ofList ((Source.ofString text).chars.zipIdx.flatMap
        (Component.replaceAt calls replacement)) := by
  intro calls
  obtain ⟨hlies, -⟩ := Source.listOutside_of_components h
  rw [substitute_of_components h herrors] at hsubstitute
  obtain ⟨splices, hwalk, hresult⟩ := exists_of_bind_eq_ok (Except.ok.inj hsubstitute)
  obtain ⟨rfl, rfl⟩ := Prod.mk.inj (Except.ok.inj hresult)
  rw [Component.flatten_of_mapM_met hwalk]
  refine ⟨List.length_map _, Component.replacement (Source.ofString text) vars, fun c hc => ?_, ?_⟩
  · obtain ⟨hc, hcall⟩ := List.mem_filter.mp hc
    obtain ⟨splice, hmet⟩ := exists_of_mapM_eq_ok hwalk c hc
    exact Component.gives_of_varReplacement
      (holds_of_isOutside h herrors (Component.mem_listOutside.mp hc))
      ((Component.eq_of_met_eq_ok hmet).2 hcall)
  · refine congrArg String.ofList (Splice.render_eq_flatMap (Source.pairwise_calls h) ?_ _)
    intro c hc
    rw [Nat.zero_add]
    exact hlies c (List.mem_filter.mp hc).1

/-- **A pass equals its reference.**  The calls outside of others stand in the text in order, and
nothing but its characters is needed to say what comes out: each character outside of the calls
stays, and each call is replaced by what it gives.  The pass ends early exactly if some component
outside of calls stops it, and then with the problem of the first one. -/
theorem substitute_eq_reference (h : (Source.ofString text).components = .ok parsed)
    (herrors : parsed.errors = []) (vars : Variables) :
    ∃ calls : List Component,
      (∀ c, c ∈ calls ↔ c.isVar = true ∧ c.IsOutside parsed.value) ∧
      calls.Pairwise (fun c d => c.stop ≤ d.start) ∧
      (∀ c ∈ calls, c.Lies 0 (Source.ofString text).length) ∧
      (∃ result, substitute text vars = .ok result) ∧
      (∀ out n, substitute text vars = .ok (.ok (out, n)) →
        n = calls.length ∧ ∃ replacement : Component → String,
          (∀ c ∈ calls, c.Gives (Source.ofString text) vars (replacement c)) ∧
          out = String.ofList ((Source.ofString text).chars.zipIdx.flatMap
            (Component.replaceAt calls replacement))) ∧
      ∀ problem, substitute text vars = .ok (.error problem) ↔
        ∃ c : Component, c.IsOutside parsed.value ∧ c.Stops vars problem ∧
          ∀ (d : Component) problem', d.IsOutside parsed.value → d.Stops vars problem' →
            c.start ≤ d.start := by
  obtain ⟨hlies, -⟩ := Source.listOutside_of_components h
  refine ⟨(Component.listOutside parsed.value).filter Component.isVar, fun c => ?_,
    Source.pairwise_calls h, fun c hc => hlies c (List.mem_filter.mp hc).1,
    ⟨_, substitute_of_components h herrors vars⟩,
    fun out n hsubstitute => eq_of_substitute h herrors hsubstitute,
    substitute_eq_error_iff h herrors vars⟩
  rw [List.mem_filter, Component.mem_listOutside, and_comm]

end Pass

/-- A call inside a function is replaced by its value and the next one by its fallback, with the
call in there.  With a bracket that closes nothing between two calls, nothing is replaced. -/
theorem substitute_eq_reference_nested :
    let vars : Variables := ⟨[[("--a", "1px")]]⟩
    (∃ (parsed : Parsed (List Component)) (calls : List Component),
      (Source.ofString "f(var(--a)) var(--b, [var(--c)] )").components = .ok parsed ∧
      (∀ c, c ∈ calls ↔ c.isVar = true ∧ c.IsOutside parsed.value) ∧ calls.length = 2 ∧
      ∃ replacement : Component → String,
        (∀ c ∈ calls,
          c.Gives (.ofString "f(var(--a)) var(--b, [var(--c)] )") vars (replacement c)) ∧
        "f(1px) [var(--c)] " = String.ofList
          ("f(var(--a)) var(--b, [var(--c)] )".toList.zipIdx.flatMap
            (Component.replaceAt calls replacement))) ∧
    ∃ (parsed : Parsed (List Component)) (c : Component),
      (Source.ofString "f(var(--a)]) var(--b)").components = .ok parsed ∧
      c.IsOutside parsed.value ∧ c.Stops vars .notReadable := by
  intro vars
  have hread : (Source.ofString "f(var(--a)) var(--b, [var(--c)] )").components.toOption.map
      (fun parsed => parsed.errors) = some [] := by decide +kernel
  have hreadStray : (Source.ofString "f(var(--a)]) var(--b)").components.toOption.map
      (fun parsed => parsed.errors) = some [] := by decide +kernel
  have hpass : substitute "f(var(--a)) var(--b, [var(--c)] )" vars =
      .ok (.ok ("f(1px) [var(--c)] ", 2)) := by cbv
  have hpassStray : substitute "f(var(--a)]) var(--b)" vars = .ok (.error .notReadable) := by cbv
  have hchars : (Source.ofString "f(var(--a)) var(--b, [var(--c)] )").chars =
      "f(var(--a)) var(--b, [var(--c)] )".toList := by cbv
  obtain ⟨parsed, hparsed, herrors⟩ := exists_ok_of_observed hread
  obtain ⟨parsedStray, hparsedStray, herrorsStray⟩ := exists_ok_of_observed hreadStray
  refine ⟨?_, ?_⟩
  · obtain ⟨calls, hcalls, -, -, -, hreplaced, -⟩ := substitute_eq_reference hparsed herrors vars
    obtain ⟨hcount, replacement, hgives, hout⟩ := hreplaced _ _ hpass
    rw [hchars] at hout
    exact ⟨parsed, calls, hparsed, hcalls, hcount.symm, replacement, hgives, hout⟩
  · obtain ⟨-, -, -, -, -, -, hstopped⟩ := substitute_eq_reference hparsedStray herrorsStray vars
    obtain ⟨c, hc, hstops, -⟩ := (hstopped _).mp hpassStray
    exact ⟨parsedStray, c, hparsedStray, hc, hstops⟩

end Styling
