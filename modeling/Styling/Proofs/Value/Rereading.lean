import Mathlib
import Styling.Proofs.Syntax.Phrases
import Styling.Proofs.Value.Taking

/-!
# Reading what was printed

A printed phrase is known wherever it stands: its components lie at its place, and their texts are
those of its words.  So whether a grammar reads a phrase can be said without a source, and phrases
are put together along with the readers that take them.

* `Leaf.Reads` and `Reader.Reads` say that a word or phrase is read wherever it stands, and
  `Reader.ReadsAll` that it is read where nothing follows.
* `Reader.Reads.bind` and its like put readers together, and `Reader.ReadsAll.inside_call` is about
  the inside of a call.
* `FoldsOn` is about a loop over the words of a phrase.
* `Reader.ReadsBack` relates a reader to a value and the text it is written as.
-/

namespace Styling

namespace Written

/-! ## The components that matter -/

/-- The components of a phrase that readers do not pass over. -/
def words (start : Nat) (ws : List Written) : List Component :=
  Component.withoutBlanks (listComponents start ws)

theorem words_append (start : Nat) (ws vs : List Written) :
    words start (ws ++ vs) = words start ws ++ words (start + (listChars ws).length) vs := by
  rw [words, listComponents_append, Component.withoutBlanks, List.filter_append]
  rfl

theorem words_singleton {w : Written} (h : w.isBlank = false) (start : Nat) :
    words start [w] = [w.component start] := by
  rw [words, listComponents, listComponents, Component.withoutBlanks,
    List.filter_cons_of_pos (by rw [isWhitespace_component, h]; rfl)]
  rfl

theorem words_cons {w : Written} (h : w.isBlank = false) (start : Nat) (ws : List Written) :
    words start (w :: ws) = w.component start :: words (start + w.chars.length) ws := by
  have happend := words_append start [w] ws
  rwa [words_singleton h, listChars_singleton] at happend

/-- A word is an identifier that spells a lowercase keyword. -/
def isKeyword (word : String) : Written → Bool
  | token _ kind => kind.isKeyword word
  | call _ _ => false

theorem isKeyword_component (word : String) (w : Written) (start : Nat) :
    (w.component start).isKeyword word = w.isKeyword word := by
  cases w <;> rfl

/-- The keywords that every longhand takes, and the words that introduce the inside of a
gradient. -/
def reserved : List String := ["initial", "inherit", "in", "to"]

/-- The first word is one that readers do not pass over, and it is none of the keywords. -/
def StartsUnlike (keywords : List String) (ws : List Written) : Prop :=
  ∃ w vs, ws = w :: vs ∧ w.isBlank = false ∧ ∀ k ∈ keywords, w.isKeyword k = false

namespace StartsUnlike

variable {keywords : List String} {ws : List Written}

theorem intercalate (h : StartsUnlike keywords ws) (sep : List Written)
    (wss : List (List Written)) :
    StartsUnlike keywords (sep.intercalate (ws :: wss)) := by
  obtain ⟨w, vs, rfl, hw⟩ := h
  exact ⟨w, _, List.intercalate_cons_cons_left, hw⟩

theorem mono {more : List String} (h : StartsUnlike more ws) (hsubset : ∀ k ∈ keywords, k ∈ more) :
    StartsUnlike keywords ws := by
  obtain ⟨w, vs, rfl, hw, hkeywords⟩ := h
  exact ⟨w, vs, rfl, hw, fun k hk => hkeywords k (hsubset k hk)⟩

/-- The first component is none of the keywords. -/
theorem head?_words (h : StartsUnlike keywords ws) {k : String} (hk : k ∈ keywords) (start : Nat) :
    (words start ws).head?.any (·.isKeyword k) = false := by
  obtain ⟨w, vs, rfl, hw, hkeywords⟩ := h
  rw [words_cons hw, List.head?_cons, Option.any_some, isKeyword_component]
  exact hkeywords k hk

end StartsUnlike

end Written

open Written (At listChars words)

/-- Wherever the word stands, the leaf gives the value. -/
def Leaf.Reads {α : Type} (f : Leaf α) (w : Written) (a : α) : Prop :=
  ∀ source start, At source start w.chars → f source (w.component start) = .ok a

namespace Reader

variable {α β : Type}

/-- Wherever the phrase stands and whatever follows it, the reader takes it and gives the value. -/
def Reads (r : Reader α) (ws : List Written) (a : α) : Prop :=
  ∀ source start ds, At source start (listChars ws) → r.Takes source (words start ws ++ ds) a ds

/-- Wherever the phrase stands, if nothing follows it, the reader takes it and gives the value. -/
def ReadsAll (r : Reader α) (ws : List Written) (a : α) : Prop :=
  ∀ source start, At source start (listChars ws) → r.Takes source (words start ws) a []

namespace Reads

variable {ws vs : List Written} {w : Written} {a : α} {b : β}

theorem all {r : Reader α} (h : r.Reads ws a) : r.ReadsAll ws a := by
  intro source start hat
  have htakes := h source start [] hat
  rwa [List.append_nil] at htakes

theorem pure (a : α) : (pure a : Reader α).Reads [] a :=
  fun _ _ _ _ => .pure a

theorem bind {r : Reader α} {f : α → Reader β} (hr : r.Reads ws a) (hf : (f a).Reads vs b) :
    (r >>= f).Reads (ws ++ vs) b := by
  intro source start ds hat
  rw [Written.listChars_append] at hat
  rw [Written.words_append, List.append_assoc]
  exact .bind (hr source start _ hat.left) (hf source _ ds hat.right)

theorem bind_all {r : Reader α} {f : α → Reader β} (hr : r.Reads ws a) (hf : (f a).ReadsAll vs b) :
    (r >>= f).ReadsAll (ws ++ vs) b := by
  intro source start hat
  rw [Written.listChars_append] at hat
  rw [Written.words_append]
  exact .bind (hr source start _ hat.left) (hf source _ hat.right)

/-- A reader passes over a space. -/
theorem space {r : Reader α} (h : r.Reads ws a) : r.Reads (.space :: ws) a :=
  fun source start ds hat => h source (start + 1) ds hat.tail

theorem leaf {f : Leaf α} (hw : w.IsWord) (hf : f.Reads w a) : (Reader.leaf f).Reads [w] a := by
  intro source start ds hat
  rw [Written.listChars_singleton] at hat
  rw [Written.words_singleton hw.isBlank]
  exact .leaf (hw.isVar start) (hf source start hat)

theorem tryComma : Reader.tryComma.Reads [.comma] true :=
  fun _ _ _ _ => .tryComma rfl

end Reads

namespace ReadsAll

variable {ws : List Written} {a : α} {b : β}

theorem bind_pure {r : Reader α} (h : r.ReadsAll ws a) (f : α → β) :
    (r >>= fun a => Pure.pure (f a)).ReadsAll ws (f a) :=
  fun source start hat => .bind (h source start hat) (.pure _)

/-- A reader passes over a space. -/
theorem space {r : Reader α} (h : r.ReadsAll ws a) : r.ReadsAll (.space :: ws) a :=
  fun source start hat => h source (start + 1) hat.tail

/-- The inside of a call is read by a reader that reads all of it. -/
theorem inside_call {r : Reader α} (h : r.ReadsAll ws a) {source : Source} {name : List Char}
    {start : Nat} (hat : At source start (Written.call name ws).chars) {c : Cursor}
    (hsource : c.source = source) :
    r.inside (c.nested ((Written.call name ws).component start)) = .ok a := by
  refine (h source (start + name.length + 1) ?_).inside hsource rfl
  rw [Written.chars] at hat
  exact hat.right.tail.left

end ReadsAll

/-- The value is written as a phrase that the reader, where nothing follows, reads as an equal
value; and the phrase does not start with a word that stands for a value of every property. -/
def ReadsBack [BEq α] (r : Reader α) (css : Except Fault String) (a : α) : Prop :=
  ∃ ws b, css = .ok (String.ofList (listChars ws)) ∧ Written.IsPhrase ws ∧
    Written.StartsUnlike ["initial", "inherit"] ws ∧ r.ReadsAll ws b ∧ (b == a) = true

end Reader

/-! ## Loops -/

section Loops

variable {σ : Type} {step : Source → σ → Component → Except StepError (Option σ)} {s t u : σ}

/-- Wherever the word stands, the step goes from one state to another. -/
def StepsOn (step : Source → σ → Component → Except StepError (Option σ)) (w : Written) (s t : σ) :
    Prop :=
  ∀ source start, At source start w.chars → step source s (w.component start) = .ok (some t)

/-- Wherever the phrase stands, the loop goes from one state to another along its words. -/
def FoldsOn (step : Source → σ → Component → Except StepError (Option σ)) (ws : List Written)
    (s t : σ) : Prop :=
  ∀ source start, At source start (listChars ws) → ∀ ds u es,
    (Reader.foldWhile (step source) t).Takes source ds u es →
      (Reader.foldWhile (step source) s).Takes source (words start ws ++ ds) u es

/-- The steps over the words one after the other go from one state to another. -/
def RunsOn (step : Source → σ → Component → Except StepError (Option σ)) :
    List Written → σ → σ → Prop
  | [], s, t => s = t
  | w :: ws, s, t => ∃ u, StepsOn step w s u ∧ RunsOn step ws u t

theorem RunsOn.append {ws vs : List Written} (hw : RunsOn step ws s t) (hv : RunsOn step vs t u) :
    RunsOn step (ws ++ vs) s u := by
  induction ws generalizing s with
  | nil =>
    obtain rfl := hw
    exact hv
  | cons w ws ih =>
    obtain ⟨r, hr, hrest⟩ := hw
    exact ⟨r, hr, ih hrest⟩

namespace FoldsOn

variable {ws vs : List Written} {w : Written}

theorem append (hw : FoldsOn step ws s t) (hv : FoldsOn step vs t u) :
    FoldsOn step (ws ++ vs) s u := by
  intro source start hat ds r es hrest
  rw [Written.listChars_append] at hat
  rw [Written.words_append, List.append_assoc]
  exact hw source start hat.left _ r es (hv source _ hat.right ds r es hrest)

/-- One more word before a phrase. -/
theorem cons (hw : w.isBlank = false) (h : StepsOn step w s t) (hws : FoldsOn step ws t u) :
    FoldsOn step (w :: ws) s u := by
  intro source start hat ds r es hrest
  rw [Written.listChars] at hat
  rw [Written.words_cons hw]
  exact .foldWhile_cons (h source start hat.left) (hws source _ hat.right ds r es hrest)

theorem nil (s : σ) : FoldsOn step [] s s :=
  fun _ _ _ _ _ _ hrest => hrest

/-- A loop passes over a space. -/
theorem space (h : FoldsOn step ws s t) : FoldsOn step (.space :: ws) s t :=
  fun source start hat => h source (start + 1) hat.tail

/-- A loop passes over the spaces between words. -/
theorem spaced (hws : ∀ w ∈ ws, w.isBlank = false) (h : RunsOn step ws s t) :
    FoldsOn step ([Written.space].intercalate (ws.map ([·]))) s t := by
  induction ws generalizing s with
  | nil =>
    obtain rfl := h
    exact .nil s
  | cons w ws ih =>
    obtain ⟨u, hu, hrest⟩ := h
    have hblank := hws w List.mem_cons_self
    have htail := ih (fun v hv => hws v (List.mem_cons_of_mem _ hv)) hrest
    cases ws with
    | nil =>
      obtain rfl := hrest
      rw [List.map_singleton, List.intercalate_singleton]
      exact cons hblank hu (.nil u)
    | cons v vs =>
      rw [List.map_cons, List.map_cons, List.intercalate_cons_cons, List.append_assoc]
      exact cons hblank hu htail.space

/-- A phrase is read by a loop, which ends where nothing follows. -/
theorem takes (h : FoldsOn step ws s t) {source : Source} {start : Nat}
    (hat : At source start (listChars ws)) :
    (Reader.foldWhile (step source) s).Takes source (words start ws) t [] := by
  have htakes := h source start hat [] t [] .foldWhile_nil
  rwa [List.append_nil] at htakes

end FoldsOn

end Loops

end Styling
