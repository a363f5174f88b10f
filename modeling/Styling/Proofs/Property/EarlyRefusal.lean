import Mathlib
import Styling.Proofs.Grammar.Agreement
import Styling.Proofs.Property.Verdict
import Styling.Proofs.Variable.Prefix

/-!
# Refusing a value before its `var()` calls are replaced

A value with a `var()` call may be refused before custom properties are known.  This is sound: what
is read after the call was replaced starts with the same components, and the reader that refused the
value did not get to the call.

The replacement is put into the text, and three things can happen there which no reader foresees.
The text around the call can become one token with what is put there.  A keyword before a call that
is replaced by nothing can stand alone, and so mean something else.  And the side of a gradient can
come from the call.  In all other cases the value is refused again.

* `Source.varOffset?` and `Source.isPastedAt` are about the first of these things, and
  `Cursor.isLone` and `PropertyKind.loneWords` about the second.
* `IsBeforeCall.agreeToVar` compares two texts with a common part before a call, and
  `exists_agreeToVar_of_resolve` a value with what it becomes.
* `PropertyKind.refused_of_agreeToVar` is about a kind of property, and
  `Declaration.refused_of_resolve` about declarations.
-/

namespace Styling

/-- The offset at which the first `var()` call of a text starts, if there is one. -/
def Source.varOffset? (s : Source) : Option Nat :=
  (s.lexemes.find? (·.token.kind.opensVar)).map (·.token.start)

/-- A token that is no whitespace starts before an offset and ends behind it. -/
def Source.isPastedAt (s : Source) (offset : Nat) : Bool :=
  s.lexemes.any fun l =>
    decide (l.token.start < offset) && decide (offset < l.token.stop) && !l.token.kind.isWhitespace

/-- A keyword is all that follows the cursor. -/
def Cursor.isLone (word : String) (c : Cursor) : Bool :=
  match c.rest.dropWhile Component.isWhitespace with
  | [] => false
  | x :: rest => x.isKeyword word && (rest.dropWhile Component.isWhitespace).isEmpty

/-- The keywords that a kind of property takes only if they stand alone. -/
def PropertyKind.loneWords : PropertyKind → List String
  | longhand l => if l.takesNone then ["initial", "inherit", "none"] else ["initial", "inherit"]
  | shorthand _ => ["initial", "inherit"]

/-! ## What a text becomes -/

/-- The first token that opens a `var()` call in a text that has one. -/
theorem exists_first_opensVar {s : Source} {cs : List Component} {stop : Nat}
    (hcs : cs = (Component.ofTokens stop s.keptTokens).1)
    (hvar : Component.listContainsVar cs = true) :
    ∃ before l after, s.lexemes = before ++ l :: after ∧ l.token.kind.opensVar = true ∧
      (∀ k ∈ before, k.token.kind.opensVar = false) ∧ s.varOffset? = some l.token.start := by
  obtain ⟨t, ht, hopens⟩ := Component.exists_opensVar_of_list hvar
  rw [hcs, Component.listTokens_ofTokens] at ht
  obtain ⟨k, hk, rfl⟩ := List.mem_map.mp (List.mem_filter.mp ht).1
  have hsome : (s.lexemes.find? (·.token.kind.opensVar)).isSome = true :=
    List.find?_isSome.mpr ⟨k, hk, hopens⟩
  obtain ⟨l, hl⟩ := Option.isSome_iff_exists.mp hsome
  obtain ⟨hvar, before, after, hsplit, hbefore⟩ := List.find?_eq_some_iff_append.mp hl
  refine ⟨before, l, after, hsplit, hvar, fun k hk => ?_, by rw [Source.varOffset?, hl]; rfl⟩
  simpa using hbefore k hk

/-- Two texts with a common part before the first call of one of them agree up to the call, if no
token of the other goes on beyond that part. -/
theorem IsBeforeCall.agreeToVar {S T : Source} {as xs ys : List Char} {l : Lexeme}
    {after : List Lexeme} (h : IsBeforeCall xs as) (hS : S.chars = as ++ xs)
    (hT : T.chars = as ++ ys) (hsplit : S.lexemes = lexemesFrom scanToken 0 as ++ l :: after)
    (hopens : l.token.kind.opensVar = true) (hsound : ∀ k ∈ T.lexemes, k.problem = none)
    (hseam : T.isPastedAt as.length = false) :
    AgreeToVar S T (Component.ofTokens S.length S.keptTokens).1
      (Component.ofTokens T.length T.keptTokens).1 := by
  have hlexemes : T.lexemes = lexemesFrom scanToken 0 (as ++ ys) := by
    rw [Source.lexemes, Source.lexemesBy, hT]
  rw [Source.isPastedAt, hlexemes, List.any_eq_false] at hseam
  rw [hlexemes] at hsound
  obtain ⟨common, blanks, after', has, hcommon, hblanks⟩ := h.cut.exists_common_blanks hsound
    fun k hk hkstart hkstop => by
      rw [Nat.zero_add] at hkstart hkstop
      simpa [hkstart, hkstop] using hseam k hk
  have hkept : (!l.token.kind.isComment) = true := by
    rw [TokenKind.isComment_of_opensVar hopens]
    rfl
  have hcall : ∀ ts : List Token, (l.token :: ts).filter (fun u => !u.kind.isComment) =
      l.token :: ts.filter fun u => !u.kind.isComment := fun _ => List.filter_cons_of_pos hkept
  rw [Source.keptTokens, Source.keptTokens, hsplit, has, hlexemes, hcommon]
  simp only [List.map_append, List.map_cons, List.filter_append, List.append_assoc, hcall]
  refine agreeToVar_ofTokens (n := as.length) ?_ (fun u hu => ?_) (fun u hu => ?_) hopens _ _
  · rw [hS, hT, List.take_left, List.take_left]
  · obtain ⟨k, hk, rfl⟩ := List.mem_map.mp (List.mem_filter.mp hu).1
    have hbefore : k ∈ lexemesFrom scanToken 0 as := has ▸ List.mem_append_left _ hk
    have hstop := h.cut.stop_le hbefore
    rw [Nat.zero_add] at hstop
    exact ⟨hstop, h.noCall k hbefore⟩
  · obtain ⟨k, hk, rfl⟩ := List.mem_map.mp (List.mem_filter.mp hu).1
    exact hblanks k hk

/-- A value and what it becomes agree up to the first `var()` call, if what is put there does not
become one token with the text before. -/
theorem exists_agreeToVar_of_resolve {raw t : String} {c : Cursor} {location : Location}
    {vars : Variables} {limit : Int} (hraw : Cursor.ofText raw = .ok c) (hvar : c.holdsVar = true)
    (hresolve : (resolve raw location vars limit).result = .ok (.ok t))
    (hseam : ∀ o, (Source.ofString raw).varOffset? = some o →
      (Source.ofString t).isPastedAt o = false) :
    ∃ d, Cursor.ofText t = .ok d ∧ c.AgreeToVar (Source.ofString raw) (Source.ofString t) d := by
  obtain ⟨parsed, hparsed, herrors, rfl⟩ := Cursor.ofText_eq_ok.mp hraw
  obtain ⟨hsound, hvalue, -⟩ := Source.components_eq_ok hparsed herrors
  obtain ⟨before, l, after, hsplit, hopens, hfirst, hoffset⟩ := exists_first_opensVar hvalue hvar
  obtain ⟨as, xs, hchars, hprefix, rfl, hstart⟩ := exists_isBeforeCall
    (fun _ => Source.isNormal_of_mem_normalize) hsplit hsound hopens hfirst
  obtain ⟨⟨ys, hys⟩, parsed', hparsed', herrors'⟩ :=
    hprefix.exists_append_of_resolveFrom (resolveFrom_of_resolve hresolve) ⟨xs, hchars⟩
  obtain ⟨hsound', hvalue', -⟩ := Source.components_eq_ok hparsed' herrors'
  refine ⟨_, Cursor.ofText_eq_ok.mpr ⟨parsed', hparsed', herrors', rfl⟩, rfl, rfl, ?_⟩
  change AgreeToVar _ _ parsed.value parsed'.value
  rw [hvalue, hvalue']
  exact hprefix.agreeToVar hchars hys hsplit hopens hsound' (hseam as.length (hstart ▸ hoffset))

/-! ## Reading again -/

theorem Cursor.isKeywordExhausted_of_isLone {word : String} {c : Cursor}
    (h : c.isLone word = false) : Reader.isKeywordExhausted word c = .ok false c := by
  cases hpeek : c.peek with
  | none => exact Reader.isKeywordExhausted_of_peek_none hpeek
  | some x =>
    have hend : c.advance.isExhausted =
        (c.advance.rest.dropWhile Component.isWhitespace).isEmpty := by
      rw [isExhausted, peek]
      cases c.advance.rest.dropWhile Component.isWhitespace <;> rfl
    rw [isLone, rest_of_peek hpeek] at h
    rw [Reader.isKeywordExhausted_of_peek hpeek, hend, if_neg (Bool.eq_false_iff.mp h)]

/-- What is refused in an ordinary way is refused again. -/
theorem Reader.refused_of_agrees {α : Type} {S T : Source} {may : Prop} {r : Reader α}
    {deferred : String → Location → α} {c d c' : Cursor} {refusal : Refusal}
    (h : Agrees S T may (r c) (r d))
    (hrefused : exactOrDeferred r deferred c = .error (.refused refusal) c') :
    ∃ refusal' d', exactOrDeferred r deferred d = .error (.refused refusal') d' := by
  have hwhole := h.whole
  rw [exactOrDeferred, EStateM.run] at hrefused ⊢
  generalize (do let a ← r; expectExhausted; return a : Reader α) c = x at hwhole hrefused
  generalize (do let a ← r; expectExhausted; return a : Reader α) d = y at hwhole
  cases hwhole with
  | ok a hcd => exact absurd hrefused (by simp)
  | @refused e e' c' d' he he' =>
    rcases e' with (⟨reason, l⟩ | ⟨reason, l⟩ | l) | f
    · exact ⟨_, d', rfl⟩
    · exact ⟨_, d', rfl⟩
    · exact absurd he' Bool.false_ne_true
    · exact absurd he' Bool.false_ne_true
  | waits hwaits =>
    cases x with
    | ok a c' => exact hwaits.1.elim
    | error e c' =>
      rcases e with (⟨reason, l⟩ | ⟨reason, l⟩ | l) | f
      · exact absurd (show true = false from hwaits) (by decide)
      · exact absurd (show true = false from hwaits) (by decide)
      · exact absurd hrefused (by simp)
      · exact absurd hrefused (by simp)

/-- A kind of property that refuses a value refuses what agrees with it up to a `var()` call. -/
theorem PropertyKind.refused_of_agreeToVar {S T : Source} (kind : PropertyKind) {c d : Cursor}
    {r : Refusal} (h : c.AgreeToVar S T d) (hvar : c.holdsVar = true)
    (hrefused : kind.readCursor c = .error (.refused r))
    (hlone : ∀ word ∈ kind.loneWords, d.isLone word = false)
    (hside : kind = .longhand .backgroundImage →
      Grammar.NoSideAwaited (c.rest.find? Component.containsVar)) :
    ∃ r', kind.readCursor d = .error (.refused r') := by
  have hc := Reader.isKeywordExhausted_of_holdsVar hvar
  have hd : ∀ word ∈ kind.loneWords, Reader.isKeywordExhausted word d = .ok false d :=
    fun word hword => Cursor.isKeywordExhausted_of_isLone (hlone word hword)
  obtain ⟨c', hread⟩ := readCursor_eq_error_iff.mp hrefused
  simp only [readCursor_eq_error_iff]
  cases kind with
  | shorthand s =>
    rw [read] at hread ⊢
    exact Reader.refused_of_agrees (s.agrees_reader h hvar hd) hread
  | longhand l =>
    have hwords : ∀ word ∈ ["initial", "inherit"], word ∈ (longhand l).loneWords := by
      intro word hword
      rw [loneWords]
      split
      · exact List.mem_append_left ["none"] hword
      · exact hword
    have hnone : l.takesNone = true → Reader.isKeywordExhausted "none" d = .ok false d := by
      intro htakes
      refine hd "none" ?_
      rw [loneWords, if_pos htakes]
      decide
    have hinitial := hd "initial" (hwords _ (by decide))
    have hinherit := hd "inherit" (hwords _ (by decide))
    have hagrees := l.agrees_reader h hvar hnone fun hl => hside (congrArg longhand hl)
    rw [read_longhand_apply (hc "initial") (hc "inherit"), Reader.bind_apply] at hread
    rw [read_longhand_apply hinitial hinherit, Reader.bind_apply]
    cases hrun : Reader.exactOrDeferred l.reader .deferred c with
    | ok value c' =>
      rw [hrun] at hread
      exact absurd hread (by simp)
    | error e c'' =>
      rw [hrun] at hread
      obtain ⟨rfl, rfl⟩ := EStateM.Result.error.inj hread
      obtain ⟨r', d', hagain⟩ := Reader.refused_of_agrees hagrees hrun
      exact ⟨r', d', by rw [hagain]⟩

namespace Declaration

theorem readText_eq_bind {name : String} {kind : PropertyKind}
    (hname : PropertyKind.ofName? name = some kind) (value : String) :
    readText name value = Cursor.ofText value >>= kind.readCursor := by
  simp only [readText, read, hname]

/-- What the grammar of a longhand refuses, in a value with a `var()` call, is refused. -/
theorem readText_of_refused {name value : String} {l : Longhand} {c c' : Cursor} {r : Refusal}
    (hname : PropertyKind.ofName? name = some (.longhand l)) (hc : Cursor.ofText value = .ok c)
    (hvar : c.holdsVar = true)
    (hread : Reader.exactOrDeferred l.reader .deferred c = .error (.refused r) c') :
    readText name value = .error (.refused r) := by
  have hlone := Reader.isKeywordExhausted_of_holdsVar hvar
  have hkind : (PropertyKind.longhand l).read c = .error (.refused r) c' := by
    rw [PropertyKind.read_longhand_apply (hlone "initial") (hlone "inherit"), Reader.bind_apply,
      hread]
  rw [readText_eq_bind hname, hc]
  exact PropertyKind.readCursor_eq_error_iff.mpr ⟨c', hkind⟩

theorem ofName?_zIndex : PropertyKind.ofName? "z-index" = some (.longhand .zIndex) := by
  rw [PropertyKind.ofName?, show Text.lowercase "z-index" = "z-index" by cbv]
  decide

/-- A keyword before a call that is replaced by nothing stands alone, and a sign before a call that
is replaced by digits is part of a number.  Both values are refused at once and read after all. -/
theorem exists_read_of_refused :
    (∃ c r ps, Cursor.ofText "initial var(--x,)" = .ok c ∧ c.holdsVar = true ∧
      readText "z-index" "initial var(--x,)" = .error (.refused r) ∧
      (resolve "initial var(--x,)" .first .empty 8).result = .ok (.ok "initial ") ∧
      readText "z-index" "initial " = .ok ps) ∧
    ∃ c r ps, Cursor.ofText "+var(--x)" = .ok c ∧ c.holdsVar = true ∧
      readText "z-index" "+var(--x)" = .error (.refused r) ∧
      (resolve "+var(--x)" .first ⟨[[("--x", "5")]]⟩ 8).result = .ok (.ok "+5") ∧
      readText "z-index" "+5" = .ok ps := by
  let c : Cursor := .ofComponents (.ofString "initial var(--x,)")
    [.token ⟨.ident "initial", ⟨0, 7⟩⟩, .token ⟨.whitespace " ", ⟨7, 8⟩⟩,
      .group (.function "var") ⟨8, 12⟩
        [.token ⟨.ident "--x", ⟨12, 15⟩⟩, .token ⟨.comma, ⟨15, 16⟩⟩] (.closed ⟨16, 17⟩)] 17
  let d : Cursor := .ofComponents (.ofString "+var(--x)")
    [.token ⟨.delim "+", ⟨0, 1⟩⟩,
      .group (.function "var") ⟨1, 5⟩ [.token ⟨.ident "--x", ⟨5, 8⟩⟩] (.closed ⟨8, 9⟩)] 9
  have hc : Cursor.ofText "initial var(--x,)" = .ok c := by cbv
  have hd : Cursor.ofText "+var(--x)" = .ok d := by cbv
  have hcvar : c.holdsVar = true := by cbv
  have hdvar : d.holdsVar = true := by cbv
  have hcread : Reader.exactOrDeferred Longhand.zIndex.reader .deferred c =
      .error (.invalid (.unexpected "initial") .first) c.advance := by cbv
  have hdread : Reader.exactOrDeferred Longhand.zIndex.reader .deferred d =
      .error (.invalid (.unexpected "+") .first) d.advance := by cbv
  have hcresolve : (resolve "initial var(--x,)" .first .empty 8).result =
      .ok (.ok "initial ") := by cbv
  have hdresolve : (resolve "+var(--x)" .first ⟨[[("--x", "5")]]⟩ 8).result =
      .ok (.ok "+5") := by cbv
  have hname := ofName?_zIndex
  have hlone : readText "z-index" "initial " = .ok [.initial (.longhand .zIndex)] := by
    rw [readText_eq_bind hname]
    cbv
  have hnumber : readText "z-index" "+5" = .ok [.longhand .zIndex (.exact (.integer 5))] := by
    rw [readText_eq_bind hname]
    cbv
  have hcrefused := readText_of_refused hname hc hcvar hcread
  have hdrefused := readText_of_refused hname hd hdvar hdread
  exact ⟨⟨c, _, _, hc, hcvar, hcrefused, hcresolve, hlone⟩,
    ⟨d, _, _, hd, hdvar, hdrefused, hdresolve, hnumber⟩⟩

/-- **A value with a `var()` call that is refused at once is refused again when the call is
replaced**, unless what is put there goes into a token with the text before, a keyword stands alone
without the call, or the call was to name the side of a gradient. -/
theorem refused_of_resolve {name raw t : String} {c : Cursor} {r : Refusal} {location : Location}
    {vars : Variables} {limit : Int} (hraw : Cursor.ofText raw = .ok c) (hvar : c.holdsVar = true)
    (hrefused : readText name raw = .error (.refused r))
    (hresolve : (resolve raw location vars limit).result = .ok (.ok t))
    (hseam : ∀ o, (Source.ofString raw).varOffset? = some o →
      (Source.ofString t).isPastedAt o = false)
    (hlone : ∀ kind d, PropertyKind.ofName? name = some kind → Cursor.ofText t = .ok d →
      ∀ word ∈ kind.loneWords, d.isLone word = false)
    (hside : PropertyKind.ofName? name = some (.longhand .backgroundImage) →
      Grammar.NoSideAwaited (c.components.find? Component.containsVar)) :
    ∃ r', readText name t = .error (.refused r') := by
  obtain ⟨d, hd, hagree⟩ := exists_agreeToVar_of_resolve hraw hvar hresolve hseam
  have hrest : c.rest = c.components := by
    rw [eq_ofComponents_of_ofText hraw]
    rfl
  have happly : ∀ {text : String} {c : Cursor}, Cursor.ofText text = .ok c →
      readText name text = read name c := by
    intro text c hc
    rw [readText, hc]
    rfl
  rw [happly hraw] at hrefused
  rw [happly hd]
  cases hkind : PropertyKind.ofName? name with
  | none => exact ⟨_, by rw [read, hkind]; rfl⟩
  | some kind =>
    simp only [read, hkind] at hrefused ⊢
    refine kind.refused_of_agreeToVar hagree hvar hrefused (hlone kind d hkind hd) fun hb => ?_
    rw [hrest]
    exact hside (hb ▸ hkind)

/-- A word that is no integer is refused at once, and again with the integer after it. -/
theorem refused_of_resolve_word : ∃ r r',
    readText "z-index" "bogus var(--x)" = .error (.refused r) ∧
      (resolve "bogus var(--x)" .first ⟨[[("--x", "5")]]⟩ 8).result = .ok (.ok "bogus 5") ∧
      readText "z-index" "bogus 5" = .error (.refused r') := by
  let c : Cursor := .ofComponents (.ofString "bogus var(--x)")
    [.token ⟨.ident "bogus", ⟨0, 5⟩⟩, .token ⟨.whitespace " ", ⟨5, 6⟩⟩,
      .group (.function "var") ⟨6, 10⟩ [.token ⟨.ident "--x", ⟨10, 13⟩⟩] (.closed ⟨13, 14⟩)] 14
  have hraw : Cursor.ofText "bogus var(--x)" = .ok c := by cbv
  have hvar : c.holdsVar = true := by cbv
  have hread : Reader.exactOrDeferred Longhand.zIndex.reader .deferred c =
      .error (.invalid (.unexpected "bogus") .first) c.advance := by cbv
  have hrefused := readText_of_refused ofName?_zIndex hraw hvar hread
  have hresolve : (resolve "bogus var(--x)" .first ⟨[[("--x", "5")]]⟩ 8).result =
      .ok (.ok "bogus 5") := by cbv
  have hoffset : (Source.ofString "bogus var(--x)").varOffset? = some 6 := by cbv
  have hseam : (Source.ofString "bogus 5").isPastedAt 6 = false := by cbv
  have hwords : (Cursor.ofText "bogus 5").map (fun d =>
      ["initial", "inherit"].all fun word => !d.isLone word) = .ok true := by cbv
  obtain ⟨r', hr'⟩ := refused_of_resolve hraw hvar hrefused hresolve
    (fun o ho => Option.some_inj.mp (hoffset.symm.trans ho) ▸ hseam)
    (fun kind d hkind hd word hword => by
      obtain rfl := Option.some_inj.mp (ofName?_zIndex.symm.trans hkind)
      rw [hd] at hwords
      have hnone := List.all_eq_true.mp (Except.ok.inj hwords) word hword
      simpa using hnone)
    (fun hkind => absurd (ofName?_zIndex.symm.trans hkind) (by simp))
  exact ⟨_, r', hrefused, hresolve, hr'⟩

end Declaration

end Styling
