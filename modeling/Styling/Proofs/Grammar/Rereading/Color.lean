import Mathlib
import Styling.Proofs.Grammar.Rereading.Leaf

/-!
# Colors that are read back

A color is written in hexadecimal if its channels are whole numbers of 255ths, otherwise with
percentages and the alpha channel as a number.  The text of a color is cut by a scanner of its own,
which cuts the words of a color as the other one does.

* `Color.isKept` computes whether the channels are kept in the form they are written in.
* `Paint.ofText_of_fits` reduces the reading of a text to its component.
* `Grammar.readsBack_paint` is the main result.
-/

namespace Styling

open Written (IsPhrase ListFits number percentage comma space ident listComponents
  isWord_percentage isWord_number isWord_ident isWord_hash)

/-! ## Colors that are kept -/

namespace Color

/-- A channel equals what is read from its percentage. -/
def keepsChannel (x : Float) : Bool :=
  givesBack (Quantity.shown (x * 100.0) >>= fun q => .ok (saturated q / 100.0)) x

/-- An alpha channel equals what is read from its number. -/
def keepsAlpha (x : Float) : Bool :=
  givesBack (Quantity.shown x >>= fun q => .ok (smaller 1.0 (larger 0.0 (saturated q)))) x

/-- A color equals the one with the given channels of eight bits. -/
def isOfBytes (c : Color) : List Int → Bool
  | [r, g, b, a] => [r, g, b, a].all (fun n => decide (0 ≤ n ∧ n < 256)) &&
      ofBytes r.toNat g.toNat b.toNat a.toNat == c
  | _ => false

/-- The channels of a color are kept: as bytes if it is written in hexadecimal, otherwise as
percentages and a number. -/
def isKept (c : Color) : Bool :=
  match allBytes c.channels with
  | .ok true =>
    match c.toBytes with
    | .ok bytes => c.isOfBytes bytes
    | .error _ => false
  | .ok false =>
    keepsChannel c.red && keepsChannel c.green && keepsChannel c.blue && keepsAlpha c.alpha
  | .error _ => false

/-! ## Hexadecimal digits -/

/-- A byte is written with two digits. -/
theorem toList_hexByte {n : Nat} (h : n < 256) :
    (hexByte n).toList = [Nat.digitChar (n / 16), Nat.digitChar (n % 16)] := by
  have hall : ∀ k : Fin 256, (hexByte (k.val : Nat)).toList =
      [Nat.digitChar (k.val / 16), Nat.digitChar (k.val % 16)] := by decide +kernel
  exact hall ⟨n, h⟩

/-- A digit is read as its value and may stand in a name. -/
theorem hexDigit?_digitChar {n : Nat} (h : n < 16) :
    hexDigit? (Nat.digitChar n) = some n ∧ isIdentChar (Nat.digitChar n) = true ∧
      Nat.digitChar n ≠ '-' ∧ Nat.digitChar n ≠ '\n' := by
  have hall : ∀ k : Fin 16, hexDigit? (Nat.digitChar k.val) = some k.val ∧
      isIdentChar (Nat.digitChar k.val) = true ∧ Nat.digitChar k.val ≠ '-' ∧
      Nat.digitChar k.val ≠ '\n' := by decide +kernel
  exact hall ⟨n, h⟩

/-- The digits of bytes. -/
def hexChars (ns : List Nat) : List Char :=
  ns.flatMap fun n => [Nat.digitChar (n / 16), Nat.digitChar (n % 16)]

theorem toList_join_hexByte {ns : List Nat} (h : ∀ n ∈ ns, n < 256) :
    (String.join ((ns.map fun n : Nat => (n : Int)).map hexByte)).toList = hexChars ns := by
  induction ns with
  | nil => rfl
  | cons n ns ih =>
    rw [List.map_cons, List.map_cons, String.join_cons, String.toList_append,
      toList_hexByte (h n List.mem_cons_self), ih fun m hm => h m (List.mem_cons_of_mem _ hm)]
    rfl

theorem forall_mem_hexChars {ns : List Nat} (h : ∀ n ∈ ns, n < 256) :
    ∀ c ∈ hexChars ns, isIdentChar c = true ∧ c ≠ '-' := by
  intro c hc
  obtain ⟨n, hn, hc⟩ := List.mem_flatMap.mp hc
  have hlt := h n hn
  simp only [List.mem_cons, List.not_mem_nil, or_false] at hc
  rcases hc with rfl | rfl
  · have hdigit := hexDigit?_digitChar (n := n / 16) (by omega)
    exact ⟨hdigit.2.1, hdigit.2.2.1⟩
  · have hdigit := hexDigit?_digitChar (n := n % 16) (by omega)
    exact ⟨hdigit.2.1, hdigit.2.2.1⟩

/-- The digits of bytes are read as the halves of the bytes. -/
theorem mapM_hexDigit?_hexChars {ns : List Nat} (h : ∀ n ∈ ns, n < 256) :
    (hexChars ns).mapM hexDigit? = some (ns.flatMap fun n => [n / 16, n % 16]) := by
  induction ns with
  | nil => rfl
  | cons n ns ih =>
    have hlt := h n List.mem_cons_self
    have htail := ih fun m hm => h m (List.mem_cons_of_mem _ hm)
    rw [hexChars, List.flatMap_cons, List.cons_append, List.cons_append, List.nil_append,
      List.mapM_cons, List.mapM_cons, (hexDigit?_digitChar (n := n / 16) (by omega)).1,
      (hexDigit?_digitChar (n := n % 16) (by omega)).1]
    rw [hexChars] at htail
    rw [htail]
    rfl

/-- Only a newline at the end would be left out. -/
theorem ofHash?_hexChars {ns : List Nat} (h : ∀ n ∈ ns, n < 256) :
    ofHash? (String.ofList (hexChars ns)) = ofHexDigits? (hexChars ns) := by
  have hlast : (hexChars ns).getLast? ≠ some '\n' := by
    intro hnewline
    have hmem := List.mem_of_getLast? hnewline
    exact absurd (forall_mem_hexChars h _ hmem).1 (by decide)
  rw [ofHash?, String.toList_ofList, if_neg hlast]

/-- **The bytes of a color are read back.** -/
theorem ofHash?_of_isOfBytes {c : Color} {bytes : List Int} (h : c.isOfBytes bytes = true) :
    ∃ ns : List Nat, ∃ d : Color,
      (if bytes[3]? = some 255 then bytes.take 3 else bytes) = ns.map (fun n : Nat => (n : Int)) ∧
      ns ≠ [] ∧ (∀ n ∈ ns, n < 256) ∧ ofHash? (String.ofList (hexChars ns)) = some d ∧
      (d == c) = true := by
  unfold isOfBytes at h
  split at h
  next r g b a =>
    obtain ⟨hall, hc⟩ := Bool.and_eq_true_iff.mp h
    have hbounds : ∀ n ∈ [r, g, b, a], 0 ≤ n ∧ n < 256 := fun n hn =>
      of_decide_eq_true (List.all_eq_true.mp hall n hn)
    obtain ⟨r, rfl⟩ := Int.eq_ofNat_of_zero_le (hbounds r (by simp)).1
    obtain ⟨g, rfl⟩ := Int.eq_ofNat_of_zero_le (hbounds g (by simp)).1
    obtain ⟨b, rfl⟩ := Int.eq_ofNat_of_zero_le (hbounds b (by simp)).1
    obtain ⟨a, rfl⟩ := Int.eq_ofNat_of_zero_le (hbounds a (by simp)).1
    have hlt : ∀ n ∈ [r, g, b, a], n < 256 := fun n hn => by
      have hn := (hbounds n (by simpa using hn)).2
      omega
    simp only [Int.toNat_natCast] at hc
    have hhalves : ∀ n : Nat, n / 16 * 16 + n % 16 = n := fun n => by omega
    by_cases ha : a = 255
    · have hopaque : ∀ n ∈ [r, g, b], n < 256 := fun n hn =>
        hlt n (List.mem_append_left [a] hn)
      subst ha
      refine ⟨[r, g, b], _, rfl, by simp, hopaque, ?_, hc⟩
      rw [ofHash?_hexChars hopaque, ofHexDigits?, mapM_hexDigit?_hexChars hopaque]
      simp only [List.flatMap_cons, List.flatMap_nil, List.cons_append, List.nil_append, hhalves]
    · refine ⟨[r, g, b, a], _, ?_, by simp, hlt, ?_, hc⟩
      · refine (if_neg fun h255 => ha ?_).trans rfl
        have hbyte : (a : Int) = 255 := Option.some.inj h255
        omega
      · rw [ofHash?_hexChars hlt, ofHexDigits?, mapM_hexDigit?_hexChars hlt]
        simp only [List.flatMap_cons, List.flatMap_nil, List.cons_append, List.nil_append, hhalves]
  next => exact absurd h Bool.false_ne_true

end Color

/-- The color of a paint is kept, if it has one of its own. -/
def Paint.isKept : Paint → Bool
  | current => true
  | color c => c.isKept

/-! ## The scanner of colors -/

namespace Written

theorem scanColorToken_closing (rest : List Char) :
    scanColorToken ')' rest = .single (.closing .round) := by
  rw [scanColorToken_of_startsPlain (by decide), scanToken_closing]

/-- A call is cut by the scanner of colors as by the other one, if nothing in it starts an address
or a range of code points. -/
theorem fits_scanColorToken_call {name : List Char} {ws : List Written} {rest : List Char}
    (hname : name.head?.any startsPlain = true)
    (hwords : ∀ w ∈ ws, ∃ c cs kind, w = token (c :: cs) kind ∧ startsPlain c = true)
    (h : (call name ws).Fits scanToken rest) : (call name ws).Fits scanColorToken rest := by
  rw [Fits] at h ⊢
  obtain ⟨⟨a, as, rfl, hscan⟩, hinside, -⟩ := h
  exact ⟨⟨a, as, rfl, by rw [scanColorToken_of_startsPlain hname, hscan]⟩,
    listFits_scanColorToken hwords hinside, scanColorToken_closing rest⟩

/-- A word of one token is cut by the scanner of colors as by the other one, unless it starts an
address or a range of code points. -/
theorem fits_scanColorToken_token {c : Char} {cs : List Char} {kind : TokenKind}
    (hc : startsPlain c = true) (hw : (token (c :: cs) kind).IsWord) :
    (token (c :: cs) kind).Fits scanColorToken [] := by
  have hlist : ListFits scanColorToken [] [token (c :: cs) kind] :=
    listFits_scanColorToken (fun w hw => ⟨c, cs, kind, List.mem_singleton.mp hw, hc⟩)
      (hw.phrase.fits .nil)
  exact hlist.1

theorem exists_startsPlain_chars {p : NumeralParts} (h : p.IsPlain) :
    ∃ c cs, p.chars = c :: cs ∧ startsPlain c = true := by
  obtain ⟨c, cs, hchars, hc⟩ := exists_head_chars h
  refine ⟨c, cs, hchars, ?_⟩
  rcases hc with rfl | hc
  · decide
  · simp only [startsPlain, Bool.and_eq_true, bne_iff_ne]
    refine ⟨⟨?_, ?_⟩, ?_⟩ <;> rintro rfl <;> exact absurd hc (by decide)

end Written

/-- **The text of a word that the scanner of colors cuts off is read as its component.** -/
theorem Paint.ofText_of_fits {w : Written} (hw : w.IsWord) (hfits : w.Fits scanColorToken []) :
    ofText (String.ofList w.chars) = ofComponent (w.component 0) := by
  have hnormal := hw.phrase.normal
  rw [Written.listChars_singleton] at hnormal
  have hsource : Source.ofString (String.ofList w.chars) = ⟨Written.listChars [w]⟩ := by
    rw [Source.ofString, String.toList_ofList, Source.normalize_eq_self hnormal,
      Written.listChars_singleton]
  have hlist : ListFits scanColorToken [] [w] := ⟨hfits, trivial⟩
  have hkept : (listComponents 0 [w]).filter (fun c => !c.isWhitespace) = [w.component 0] :=
    Written.words_singleton hw.isBlank 0
  rw [ofText, hsource, Written.componentsBy hlist]
  simp only [bind, Except.bind, hkept]

namespace Grammar

/-- A word is read as the paint that its text spells. -/
theorem reads_paint {w : Written} {p : Paint}
    (hmay : ∀ start, mayBePaint (w.component start) = true)
    (hvar : ∀ start, (w.component start).containsVar = false)
    (htext : Paint.ofText (String.ofList w.chars) = .ok (some p)) : Leaf.Reads paint w p := by
  intro source start hat
  have hnested : Leaf.noNestedVar source (w.component start) = .ok () :=
    if_neg (by rw [hvar]; exact Bool.false_ne_true)
  rw [paint, hnested, Written.textOf_component hat, htext]
  simp only [bind, Except.bind, hmay, if_true, ReadError.ofFault]
  rfl

/-- The words of the channels of a color. -/
def rgbaWords (red green blue alpha : NumeralParts) : List Written :=
  [percentage red, comma, space, percentage green, comma, space, percentage blue, comma, space,
    number alpha]

theorem isWord_rgba {red green blue alpha : NumeralParts} {r g b a : Float} (hr : red.Shows r)
    (hg : green.Shows g) (hb : blue.Shows b) (ha : alpha.Shows a) :
    (Written.call ['r', 'g', 'b', 'a'] (rgbaWords red green blue alpha)).IsWord ∧
      (Written.call ['r', 'g', 'b', 'a'] (rgbaWords red green blue alpha)).Fits
        scanColorToken [] := by
  have hphrase : IsPhrase (rgbaWords red green blue alpha) :=
    (isWord_percentage hr.plain hr.small).phrase.listed <|
      (isWord_percentage hg.plain hg.small).phrase.listed <|
      (isWord_percentage hb.plain hb.small).phrase.listed (isWord_number ha.plain ha.small).phrase
  have hword := Written.isWord_call ['r', 'g', 'b', 'a'] (by decide) (by decide) hphrase
  have hpercentage : ∀ {p : NumeralParts}, p.IsPlain →
      ∃ c cs kind, percentage p = .token (c :: cs) kind ∧ Written.startsPlain c = true := by
    intro p hp
    obtain ⟨c, cs, hchars, hc⟩ := Written.exists_startsPlain_chars hp
    exact ⟨c, cs ++ ['%'], _, by rw [percentage, hchars]; rfl, hc⟩
  have hnumber : ∃ c cs kind, number alpha = .token (c :: cs) kind ∧
      Written.startsPlain c = true := by
    obtain ⟨c, cs, hchars, hc⟩ := Written.exists_startsPlain_chars ha.plain
    exact ⟨c, cs, _, by rw [number, hchars], hc⟩
  have hcomma : ∃ c cs kind, comma = .token (c :: cs) kind ∧ Written.startsPlain c = true :=
    ⟨_, _, _, rfl, by decide⟩
  have hspace : ∃ c cs kind, space = .token (c :: cs) kind ∧ Written.startsPlain c = true :=
    ⟨_, _, _, rfl, by decide⟩
  refine ⟨hword, Written.fits_scanColorToken_call (by decide) (fun w hw => ?_)
    (hword.phrase.fits .nil).1⟩
  simp only [rgbaWords, List.mem_cons, List.not_mem_nil, or_false] at hw
  rcases hw with rfl | rfl | rfl | rfl | rfl | rfl | rfl | rfl | rfl | rfl
  exacts [hpercentage hr.plain, hcomma, hspace, hpercentage hg.plain, hcomma, hspace,
    hpercentage hb.plain, hcomma, hspace, hnumber]

/-- The arguments of a color are read as its channels. -/
theorem ofComponent_rgba {red green blue alpha : NumeralParts} (start : Nat) :
    Paint.ofComponent
      ((Written.call ['r', 'g', 'b', 'a'] (rgbaWords red green blue alpha)).component start) =
      .ok (some (.color ⟨Color.saturated (Numeral.ofParts red).quantity / 100.0,
          Color.saturated (Numeral.ofParts green).quantity / 100.0,
          Color.saturated (Numeral.ofParts blue).quantity / 100.0,
          smaller 1.0 (larger 0.0 (Color.saturated (Numeral.ofParts alpha).quantity))⟩)) := by
  have hname : Text.lowercaseAscii (String.ofList ['r', 'g', 'b', 'a']) = "rgba" := by decide
  simp only [Written.component, Paint.ofComponent, hname]
  rfl

theorem readsBack_rgba {c : Color} (h : (Color.keepsChannel c.red && Color.keepsChannel c.green &&
      Color.keepsChannel c.blue && Color.keepsAlpha c.alpha) = true)
    (hbytes : Color.allBytes c.channels = .ok false) : paint.ReadsBack c.css (.color c) := by
  simp only [Bool.and_eq_true] at h
  obtain ⟨⟨⟨hred, hgreen⟩, hblue⟩, halpha⟩ := h
  obtain ⟨_, x, hq, hx, hredBeq⟩ := exists_of_givesBack hred
  obtain ⟨r, hr, rfl⟩ := exists_shows hq
  obtain ⟨_, y, hq, hy, hgreenBeq⟩ := exists_of_givesBack hgreen
  obtain ⟨g, hg, rfl⟩ := exists_shows hq
  obtain ⟨_, z, hq, hz, hblueBeq⟩ := exists_of_givesBack hblue
  obtain ⟨b, hb, rfl⟩ := exists_shows hq
  obtain ⟨_, t, hq, ht, halphaBeq⟩ := exists_of_givesBack halpha
  obtain ⟨a, ha, rfl⟩ := exists_shows hq
  obtain ⟨hword, hfits⟩ := isWord_rgba hr hg hb ha
  refine ⟨_, .color ⟨x, y, z, t⟩, ?_, hword, fun _ _ => rfl,
    reads_paint (fun _ => rfl) (fun _ => rfl) ?_, ?_⟩
  · rw [Color.css, hbytes]
    simp only [bind, Except.bind, hr.text, hg.text, hb.text, ha.text]
    refine congrArg Except.ok (String.toList_inj.mp ?_)
    simp [Written.chars, Written.listChars, rgbaWords, percentage, number, comma, space, toString]
  · obtain rfl := Except.ok.inj hx
    obtain rfl := Except.ok.inj hy
    obtain rfl := Except.ok.inj hz
    obtain rfl := Except.ok.inj ht
    rw [Paint.ofText_of_fits hword hfits, ofComponent_rgba]
  · exact Bool.and_eq_true_iff.mpr ⟨hredBeq, Bool.and_eq_true_iff.mpr ⟨hgreenBeq,
      Bool.and_eq_true_iff.mpr ⟨hblueBeq, halphaBeq⟩⟩⟩

theorem readsBack_hash {c : Color} {bytes : List Int} (h : c.isOfBytes bytes = true)
    (hbytes : Color.allBytes c.channels = .ok true) (hto : c.toBytes = .ok bytes) :
    paint.ReadsBack c.css (.color c) := by
  obtain ⟨ns, d, hshown, hne, hlt, hhash, hd⟩ := Color.ofHash?_of_isOfBytes h
  have hchars : Color.hexChars ns ≠ [] := by
    cases ns with
    | nil => exact absurd rfl hne
    | cons n ns => simp [Color.hexChars]
  have hword := isWord_hash hchars (Color.forall_mem_hexChars hlt)
  refine ⟨.hash (Color.hexChars ns), .color d, ?_, hword, fun _ _ => rfl,
    reads_paint (fun _ => rfl) (fun _ => rfl) ?_, hd⟩
  · rw [Color.css, hbytes, hto]
    simp only [bind, Except.bind, if_true]
    rw [hshown]
    refine congrArg Except.ok (String.toList_inj.mp ?_)
    rw [String.toList_append, Color.toList_join_hexByte hlt, Written.hash, Written.chars,
      String.toList_ofList, String.toList_ofList]
    rfl
  · rw [Paint.ofText_of_fits hword (Written.fits_scanColorToken_token (by decide) hword)]
    simp only [Written.hash, Written.component, Paint.ofComponent, hhash]
    rfl

theorem readsBack_currentColor : paint.ReadsBack (.ok "currentcolor") .current := by
  have hword := isWord_ident "currentcolor".toList (by decide)
  refine ⟨ident "currentcolor".toList, .current, ?_, hword, by decide,
    reads_paint (fun _ => rfl) (fun _ => rfl) ?_, rfl⟩
  · decide
  · rw [Paint.ofText_of_fits hword (Written.fits_scanColorToken_token (by decide) hword)]
    decide

/-- **A paint that is kept is read back.** -/
theorem readsBack_paint {p : Paint} (h : p.isKept = true) : paint.ReadsBack p.css p := by
  cases p with
  | current => exact readsBack_currentColor
  | color c =>
    rw [Paint.isKept, Color.isKept] at h
    split at h
    next hbytes =>
      split at h
      next bytes hto => exact readsBack_hash h hbytes hto
      next => exact absurd h Bool.false_ne_true
    next hbytes => exact readsBack_rgba h hbytes
    next => exact absurd h Bool.false_ne_true

end Grammar

end Styling
