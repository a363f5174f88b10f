/-!
# Source text and locations

Text is read after normalization: the line ends `\r\n`, `\r` and form feed become newlines, and the
null character becomes the replacement character.  Every offset counts characters of the normalized
text.

* `Source.ofString` normalizes a text.
* `Source.slice` cuts out the characters between two offsets.
* `Source.location` turns an offset into the line and column shown to a reader, both starting at
  one.
-/

namespace Styling

/-- A line and a column, both starting at one. -/
structure Location where
  line : Nat
  column : Nat
  deriving DecidableEq, Repr, Inhabited

namespace Location

/-- The first position of a text. -/
def first : Location := ⟨1, 1⟩

/-- The form `line:column`. -/
def text (l : Location) : String :=
  toString l.line ++ ":" ++ toString l.column

end Location

/-- The character that stands for one that cannot be represented. -/
def replacementChar : Char := Char.ofNat 0xFFFD

/-- Normalized source text. -/
structure Source where
  chars : List Char
  deriving DecidableEq, Repr, Inhabited

namespace Source

/-- Unify line ends and replace null characters. -/
def normalize : List Char → List Char
  | [] => []
  | '\r' :: '\n' :: cs => '\n' :: normalize cs
  | c :: cs =>
    (if c.toNat = 0x0D ∨ c.toNat = 0x0C then '\n'
     else if c.toNat = 0 then replacementChar
     else c) :: normalize cs

/-- A character that normalization leaves alone. -/
def IsNormal (c : Char) : Prop :=
  c.toNat ≠ 0x0D ∧ c.toNat ≠ 0x0C ∧ c.toNat ≠ 0

/-- Normalized text has no carriage return, no form feed and no null character. -/
theorem isNormal_of_mem_normalize {c : Char} {cs : List Char} (h : c ∈ normalize cs) :
    IsNormal c := by
  fun_induction normalize cs with
  | case1 => simp at h
  | case2 cs ih =>
    rcases List.mem_cons.mp h with rfl | h
    · exact ⟨by decide, by decide, by decide⟩
    · exact ih h
  | case3 d cs _ ih =>
    rcases List.mem_cons.mp h with rfl | h
    · split
      · exact ⟨by decide, by decide, by decide⟩
      · split
        · exact ⟨by decide, by decide, by decide⟩
        · rename_i h₁ h₂
          exact ⟨fun e => h₁ (Or.inl e), fun e => h₁ (Or.inr e), h₂⟩
    · exact ih h

/-- Normalization brings no character into a text but the newline and the replacement character. -/
theorem mem_of_mem_normalize {c : Char} {cs : List Char} (h : c ∈ normalize cs) :
    c ∈ cs ∨ c = '\n' ∨ c = replacementChar := by
  fun_induction normalize cs with
  | case1 => exact Or.inl h
  | case2 cs ih =>
    rcases List.mem_cons.mp h with rfl | h
    · exact Or.inr (Or.inl rfl)
    · exact (ih h).imp_left fun hc => List.mem_cons_of_mem _ (List.mem_cons_of_mem _ hc)
  | case3 d cs _ ih =>
    rcases List.mem_cons.mp h with hc | h
    · split at hc
      · exact Or.inr (Or.inl hc)
      · split at hc
        · exact Or.inr (Or.inr hc)
        · exact Or.inl (hc ▸ List.mem_cons_self)
    · exact (ih h).imp_left (List.mem_cons_of_mem d)

/-- Text of normal characters is left alone. -/
theorem normalize_eq_self {cs : List Char} (h : ∀ c ∈ cs, IsNormal c) : normalize cs = cs := by
  fun_induction normalize cs with
  | case1 => rfl
  | case2 cs _ => exact absurd rfl (h '\r' (List.mem_cons_self ..)).1
  | case3 c cs _ ih =>
    have hc := h c (List.mem_cons_self ..)
    rw [ih fun d hd => h d (List.mem_cons_of_mem _ hd)]
    simp [hc.1, hc.2.1, hc.2.2]

/-- Normalizing twice is normalizing once. -/
@[simp] theorem normalize_normalize (cs : List Char) : normalize (normalize cs) = normalize cs :=
  normalize_eq_self fun _ => isNormal_of_mem_normalize

/-- A text is normalized part by part, unless a line end is cut in two. -/
theorem normalize_append {as ys : List Char}
    (h : as.getLast? = some '\r' → ys.head? ≠ some '\n') :
    normalize (as ++ ys) = normalize as ++ normalize ys := by
  fun_induction normalize as with
  | case1 => rfl
  | case2 cs ih =>
    rw [List.cons_append, List.cons_append, normalize, ih fun hlast => h ?_, List.cons_append]
    cases cs with
    | nil => exact absurd hlast (by simp)
    | cons c cs => simpa using hlast
  | case3 c cs hc ih =>
    rw [List.cons_append, normalize, ih fun hlast => h ?_, List.cons_append]
    · cases cs with
      | nil => exact absurd hlast (by simp)
      | cons d cs => simpa using hlast
    · rintro ds rfl hds
      cases cs with
      | nil => exact h rfl (by rw [List.nil_append] at hds; rw [hds]; rfl)
      | cons d cs => exact hc cs rfl (by rw [(List.cons.inj hds).1])

/-- The normalized form of a text. -/
def ofString (s : String) : Source :=
  ⟨normalize s.toList⟩

/-- The normalized text. -/
def text (s : Source) : String :=
  String.ofList s.chars

/-- The number of characters. -/
def length (s : Source) : Nat :=
  s.chars.length

/-- The characters from offset `start` up to offset `stop`, none if `stop` comes first. -/
def sliceChars (s : Source) (start stop : Nat) : List Char :=
  (s.chars.drop start).take (stop - start)

/-- The whole text. -/
@[simp] theorem sliceChars_zero_length (s : Source) : s.sliceChars 0 s.length = s.chars := by
  simp [sliceChars, length]

/-- The text from offset `start` up to offset `stop`. -/
def slice (s : Source) (start stop : Nat) : String :=
  String.ofList (s.sliceChars start stop)

/-- The location reached from `l` by reading one character. -/
def advance (l : Location) (c : Char) : Location :=
  if c = '\n' then ⟨l.line + 1, 1⟩ else ⟨l.line, l.column + 1⟩

/-- The line and column of an offset; columns go on past the end of the text. -/
def location (s : Source) (offset : Nat) : Location :=
  let l := (s.chars.take offset).foldl advance .first
  ⟨l.line, l.column + (offset - s.chars.length)⟩

/-- A text starts at the first line and column. -/
@[simp] theorem location_zero (s : Source) : s.location 0 = .first := by
  simp [location, Location.first]

end Source

end Styling
