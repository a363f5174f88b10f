import Mathlib.Data.List.Basic
import Mathlib.Data.Prod.Lex
import Mathlib.Order.Monotone.Basic
import Styling.Text.Source

/-!
# Lines and columns

The line of an offset is one more than the number of newlines before it, and its column is one more
than the distance from the start of its line.  Reading one more character either moves the column on
or starts the next line, so locations increase with the offset and no two offsets share one.

The offsets of the newlines increase, so the location can also be looked up in a table of them by
binary search, without reading the text again.

* `Source.location_succ` is the step of one character.
* `Source.IsLineStart` says where the line of an offset starts, and `Source.exists_isLineStart`
  counts the location from there.
* `lowerBound` is the binary search, and `lowerBound_eq` says what it finds in any table.
* `Source.lookUp` is the location that is found in the table of newlines, and
  `Source.lookUp_eq_location` says that it is the same.
* `Source.location_counts_lines` puts these together.
-/

namespace Styling

/-- Locations in the order of reading: by line, and within a line by column. -/
def Location.inOrder (l : Location) : Nat ×ₗ Nat :=
  toLex (l.line, l.column)

namespace Source

variable (s : Source) (o : Nat)

/-! ## One more character -/

/-- A newline starts the next line, and any other character moves a column on; so does the end of
the text. -/
theorem location_succ :
    s.location (o + 1) =
      if s.chars[o]? = some '\n' then ⟨(s.location o).line + 1, 1⟩
      else ⟨(s.location o).line, (s.location o).column + 1⟩ := by
  simp only [location, List.take_add_one, List.foldl_append]
  cases hchar : s.chars[o]? with
  | none =>
    have hend : s.chars.length ≤ o := List.getElem?_eq_none_iff.mp hchar
    simp only [Option.toList_none, List.foldl_nil, reduceCtorEq, if_false, Location.mk.injEq,
      true_and]
    omega
  | some c =>
    have hinside : o < s.chars.length := (List.getElem?_eq_some_iff.mp hchar).1
    have hover : o - s.chars.length = 0 ∧ o + 1 - s.chars.length = 0 := by omega
    simp only [Option.toList_some, List.foldl_cons, List.foldl_nil, advance, hover,
      Option.some.injEq, Nat.add_zero]

theorem inOrder_location_lt_succ :
    (s.location o).inOrder < (s.location (o + 1)).inOrder := by
  rw [location_succ, Location.inOrder, Location.inOrder, Prod.Lex.toLex_lt_toLex]
  split_ifs
  · exact Or.inl (Nat.lt_succ_self _)
  · exact Or.inr ⟨rfl, Nat.lt_succ_self _⟩

/-- **Locations increase with the offset.** -/
theorem strictMono_inOrder_location : StrictMono fun o => (s.location o).inOrder :=
  strictMono_nat_of_lt_succ s.inOrder_location_lt_succ

/-- One more character is one more newline, or none. -/
theorem count_newline_take_succ :
    (s.chars.take (o + 1)).count '\n' =
      (s.chars.take o).count '\n' + if s.chars[o]? = some '\n' then 1 else 0 := by
  rw [List.take_add_one, List.count_append]
  cases s.chars[o]? with
  | none => rfl
  | some c => simp [List.count_singleton]

variable {s o}

/-- A newline before an offset counts there. -/
theorem count_newline_lt {i : Nat} (hi : i < o) (hchar : s.chars[i]? = some '\n') :
    (s.chars.take i).count '\n' < (s.chars.take o).count '\n' := by
  have hle : (s.chars.take (i + 1)).count '\n' ≤ (s.chars.take o).count '\n' :=
    (List.take_sublist_take_left (Nat.succ_le_of_lt hi)).count_le '\n'
  rw [count_newline_take_succ, if_pos hchar] at hle
  exact hle

/-! ## The start of a line -/

/-- The line of the offset `o` starts at the offset `start`: this is the start of the text or just
after a newline, and no newline stands between it and `o`. -/
structure IsLineStart (s : Source) (o start : Nat) : Prop where
  le : start ≤ o
  after_newline : start ≠ 0 → s.chars[start - 1]? = some '\n'
  no_newline : ∀ i, start ≤ i → i < o → s.chars[i]? ≠ some '\n'

/-- A line has one start. -/
theorem IsLineStart.eq {start start' : Nat} (h : s.IsLineStart o start)
    (h' : s.IsLineStart o start') : start = start' := by
  -- the later of two starts would stand just after a newline in the line of the other
  have hle : ∀ {a b : Nat}, s.IsLineStart o a → s.IsLineStart o b → b ≤ a := by
    intro a b ha hb
    by_contra hlt
    have hbo := hb.le
    exact ha.no_newline (b - 1) (by omega) (by omega) (hb.after_newline (by omega))
  exact le_antisymm (hle h' h) (hle h h')

/-- With no newline before an offset, its line starts with the text. -/
theorem isLineStart_zero (hcount : (s.chars.take o).count '\n' = 0) : s.IsLineStart o 0 where
  le := Nat.zero_le o
  after_newline h := absurd rfl h
  no_newline i _ hi hchar := by
    have hlt := count_newline_lt hi hchar
    omega

theorem IsLineStart.succ {start : Nat} (h : s.IsLineStart o start)
    (hchar : s.chars[o]? ≠ some '\n') : s.IsLineStart (o + 1) start where
  le := h.le.trans (Nat.le_succ o)
  after_newline := h.after_newline
  no_newline i hstart hi := by
    rcases Nat.lt_succ_iff_lt_or_eq.mp hi with hlt | rfl
    · exact h.no_newline i hstart hlt
    · exact hchar

theorem isLineStart_succ_self (hchar : s.chars[o]? = some '\n') :
    s.IsLineStart (o + 1) (o + 1) where
  le := le_rfl
  after_newline _ := hchar
  no_newline _ hstart hi := absurd hstart (Nat.not_le.mpr hi)

variable (s o)

/-- **The location of an offset is counted from the start of its line.** -/
theorem exists_isLineStart :
    ∃ start, s.IsLineStart o start ∧
      s.location o = ⟨1 + (s.chars.take o).count '\n', 1 + (o - start)⟩ := by
  induction o with
  | zero =>
    exact ⟨0, isLineStart_zero List.count_nil, location_zero s⟩
  | succ o ih =>
    obtain ⟨start, hstart, hlocation⟩ := ih
    rw [location_succ, count_newline_take_succ, hlocation]
    split_ifs with hchar
    · refine ⟨o + 1, isLineStart_succ_self hchar, ?_⟩
      rw [Nat.sub_self, Nat.add_assoc]
    · refine ⟨start, hstart.succ hchar, ?_⟩
      rw [Nat.succ_sub hstart.le]
      rfl

end Source

/-! ## Binary search -/

/-- The number of entries of an increasing table that are below `x`, if that is between `lo` and `hi`:
the entry half way tells in which half it is. -/
def lowerBound (table : Array Nat) (x lo hi : Nat) (bound : hi ≤ table.size) : Nat :=
  if h : lo < hi then
    if table[(lo + hi) / 2] < x then
      lowerBound table x ((lo + hi) / 2 + 1) hi bound
    else
      lowerBound table x lo ((lo + hi) / 2) (by omega)
  else lo
termination_by hi - lo

/-- The search finds the place where a table is cut into the entries below a value and the rest. -/
theorem lowerBound_eq {table : Array Nat} {x lo hi cut : Nat} (bound : hi ≤ table.size)
    (hcut : ∀ i (_ : i < table.size), table[i] < x ↔ i < cut) (hlo : lo ≤ cut) (hhi : cut ≤ hi) :
    lowerBound table x lo hi bound = cut := by
  fun_induction lowerBound table x lo hi bound with
  | case1 lo hi bound h hbelow ih => exact ih ((hcut _ (by omega)).mp hbelow) hhi
  | case2 lo hi bound h hbelow ih =>
    exact ih hlo (Nat.not_lt.mp fun hmid => hbelow ((hcut _ (by omega)).mpr hmid))
  | case3 lo hi bound h => omega

namespace Source

variable (s : Source) (o : Nat)

/-- The offsets of the newlines of a text. -/
def newlines : Array Nat :=
  (s.chars.idxsOf '\n').toArray

/-- The location of an offset, looked up in the table of newlines.  Before the first of them the
offset itself is the distance from the start of the line. -/
def lookUp : Location :=
  match lowerBound s.newlines o 0 s.newlines.size le_rfl with
  | 0 => ⟨1, o + 1⟩
  | line + 1 => ⟨line + 2, o - s.newlines[line]?.getD 0⟩

variable {s o}

theorem getElem?_getElem_newlines {i : Nat} (h : i < s.newlines.size) :
    s.chars[s.newlines[i]]? = some '\n' := by
  have hmem : s.newlines[i] ∈ s.chars.idxsOf '\n' := List.getElem_mem _
  obtain ⟨hlt, hchar⟩ := List.mem_idxsOf_iff_exists_getElem_pos.mp hmem
  rw [List.getElem?_eq_getElem hlt, eq_of_beq hchar]

/-- The newlines before an offset are the entries at the start of the table. -/
theorem getElem_newlines_lt_iff {i : Nat} (h : i < s.newlines.size) :
    s.newlines[i] < o ↔ i < (s.chars.take o).count '\n' := by
  have hinside := (List.getElem?_eq_some_iff.mp (getElem?_getElem_newlines h)).1
  have hentry : ((s.chars.take o).idxsOf '\n' ++
      (s.chars.drop o).idxsOf '\n' (0 + (s.chars.take o).length))[i]? = some s.newlines[i] := by
    rw [← List.idxsOf_append, List.take_append_drop]
    exact List.getElem?_eq_getElem h
  by_cases hi : i < (s.chars.take o).count '\n'
  · rw [List.getElem?_append_left (by rwa [List.length_idxsOf])] at hentry
    have hfront := List.lt_add_of_mem_idxsOf _ (List.mem_of_getElem? hentry)
    rw [List.length_take] at hfront
    exact iff_of_true (by omega) hi
  · rw [List.getElem?_append_right (by rwa [List.length_idxsOf, ← Nat.not_lt])] at hentry
    have hback := List.ge_of_mem_idxsOf _ (List.mem_of_getElem? hentry)
    rw [List.length_take] at hback
    exact iff_of_false (by omega) hi

/-- Otherwise its line starts after the last entry of the table that is counted. -/
theorem isLineStart_newline {line : Nat} (hline : line < s.newlines.size)
    (hcount : (s.chars.take o).count '\n' = line + 1) :
    s.IsLineStart o (s.newlines[line] + 1) where
  le := (getElem_newlines_lt_iff hline).mpr (by omega)
  after_newline _ := getElem?_getElem_newlines hline
  no_newline i hstart hi hchar := by
    -- the newline at `i` would be one more after the one that is counted last
    have hbefore := (getElem_newlines_lt_iff hline).mp (Nat.lt_of_succ_le hstart)
    have hlt := count_newline_lt hi hchar
    omega

/-- **The location found in the table is the one found by reading the text.** -/
theorem lookUp_eq_location (s : Source) (o : Nat) : s.lookUp o = s.location o := by
  obtain ⟨start, hstart, hlocation⟩ := s.exists_isLineStart o
  have hbound : (s.chars.take o).count '\n' ≤ s.newlines.size := by
    rw [newlines, List.size_toArray, List.length_idxsOf]
    exact (List.take_sublist o s.chars).count_le '\n'
  rw [lookUp, lowerBound_eq _ (fun _ => getElem_newlines_lt_iff) (Nat.zero_le _) hbound, hlocation]
  cases hcount : (s.chars.take o).count '\n' with
  | zero =>
    obtain rfl := hstart.eq (isLineStart_zero hcount)
    rw [Nat.sub_zero, Nat.add_zero, Nat.add_comm]
  | succ line =>
    have hline : line < s.newlines.size := by omega
    obtain rfl := hstart.eq (isLineStart_newline hline hcount)
    have hle := hstart.le
    simp only [Array.getElem?_eq_getElem hline, Option.getD_some, Location.mk.injEq]
    omega

/-- **A location tells its offset.**  For every text and every offset, up to its end and beyond, the
line is one more than the number of newlines before the offset and the column one more than the
distance from the start of that line, whether they are found by reading the text or in the table of
its newlines.  Locations increase in the order of reading, and different offsets have different
ones. -/
theorem location_counts_lines (s : Source) :
    (∀ o, s.lookUp o = s.location o ∧
        ∃ start, s.IsLineStart o start ∧
          s.location o = ⟨1 + (s.chars.take o).count '\n', 1 + (o - start)⟩) ∧
      StrictMono (fun o => (s.location o).inOrder) ∧ Function.Injective s.location := by
  have hmono := s.strictMono_inOrder_location
  have hinjective : Function.Injective s.location := fun _ _ h =>
    hmono.injective (congrArg Location.inOrder h)
  exact ⟨fun o => ⟨s.lookUp_eq_location o, s.exists_isLineStart o⟩, hmono, hinjective⟩

/-- A line end of two characters is one newline, which belongs to the line before it. -/
example : (List.range 4).map (ofString "a\r\nb").location =
    [⟨1, 1⟩, ⟨1, 2⟩, ⟨2, 1⟩, ⟨2, 2⟩] := by decide

end Source

end Styling
