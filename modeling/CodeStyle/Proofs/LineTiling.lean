import CodeStyle.Proofs.LineSearch
import CodeStyle.Proofs.ReportOrder
import CodeStyle.Proofs.TextLines

/-!
Offsets, places and lines. A later offset has a later place, the place of an offset gives the offset back, and the
lines of a file, each with what ends it, are the file.
-/

namespace CodeStyle

open Text

namespace Source

variable {s : Source}

/-- The column of an offset is counted from a line start that is in the table at the line of the offset. -/
theorem lineStarts_position {a : Nat} (h : a ≤ s.length) :
    ∃ start, s.lineStarts[(s.position a).line - 1]? = some start ∧ start + (s.position a).column - 1 = a := by
  have hle := (s.lineStarts_passed a).2
  refine ⟨_, s.getElem?_passed (min a s.length), ?_⟩
  simp only [position, Nat.min_eq_left h]
  omega

section

variable {ls front back : List Line} {l : Line}

theorem lineBytes_split (hs : s.bytes = Line.join (front ++ l :: back)) (h : Line.Reads (front ++ l :: back)) :
    s.lineBytes (front.length + 1) = l.text := by
  rw [lineBytes, lineRange?_split hs h]
  exact slice_line hs

theorem map_lineBytes (hs : s.bytes = Line.join (front ++ back)) (h : Line.Reads (front ++ back)) :
    (List.range' (front.length + 1) back.length).map s.lineBytes = back.map Line.text := by
  induction back generalizing front with
  | nil => rfl
  | cons l back ih =>
    have hrest := ih (List.append_cons front l back ▸ hs) (List.append_cons front l back ▸ h)
    rw [List.length_append, List.length_singleton] at hrest
    rw [List.length_cons, List.range'_succ, List.map_cons, List.map_cons, lineBytes_split hs h, hrest]

/-- Behind the lines of a file there is at most a line start at its end. -/
theorem lineBytes_behind (hs : s.bytes = Line.join ls) (h : Line.Reads ls) {line : Nat} (hline : ls.length < line) :
    s.lineBytes line = [] := by
  obtain ⟨k, rfl⟩ := Nat.exists_eq_add_one_of_ne_zero (Nat.ne_zero_of_lt hline)
  cases hstart : s.lineStarts[k]? with
  | none => simp only [lineBytes, lineRange?, hstart, Option.map_none]
  | some start =>
    have hlt : k < s.lineStarts.length := (List.getElem?_eq_some_iff.1 hstart).1
    have hstarts := length_starts h 0
    rw [Nat.zero_add, ← hs] at hstarts
    rcases hstarts with ⟨hlast, hlength⟩ | ⟨-, hlength⟩
    · have hk : k = s.lineStarts.length - 1 := by
        have hcount : s.lineStarts.length = ls.length + 1 := hlength
        omega
      have hend : start = s.bytes.length := by
        rw [hk, ← List.getLast?_eq_getElem?] at hstart
        exact Option.some.inj (hstart.symm.trans hlast)
      simp only [lineBytes, lineRange?, hstart, Option.map_some]
      rw [slice, hend, List.drop_length, List.take_nil]
    · have hcount : s.lineStarts.length = ls.length := hlength
      omega

theorem isNewline_of_mem_lineBytes (s : Source) (line : Nat) : ∀ b ∈ s.lineBytes line, Byte.isNewline b = false := by
  obtain ⟨ls, h, hjoin⟩ := Line.exists_reads s.bytes
  cases line with
  | zero => exact fun b hb ↦ nomatch hb
  | succ k =>
    rcases Nat.lt_or_ge k ls.length with hlt | hge
    · -- the line is one of those that were read
      have hsplit : ls = ls.take k ++ ls[k] :: ls.drop (k + 1) := by
        rw [List.getElem_cons_drop, List.take_append_drop]
      rw [hsplit] at h hjoin
      have htext := lineBytes_split hjoin.symm h
      rw [List.length_take_of_le (Nat.le_of_lt hlt)] at htext
      rw [htext]
      exact h.of_append.head.1
    · rw [lineBytes_behind hjoin.symm h (Nat.lt_succ_of_le hge)]
      exact fun b hb ↦ nomatch hb

end

/-- Offsets and places determine each other, and lines tile the file. -/
structure Tiled (s : Source) : Prop where
  increasing : ∀ a b, a < b → b ≤ s.length → (s.position a).Before (s.position b)
  /-- The start of its line and its column give an offset back. -/
  offset : ∀ a ≤ s.length, ∃ start, s.lineStarts[(s.position a).line - 1]? = some start ∧
    start + (s.position a).column - 1 = a
  /-- The texts of the lines, each with its line break behind it, are the file. -/
  lines : ∃ ls, Line.Reads ls ∧ ls.map Line.text = (List.range' 1 s.lineCount).map s.lineBytes ∧
    Line.join ls = s.bytes
  unbroken : ∀ line, ∀ b ∈ s.lineBytes line, b ≠ byte '\n' ∧ b ≠ byte '\r'

/-- Whatever bytes a file has, its line table tiles it. -/
theorem lines_tile (s : Source) : s.Tiled := by
  constructor
  case increasing =>
    intro a b hlt hle
    rw [s.position_eq hle, s.position_eq (Nat.le_of_lt (Nat.lt_of_lt_of_le hlt hle))]
    exact s.placeOf_before hlt
  case offset => exact fun a h ↦ lineStarts_position h
  case lines =>
    obtain ⟨ls, h, hjoin⟩ := Line.exists_reads s.bytes
    refine ⟨ls, h, ?_, hjoin⟩
    rw [lineCount_reads hjoin.symm h]
    exact (@map_lineBytes s [] ls hjoin.symm h).symm
  case unbroken =>
    intro line b hb
    simpa [Byte.isNewline] using s.isNewline_of_mem_lineBytes line b hb

/-- A carriage return before another one ends a line of its own. -/
example : let s : Source := ⟨"a.c", bytesOf "a\r\r\n\nb\r"⟩
    (List.range' 1 s.lineCount).map s.lineBytes = [bytesOf "a", [], [], bytesOf "b"] ∧
      (List.range 8).map s.position = [⟨1, 1⟩, ⟨1, 2⟩, ⟨2, 1⟩, ⟨2, 2⟩, ⟨3, 1⟩, ⟨4, 1⟩, ⟨4, 2⟩, ⟨5, 1⟩] := by
  decide +kernel

end Source

end CodeStyle
