import CodeStyle.Proofs.FindingPlaces
import CodeStyle.Proofs.SpaceFixes
import CodeStyle.Proofs.TextLines
import Mathlib.Data.List.DropRight

/-!
Blanks at the ends of lines. What is found on a line are all spaces and tabs at its end. With all of them deleted
nothing is found any more. The lines need not be the same then: a carriage return and a line feed with blanks between
them end two lines, and without the blanks only one.
-/

namespace CodeStyle

open Text

namespace Text

/-- A space or a tab. -/
def Byte.isPad (b : UInt8) : Bool := b == byte ' ' || b == byte '\t'

/-- No space or tab stands before a line break or at the end. -/
def Trimmed : List UInt8 → Prop
  | [] => True
  | b :: rest => (Byte.isPad b = true → ∃ c ∈ rest.head?, Byte.isNewline c = false) ∧ Trimmed rest

theorem Byte.isPad_of_isNewline {b : UInt8} (h : Byte.isNewline b = true) : Byte.isPad b = false := by
  rcases Byte.eq_of_isNewline h with rfl | rfl <;> rfl

namespace Trimmed

variable {front back : List UInt8}

theorem of_append (h : Trimmed (front ++ back)) : Trimmed back := by
  induction front with
  | nil => exact h
  | cons b front ih => exact ih h.2

theorem append_breaks (hfront : ∀ b ∈ front, Byte.isNewline b = true) (h : Trimmed back) : Trimmed (front ++ back) := by
  induction front with
  | nil => exact h
  | cons b front ih =>
    rw [List.forall_mem_cons] at hfront
    refine ⟨fun hb ↦ ?_, ih hfront.2⟩
    rw [Byte.isPad_of_isNewline hfront.1] at hb
    cases hb

theorem append_text (hfront : ∀ b ∈ front, Byte.isNewline b = false) (hlast : ∀ b ∈ front.getLast?, Byte.isPad b = false)
    (h : Trimmed back) : Trimmed (front ++ back) := by
  induction front with
  | nil => exact h
  | cons b front ih =>
    rw [List.forall_mem_cons] at hfront
    cases front with
    | nil =>
      refine ⟨fun hb ↦ ?_, h⟩
      rw [hlast b rfl] at hb
      cases hb
    | cons c front => exact ⟨fun _ ↦ ⟨c, rfl, hfront.2 c List.mem_cons_self⟩, ih hfront.2 hlast⟩

/-- A text before a line break or the end has no blanks at its end. -/
theorem rtakeWhile_eq_nil (h : Trimmed (front ++ back)) (hback : ∀ c ∈ back.head?, Byte.isNewline c = true) :
    front.rtakeWhile Byte.isPad = [] := by
  rw [List.rtakeWhile_eq_nil_iff]
  intro hne hlast
  rw [← List.dropLast_append_getLast hne, List.append_assoc] at h
  obtain ⟨c, hc, hbreak⟩ := h.of_append.1 hlast
  rw [hback c hc] at hbreak
  cases hbreak

end Trimmed

end Text

namespace Line

/-- The line without the blanks at its end. -/
def trimmed (l : Line) : Line := ⟨l.text.rdropWhile Byte.isPad, l.ending⟩

def padding (l : Line) : List UInt8 := l.text.rtakeWhile Byte.isPad

theorem trimmed_append_padding (l : Line) : l.trimmed.text ++ l.padding = l.text :=
  List.rdropWhile_append_rtakeWhile

theorem Reads.ending_isNewline {l : Line} {ls : List Line} (h : Reads (l :: ls)) :
    (∀ b ∈ l.ending, Byte.isNewline b = true) ∧ ∀ c ∈ (l.ending ++ join ls).head?, Byte.isNewline c = true := by
  rcases h.head.2 with ⟨hnone, rfl⟩ | hlf | hcrlf | ⟨hcr, -⟩
  · simp [hnone, join]
  · simp [hlf, Byte.isNewline]
  · simp [hcrlf, Byte.isNewline]
  · simp [hcr, Byte.isNewline]

theorem Reads.join_trimmed {ls : List Line} (h : Reads ls) : Trimmed (join (ls.map trimmed)) := by
  induction ls with
  | nil => trivial
  | cons l ls ih =>
    rw [List.map_cons, join_cons, bytes, List.append_assoc]
    refine .append_text (fun b hb ↦ ?_) (fun b hb ↦ ?_) (.append_breaks h.ending_isNewline.1 (ih h.tail))
    · exact h.head.1 b ((List.rdropWhile_prefix Byte.isPad l.text).subset hb)
    · obtain ⟨hne, rfl⟩ := List.mem_getLast?_eq_getLast hb
      exact Bool.eq_false_iff.2 (List.rdropWhile_last_not Byte.isPad l.text hne)

end Line

namespace Rule.Layout

def trailingAt (s : Source) (start stop : Nat) : Option Finding :=
  let count := trailingBlanks (s.slice start stop)
  if 0 < count then some ⟨s.spanFor (stop - count) stop, "trailing whitespace", some ""⟩ else none

/-- The finding on a line that starts at `offset`. -/
def paddingAt (s : Source) (offset : Nat) (l : Line) : Finding :=
  ⟨s.spanFor (offset + l.trimmed.text.length) (offset + l.text.length), "trailing whitespace", some ""⟩

def padded (s : Source) (offset : Nat) : List Line → List Finding
  | [] => []
  | l :: ls => (if l.padding = [] then [] else [paddingAt s offset l]) ++ padded s (offset + l.bytes.length) ls

section

variable {s : Source} {front back : List Line} {l : Line}

theorem length_text (l : Line) : l.text.length = l.trimmed.text.length + l.padding.length := by
  rw [← List.length_append, l.trimmed_append_padding]

theorem trailingAt_line (hs : s.bytes = Line.join (front ++ l :: back)) :
    trailingAt s (Line.join front).length ((Line.join front).length + l.text.length) =
      if l.padding = [] then none else some (paddingAt s (Line.join front).length l) := by
  have hcount : trailingBlanks l.text = l.padding.length := by
    rw [Line.padding, List.rtakeWhile, List.length_reverse]
    rfl
  have hstart : (Line.join front).length + l.text.length - l.padding.length =
      (Line.join front).length + l.trimmed.text.length := by
    rw [length_text, ← Nat.add_assoc, Nat.add_sub_cancel]
  simp only [trailingAt, paddingAt, Source.slice_line hs, hcount, hstart, List.length_pos_iff, ite_not]

theorem filterMap_ranges (hs : s.bytes = Line.join (front ++ back)) :
    ((Line.ranges (Line.join front).length back).filterMap fun p ↦ trailingAt s p.1 p.2) =
      padded s (Line.join front).length back := by
  induction back generalizing front with
  | nil => rfl
  | cons l back ih =>
    have hrest := ih (List.append_cons front l back ▸ hs)
    rw [Line.join_concat, List.length_append] at hrest
    rw [Line.ranges, List.filterMap_cons, trailingAt_line hs, hrest, padded]
    by_cases hnone : l.padding = []
    · rw [if_pos hnone, if_pos hnone, List.nil_append]
    · rw [if_neg hnone, if_neg hnone, List.singleton_append]

theorem bytes_line (hs : s.bytes = Line.join (front ++ l :: back)) :
    s.bytes = (Line.join front ++ l.trimmed.text) ++ (l.padding ++ (l.ending ++ Line.join back)) := by
  rw [hs, Line.join_append, Line.join_cons, Line.bytes, ← l.trimmed_append_padding]
  simp only [List.append_assoc]

theorem paddingAt_span (hs : s.bytes = Line.join (front ++ l :: back)) :
    (paddingAt s (Line.join front).length l).span.startByte = (Line.join front ++ l.trimmed.text).length ∧
      (paddingAt s (Line.join front).length l).span.endByte =
        (Line.join front ++ l.trimmed.text).length + l.padding.length ∧
      (Line.join front ++ l.trimmed.text).length + l.padding.length ≤ s.length := by
  have hlength : s.length = (Line.join front).length + l.trimmed.text.length +
      (l.padding.length + (l.ending ++ Line.join back).length) := by
    rw [Source.length, bytes_line hs, List.length_append, List.length_append, List.length_append]
  have htext := length_text l
  rw [List.length_append]
  refine ⟨Source.startByte_spanFor (by omega) (by omega), ?_, by omega⟩
  rw [Nat.add_assoc, ← htext]
  exact Nat.min_eq_left (by omega)

theorem bytes_fixed (hs : s.bytes = Line.join (front ++ back)) :
    (s.fixed (padded s (Line.join front).length back)).bytes = Line.join front ++ Line.join (back.map Line.trimmed) := by
  -- the lines behind the first are trimmed before it
  induction back generalizing front with
  | nil =>
    rw [Line.join_append] at hs
    exact hs
  | cons l back ih =>
    have hrest := ih (List.append_cons front l back ▸ hs)
    rw [Line.join_concat, List.length_append] at hrest
    have hbytes : (s.fixed (padded s ((Line.join front).length + l.bytes.length) back)).bytes =
        (Line.join front ++ l.trimmed.text) ++ (l.padding ++ (l.ending ++ Line.join (back.map Line.trimmed))) := by
      rw [hrest, Line.bytes, ← l.trimmed_append_padding]
      simp only [List.append_assoc]
    have hkept : Line.join front ++ Line.join ((l :: back).map Line.trimmed) =
        (Line.join front ++ l.trimmed.text) ++ (l.ending ++ Line.join (back.map Line.trimmed)) := by
      rw [List.map_cons, Line.join_cons, Line.bytes, List.append_assoc, List.append_assoc]
      rfl
    rw [padded, hkept]
    split
    · rename_i hnone
      rw [List.nil_append, hbytes, hnone, List.nil_append]
    · obtain ⟨hstart, hend, -⟩ := paddingAt_span hs
      have hempty : bytesOf "" = [] := by decide +kernel
      rw [List.singleton_append, Source.fixed_cons rfl, Source.bytes_replace hbytes hstart hend, hempty,
        List.nil_append]

theorem mem_padded (hs : s.bytes = Line.join (front ++ back)) {x : Finding}
    (hx : x ∈ padded s (Line.join front).length back) :
    (Line.join front).length ≤ x.span.startByte ∧ x.span.startByte < x.span.endByte ∧ x.span.endByte ≤ s.length ∧
      (∀ b ∈ s.slice x.span.startByte x.span.endByte, b = byte ' ' ∨ b = byte '\t') ∧ x.fix = some "" := by
  induction back generalizing front with
  | nil => cases hx
  | cons l back ih =>
    rcases List.mem_append.1 hx with hx | hx
    · split at hx
      · cases hx
      · rename_i hsome
        cases List.mem_singleton.1 hx
        obtain ⟨hstart, hend, hle⟩ := paddingAt_span hs
        have hpos := List.length_pos_iff.2 hsome
        rw [hstart, hend]
        refine ⟨by simp, Nat.lt_add_of_pos_right hpos, hle, fun b hb ↦ ?_, rfl⟩
        rw [Source.slice, bytes_line hs, List.drop_left, Nat.add_sub_cancel_left, List.take_left] at hb
        simpa [Byte.isPad] using List.mem_rtakeWhile_imp hb
    · have hs' := List.append_cons front l back ▸ hs
      have hrest := ih hs' (by rwa [Line.join_concat, List.length_append])
      rw [Line.join_concat, List.length_append] at hrest
      exact ⟨by omega, hrest.2⟩

theorem padded_pairwise (hs : s.bytes = Line.join (front ++ back)) :
    (padded s (Line.join front).length back).Pairwise fun x y ↦ x.span.endByte ≤ y.span.startByte := by
  induction back generalizing front with
  | nil => exact .nil
  | cons l back ih =>
    have hs' := List.append_cons front l back ▸ hs
    have hrest := ih hs'
    rw [Line.join_concat, List.length_append] at hrest
    rw [padded]
    split
    · exact hrest
    · refine .cons (fun y hy ↦ ?_) hrest
      have hlow := (mem_padded hs' (by rwa [Line.join_concat, List.length_append])).1
      have hbytes : l.bytes.length = l.text.length + l.ending.length := List.length_append
      have htext := length_text l
      rw [Line.join_concat, List.length_append] at hlow
      rw [(paddingAt_span hs).2.1, List.length_append]
      omega

end

theorem trailing_findings (r : RuleInput) {s : Source} {ls : List Line} (hs : s.bytes = Line.join ls)
    (h : Line.Reads ls) : (trailing (r.on s)).findings = padded s 0 ls := by
  have hlines : (trailing (r.on s)).findings = (lineRanges s).filterMap fun p ↦ trailingAt s p.1 p.2 := rfl
  rw [hlines, lineRanges_eq hs h]
  exact @filterMap_ranges s [] ls hs

theorem padded_eq_nil {ls : List Line} (h : Line.Reads ls) (htrimmed : Trimmed (Line.join ls)) (s : Source)
    (offset : Nat) : padded s offset ls = [] := by
  induction ls generalizing offset with
  | nil => rfl
  | cons l ls ih =>
    rw [Line.join_cons, Line.bytes, List.append_assoc] at htrimmed
    have hnone : l.padding = [] := htrimmed.rtakeWhile_eq_nil h.ending_isNewline.2
    rw [padded, if_pos hnone, List.nil_append]
    exact ih h.tail htrimmed.of_append.of_append _

/-- What is found are separate runs of spaces and tabs. With all of them deleted, nothing is found. -/
theorem trailing_fixed (r : RuleInput) (s : Source) :
    let found := (trailing (r.on s)).findings
    found.Pairwise (fun x y ↦ x.span.endByte ≤ y.span.startByte) ∧
    (∀ x ∈ found, x.span.startByte < x.span.endByte ∧ x.span.endByte ≤ s.length ∧
      (∀ b ∈ s.slice x.span.startByte x.span.endByte, b = byte ' ' ∨ b = byte '\t') ∧ x.fix = some "") ∧
    (trailing (r.on (s.fixed found))).findings = [] := by
  intro found
  obtain ⟨ls, h, hjoin⟩ := Line.exists_reads s.bytes
  have hs : s.bytes = Line.join ([] ++ ls) := hjoin.symm
  have hfound : found = padded s 0 ls := trailing_findings r hjoin.symm h
  have hfixed : (s.fixed found).bytes = Line.join (ls.map Line.trimmed) := by
    rw [hfound]
    exact bytes_fixed hs
  refine ⟨?_, fun x hx ↦ ?_, ?_⟩
  · rw [hfound]
    exact padded_pairwise hs
  · rw [hfound] at hx
    exact (mem_padded hs hx).2
  · -- the lines of what is left are other ones
    obtain ⟨ls', h', hjoin'⟩ := Line.exists_reads (s.fixed found).bytes
    rw [trailing_findings r hjoin'.symm h']
    refine padded_eq_nil h' ?_ _ 0
    rw [hjoin', hfixed]
    exact h.join_trimmed

/-- Two line breaks become one. -/
example : let s : Source := ⟨"a.c", bytesOf "a\r \t\nb "⟩
    (s.fixed (trailing ⟨Analysis.of s, {}, fun _ ↦ false⟩).findings).bytes = bytesOf "a\r\nb" := by
  decide +kernel

end Rule.Layout

end CodeStyle
