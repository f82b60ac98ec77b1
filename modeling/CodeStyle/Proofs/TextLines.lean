import CodeStyle.Proofs.Bounds
import CodeStyle.Proofs.LexicalGrammar
import CodeStyle.Proofs.LineLocality

/-!
The lines of a file, one after the other. Every file is made of lines that have no line break in them, each with
what ends it, and the line table has the offsets of these lines.
-/

namespace CodeStyle

open Text Token

/-- A line, and the line break behind it if there is one. -/
structure Line where
  text : List UInt8
  ending : List UInt8

namespace Line

def bytes (l : Line) : List UInt8 := l.text ++ l.ending

def join (ls : List Line) : List UInt8 := ls.flatMap bytes

/-- Lines as they stand in a file. Only the last may lack a line break, and then it is not empty. -/
inductive Reads : List Line → Prop where
  | nil : Reads []
  | last {text : List UInt8} (hne : text ≠ []) (htext : ∀ b ∈ text, Byte.isNewline b = false) : Reads [⟨text, []⟩]
  | cons {text ending : List UInt8} {ls : List Line} (htext : ∀ b ∈ text, Byte.isNewline b = false)
      (hending : Kind.newline.Spells (join ls) ending) (h : Reads ls) : Reads (⟨text, ending⟩ :: ls)

theorem join_cons (l : Line) (ls : List Line) : join (l :: ls) = l.bytes ++ join ls := rfl

theorem join_append (ls ls' : List Line) : join (ls ++ ls') = join ls ++ join ls' := List.flatMap_append

theorem join_concat (ls : List Line) (l : Line) : join (ls ++ [l]) = join ls ++ l.bytes := by
  rw [join_append, join, join, List.flatMap_singleton]

/-- A byte in front of a line goes to its text. -/
theorem Reads.prepend {ls : List Line} (h : Reads ls) {b : UInt8} (hb : Byte.isNewline b = false) :
    ∃ ls', Reads ls' ∧ join ls' = b :: join ls := by
  cases h with
  | nil => exact ⟨[⟨[b], []⟩], .last (List.cons_ne_nil b []) (by simpa using hb), rfl⟩
  | @last text hne htext =>
    exact ⟨[⟨b :: text, []⟩], .last (List.cons_ne_nil b text) (List.forall_mem_cons.2 ⟨hb, htext⟩), rfl⟩
  | @cons text ending ls htext hending h =>
    exact ⟨⟨b :: text, ending⟩ :: ls, .cons (List.forall_mem_cons.2 ⟨hb, htext⟩) hending h, rfl⟩

theorem exists_reads (bytes : List UInt8) : ∃ ls, Reads ls ∧ join ls = bytes := by
  induction hlength : bytes.length using Nat.strong_induction_on generalizing bytes with
  | _ length ih =>
    subst hlength
    cases bytes with
    | nil => exact ⟨[], .nil, rfl⟩
    | cons b rest =>
      obtain ⟨ls, h, rfl⟩ := ih rest.length (Nat.lt_succ_self _) rest rfl
      by_cases hbreak : Byte.isNewline b = true
      · rcases Byte.eq_of_isNewline hbreak with rfl | rfl
        · exact ⟨⟨[], [byte '\n']⟩ :: ls, .cons (by simp) (.inl rfl) h, rfl⟩
        · by_cases hnext : (join ls).head? = some (byte '\n')
          · obtain ⟨rest, hrest⟩ := List.head?_eq_some_iff.1 hnext
            have hshort : rest.length < (byte '\r' :: join ls).length := by
              rw [hrest, List.length_cons, List.length_cons]
              omega
            obtain ⟨ls', h', rfl⟩ := ih rest.length hshort rest rfl
            exact ⟨⟨[], [byte '\r', byte '\n']⟩ :: ls', .cons (by simp) (.inr (.inl rfl)) h', by rw [hrest]; rfl⟩
          · exact ⟨⟨[], [byte '\r']⟩ :: ls, .cons (by simp) (.inr (.inr ⟨rfl, hnext⟩)) h, rfl⟩
      · exact h.prepend (by simpa using hbreak)

section

variable {front back : List Line} {l : Line}

theorem Reads.tail (h : Reads (l :: back)) : Reads back := by
  cases h with
  | last => exact .nil
  | cons _ _ h => exact h

theorem Reads.of_append (h : Reads (front ++ back)) : Reads back := by
  induction front with
  | nil => exact h
  | cons m front ih => exact ih h.tail

theorem Reads.head (h : Reads (l :: back)) : (∀ b ∈ l.text, Byte.isNewline b = false) ∧
    (l.ending = [] ∧ back = [] ∨ Kind.newline.Spells (join back) l.ending) := by
  cases h with
  | last _ htext => exact ⟨htext, .inl ⟨rfl, rfl⟩⟩
  | cons htext hending _ => exact ⟨htext, .inr hending⟩

end

end Line

namespace Source

theorem startsAfterBreaks_text {text : List UInt8} (h : ∀ b ∈ text, Byte.isNewline b = false) (offset : Nat)
    (rest : List UInt8) : startsAfterBreaks offset (text ++ rest) = startsAfterBreaks (offset + text.length) rest := by
  induction text generalizing offset with
  | nil => rfl
  | cons b text ih =>
    rw [List.forall_mem_cons] at h
    have hb : (b == byte '\n') = false ∧ (b == byte '\r') = false := by simpa [Byte.isNewline] using h.1
    rw [List.cons_append, startsAfterBreaks, hb.1, hb.2]
    rw [Bool.false_and, Bool.or_self, if_neg Bool.false_ne_true, ih h.2, List.length_cons, Nat.add_assoc,
      Nat.add_comm 1]

theorem startsAfterBreaks_ending {ending rest : List UInt8} (h : Kind.newline.Spells rest ending) (offset : Nat) :
    startsAfterBreaks offset (ending ++ rest) =
      (offset + ending.length) :: startsAfterBreaks (offset + ending.length) rest := by
  rcases h with rfl | rfl | ⟨rfl, hnext⟩
  · rfl
  · rfl
  · have hne : (rest.head? != some (byte '\n')) = true := bne_iff_ne.2 hnext
    rw [List.singleton_append, startsAfterBreaks, hne]
    rfl

section

variable {s : Source} {front back : List Line} {l : Line}

/-- The line starts through those of the lines `front`. -/
theorem starts_append (h : Line.Reads (front ++ l :: back)) (offset : Nat) : ∃ before, before.length = front.length ∧
    offset :: startsAfterBreaks offset (Line.join (front ++ l :: back)) =
      before ++ (offset + (Line.join front).length) ::
        startsAfterBreaks (offset + (Line.join front).length) (Line.join (l :: back)) := by
  induction front generalizing offset with
  | nil => exact ⟨[], rfl, rfl⟩
  | cons m front ih =>
    have hending : Kind.newline.Spells (Line.join (front ++ l :: back)) m.ending :=
      h.head.2.resolve_left fun hlast ↦ by simp at hlast
    obtain ⟨before, hlength, hstarts⟩ := ih h.tail (offset + m.bytes.length)
    refine ⟨offset :: before, congrArg (· + 1) hlength, ?_⟩
    rw [List.cons_append, List.cons_append, Line.join_cons, Line.bytes, List.append_assoc,
      startsAfterBreaks_text h.head.1, startsAfterBreaks_ending hending, Nat.add_assoc offset, ← List.length_append,
      ← Line.bytes, hstarts, Line.join_cons m front, List.length_append, Nat.add_assoc]

/-- A line starts behind the lines before it, and the next one behind its end. -/
theorem lineStarts_split (hs : s.bytes = Line.join (front ++ l :: back)) (h : Line.Reads (front ++ l :: back)) :
    s.lineStarts[front.length]? = some (Line.join front).length ∧
      s.lineStarts[front.length + 1]?.getD s.length = (Line.join front).length + l.bytes.length := by
  obtain ⟨before, hlength, hstarts⟩ := starts_append h 0
  obtain ⟨htext, hending⟩ := h.of_append.head
  rw [Nat.zero_add, ← hs] at hstarts
  rw [lineStarts, hstarts, ← hlength, List.getElem?_append_right (Nat.le_refl _),
    List.getElem?_append_right (Nat.le_add_right _ 1), Nat.sub_self, Nat.add_sub_cancel_left, List.getElem?_cons_zero,
    List.getElem?_cons_succ, Line.join_cons, Line.bytes, List.append_assoc, startsAfterBreaks_text htext]
  refine ⟨rfl, ?_⟩
  rcases hending with ⟨hnone, rfl⟩ | hending
  · rw [hnone]
    simp [hs, length, Line.join, Line.bytes, startsAfterBreaks, hnone]
  · rw [startsAfterBreaks_ending hending, List.getElem?_cons_zero, Option.getD_some, Nat.add_assoc,
      List.length_append]

theorem slice_line (hs : s.bytes = Line.join (front ++ l :: back)) :
    s.slice (Line.join front).length ((Line.join front).length + l.text.length) = l.text := by
  rw [slice, hs, Line.join_append, Line.join_cons, Line.bytes, List.append_assoc, List.drop_left,
    Nat.add_sub_cancel_left, List.take_left]

theorem stripByte_some {b : UInt8} {start stop : Nat} (hle : start ≤ stop) (hb : s.bytes[stop]? = some b) :
    s.stripByte b start (stop + 1) = stop := by
  rw [stripByte, Nat.add_sub_cancel, hb, decide_eq_true (Nat.lt_succ_of_le hle), beq_self_eq_true]
  rfl

theorem stripByte_none {b : UInt8} {start stop : Nat} (hb : start < stop → s.bytes[stop - 1]? ≠ some b) :
    s.stripByte b start stop = stop := by
  rw [stripByte, if_neg]
  simpa using hb

theorem strip_ending {before after : List UInt8} (hs : s.bytes = before ++ (l.text ++ (l.ending ++ after)))
    (htext : ∀ b ∈ l.text, Byte.isNewline b = false) (hending : l.ending = [] ∨ Kind.newline.Spells after l.ending) :
    s.stripByte (byte '\r') before.length
      (s.stripByte (byte '\n') before.length (before.length + l.bytes.length)) = before.length + l.text.length := by
  have hkeep {b : UInt8} (hb : Byte.isNewline b = true) :
      s.stripByte b before.length (before.length + l.text.length) = before.length + l.text.length := by
    refine stripByte_none fun hlt hlast ↦ ?_
    have hindex : before.length + l.text.length - 1 = before.length + (l.text.length - 1) := by omega
    rw [hs, hindex, List.getElem?_append_right (Nat.le_add_right _ _), Nat.add_sub_cancel_left,
      List.getElem?_append_left (by omega)] at hlast
    rw [htext b (List.mem_of_getElem? hlast)] at hb
    cases hb
  have hat (k : Nat) : s.bytes[before.length + l.text.length + k]? = (l.ending ++ after)[k]? := by
    rw [hs, ← List.append_assoc, ← List.length_append, List.getElem?_append_right (Nat.le_add_right _ _),
      Nat.add_sub_cancel_left]
  have hlow := Nat.le_add_right before.length l.text.length
  rw [Line.bytes, List.length_append, ← Nat.add_assoc]
  rcases hending with hnone | hlf | hcrlf | ⟨hcr, -⟩
  · rw [hnone, List.length_nil, Nat.add_zero, hkeep rfl, hkeep rfl]
  · rw [hlf] at hat ⊢
    rw [List.length_singleton, stripByte_some hlow (hat 0), hkeep rfl]
  · rw [hcrlf] at hat ⊢
    rw [show [byte '\r', byte '\n'].length = 1 + 1 from rfl, ← Nat.add_assoc,
      stripByte_some (Nat.le_add_right_of_le hlow) (hat 1), stripByte_some hlow (hat 0)]
  · rw [hcr] at hat ⊢
    have hother : s.bytes[before.length + l.text.length + 1 - 1]? ≠ some (byte '\n') := by
      rw [Nat.add_sub_cancel]
      exact fun hlf ↦ absurd ((hat 0).symm.trans hlf) (by simp)
    rw [List.length_singleton, stripByte_none fun _ ↦ hother, stripByte_some hlow (hat 0)]

theorem lineRange?_split (hs : s.bytes = Line.join (front ++ l :: back)) (h : Line.Reads (front ++ l :: back)) :
    s.lineRange? (front.length + 1) = some ((Line.join front).length, (Line.join front).length + l.text.length) := by
  obtain ⟨hstart, hnext⟩ := lineStarts_split hs h
  obtain ⟨htext, hending⟩ := h.of_append.head
  rw [Line.join_append, Line.join_cons, Line.bytes, List.append_assoc] at hs
  simp only [lineRange?, hstart, Option.map_some, hnext, strip_ending hs htext (hending.imp_left And.left)]

end

/-- A line start at the end of the file is that of no line. -/
theorem length_starts {ls : List Line} (h : Line.Reads ls) (offset : Nat) :
    let starts := offset :: startsAfterBreaks offset (Line.join ls)
    starts.getLast? = some (offset + (Line.join ls).length) ∧ starts.length = ls.length + 1 ∨
      starts.getLast? ≠ some (offset + (Line.join ls).length) ∧ starts.length = ls.length := by
  induction h generalizing offset with
  | nil => exact .inl ⟨rfl, rfl⟩
  | @last text hne htext =>
    have hpos := List.length_pos_iff.2 hne
    have hjoin : Line.join [⟨text, []⟩] = text := by simp [Line.join, Line.bytes]
    have hstarts := startsAfterBreaks_text htext offset []
    rw [List.append_nil] at hstarts
    rw [hjoin, hstarts]
    refine .inr ⟨fun hlast ↦ ?_, rfl⟩
    have hoffset : offset = offset + text.length := Option.some.inj hlast
    omega
  | @cons text ending ls htext hending _ ih =>
    have hstarts : startsAfterBreaks offset (Line.join (⟨text, ending⟩ :: ls)) =
        (offset + (text ++ ending).length) :: startsAfterBreaks (offset + (text ++ ending).length) (Line.join ls) := by
      rw [Line.join_cons, Line.bytes, List.append_assoc, startsAfterBreaks_text htext, startsAfterBreaks_ending hending,
        Nat.add_assoc, ← List.length_append]
    have hlength : offset + (Line.join (⟨text, ending⟩ :: ls)).length =
        offset + (text ++ ending).length + (Line.join ls).length := by
      rw [Line.join_cons, Line.bytes, List.length_append, Nat.add_assoc]
    have hnext := ih (offset + (text ++ ending).length)
    simp only [hstarts, hlength, List.getLast?_cons_cons, List.length_cons, Nat.add_right_cancel_iff] at hnext ⊢
    exact hnext

theorem lineCount_reads {s : Source} {ls : List Line} (hs : s.bytes = Line.join ls) (h : Line.Reads ls) :
    s.lineCount = ls.length := by
  have hstarts := length_starts h 0
  rw [Nat.zero_add, ← hs] at hstarts
  rw [lineCount, lineStarts, length]
  cases hbytes : s.bytes with
  | nil =>
    rw [hbytes] at hstarts
    simpa [startsAfterBreaks, eq_comm] using hstarts
  | cons b rest =>
    rw [hbytes] at hstarts
    rw [if_neg (by simp)]
    dsimp only
    rcases hstarts with ⟨hlast, hlength⟩ | ⟨hlast, hlength⟩
    · rw [hlast, if_pos (beq_self_eq_true _), hlength, Nat.add_sub_cancel]
    · rw [beq_false_of_ne hlast, if_neg Bool.false_ne_true, hlength]

end Source

namespace Line

/-- The offsets of lines without their line breaks. -/
def ranges (offset : Nat) : List Line → List (Nat × Nat)
  | [] => []
  | l :: ls => (offset, offset + l.text.length) :: ranges (offset + l.bytes.length) ls

end Line

theorem Source.filterMap_lineRange? {s : Source} {front back : List Line} (hs : s.bytes = Line.join (front ++ back))
    (h : Line.Reads (front ++ back)) : (List.range' (front.length + 1) back.length).filterMap s.lineRange? =
      Line.ranges (Line.join front).length back := by
  induction back generalizing front with
  | nil => rfl
  | cons l back ih =>
    have hnext := ih (List.append_cons front l back ▸ hs) (List.append_cons front l back ▸ h)
    rw [List.length_append, List.length_singleton, Line.join_concat, List.length_append] at hnext
    rw [List.length_cons, List.range'_succ, List.filterMap_cons_some (lineRange?_split hs h), hnext, Line.ranges]

theorem Rule.Layout.lineRanges_eq {s : Source} {ls : List Line} (hs : s.bytes = Line.join ls) (h : Line.Reads ls) :
    lineRanges s = Line.ranges 0 ls := by
  rw [lineRanges, Source.lineCount_reads hs h]
  exact @Source.filterMap_lineRange? s [] ls hs h

end CodeStyle
