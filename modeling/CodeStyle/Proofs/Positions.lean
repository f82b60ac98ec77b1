import CodeStyle.Proofs.Lexing
import CodeStyle.Source.Basic

/-!
Places of offsets. The line table, the counters of the lexer and the number of line breaks before an
offset all give the same place, so that the spans of tokens and of lexing errors are those that the
line table gives to their offsets.
-/

namespace CodeStyle.Source

open Text

variable (s : Source)

/-- Whether the byte at an offset ends a line. A carriage return before a line feed does not. -/
def breaksAt (offset : Nat) : Bool :=
  s.bytes[offset]?.any fun b ↦
    b == byte '\n' || (b == byte '\r' && s.bytes[offset + 1]? != some (byte '\n'))

/-- The place of an offset: one line for each line break before it, and one column for each byte
behind the last of these. -/
def placeOf (offset : Nat) : Point :=
  ⟨1 + (List.range offset).countP s.breaksAt,
    1 + ((List.range offset).reverse.takeWhile (!s.breaksAt ·)).length⟩

theorem placeOf_next (offset : Nat) : s.placeOf (offset + 1) =
    if s.breaksAt offset then ⟨(s.placeOf offset).line + 1, 1⟩
    else ⟨(s.placeOf offset).line, (s.placeOf offset).column + 1⟩ := by
  simp only [placeOf, List.range_succ, List.countP_append, List.reverse_append, List.reverse_singleton,
    List.singleton_append, List.takeWhile_cons]
  cases hbreak : s.breaksAt offset <;> simp [hbreak, Nat.add_assoc]

theorem placeOf_succ {offset : Nat} {b : UInt8} (h : s.bytes[offset]? = some b) :
    s.placeOf (offset + 1) = (s.placeOf offset).step b s.bytes[offset + 1]? := by
  have hb : s.breaksAt offset =
      (b == byte '\n' || (b == byte '\r' && s.bytes[offset + 1]? != some (byte '\n'))) := by
    simp [breaksAt, h]
  rw [placeOf_next, hb, Point.step]

/-- The lexer's counters after a part of the file are the place of the offset behind it. -/
theorem walk_take {offset : Nat} (h : offset ≤ s.length) :
    Point.first.walk (s.bytes.take offset) s.bytes[offset]? = s.placeOf offset := by
  induction offset with
  | zero => rfl
  | succ offset ih =>
    have hlt : offset < s.bytes.length := h
    have hb := List.getElem?_eq_getElem hlt
    rw [s.placeOf_succ hb, ← ih (Nat.le_of_lt hlt), hb, List.take_succ_eq_append_getElem hlt,
      Point.walk_append]
    rfl

theorem lt_of_mem_startsAfterBreaks {offset x : Nat} {bytes : List UInt8}
    (h : x ∈ startsAfterBreaks offset bytes) : offset < x := by
  induction bytes generalizing offset with
  | nil => cases h
  | cons b rest ih =>
    unfold startsAfterBreaks at h
    split at h
    · rcases List.mem_cons.1 h with rfl | h
      · omega
      · have := ih h
        omega
    · have := ih h
      omega

/-- Walking over a part of a text counts the line starts that it passes. -/
theorem walk_startsAfterBreaks (bytes : List UInt8) (p : Point) (offset start k : Nat)
    (hk : k ≤ bytes.length) (hs : start ≤ offset) (hp : p.column = offset - start + 1) :
    p.walk (bytes.take k) bytes[k]? =
      ⟨p.line + ((startsAfterBreaks offset bytes).takeWhile (· ≤ offset + k)).length,
        offset + k - ((startsAfterBreaks offset bytes).takeWhile (· ≤ offset + k)).getLastD start + 1⟩ := by
  induction bytes generalizing p offset start k with
  | nil =>
    obtain rfl : k = 0 := by simpa using hk
    cases p
    simpa [startsAfterBreaks, Point.walk] using hp
  | cons b rest ih =>
    cases k with
    | zero =>
      have hnil : (startsAfterBreaks offset (b :: rest)).takeWhile (· ≤ offset + 0) = [] := by
        rw [List.takeWhile_eq_nil_iff]
        intro hl
        have := lt_of_mem_startsAfterBreaks (List.get_mem _ ⟨0, hl⟩)
        simpa using this
      rw [hnil]
      cases p
      simpa [Point.walk] using hp
    | succ k =>
      have hhead : (rest.take k).head?.or rest[k]? = rest.head? := by
        rw [← List.head?_drop, ← List.head?_append, List.take_append_drop]
      have hlen : k ≤ rest.length := by simpa using hk
      have hsum : offset + (k + 1) = offset + 1 + k := by omega
      simp only [List.take_succ_cons, List.getElem?_cons_succ, Point.walk, hhead, startsAfterBreaks,
        Point.step, hsum]
      split
      · rw [ih ⟨p.line + 1, 1⟩ (offset + 1) (offset + 1) k hlen (Nat.le_refl _) (by simp)]
        simp only [List.takeWhile_cons, Nat.le_add_right, decide_true, if_true, List.getLastD_cons,
          List.length_cons, Nat.add_right_comm p.line 1]
        rfl
      · rw [ih ⟨p.line, p.column + 1⟩ (offset + 1) start k hlen (Nat.le_succ_of_le hs)
          (by simp only [hp]; omega)]

/-- The line table gives each offset its place. -/
theorem position_eq {offset : Nat} (h : offset ≤ s.length) : s.position offset = s.placeOf offset := by
  have hw := walk_startsAfterBreaks s.bytes Point.first 0 0 offset h (Nat.le_refl 0) rfl
  rw [s.walk_take h, Nat.zero_add] at hw
  rw [hw]
  simp only [position, Nat.min_eq_left h, lineStarts, List.takeWhile_cons, Nat.zero_le, decide_true,
    if_true, List.getLastD_cons, List.length_cons, Point.first, Nat.add_comm 1]

/-- A span that the line table gives to its own offsets. -/
def Exact (span : Span) : Prop := span = s.spanFor span.startByte span.endByte

variable {s} {span : Span}

theorem exact_iff : s.Exact span ↔ span.startByte ≤ span.endByte ∧ span.endByte ≤ s.length ∧
    span = Span.between span.startByte (s.placeOf span.startByte) span.endByte
      (s.placeOf span.endByte) := by
  constructor
  · intro h
    have hstop : span.endByte = min span.endByte s.length := congrArg Span.endByte h
    have hstart : span.startByte = min span.startByte (min span.endByte s.length) :=
      congrArg Span.startByte h
    have hle : span.startByte ≤ span.endByte := by omega
    have hlen : span.endByte ≤ s.length := by omega
    refine ⟨hle, hlen, ?_⟩
    rw [← position_eq s (hle.trans hlen), ← position_eq s hlen]
    simpa [Exact, spanFor, Nat.min_eq_left hlen, Nat.min_eq_left hle] using h
  · rintro ⟨hle, hlen, h⟩
    rw [← position_eq s (hle.trans hlen), ← position_eq s hlen] at h
    simpa [Exact, spanFor, Nat.min_eq_left hlen, Nat.min_eq_left hle] using h

theorem exact_between {a b : Nat} (hle : a ≤ b) (hlen : b ≤ s.length) :
    s.Exact (Span.between a (s.placeOf a) b (s.placeOf b)) :=
  exact_iff.2 ⟨hle, hlen, rfl⟩

theorem exact_spanFor (s : Source) (a b : Nat) : s.Exact (s.spanFor a b) := by
  have hlen : min b s.length ≤ s.length := Nat.min_le_right _ _
  have hle : min a (min b s.length) ≤ min b s.length := Nat.min_le_right _ _
  have h := exact_between hle hlen
  rwa [← position_eq s (hle.trans hlen), ← position_eq s hlen] at h

theorem Exact.within (h : s.Exact span) : span.within s.length = true := by
  obtain ⟨hle, hlen, -⟩ := exact_iff.1 h
  simp [Span.within, hle, hlen]

theorem Exact.clamp (h : s.Exact span) : span.clamp s.length = span := by
  rw [Span.clamp, if_pos h.within]

theorem Exact.join {t : Span} (hs : s.Exact span) (ht : s.Exact t) : s.Exact (span.join t) := by
  obtain ⟨h₁, h₂, hs'⟩ := exact_iff.1 hs
  obtain ⟨h₃, h₄, ht'⟩ := exact_iff.1 ht
  rw [Span.join]
  by_cases hstart : span.startByte ≤ t.startByte <;> by_cases hstop : t.endByte ≤ span.endByte <;>
    simp only [hstart, hstop, if_true, if_false]
  · exact hs
  · rw [hs', ht']
    exact exact_between (hstart.trans h₃) h₄
  · rw [hs', ht']
    exact exact_between (h₃.trans hstop) h₂
  · exact ht

theorem walk_front {front back : List UInt8} (h : s.bytes = front ++ back) :
    Point.first.walk front back.head? = s.placeOf front.length := by
  have hl : front.length ≤ s.length := by simp [length, h]
  have hw := s.walk_take hl
  rwa [h, List.take_left, ← List.head?_drop, List.drop_left] at hw

theorem placeOf_append {front part back : List UInt8} (h : s.bytes = front ++ (part ++ back)) :
    (s.placeOf front.length).walk part back.head? = s.placeOf (front.length + part.length) := by
  have hstart := walk_front h
  have hstop := walk_front (h.trans (List.append_assoc ..).symm)
  rw [Point.walk_append, ← List.head?_append, hstart, List.length_append] at hstop
  exact hstop

/-- The span of a token is the one that the line table gives to its offsets. -/
theorem exact_token {t : Token} (ht : t ∈ s.tokens) : s.Exact t.span := by
  obtain ⟨before, after, hsrc, hne, -, -, hs⟩ := Token.mem_tokenize ht
  obtain ⟨b, tail, hb⟩ := List.exists_cons_of_ne_nil hne
  have hstart := walk_front hsrc
  have hstop := walk_front (hsrc.trans (List.append_assoc ..).symm)
  rw [List.head?_append, hb, List.head?_cons, Option.some_or] at hstart
  rw [List.length_append] at hstop
  rw [hs, hb, List.head?_cons, hstart, ← hb, hstop]
  exact exact_between (Nat.le_add_right _ _) (by simp [length, hsrc])

end CodeStyle.Source
