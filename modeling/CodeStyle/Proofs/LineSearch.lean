import CodeStyle.Proofs.Bounds

/-!
Searching the line table. The starts of lines increase, so that halving the table finds the line of an
offset, and the spans that the lexer counts along are those of the search.
-/

namespace CodeStyle.Source

/-- The number of entries of a table up to `offset`, when it is at least `low` and at most `high`. -/
def search (table : List Nat) (offset low high : Nat) : Nat :=
  if low < high then
    let middle := (low + high) / 2
    if table[middle]?.any (· ≤ offset) then search table offset (middle + 1) high
    else search table offset low middle
  else low
termination_by high - low

def searchPosition (s : Source) (offset : Nat) : Point :=
  let offset := min offset s.length
  let line := search s.lineStarts offset 0 s.lineStarts.length
  ⟨line, offset - s.lineStarts[line - 1]?.getD 0 + 1⟩

/-- The span from `start` up to `stop`, both cut to the file, by halving the line table. -/
def searchSpan (s : Source) (start stop : Nat) : Span :=
  let stop := min stop s.length
  let start := min start stop
  Span.between start (s.searchPosition start) stop (s.searchPosition stop)

section

variable {table : List Nat} {offset : Nat}

/-- In an increasing table the entries up to `offset` are the first ones. -/
theorem le_iff_lt_passed (h : table.Pairwise (· < ·)) {i x : Nat} (hx : table[i]? = some x) :
    x ≤ offset ↔ i < (table.takeWhile (· ≤ offset)).length := by
  induction table generalizing i with
  | nil => simp at hx
  | cons a table ih =>
    obtain ⟨ha, hrest⟩ := List.pairwise_cons.1 h
    by_cases hle : a ≤ offset
    · rw [List.takeWhile_cons_of_pos (by simpa using hle), List.length_cons]
      cases i with
      | zero =>
        cases hx
        simpa using hle
      | succ i =>
        rw [List.getElem?_cons_succ] at hx
        rw [ih hrest hx]
        omega
    · rw [List.takeWhile_cons_of_neg (by simpa using hle), List.length_nil]
      have hax : a ≤ x := by
        rcases List.mem_cons.1 (List.mem_of_getElem? hx) with rfl | hm
        · exact Nat.le_refl _
        · exact Nat.le_of_lt (ha x hm)
      omega

theorem search_eq (h : table.Pairwise (· < ·)) (low high : Nat)
    (hlow : low ≤ (table.takeWhile (· ≤ offset)).length)
    (hhigh : (table.takeWhile (· ≤ offset)).length ≤ high) (hlen : high ≤ table.length) :
    search table offset low high = (table.takeWhile (· ≤ offset)).length := by
  fun_induction search table offset low high with
  | case1 low high hlt middle hm ih =>
    have hmiddle : middle < table.length := by omega
    rw [List.getElem?_eq_getElem hmiddle, Option.any_some, decide_eq_true_eq] at hm
    have hpassed := (le_iff_lt_passed h (List.getElem?_eq_getElem hmiddle)).1 hm
    exact ih hpassed hhigh hlen
  | case2 low high hlt middle hm ih =>
    have hmiddle : middle < table.length := by omega
    rw [List.getElem?_eq_getElem hmiddle, Option.any_some, decide_eq_true_eq] at hm
    rw [le_iff_lt_passed h (List.getElem?_eq_getElem hmiddle)] at hm
    exact ih hlow (by omega) (by omega)
  | case3 => omega

end

/-- The last line start up to an offset stands in the table where the number of these says. -/
theorem getElem?_passed (s : Source) (offset : Nat) :
    s.lineStarts[(s.lineStarts.takeWhile (· ≤ offset)).length - 1]? =
      some ((s.lineStarts.takeWhile (· ≤ offset)).getLastD 0) := by
  obtain ⟨hne, -⟩ := s.lineStarts_passed offset
  have hpos := List.length_pos_iff.2 hne
  have hprefix := List.takeWhile_prefix (· ≤ offset) (l := s.lineStarts)
  have hle := hprefix.length_le
  rw [List.getLastD_eq_getLast?, List.getLast?_eq_getElem?, List.getElem?_eq_getElem (by omega),
    List.getElem?_eq_getElem (by omega), hprefix.getElem, Option.getD_some]

theorem searchPosition_eq (s : Source) (offset : Nat) : s.searchPosition offset = s.position offset := by
  have hle : (s.lineStarts.takeWhile (· ≤ min offset s.length)).length ≤ s.lineStarts.length :=
    (List.takeWhile_sublist _).length_le
  have hfound : search s.lineStarts (min offset s.length) 0 s.lineStarts.length =
      (s.lineStarts.takeWhile (· ≤ min offset s.length)).length :=
    search_eq s.lineStarts_sorted 0 _ (Nat.zero_le _) hle (Nat.le_refl _)
  rw [searchPosition, position, hfound, getElem?_passed, Option.getD_some]

theorem searchSpan_eq (s : Source) (start stop : Nat) : s.searchSpan start stop = s.spanFor start stop := by
  simp only [searchSpan, spanFor, searchPosition_eq]

/-- The two ways to find the place of a byte agree, whatever line breaks a file has. The spans of tokens
and of lexing errors, which counters give while the file is read, are those that a search in the line
table gives to their offsets. -/
theorem lexer_spans_searched (path : String) (bytes : List UInt8) :
    (∀ t ∈ Token.tokenize bytes,
      t.span = spanFor ⟨path, bytes⟩ t.span.startByte t.span.endByte ∧
      t.span = searchSpan ⟨path, bytes⟩ t.span.startByte t.span.endByte) ∧
    (∀ e ∈ Token.lexErrors bytes,
      e.span = spanFor ⟨path, bytes⟩ e.span.startByte e.span.endByte ∧
      e.span = searchSpan ⟨path, bytes⟩ e.span.startByte e.span.endByte) := by
  constructor
  · intro t ht
    have hexact : Exact ⟨path, bytes⟩ t.span := exact_token (s := ⟨path, bytes⟩) ht
    exact ⟨hexact, by rw [searchSpan_eq]; exact hexact⟩
  · intro e he
    have hexact : Exact ⟨path, bytes⟩ e.span := exact_lexError ⟨path, bytes⟩ e he
    exact ⟨hexact, by rw [searchSpan_eq]; exact hexact⟩

end CodeStyle.Source
