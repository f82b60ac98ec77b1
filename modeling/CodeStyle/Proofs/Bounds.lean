import CodeStyle.Proofs.BuiltinRules
import CodeStyle.Proofs.ReportSpans

/-!
Bounds. Every offset, index and difference that the reading of a file relies on is in range: scanners
stop inside their input, brackets are never closed more often than they are opened, lines and names are
those of the file, and what rules look at is there.
-/

namespace CodeStyle

theorem Token.eq_of_isPunct {t : Token} {a b : String} (ha : t.isPunct a = true) (hb : t.isPunct b = true) :
    a = b := by
  simp only [isPunct, Bool.and_eq_true, beq_iff_eq] at ha hb
  rw [← ha.2, ← hb.2]

theorem Token.isPunct_eq_false {t : Token} {a b : String} (ha : t.isPunct a = true) (hab : a ≠ b) :
    t.isPunct b = false :=
  Bool.eq_false_iff.2 fun hb ↦ hab (eq_of_isPunct ha hb)

/-- However many of these tokens are passed, no more brackets are closed than were open before or have
been opened. -/
def Balanced (opens closes : String) (depth : Nat) (passed : List Focus) : Prop :=
  ∀ k, (passed.take k).countP (·.token.isPunct closes) ≤
    depth + (passed.take k).countP (·.token.isPunct opens)

namespace Balanced

variable {opens closes : String} {depth : Nat} {f : Focus} {rest : List Focus}

theorem nil : Balanced opens closes depth [] := by simp [Balanced]

theorem cons_opens (hne : opens ≠ closes) (hf : f.token.isPunct opens = true)
    (h : Balanced opens closes (depth + 1) rest) : Balanced opens closes depth (f :: rest) := by
  intro k
  cases k with
  | zero => simp
  | succ k =>
    have := h k
    simp only [List.take_succ_cons, List.countP_cons, hf, Token.isPunct_eq_false hf hne, if_true,
      Bool.false_eq_true, if_false]
    omega

theorem cons_closes (hf : f.token.isPunct closes = true) (h : Balanced opens closes depth rest) :
    Balanced opens closes (depth + 1) (f :: rest) := by
  intro k
  cases k with
  | zero => simp
  | succ k =>
    have := h k
    simp only [List.take_succ_cons, List.countP_cons, hf, if_true]
    omega

theorem cons_other (hf : ¬f.token.isPunct closes = true) (h : Balanced opens closes depth rest) :
    Balanced opens closes depth (f :: rest) := by
  intro k
  cases k with
  | zero => simp
  | succ k =>
    have := h k
    simp only [List.take_succ_cons, List.countP_cons, hf, Bool.false_eq_true, if_false]
    omega

end Balanced

/-- The tokens that are passed while the closing brace of a group is looked for. -/
def groupInside (depth : Nat) (region : List Focus) : List Focus :=
  region.take ((closeDistance depth region).getD region.length)

theorem groupInside_succ {depth d : Nat} {f : Focus} {rest : List Focus}
    (h : closeDistance depth (f :: rest) = (closeDistance d rest).map (· + 1)) :
    groupInside depth (f :: rest) = f :: groupInside d rest := by
  unfold groupInside
  rw [h]
  cases closeDistance d rest <;> rfl

theorem groupInside_balanced (depth : Nat) (region : List Focus) :
    Balanced "\x7b" "\x7d" depth (groupInside depth region) := by
  induction region generalizing depth with
  | nil => exact .nil
  | cons f rest ih =>
    by_cases hopen : f.token.isPunct "\x7b" = true
    · rw [groupInside_succ (d := depth + 1) (by simp [closeDistance, hopen])]
      exact .cons_opens (by decide) hopen (ih _)
    · by_cases hclose : f.token.isPunct "\x7d" = true
      · cases depth with
        | zero => simp [groupInside, closeDistance, hopen, hclose, Balanced]
        | succ d =>
          rw [groupInside_succ (d := d) (by simp [closeDistance, hopen, hclose])]
          exact .cons_closes hclose (ih d)
      · rw [groupInside_succ (d := depth) (by simp [closeDistance, hopen, hclose])]
        exact .cons_other hclose (ih _)

/-- No brace inside a group closes more than the group has opened. -/
theorem BraceGroup.inside_balanced (opening : Focus) (skip : Nat) (inFunction : Bool) (rest : List Focus) :
    Balanced "\x7b" "\x7d" 0 (rest.take (of opening skip inFunction rest).inside) := by
  have h := groupInside_balanced 0 rest
  unfold groupInside at h
  unfold of
  split <;> rename_i hd <;> rwa [hd] at h

/-- Nor does a parenthesis inside a pair of parentheses. -/
theorem Declaration.parenContent_balanced (depth : Nat) (code : List Focus) :
    Balanced "(" ")" depth (parenContent depth code) := by
  fun_induction parenContent depth code with
  | case1 => exact .nil
  | case2 _ f rest hf ih => exact .cons_opens (by decide) hf ih
  | case3 => exact .nil
  | case4 f rest _ hf d ih => exact .cons_closes hf ih
  | case5 _ f rest _ hf ih => exact .cons_other hf ih

namespace Source

variable {s : Source}

theorem le_of_mem_startsAfterBreaks {offset x : Nat} {bytes : List UInt8}
    (h : x ∈ startsAfterBreaks offset bytes) : x ≤ offset + bytes.length := by
  induction bytes generalizing offset with
  | nil => cases h
  | cons b rest ih =>
    have later (hx : x ∈ startsAfterBreaks (offset + 1) rest) : x ≤ offset + (b :: rest).length := by
      have := ih hx
      rw [List.length_cons]
      omega
    unfold startsAfterBreaks at h
    split at h
    · rcases List.mem_cons.1 h with rfl | h
      · simp
      · exact later h
    · exact later h

theorem startsAfterBreaks_sorted (offset : Nat) (bytes : List UInt8) :
    (startsAfterBreaks offset bytes).Pairwise (· < ·) := by
  induction bytes generalizing offset with
  | nil => exact .nil
  | cons b rest ih =>
    unfold startsAfterBreaks
    split
    · exact List.pairwise_cons.2 ⟨fun x hx ↦ lt_of_mem_startsAfterBreaks hx, ih _⟩
    · exact ih _

theorem lineStarts_sorted (s : Source) : s.lineStarts.Pairwise (· < ·) :=
  List.pairwise_cons.2 ⟨fun _ hx ↦ lt_of_mem_startsAfterBreaks hx, startsAfterBreaks_sorted 0 s.bytes⟩

theorem le_of_mem_lineStarts {x : Nat} (h : x ∈ s.lineStarts) : x ≤ s.length := by
  rcases List.mem_cons.1 h with rfl | h
  · exact Nat.zero_le _
  · simpa [length] using le_of_mem_startsAfterBreaks h

theorem stripByte_bounds (b : UInt8) {start stop : Nat} (h : start ≤ stop) :
    start ≤ s.stripByte b start stop ∧ s.stripByte b start stop ≤ stop := by
  unfold stripByte
  split
  · rename_i hc
    simp only [Bool.and_eq_true, decide_eq_true_eq] at hc
    omega
  · exact ⟨h, Nat.le_refl _⟩

theorem lineRange_bounds {line start stop : Nat} (h : s.lineRange? line = some (start, stop)) :
    start ≤ stop ∧ stop ≤ s.length := by
  cases line with
  | zero => cases h
  | succ k =>
    obtain ⟨a, ha, hab⟩ := Option.map_eq_some_iff.1 h
    have hle : a ≤ (s.lineStarts[k + 1]?).getD s.length ∧ (s.lineStarts[k + 1]?).getD s.length ≤ s.length := by
      cases hn : s.lineStarts[k + 1]? with
      | none => exact ⟨le_of_mem_lineStarts (List.mem_of_getElem? ha), Nat.le_refl _⟩
      | some b =>
        obtain ⟨hb, rfl⟩ := List.getElem?_eq_some_iff.1 hn
        obtain ⟨hk, rfl⟩ := List.getElem?_eq_some_iff.1 ha
        have hlt := List.pairwise_iff_getElem.1 s.lineStarts_sorted k (k + 1) hk hb (Nat.lt_succ_self k)
        exact ⟨Nat.le_of_lt hlt, le_of_mem_lineStarts (List.getElem_mem hb)⟩
    have hlf := stripByte_bounds (s := s) (Text.byte '\n') hle.1
    have hcr := stripByte_bounds (s := s) (Text.byte '\r') hlf.1
    cases hab
    exact ⟨hcr.1, Nat.le_trans hcr.2 (Nat.le_trans hlf.2 hle.2)⟩

theorem lineCount_le (s : Source) : s.lineCount ≤ s.lineStarts.length := by
  unfold lineCount
  dsimp only
  split
  · exact Nat.zero_le _
  · split <;> omega

theorem exists_lineRange {line : Nat} (hpos : 1 ≤ line) (hle : line ≤ s.lineCount) :
    ∃ start stop, s.lineRange? line = some (start, stop) ∧ start ≤ stop ∧ stop ≤ s.length := by
  obtain ⟨k, rfl⟩ := Nat.exists_eq_add_of_le' hpos
  have hk : k < s.lineStarts.length := Nat.lt_of_lt_of_le hle s.lineCount_le
  have h : ∃ range, s.lineRange? (k + 1) = some range := by
    simp only [lineRange?, List.getElem?_eq_getElem hk, Option.map_some]
    exact ⟨_, rfl⟩
  obtain ⟨⟨start, stop⟩, h⟩ := h
  exact ⟨start, stop, h, lineRange_bounds h⟩

theorem lineStarts_passed (s : Source) (offset : Nat) :
    s.lineStarts.takeWhile (· ≤ offset) ≠ [] ∧ (s.lineStarts.takeWhile (· ≤ offset)).getLastD 0 ≤ offset := by
  refine ⟨by simp [lineStarts], ?_⟩
  rw [List.getLastD_eq_getLast?]
  cases h : (s.lineStarts.takeWhile (· ≤ offset)).getLast? with
  | none => exact Nat.zero_le _
  | some x => simpa using List.mem_takeWhile_imp (List.mem_of_getLast? h)

end Source

namespace Token

open Text

theorem Extent.two_le_commentClose {bytes : List UInt8} {n : Nat} (h : commentClose bytes = some n) :
    2 ≤ n := by
  induction bytes generalizing n with
  | nil => cases h
  | cons b rest ih =>
    unfold commentClose at h
    split at h
    · cases h
      exact Nat.le_refl 2
    · obtain ⟨m, hm, rfl⟩ := Option.map_eq_some_iff.1 h
      exact Nat.le_succ_of_le (ih hm)

/-- The number of bytes of the delimiters of a comment, and zero for other tokens. -/
def Kind.delimiters : Kind → Nat
  | .blockComment => 4
  | .lineComment => 2
  | _ => 0

theorem Extent.delimiters_quoted (quote : UInt8) (before : Nat) (rest : List UInt8) :
    (quoted quote before rest).kind.delimiters = 0 := by
  simp only [quoted, plain]
  split
  · split <;> rfl
  · rfl

theorem Extent.delimiters_word (first : UInt8) (rest : List UInt8) :
    (word first rest).kind.delimiters = 0 := by
  have plainWord (more : Nat) (c : Bool) :
      (plain (if c then .keyword else .identifier) more).kind.delimiters = 0 := by
    cases c <;> rfl
  unfold word
  dsimp only
  split
  · exact plainWord _ _
  · split
    · exact delimiters_quoted _ _ _
    · exact plainWord _ _

/-- A comment has at least the bytes of its delimiters. -/
theorem Extent.delimiters_le (lineHasCode : Bool) (first : UInt8) (rest : List UInt8) :
    (of lineHasCode first rest).kind.delimiters ≤ (of lineHasCode first rest).more + 1 := by
  fun_cases of lineHasCode first rest with
  | case1 | case2 | case3 | case6 | case11 => exact Nat.zero_le _
  | case4 _ _ _ h =>
    cases rest with
    | nil => simp at h
    | cons b rest =>
      obtain rfl : b = byte '/' := by simpa using (Bool.and_eq_true_iff.1 h).2
      simp [lineComment, plain, Kind.delimiters, Byte.isNewline]
  | case5 =>
    unfold blockComment
    split
    · rename_i n hn
      exact Nat.add_le_add_right (two_le_commentClose hn) 2
    · exact Nat.zero_le _
  | case7 => simp [delimiters_quoted]
  | case8 =>
    simp only [number, plain]
    split <;> exact Nat.zero_le _
  | case9 => simp [delimiters_word]
  | case10 =>
    unfold backslash
    split
    · exact Nat.zero_le _
    · split <;> exact Nat.zero_le _
  | case12 =>
    unfold punctuator
    split
    · dsimp only [plain]
      split <;> exact Nat.zero_le _
    · exact Nat.zero_le _

theorem delimiters_lexemes {lineHasCode : Bool} {bytes : List UInt8} :
    ∀ l ∈ lexemes lineHasCode bytes, l.kind.delimiters ≤ l.bytes.length := by
  fun_induction lexemes lineHasCode bytes with
  | case1 => simp
  | case2 lineHasCode b rest e ih =>
    have hmore : e.more ≤ rest.length := by simpa using (Extent.of_cut lineHasCode b rest).le_length
    intro l hl
    rcases List.mem_cons.1 hl with rfl | hl
    · have := Extent.delimiters_le lineHasCode b rest
      simpa [Nat.min_eq_left hmore] using this
    · exact ih l hl

theorem delimiters_tokenize {src : List UInt8} {t : Token} (ht : t ∈ tokenize src) :
    t.kind.delimiters ≤ t.bytes.length := by
  obtain ⟨front, l, back, hl, hk, hb, -⟩ := mem_place lexemes_ne_nil ht
  rw [hk, hb]
  exact delimiters_lexemes l (by rw [hl]; simp)

end Token

theorem Focus.mem_fromIndex_index {i : Nat} {before tokens : List Token} {f : Focus}
    (h : f ∈ fromIndex i before tokens) (hi : before.length = i) : f.before.length = f.index := by
  induction tokens generalizing i before with
  | nil => cases h
  | cons t tokens ih =>
    rcases List.mem_cons.1 h with rfl | h
    · exact hi
    · exact ih h (by simp [hi])

/-- The tokens around one in focus are those of the file before and after its index. -/
theorem Focus.around {tokens : List Token} {f : Focus} (h : f ∈ all tokens) :
    f.before = (tokens.take f.index).reverse ∧ tokens[f.index]? = some f.token ∧
      f.after = tokens.drop (f.index + 1) := by
  have hlen : f.before.reverse.length = f.index := by
    rw [List.length_reverse]
    exact mem_fromIndex_index h rfl
  have hall := mem_all h
  refine ⟨?_, ?_, ?_⟩
  · rw [hall, ← hlen, List.take_left, List.reverse_reverse]
  · rw [hall, ← hlen, List.getElem?_append_right (Nat.le_refl _), Nat.sub_self]
    rfl
  · rw [hall, ← hlen, ← List.drop_drop, List.drop_left]
    rfl

namespace Facts

theorem blanks_le (bytes : List UInt8) : blanks bytes ≤ bytes.length :=
  (List.takeWhile_sublist _).length_le

/-- The name of a macro lies in the bytes of its definition. -/
theorem macroNameRange_bounds {bytes : List UInt8} {start stop : Nat} {isFunctionLike : Bool}
    (h : macroNameRange bytes = some (start, stop, isFunctionLike)) : start < stop ∧ stop ≤ bytes.length := by
  simp only [macroNameRange, Option.ite_none_left_eq_some, Option.ite_none_right_eq_some,
    Option.some.injEq, Prod.mk.injEq] at h
  obtain ⟨-, hlt, rfl, rfl, -⟩ := h
  have hword := (List.takeWhile_sublist Text.Byte.isWord
    (l := bytes.drop (1 + blanks (bytes.drop 1) + 6 +
      blanks (bytes.drop (1 + blanks (bytes.drop 1) + 6))))).length_le
  rw [List.length_drop] at hword
  omega

theorem lineTable_line {count number : Nat} {tokens : List Token} (hpos : 1 ≤ number)
    (hle : number ≤ count) : ∃ l, (lineTable count tokens)[number - 1]? = some l ∧ l.number = number := by
  have hlt : number - 1 < count := by omega
  simp only [lineTable, List.getElem?_map, List.getElem?_range' hlt, Option.map_some]
  exact ⟨_, rfl, by simp only; omega⟩

end Facts

namespace Rule

open Text Comments Layout

theorem firstWord_bounds {bytes : List UInt8} (h : (firstWord bytes).2 ≠ []) :
    (firstWord bytes).1 + (firstWord bytes).2.length ≤ bytes.length := by
  simp only [firstWord, commentBody] at h ⊢
  generalize (if (bytesOf "//").isPrefixOf bytes || (bytesOf "/*").isPrefixOf bytes then 2 else 0) = start
    at h ⊢
  generalize (if (bytesOf "*/").isSuffixOf bytes && 4 ≤ bytes.length then bytes.length - 2
    else bytes.length) = stop at h ⊢
  generalize (((bytes.take stop).drop start).takeWhile isDecoration).length = skipped at h ⊢
  have hword := (List.takeWhile_sublist (!Byte.isSpace ·)
    (l := ((bytes.take stop).drop start).drop skipped)).length_le
  have hpos := List.length_pos_iff.2 h
  simp only [List.length_drop, List.length_take] at hword
  omega

theorem bareWord_le (word : List UInt8) : (bareWord word).length ≤ word.length := by
  have := (List.dropWhile_sublist isWordEnd (l := word.reverse)).length_le
  simpa [bareWord] using this

/-- A word of small letters starts with a character of one byte. -/
theorem lossy_lower {word : List UInt8} (hne : word ≠ []) (hlow : word.all Byte.isLower = true) :
    ∃ c cs, (Utf8.lossy word).toList = c :: cs ∧ c.utf8Size = 1 := by
  obtain ⟨b, rest, rfl⟩ := List.exists_cons_of_ne_nil hne
  simp only [List.all_cons, Bool.and_eq_true, Byte.isLower, decide_eq_true_eq] at hlow
  have hb : b ≤ byte 'z' := hlow.1.2
  have hascii := Byte.isNonAscii_of_le hb (by decide)
  have hlt : b.toNat < 128 := Nat.lt_of_le_of_lt (UInt8.le_iff_toNat_le.1 hb) (by decide)
  have hsize : ∀ n < 128, (Char.ofNat n).utf8Size = 1 := by decide
  refine ⟨Char.ofNat b.toNat, (Utf8.units rest).map fun u ↦ u.getD Utf8.replacement, ?_, hsize _ hlt⟩
  rw [Utf8.lossy, Utf8.units, Utf8.next_ascii hascii, String.toList_ofList]
  rfl

theorem trailingBlanks_le (bytes : List UInt8) : trailingBlanks bytes ≤ bytes.length := by
  have := (List.takeWhile_sublist (fun b ↦ b == byte ' ' || b == byte '\t') (l := bytes.reverse)).length_le
  rwa [List.length_reverse] at this

end Rule

end CodeStyle
