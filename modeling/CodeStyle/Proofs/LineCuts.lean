import CodeStyle.Proofs.LineLocality

/-!
Files put together at a line break. When a line break token ends where the second part starts, the
tokens and the errors of the whole are those of the parts, those of the second part moved by the
bytes and the lines of the first.
-/

namespace CodeStyle

open Text

def Point.down (p : Point) (lines : Nat) : Point := ⟨p.line + lines, p.column⟩

/-- The span as many bytes and lines further on, in the same columns. -/
def Span.shift (s : Span) (bytes lines : Nat) : Span :=
  ⟨s.startByte + bytes, s.endByte + bytes, s.startLine + lines, s.startCol, s.endLine + lines, s.endCol⟩

def Token.shift (t : Token) (bytes lines : Nat) : Token := { t with span := t.span.shift bytes lines }

def LexError.shift (e : LexError) (bytes lines : Nat) : LexError := { e with span := e.span.shift bytes lines }

/-- The number of line breaks of a text, which starts that many lines after its first. -/
def Text.lineBreaks (bytes : List UInt8) : Nat := (Source.startsAfterBreaks 0 bytes).length

namespace Point

theorem step_down (p : Point) (lines : Nat) (b : UInt8) (after : Option UInt8) :
    (p.down lines).step b after = (p.step b after).down lines := by
  simp only [step, down]
  split
  · simp only [Nat.add_right_comm]
  · rfl

theorem walk_down (p : Point) (lines : Nat) (bytes : List UInt8) (after : Option UInt8) :
    (p.down lines).walk bytes after = (p.walk bytes after).down lines := by
  induction bytes generalizing p with
  | nil => rfl
  | cons b bytes ih => rw [walk, step_down, ih, walk]

/-- A text is as many lines long as it has line breaks. -/
theorem walk_line (p : Point) (offset : Nat) (bytes : List UInt8) :
    (p.walk bytes none).line = p.line + (Source.startsAfterBreaks offset bytes).length := by
  induction bytes generalizing p offset with
  | nil => rfl
  | cons b bytes ih =>
    simp only [walk, step, Source.startsAfterBreaks, Option.or_none]
    split
    · rw [ih _ (offset + 1), List.length_cons]
      dsimp only
      omega
    · rw [ih _ (offset + 1)]

end Point

namespace Token

/-- A lexeme and where it stands. -/
structure Spot where
  lexeme : Lexeme
  offset : Nat
  start : Point
  stop : Point

namespace Spot

def token (s : Spot) : Token :=
  ⟨s.lexeme.kind, s.lexeme.bytes, Utf8.lossy s.lexeme.bytes,
    Span.between s.offset s.start (s.offset + s.lexeme.bytes.length) s.stop⟩

def invalid (s : Spot) : Option LexError :=
  s.lexeme.fault?.map fun fault ↦
    ⟨fault, Span.between s.offset s.start (s.offset + s.lexeme.bytes.length) s.stop⟩

def dangling (s : Spot) : Option LexError :=
  s.lexeme.dangling.map fun k ↦
    let here := s.start.walk (s.lexeme.bytes.take k) (some (byte '\\'))
    ⟨.unterminatedContinuation,
      Span.between (s.offset + k) here (s.offset + k + 1) ⟨here.line, here.column + 1⟩⟩

def errors (s : Spot) : List LexError := s.invalid.toList ++ s.dangling.toList

def shift (s : Spot) (bytes lines : Nat) : Spot :=
  ⟨s.lexeme, s.offset + bytes, s.start.down lines, s.stop.down lines⟩

theorem token_shift (s : Spot) (bytes lines : Nat) :
    (s.shift bytes lines).token = s.token.shift bytes lines := by
  simp only [token, shift, Token.shift, Span.shift, Span.between, Point.down, Nat.add_right_comm]

theorem errors_shift (s : Spot) (bytes lines : Nat) :
    (s.shift bytes lines).errors = s.errors.map (·.shift bytes lines) := by
  have hinvalid : (s.shift bytes lines).invalid = s.invalid.map (·.shift bytes lines) := by
    simp only [invalid, shift, Option.map_map, Function.comp_def, LexError.shift, Span.shift, Span.between,
      Point.down, Nat.add_right_comm]
  have hdangling : (s.shift bytes lines).dangling = s.dangling.map (·.shift bytes lines) := by
    simp only [dangling, shift, Point.walk_down]
    simp only [Option.map_map, Function.comp_def, LexError.shift, Span.shift, Span.between, Point.down,
      Nat.add_right_comm]
  rw [errors, hinvalid, hdangling, errors, List.map_append, Option.toList_map, Option.toList_map]

end Spot

def spots (offset : Nat) (p : Point) : List Lexeme → List Spot
  | [] => []
  | l :: rest =>
    let q := p.walk l.bytes (firstByte rest)
    ⟨l, offset, p, q⟩ :: spots (offset + l.bytes.length) q rest

theorem place_eq (offset : Nat) (p : Point) (ls : List Lexeme) :
    place offset p ls = (spots offset p ls).map Spot.token := by
  induction ls generalizing offset p with
  | nil => rfl
  | cons l ls ih => rw [place, ih, spots, List.map_cons, Spot.token]

theorem lexemeErrors_eq (offset : Nat) (p : Point) (ls : List Lexeme) :
    lexemeErrors offset p ls = (spots offset p ls).flatMap Spot.errors := by
  induction ls generalizing offset p with
  | nil => rfl
  | cons l ls ih => rw [lexemeErrors, ih, spots, List.flatMap_cons]; rfl

theorem spots_shift (offset : Nat) (p : Point) (bytes lines : Nat) (ls : List Lexeme) :
    spots (offset + bytes) (p.down lines) ls = (spots offset p ls).map (·.shift bytes lines) := by
  induction ls generalizing offset p with
  | nil => rfl
  | cons l ls ih => 
    rw [spots, Point.walk_down, Nat.add_right_comm, ih, spots, List.map_cons, Spot.shift]

theorem firstByte_append (front : List Lexeme) (l : Lexeme) (back back' : List Lexeme) :
    firstByte (front ++ l :: back) = firstByte (front ++ l :: back') := by
  cases front <;> rfl

/-- Lexemes behind one after which the next byte makes no difference. -/
theorem spots_append {front back : List Lexeme} {l : Lexeme} (hne : ∀ m ∈ front ++ [l], m.bytes ≠ [])
    (hl : ∀ p : Point, p.walk l.bytes (firstByte back) = p.walk l.bytes none) (offset : Nat) (p : Point) :
    spots offset p (front ++ l :: back) = spots offset p (front ++ [l]) ++
      spots (offset + ((front ++ [l]).flatMap Lexeme.bytes).length)
        (p.walk ((front ++ [l]).flatMap Lexeme.bytes) none) back := by
  induction front generalizing offset p with
  | nil => simp only [List.nil_append, spots, List.flatMap_singleton, List.singleton_append, hl]; rfl
  | cons m front ih =>
    have hne' : ∀ m ∈ front ++ [l], m.bytes ≠ [] := fun m hm ↦ hne m (by simp [hm])
    have hwalk : p.walk (m.bytes ++ (front ++ [l]).flatMap Lexeme.bytes) none =
        (p.walk m.bytes (firstByte (front ++ [l]))).walk ((front ++ [l]).flatMap Lexeme.bytes) none := by
      rw [Point.walk_append, Option.or_none, firstByte_eq hne']
    simp only [List.cons_append, spots, List.flatMap_cons, List.length_append, hwalk]
    rw [firstByte_append front l back [], ih hne']
    simp only [Nat.add_assoc]

theorem Extent.quoted_ne_newline (quote : UInt8) (before : Nat) (rest : List UInt8) :
    (quoted quote before rest).kind ≠ .newline := by
  simp only [quoted, plain]
  split
  · split <;> simp
  · simp

theorem Extent.word_ne_newline (first : UInt8) (rest : List UInt8) : (word first rest).kind ≠ .newline := by
  have named (more : Nat) (c : Bool) : (plain (if c then .keyword else .identifier) more).kind ≠ .newline := by
    cases c <;> simp [plain]
  unfold word
  dsimp only
  split
  · exact named _ _
  · split
    · exact quoted_ne_newline _ _ _
    · exact named _ _

theorem Extent.of_newline {lineHasCode : Bool} {first : UInt8} {rest : List UInt8}
    (h : (of lineHasCode first rest).kind = .newline) : Byte.isNewline first = true := by
  revert h
  fun_cases of lineHasCode first rest with
  | case1 hn =>
    intro _
    rw [Byte.isNewline, hn, Bool.true_or]
  | case2 _ hr =>
    intro _
    rw [Byte.isNewline, hr, Bool.or_true]
  | case3 | case4 | case6 | case11 =>
    intro h
    cases h
  | case5 =>
    intro h
    unfold blockComment at h
    split at h <;> cases h
  | case7 => exact fun h ↦ absurd h (quoted_ne_newline _ _ _)
  | case8 =>
    intro h
    simp only [number, plain] at h
    split at h <;> cases h
  | case9 => exact fun h ↦ absurd h (word_ne_newline _ _)
  | case10 =>
    intro h
    unfold backslash at h
    split at h
    · cases h
    · split at h <;> cases h
  | case12 =>
    intro h
    unfold punctuator at h
    split at h
    · simp only [plain] at h
      split at h <;> cases h
    · cases h

section

variable {code : Bool} {bytes : List UInt8} {front back : List Lexeme} {l : Lexeme}

/-- The three line breaks, and that nothing of the line before one matters behind it. -/
theorem newline_cases (h : lexemes code bytes = front ++ l :: back) (hl : l.kind = .newline) :
    (l = ⟨.newline, [byte '\n'], none⟩ ∨ l = ⟨.newline, [byte '\r', byte '\n'], none⟩ ∨
      l = ⟨.newline, [byte '\r'], none⟩ ∧ firstByte back ≠ some (byte '\n')) ∧
    lexemes false (back.flatMap Lexeme.bytes) = back := by
  obtain ⟨code', first, rest, -, rfl, rfl⟩ := lexemes_split h
  have hcode : (Extent.of code' first rest).kind.lineHasCode code' = false := by
    rw [show (Extent.of code' first rest).kind = .newline from hl, Kind.lineHasCode]
  rw [hcode, lexemes_flatMap]
  refine ⟨?_, rfl⟩
  rcases Byte.eq_of_isNewline (Extent.of_newline hl) with rfl | rfl
  · exact .inl rfl
  · right
    cases rest with
    | nil => exact .inr ⟨rfl, by simp [lexemes, firstByte]⟩
    | cons c rest =>
      by_cases hc : c = byte '\n'
      · subst hc
        exact .inl rfl
      · have hof : Extent.of code' (byte '\r') (c :: rest) = Extent.plain .newline 0 := by
          simp only [Extent.of, List.head?_cons, beq_iff_eq, Option.some_inj, hc, if_false]
          rfl
        rw [hof]
        refine .inr ⟨rfl, ?_⟩
        simpa [Extent.plain, lexemes, firstByte] using hc

theorem newline_walk (h : lexemes code bytes = front ++ l :: back) (hl : l.kind = .newline) (p : Point) :
    p.walk l.bytes (firstByte back) = ⟨p.line + 1, 1⟩ ∧ p.walk l.bytes none = ⟨p.line + 1, 1⟩ := by
  obtain ⟨rfl | rfl | ⟨rfl, hfirst⟩, -⟩ := newline_cases h hl
  · exact ⟨rfl, rfl⟩
  · exact ⟨rfl, rfl⟩
  · have hne : (firstByte back != some (byte '\n')) = true := bne_iff_ne.2 hfirst
    refine ⟨?_, rfl⟩
    rw [Point.walk, Point.walk, List.head?_nil, Option.none_or, Point.step, hne]
    rfl

theorem newline_head (h : lexemes code bytes = front ++ l :: back) (hl : l.kind = .newline) :
    ∃ nl tail, l.bytes = nl :: tail ∧ Byte.isNewline nl = true := by
  obtain ⟨rfl | rfl | ⟨rfl, -⟩, -⟩ := newline_cases h hl <;> exact ⟨_, _, rfl, rfl⟩

theorem newline_last (h : lexemes code bytes = front ++ l :: back) (hl : l.kind = .newline) :
    ∃ init nl, l.bytes = init ++ [nl] ∧ Byte.isNewline nl = true ∧
      ∀ p : Point, p.step nl (firstByte back) = p.step nl none := by
  obtain ⟨rfl | rfl | ⟨rfl, hfirst⟩, -⟩ := newline_cases h hl
  · exact ⟨[], byte '\n', rfl, rfl, fun _ ↦ rfl⟩
  · exact ⟨[byte '\r'], byte '\n', rfl, rfl, fun _ ↦ rfl⟩
  · have hne : (firstByte back != some (byte '\n')) = true := bne_iff_ne.2 hfirst
    exact ⟨[], byte '\r', rfl, rfl, fun p ↦ by rw [Point.step, hne]; rfl⟩

theorem lexemes_newline (h : lexemes code bytes = front ++ l :: back) (hl : l.kind = .newline) (code' : Bool) :
    lexemes code' l.bytes = [l] := by
  obtain ⟨rfl | rfl | ⟨rfl, -⟩, -⟩ := newline_cases h hl <;> simp [lexemes, Extent.of, Extent.plain]

theorem lexemes_part {b : UInt8} {part tail : List UInt8} {e : Extent} (he : Extent.of code b (part ++ tail) = e)
    (hlen : part.length = e.more) : lexemes code (b :: (part ++ tail)) =
      ⟨e.kind, b :: part, e.dangling⟩ :: lexemes (e.kind.lineHasCode code) tail := by
  rw [lexemes, he, ← hlen, List.take_left, List.drop_left]

/-- Lexemes that end before `x` are the same when something alike stands there. -/
theorem lexemes_ahead {x y : UInt8} {tail rest : List UInt8}
    (hxy : Extent.Alike x y (tail ++ back.flatMap Lexeme.bytes) rest) (h : lexemes code bytes = front ++ l :: back)
    (hl : l.bytes = x :: tail) : lexemes code (front.flatMap Lexeme.bytes ++ y :: rest) =
      front ++ lexemes (codeBehind code (front.map Lexeme.kind)) (y :: rest) := by
  induction front generalizing code bytes with
  | nil => rfl
  | cons m front ih =>
    cases bytes with
    | nil => simp [lexemes] at h
    | cons b bytes =>
      have hmore : (Extent.of code b bytes).more ≤ bytes.length := by
        simpa using (Extent.of_cut code b bytes).le_length
      rw [lexemes, List.cons_append, List.cons.injEq] at h
      obtain ⟨rfl, htail⟩ := h
      generalize he : Extent.of code b bytes = e at hmore htail ⊢
      have hdrop := (lexemes_flatMap (e.kind.lineHasCode code) (bytes.drop e.more)).symm
      rw [htail, List.flatMap_append, List.flatMap_cons, hl, List.cons_append] at hdrop
      -- The first token ends before `x`, so it is the same whatever follows.
      have hbytes : bytes = bytes.take e.more ++ front.flatMap Lexeme.bytes ++
          x :: (tail ++ back.flatMap Lexeme.bytes) := by
        rw [List.append_assoc, ← hdrop, List.take_append_drop]
      have hlen : e.more ≤ (bytes.take e.more ++ front.flatMap Lexeme.bytes).length := by
        rw [List.length_append, List.length_take, Nat.min_eq_left hmore]
        omega
      have hends : (Extent.of code b (bytes.take e.more ++ front.flatMap Lexeme.bytes ++
            x :: (tail ++ back.flatMap Lexeme.bytes))).more ≤
          (bytes.take e.more ++ front.flatMap Lexeme.bytes).length := by
        rwa [← hbytes, he]
      have hof := Extent.of_line hxy hends
      rw [← hbytes, he, List.append_assoc] at hof
      rw [List.flatMap_cons, List.cons_append, List.cons_append, List.append_assoc,
        lexemes_part hof (by rw [List.length_take, Nat.min_eq_left hmore]), ih htail]
      rfl

/-- Lexemes before a line break or a word do not depend on what stands behind its first byte. -/
theorem lexemes_front {x : UInt8} {tail : List UInt8} (hx : Extent.Bound x)
    (h : lexemes code bytes = front ++ l :: back) (hl : l.bytes = x :: tail) (rest : List UInt8) :
    lexemes code (front.flatMap Lexeme.bytes ++ x :: rest) =
      front ++ lexemes (codeBehind code (front.map Lexeme.kind)) (x :: rest) :=
  lexemes_ahead (hx.alike ..) h hl

/-- The lexemes through a line break are those of the text through it. -/
theorem lexemes_line (h : lexemes code bytes = front ++ l :: back) (hl : l.kind = .newline) :
    lexemes code ((front ++ [l]).flatMap Lexeme.bytes) = front ++ [l] := by
  obtain ⟨nl, tail, hbytes, hnl⟩ := newline_head h hl
  rw [List.flatMap_append, List.flatMap_singleton, hbytes, lexemes_front (.of_isNewline hnl) h hbytes, ← hbytes,
    lexemes_newline h hl]

end

theorem nonAsciiRuns_shift (offset : Nat) (p : Point) (bytes lines : Nat) (src : List UInt8) :
    nonAsciiRuns (offset + bytes) (p.down lines) src = (nonAsciiRuns offset p src).map (·.shift bytes lines) := by
  fun_induction nonAsciiRuns offset p src with
  | case1 => rw [nonAsciiRuns, List.map_nil]
  | case2 offset p b rest hb more q ih =>
    have hnext : offset + bytes + 1 + more = offset + 1 + more + bytes := by omega
    rw [nonAsciiRuns, if_pos hb]
    dsimp only
    rw [hnext, List.map_cons, ← ih]
    rfl
  | case3 offset p b rest hb ih =>
    rw [nonAsciiRuns, if_neg hb, Nat.add_right_comm, Point.step_down, ih]

theorem walk_run (p : Point) {b : UInt8} (hb : Byte.isNonAscii b = true) (rest : List UInt8) (after : Option UInt8) :
    p.walk (b :: rest) after = (⟨p.line, p.column + 1 + (rest.takeWhile Byte.isNonAscii).length⟩ : Point).walk
      (rest.drop (rest.takeWhile Byte.isNonAscii).length) after := by
  have hrun : ∀ c ∈ b :: rest.takeWhile Byte.isNonAscii, Byte.isNewline c = false := by
    intro c hc
    have hascii : Byte.isNonAscii c = true := by
      rcases List.mem_cons.1 hc with rfl | hc
      · exact hb
      · exact List.mem_takeWhile_imp hc
    by_contra hnl
    rw [Byte.isNonAscii_of_isNewline (by simpa using hnl)] at hascii
    cases hascii
  have hsplit := List.take_append_drop (rest.takeWhile Byte.isNonAscii).length rest
  rw [← List.prefix_iff_eq_take.1 (List.takeWhile_prefix _)] at hsplit
  nth_rewrite 1 [← hsplit]
  rw [← List.cons_append, Point.walk_append, Point.walk_columns hrun, List.length_cons, Nat.add_assoc, Nat.add_comm 1]

theorem nonAsciiRuns_line {nl : UInt8} (hnl : Byte.isNewline nl = true) {back : List UInt8}
    (hback : ∀ p : Point, p.step nl back.head? = p.step nl none) (offset : Nat) (p : Point) (line : List UInt8) :
    nonAsciiRuns offset p (line ++ nl :: back) = nonAsciiRuns offset p (line ++ [nl]) ++
      nonAsciiRuns (offset + (line ++ [nl]).length) (p.walk (line ++ [nl]) none) back := by
  have hnone : Byte.isNonAscii nl = false := Byte.isNonAscii_of_isNewline hnl
  generalize hx : line ++ [nl] = x
  fun_induction nonAsciiRuns offset p x generalizing line with
  | case1 => simp at hx
  | case2 offset p b rest hb more q ih =>
    cases line with
    | nil =>
      cases hx
      rw [hnone] at hb
      cases hb
    | cons c line =>
      rw [List.cons_append, List.cons.injEq] at hx
      obtain ⟨rfl, rfl⟩ := hx
      have hmore (back : List UInt8) : ((line ++ nl :: back).takeWhile Byte.isNonAscii).length = more := by
        rw [Extent.takeWhile_line hnone line back, ← Extent.takeWhile_line hnone line []]
      have hle : more ≤ line.length := by
        rw [← hmore [], Extent.takeWhile_line hnone]
        exact (List.takeWhile_sublist _).length_le
      have hdrop (back : List UInt8) : (line ++ nl :: back).drop more = line.drop more ++ nl :: back :=
        List.drop_append_of_le_length hle
      have hlen : offset + (c :: (line ++ [nl])).length =
          offset + 1 + more + ((line ++ [nl]).drop more).length := by
        simp only [List.length_drop, List.length_cons, List.length_append]
        omega
      rw [List.cons_append, nonAsciiRuns, if_pos hb]
      simp only [hmore back, hdrop back]
      rw [ih _ (hdrop []).symm, walk_run p hb, hlen]
      rfl
  | case3 offset p b rest hb ih =>
    cases line with
    | nil =>
      cases hx
      rw [List.nil_append, nonAsciiRuns.eq_def]
      simp only [hb, hback, nonAsciiRuns]
      rfl
    | cons c line =>
      rw [List.cons_append, List.cons.injEq] at hx
      obtain ⟨rfl, rfl⟩ := hx
      rw [List.cons_append, nonAsciiRuns, if_neg hb, Extent.head?_line line [] back, ih line rfl, Point.walk,
        Option.or_none, List.length_cons, Nat.add_assoc, Nat.add_comm 1]

theorem lexErrors_perm (src : List UInt8) : (lexErrors src).Perm
    (lexemeErrors 0 Point.first (lexemes false src) ++ nonAsciiRuns 0 Point.first src) :=
  List.mergeSort_perm _ _

theorem lexError_start_lt {src : List UInt8} {e : LexError} (he : e ∈ lexErrors src) :
    e.span.startByte < src.length := by
  rcases List.mem_append.1 ((lexErrors_perm src).mem_iff.1 he) with he | he
  · obtain ⟨front, l, back, hl, hcases⟩ := mem_lexemeErrors he
    have hne : 0 < l.bytes.length := List.length_pos_iff.2 (lexemes_ne_nil l (by rw [hl]; simp))
    have hlen : (front.flatMap Lexeme.bytes).length + l.bytes.length ≤ src.length := by
      rw [← lexemes_flatMap false src, hl]
      simp
    rcases hcases with ⟨-, hstart, -⟩ | ⟨k, hk, -, hstart, -⟩
    · omega
    · have hlt := (lexeme_dangling hl hk).2.1
      omega
  · have hrun := ((Source.runs_sound ⟨"", src⟩).1 e he).2
    exact Nat.lt_of_lt_of_le hrun.nonempty hrun.le_length

/-- The lexemes of a text through a line break and of what follows. -/
theorem lexemes_append {a b : List UInt8}
    (h : ∃ t ∈ tokenize (a ++ b), t.kind = .newline ∧ t.span.endByte = a.length) :
    ∃ front l back, l.kind = .newline ∧ lexemes false (a ++ b) = front ++ l :: back ∧
      lexemes false a = front ++ [l] ∧ lexemes false b = back := by
  obtain ⟨t, ht, hkind, hstop⟩ := h
  obtain ⟨front, l, back, hl, hk, -, hend⟩ := token_lexeme ht
  have hnl : l.kind = .newline := hk ▸ hkind
  have hbytes := lexemes_flatMap false (a ++ b)
  rw [hl, List.append_cons, List.flatMap_append] at hbytes
  have hlen : ((front ++ [l]).flatMap Lexeme.bytes).length = a.length := by
    rw [List.flatMap_append, List.flatMap_singleton, List.length_append]
    omega
  obtain ⟨ha, hb⟩ := List.append_inj hbytes hlen
  refine ⟨front, l, back, hnl, hl, ?_, ?_⟩
  · rw [← ha]
    exact lexemes_line hl hnl
  · rw [← hb]
    exact (newline_cases hl hnl).2

section

variable {a b : List UInt8} {front back : List Lexeme} {l : Lexeme} (hl : l.kind = .newline)
  (hab : lexemes false (a ++ b) = front ++ l :: back) (ha : lexemes false a = front ++ [l])
  (hb : lexemes false b = back)

include hl hab ha

/-- Behind a line break the first line of `b` starts. -/
theorem walk_first : Point.first.walk a none = Point.first.down (lineBreaks a) := by
  have hline := Point.walk_line Point.first 0 a
  have hcolumn : (Point.first.walk a none).column = 1 := by
    rw [← lexemes_flatMap false a, ha, List.flatMap_append, List.flatMap_singleton, Point.walk_append,
      (newline_walk hab hl _).2]
  calc Point.first.walk a none = ⟨(Point.first.walk a none).line, (Point.first.walk a none).column⟩ := rfl
    _ = Point.first.down (lineBreaks a) := by rw [hline, hcolumn]; rfl

include hb

theorem spots_line : spots 0 Point.first (lexemes false (a ++ b)) = spots 0 Point.first (lexemes false a) ++
    (spots 0 Point.first (lexemes false b)).map (·.shift a.length (lineBreaks a)) := by
  have hne : ∀ m ∈ front ++ [l], m.bytes ≠ [] := ha ▸ lexemes_ne_nil
  have hbreak (p : Point) : p.walk l.bytes (firstByte back) = p.walk l.bytes none :=
    (newline_walk hab hl p).1.trans (newline_walk hab hl p).2.symm
  rw [hab, spots_append hne hbreak, ← ha, lexemes_flatMap, walk_first hl hab ha, spots_shift, hb]

theorem nonAsciiRuns_cut : nonAsciiRuns 0 Point.first (a ++ b) = nonAsciiRuns 0 Point.first a ++
    (nonAsciiRuns 0 Point.first b).map (·.shift a.length (lineBreaks a)) := by
  obtain ⟨init, nl, hinit, hnl, hstep⟩ := newline_last hab hl
  have hline : a = front.flatMap Lexeme.bytes ++ init ++ [nl] := by
    rw [← lexemes_flatMap false a, ha, List.flatMap_append, List.flatMap_singleton, hinit, List.append_assoc]
  have hback : firstByte back = b.head? := by
    rw [← hb, firstByte_eq lexemes_ne_nil, lexemes_flatMap]
  have hcut := nonAsciiRuns_line hnl (hback ▸ hstep) 0 Point.first (front.flatMap Lexeme.bytes ++ init)
  rwa [List.append_cons, ← hline, walk_first hl hab ha, nonAsciiRuns_shift] at hcut

theorem lexemeErrors_cut : lexemeErrors 0 Point.first (lexemes false (a ++ b)) =
    lexemeErrors 0 Point.first (lexemes false a) ++
      (lexemeErrors 0 Point.first (lexemes false b)).map (·.shift a.length (lineBreaks a)) := by
  simp only [lexemeErrors_eq, spots_line hl hab ha hb, List.flatMap_append, List.flatMap_map, List.map_flatMap,
    Spot.errors_shift]

theorem lexErrors_cut : lexErrors (a ++ b) =
    lexErrors a ++ (lexErrors b).map (·.shift a.length (lineBreaks a)) := by
  refine List.Perm.eq_of_pairwise ?_ (Source.lexErrors_ordered ⟨"", a ++ b⟩) ?_ ?_
  · intro e f _ _ hef hfe
    exact absurd hef (Nat.lt_asymm hfe)
  · refine List.pairwise_append.2 ⟨Source.lexErrors_ordered ⟨"", a⟩, ?_, ?_⟩
    · apply List.pairwise_map.2
      apply (Source.lexErrors_ordered ⟨"", b⟩).imp
      intro e f hlt
      exact Nat.add_lt_add_right hlt _
    · intro e he f hf
      obtain ⟨g, -, rfl⟩ := List.mem_map.1 hf
      exact Nat.lt_of_lt_of_le (lexError_start_lt he) (Nat.le_add_left ..)
  · have hparts := (lexErrors_perm a).append ((lexErrors_perm b).map (·.shift a.length (lineBreaks a)))
    refine ((lexErrors_perm (a ++ b)).trans ?_).trans hparts.symm
    rw [lexemeErrors_cut hl hab ha hb, nonAsciiRuns_cut hl hab ha hb, List.map_append, List.append_assoc,
      List.append_assoc]
    exact List.perm_append_comm_assoc _ _ _ |>.append_left _

end

/-- Lexing is compositional at line breaks. -/
theorem tokenize_append (a b : List UInt8)
    (h : ∃ t ∈ tokenize (a ++ b), t.kind = .newline ∧ t.span.endByte = a.length) :
    tokenize (a ++ b) = tokenize a ++ (tokenize b).map (·.shift a.length (lineBreaks a)) ∧
      lexErrors (a ++ b) = lexErrors a ++ (lexErrors b).map (·.shift a.length (lineBreaks a)) := by
  obtain ⟨front, l, back, hl, hab, ha, hb⟩ := lexemes_append h
  refine ⟨?_, lexErrors_cut hl hab ha hb⟩
  simp only [tokenize, place_eq, spots_line hl hab ha hb, List.map_append, List.map_map]
  congr 2
  funext s
  exact s.token_shift _ _

/-- A comment over two lines ends a directive, a literal is not closed, and another directive follows. -/
theorem tokenize_append_comment :
    ∃ a b, a = bytesOf "#x /* \n é*/ \"\r\n" ∧ b = bytesOf "# 'é\r\\" ∧
      (∃ t ∈ tokenize (a ++ b), t.kind = .newline ∧ t.span.endByte = a.length) ∧ lineBreaks a = 2 ∧
      tokenize (a ++ b) = tokenize a ++ (tokenize b).map (·.shift a.length (lineBreaks a)) ∧
      lexErrors (a ++ b) = lexErrors a ++ (lexErrors b).map (·.shift a.length (lineBreaks a)) := by
  have h : ∃ t ∈ tokenize (bytesOf "#x /* \n é*/ \"\r\n" ++ bytesOf "# 'é\r\\"),
      t.kind = .newline ∧ t.span.endByte = (bytesOf "#x /* \n é*/ \"\r\n").length := by
    decide +kernel
  exact ⟨_, _, rfl, rfl, h, by decide +kernel, tokenize_append _ _ h⟩

end Token

end CodeStyle
