import CodeStyle.Proofs.ByteRuns
import CodeStyle.Proofs.ErrorSpans
import CodeStyle.Proofs.ReportOrder

/-!
The list of lexing errors. It is strictly ordered and says neither more nor less than it should: one
error for each invalid token, one for each run of non-ASCII bytes, and one for a continuation at the end
of a directive that nothing follows.
-/

namespace CodeStyle.Token

open Text

namespace Extent

section

variable {lineHasCode : Bool} {first : UInt8} {rest : List UInt8}

/-- A token that starts with a non-ASCII byte is a run of such bytes. -/
theorem of_nonAscii (h : Byte.isNonAscii first = true) : of lineHasCode first rest =
    plain (.invalid .nonAscii) (rest.takeWhile Byte.isNonAscii).length := by
  have ascii {p : UInt8 → Bool} (hp : ∀ {b}, p b = true → Byte.isNonAscii b = false) : p first = false := by
    by_contra hc
    rw [hp (by simpa using hc)] at h
    cases h
  have other (c : UInt8) (hc : Byte.isNonAscii c = false) : (first == c) = false :=
    ascii (p := (· == c)) fun hb ↦ by rwa [eq_of_beq hb]
  have hword : Byte.isWord first = false := ascii Byte.isNonAscii_of_isWord
  simp only [Byte.isWord, Bool.or_eq_false_iff] at hword
  simp only [of, other (byte '\n') rfl, other (byte '\r') rfl, other (byte '/') rfl, other (byte '#') rfl,
    other (byte '.') rfl, other (byte '\\') rfl, ascii Byte.isNonAscii_of_isBlank,
    ascii Byte.isNonAscii_of_isQuote, hword, h, Bool.false_and, Bool.or_self, Bool.false_eq_true,
    if_false, if_true]

theorem quoted_fault {quote : UInt8} {before : Nat} {fault : Fault}
    (h : (quoted quote before rest).kind = .invalid fault) :
    fault = .unterminatedString ∨ fault = .unterminatedChar := by
  simp only [quoted, plain] at h
  split at h
  · split at h <;> cases h
  · split at h <;> cases h
    · exact .inl rfl
    · exact .inr rfl

/-- Only tokens of non-ASCII bytes have their fault, and only the end of the file ends a comment that
is not closed. -/
theorem of_invalid {fault : Fault} (h : (of lineHasCode first rest).kind = .invalid fault) :
    (fault = .nonAscii → Byte.isNonAscii first = true) ∧
      (fault = .unterminatedComment → (of lineHasCode first rest).more = rest.length) := by
  have apart {e : Extent} (hn : fault ≠ .nonAscii) (hc : fault ≠ .unterminatedComment) :
      (fault = .nonAscii → Byte.isNonAscii first = true) ∧
        (fault = .unterminatedComment → e.more = rest.length) :=
    ⟨fun he ↦ absurd he hn, fun he ↦ absurd he hc⟩
  have literal {e : Extent} (hf : fault = .unterminatedString ∨ fault = .unterminatedChar) :
      (fault = .nonAscii → Byte.isNonAscii first = true) ∧
        (fault = .unterminatedComment → e.more = rest.length) := by
    rcases hf with rfl | rfl <;> exact apart (by decide) (by decide)
  revert h
  fun_cases of lineHasCode first rest with
  | case1 => intro h; cases h
  | case2 => intro h; cases h
  | case3 => intro h; cases h
  | case4 => intro h; cases h
  | case5 =>
    intro h
    unfold blockComment at h ⊢
    split at h
    · cases h
    · cases h
      exact ⟨fun he ↦ (by cases he), fun _ ↦ rfl⟩
  | case6 => intro h; cases h
  | case7 => exact fun h ↦ literal (quoted_fault h)
  | case8 =>
    intro h
    simp only [number, plain] at h
    split at h <;> cases h
  | case9 =>
    intro h
    simp only [word] at h ⊢
    split at h
    · simp only [plain] at h
      split at h <;> cases h
    · split at h
      · exact literal (quoted_fault h)
      · simp only [plain] at h
        split at h <;> cases h
  | case10 =>
    intro h
    unfold backslash at h ⊢
    split at h
    · cases h
      exact apart (by decide) (by decide)
    · split at h
      · cases h
      · cases h
        exact apart (by decide) (by decide)
  | case11 _ _ _ _ _ _ _ _ _ _ hn =>
    intro h
    cases h
    exact ⟨fun _ ↦ hn, fun he ↦ (by cases he)⟩
  | case12 =>
    intro h
    unfold punctuator at h ⊢
    split at h
    · simp only [plain] at h
      split at h <;> cases h
    · cases h
      exact apart (by decide) (by decide)

/-- A directive with a continuation that nothing follows takes all that is left, which is at most a line
break behind the backslash. -/
theorem directiveReach_dangling_end {quote : Option UInt8} {taken stop reach d : Nat} {bytes : List UInt8}
    (h : directiveReach quote taken stop bytes = (reach, some d)) :
    reach = taken + bytes.length ∧
      breakLength (bytes.drop (d + 1 - taken)) = (bytes.drop (d + 1 - taken)).length := by
  have hle := (directiveReach_dangling h).1
  have passed {n taken reach : Nat} (front : List UInt8) {back : List UInt8} (hn : front.length = n)
      (hle : taken + n ≤ d)
      (h : reach = taken + n + back.length ∧
        breakLength (back.drop (d + 1 - (taken + n))) = (back.drop (d + 1 - (taken + n))).length) :
      reach = taken + (front ++ back).length ∧
        breakLength ((front ++ back).drop (d + 1 - taken)) = ((front ++ back).drop (d + 1 - taken)).length := by
    subst hn
    have hdrop : (front ++ back).drop (d + 1 - taken) = back.drop (d + 1 - (taken + front.length)) := by
      rw [List.drop_append, List.drop_eq_nil_of_le (by omega), List.nil_append, Nat.sub_sub]
    rw [hdrop, List.length_append]
    exact ⟨by omega, h.2⟩
  have here {taken n : Nat} {b : UInt8} {tail : List UInt8} (hn : n = tail.length + 1)
      (hb : breakLength tail = tail.length) (h : (taken + n, some taken) = (reach, some d)) :
      reach = taken + (b :: tail).length ∧
        breakLength ((b :: tail).drop (d + 1 - taken)) = ((b :: tail).drop (d + 1 - taken)).length := by
    obtain ⟨rfl, hd⟩ := Prod.mk.inj h
    cases hd
    rw [Nat.add_sub_cancel_left, List.drop_succ_cons, List.drop_zero]
    exact ⟨by rw [hn, List.length_cons], hb⟩
  fun_induction directiveReach quote taken stop bytes with
  | case1 => cases h
  | case2 => cases h
  | case3 _ _ _ b => exact here rfl rfl h
  | case4 _ _ _ b _ _ c hc => simp at hc
  | case5 _ _ _ b _ _ c d hc =>
    simp only [Bool.and_eq_true, beq_iff_eq, List.head?_cons, Option.some_inj] at hc
    obtain ⟨rfl, rfl⟩ := hc
    exact here rfl rfl h
  | case6 _ _ _ b _ _ c d e rest _ ih =>
    have hd := (directiveReach_dangling h).1
    exact passed [b, c, d] rfl hd (ih h hd)
  | case7 _ _ _ b _ _ c hn =>
    refine here rfl ?_ h
    simp only [Byte.isNewline, Bool.or_eq_true, beq_iff_eq] at hn
    rcases hn with rfl | rfl <;> rfl
  | case8 _ _ _ b _ _ c _ d rest _ ih =>
    have hd := (directiveReach_dangling h).1
    exact passed [b, c] rfl hd (ih h hd)
  | case9 _ _ _ b _ _ c rest _ _ _ ih =>
    have hd := (directiveReach_dangling h).1
    exact passed [b, c] rfl hd (ih h hd)
  | case10 _ _ _ b _ _ c rest _ _ _ ih =>
    have hd := (directiveReach_dangling h).1
    exact passed [b] rfl hd (ih h hd)
  | case11 _ _ _ b rest _ _ _ _ ih =>
    have hd := (directiveReach_dangling h).1
    exact passed [b] rfl hd (ih h hd)
  | case12 => cases h
  | case13 _ _ _ b rest _ _ _ _ _ ih =>
    have hd := (directiveReach_dangling h).1
    exact passed [b] rfl hd (ih h hd)
  | case14 _ _ _ b rest _ _ _ _ _ ih =>
    have hd := (directiveReach_dangling h).1
    exact passed [b] rfl hd (ih h hd)

theorem of_dangling_end {k : Nat} (h : (of lineHasCode first rest).dangling = some k) :
    (of lineHasCode first rest).kind = .directive ∧ (of lineHasCode first rest).more = rest.length ∧
      breakLength (rest.drop k) = (rest.drop k).length := by
  have absent {e : Extent} {P : Prop} (hn : e.dangling = none) (h : e.dangling = some k) : P := by
    rw [hn] at h
    cases h
  revert h
  fun_cases of lineHasCode first rest with
  | case1 => exact absent rfl
  | case2 => exact absent rfl
  | case3 => exact absent rfl
  | case4 => exact absent rfl
  | case5 => exact absent (blockComment_dangling rest)
  | case6 =>
    intro h
    obtain ⟨d, hd, rfl⟩ := Option.map_eq_some_iff.1 h
    obtain ⟨hmore, hbreak⟩ := directiveReach_dangling_end (Prod.ext rfl hd)
    exact ⟨rfl, hmore.trans (Nat.zero_add _), hbreak⟩
  | case7 => exact absent rfl
  | case8 => exact absent rfl
  | case9 => exact absent (word_dangling first rest)
  | case10 => exact absent (backslash_dangling rest)
  | case11 => exact absent rfl
  | case12 => exact absent (punctuator_dangling first rest)

end

end Extent

/-- Whether code stands on the line behind tokens of these kinds. -/
def codeBehind (lineHasCode : Bool) (kinds : List Kind) : Bool :=
  kinds.foldl (fun before kind ↦ kind.lineHasCode before) lineHasCode

/-- A lexeme is what the scanners answer at its first byte behind the lexemes before it, and those behind
it are read from there. -/
theorem lexemes_at {lineHasCode : Bool} {bytes : List UInt8} {front back : List Lexeme} {l : Lexeme}
    (h : lexemes lineHasCode bytes = front ++ l :: back) {code : Bool}
    (hcode : code = codeBehind lineHasCode (front.map Lexeme.kind)) :
    ∃ first rest, bytes = front.flatMap Lexeme.bytes ++ first :: rest ∧
      l = ⟨(Extent.of code first rest).kind, first :: rest.take (Extent.of code first rest).more,
        (Extent.of code first rest).dangling⟩ ∧
      back = lexemes ((Extent.of code first rest).kind.lineHasCode code)
        (rest.drop (Extent.of code first rest).more) := by
  fun_induction lexemes lineHasCode bytes generalizing front with
  | case1 => simp at h
  | case2 lineHasCode b rest e =>
    rename_i ih
    cases front with
    | nil =>
      obtain ⟨rfl, rfl⟩ := List.cons.inj h
      subst hcode
      exact ⟨b, rest, rfl, rfl, rfl⟩
    | cons l' front =>
      obtain ⟨rfl, hback⟩ := List.cons.inj h
      obtain ⟨first, rest', hbytes, hl, hrest⟩ := ih hback hcode
      refine ⟨first, rest', ?_, hl, hrest⟩
      rw [List.flatMap_cons, List.append_assoc, ← hbytes, List.cons_append, List.take_append_drop]

theorem lexemes_split {lineHasCode : Bool} {bytes : List UInt8} {front back : List Lexeme} {l : Lexeme}
    (h : lexemes lineHasCode bytes = front ++ l :: back) :
    ∃ code first rest, bytes = front.flatMap Lexeme.bytes ++ first :: rest ∧
      l = ⟨(Extent.of code first rest).kind, first :: rest.take (Extent.of code first rest).more,
        (Extent.of code first rest).dangling⟩ ∧
      back = lexemes ((Extent.of code first rest).kind.lineHasCode code)
        (rest.drop (Extent.of code first rest).more) :=
  ⟨_, lexemes_at h rfl⟩

section

variable {src : List UInt8} {front back : List Lexeme} {l : Lexeme} {t : Token}

theorem lexeme_last {k : Nat} (h : lexemes false src = front ++ l :: back)
    (hl : l.kind = .invalid .unterminatedComment ∨ l.dangling = some k) : back = [] := by
  obtain ⟨code, first, rest, -, rfl, rfl⟩ := lexemes_split h
  have hmore : (Extent.of code first rest).more = rest.length := by
    rcases hl with hl | hl
    · exact (Extent.of_invalid hl).2 rfl
    · exact (Extent.of_dangling_end hl).2.1
  rw [hmore, List.drop_length, lexemes]

theorem lexeme_dangling {k : Nat} (h : lexemes false src = front ++ l :: back) (hk : l.dangling = some k) :
    l.kind = .directive ∧ k < l.bytes.length ∧
      src[(front.flatMap Lexeme.bytes).length + k]? = some (byte '\\') ∧
      Extent.breakLength (src.drop ((front.flatMap Lexeme.bytes).length + k + 1)) =
        (src.drop ((front.flatMap Lexeme.bytes).length + k + 1)).length := by
  obtain ⟨code, first, rest, rfl, rfl, -⟩ := lexemes_split h
  obtain ⟨hkind, hmore, hbreak⟩ := Extent.of_dangling_end hk
  obtain ⟨hle, hbyte⟩ := Extent.of_dangling code first rest k hk
  refine ⟨hkind, ?_, ?_, ?_⟩
  · simp only [hmore, List.take_length, List.length_cons]
    omega
  · rwa [List.getElem?_append_right (Nat.le_add_right _ _), Nat.add_sub_cancel_left]
  · rwa [Nat.add_assoc, List.drop_length_add_append, List.drop_succ_cons]

/-- The first byte of a lexeme whose error is its own is ASCII. -/
theorem lexeme_fault {fault : Fault} (h : lexemes false src = front ++ l :: back) (hl : l.fault? = some fault) :
    l.kind = .invalid fault ∧ fault ≠ .nonAscii ∧
      nonAsciiAt src (front.flatMap Lexeme.bytes).length = false := by
  obtain ⟨code, first, rest, rfl, rfl, -⟩ := lexemes_split h
  simp only [Lexeme.fault?] at hl
  split at hl
  · cases hl
  · rename_i fault' hnot hkind
    cases hl
    have hne : fault ≠ .nonAscii := hnot
    refine ⟨hkind, hne, ?_⟩
    have hfirst : (front.flatMap Lexeme.bytes ++ first :: rest)[(front.flatMap Lexeme.bytes).length]? = some first := by
      simp
    rw [nonAsciiAt_of_getElem? hfirst]
    by_contra hn
    rw [Extent.of_nonAscii (by simpa using hn)] at hkind
    cases hkind
    exact hne rfl
  · cases hl

/-- No run goes on over the start of a lexeme. -/
theorem front_cut (h : lexemes false src = front ++ l :: back) : ∀ i,
    i + 1 = (front.flatMap Lexeme.bytes).length → nonAsciiAt src i = false ∨ nonAsciiAt src (i + 1) = false := by
  intro i hi
  rcases List.eq_nil_or_concat front with rfl | ⟨front', l', rfl⟩
  · cases hi
  · rw [List.concat_eq_append, List.append_assoc] at h
    have hcut := lexemes_cut h
    rw [List.concat_eq_append, List.flatMap_append, List.flatMap_singleton] at hi
    rw [← hi] at hcut
    exact hcut.beside

theorem token_lexeme (ht : t ∈ tokenize src) : ∃ front l back, lexemes false src = front ++ l :: back ∧
    t.kind = l.kind ∧ t.span.startByte = (front.flatMap Lexeme.bytes).length ∧
    t.span.endByte = (front.flatMap Lexeme.bytes).length + l.bytes.length := by
  obtain ⟨front, l, back, hl, hkind, -, -, hs⟩ := mem_place lexemes_ne_nil ht
  refine ⟨front, l, back, hl, hkind, ?_, ?_⟩ <;> simp [hs, Span.between]

theorem lexeme_token (h : lexemes false src = front ++ l :: back) : ∃ t ∈ tokenize src,
    t.kind = l.kind ∧ t.span.startByte = (front.flatMap Lexeme.bytes).length ∧
    t.span.endByte = (front.flatMap Lexeme.bytes).length + l.bytes.length := by
  have placed (offset : Nat) (p : Point) : ∃ t ∈ place offset p (front ++ l :: back), t.kind = l.kind ∧
      t.span.startByte = offset + (front.flatMap Lexeme.bytes).length ∧
      t.span.endByte = offset + (front.flatMap Lexeme.bytes).length + l.bytes.length := by
    clear h
    induction front generalizing offset p with
    | nil => exact ⟨_, List.mem_cons_self .., rfl, rfl, rfl⟩
    | cons l' front ih =>
      obtain ⟨t, ht, hkind, hstart, hstop⟩ := ih (offset + l'.bytes.length)
        (p.walk l'.bytes (firstByte (front ++ l :: back)))
      refine ⟨t, List.mem_cons_of_mem _ ht, hkind, ?_, ?_⟩
      · rw [hstart, List.flatMap_cons, List.length_append, Nat.add_assoc]
      · rw [hstop, List.flatMap_cons, List.length_append, Nat.add_assoc offset]
  obtain ⟨t, ht, hkind, hstart, hstop⟩ := placed 0 Point.first
  rw [← h] at ht
  rw [Nat.zero_add] at hstart hstop
  exact ⟨t, ht, hkind, hstart, hstop⟩

/-- The token that ends where the file does is the last one. -/
theorem getLast_of_endByte (ht : t ∈ tokenize src) (h : t.span.endByte = src.length) :
    (tokenize src).getLast? = some t := by
  have placed {ls : List Lexeme} (hls : ∀ l ∈ ls, l.bytes ≠ []) {offset : Nat} {p : Point}
      (ht : t ∈ place offset p ls) (h : t.span.endByte = offset + (ls.flatMap Lexeme.bytes).length) :
      (place offset p ls).getLast? = some t := by
    induction ls generalizing offset p with
    | nil => cases ht
    | cons l ls ih =>
      rw [List.flatMap_cons, List.length_append] at h
      rcases List.mem_cons.1 ht with rfl | ht
      · have hnil : (ls.flatMap Lexeme.bytes).length = 0 := by
          simp only [Span.between] at h
          omega
        cases ls with
        | nil => rfl
        | cons l' ls =>
          have hpos := List.length_pos_iff.2 (hls l' (by simp))
          rw [List.flatMap_cons, List.length_append] at hnil
          omega
      · have hlast := ih (fun l hl ↦ hls l (by simp [hl])) ht (by rw [h, Nat.add_assoc])
        rw [place, List.getLast?_cons, hlast, Option.getD_some]
  refine placed lexemes_ne_nil ht ?_
  rw [h, lexemes_flatMap, Nat.zero_add]

end

theorem mem_lexemeErrors {ls : List Lexeme} {offset : Nat} {p : Point} {e : LexError}
    (he : e ∈ lexemeErrors offset p ls) : ∃ front l back, ls = front ++ l :: back ∧
      ((l.fault? = some e.fault ∧ e.span.startByte = offset + (front.flatMap Lexeme.bytes).length ∧
          e.span.endByte = offset + (front.flatMap Lexeme.bytes).length + l.bytes.length) ∨
        ∃ k, l.dangling = some k ∧ e.fault = .unterminatedContinuation ∧
          e.span.startByte = offset + (front.flatMap Lexeme.bytes).length + k ∧
          e.span.endByte = offset + (front.flatMap Lexeme.bytes).length + k + 1) := by
  induction ls generalizing offset p with
  | nil => cases he
  | cons l ls ih =>
    simp only [lexemeErrors, List.mem_append, Option.mem_toList, Option.map_eq_some_iff] at he
    rcases he with (⟨fault, hf, rfl⟩ | ⟨k, hk, rfl⟩) | he
    · exact ⟨[], l, ls, rfl, .inl ⟨hf, rfl, rfl⟩⟩
    · exact ⟨[], l, ls, rfl, .inr ⟨k, hk, rfl, rfl, rfl⟩⟩
    · obtain ⟨front, l', back, rfl, h⟩ := ih he
      refine ⟨l :: front, l', back, rfl, ?_⟩
      simp only [List.flatMap_cons, List.length_append, ← Nat.add_assoc]
      exact h

theorem fault_mem_lexemeErrors {l : Lexeme} {fault : Fault} (hl : l.fault? = some fault)
    (front back : List Lexeme) (offset : Nat) (p : Point) :
    ∃ e ∈ lexemeErrors offset p (front ++ l :: back), e.fault = fault ∧
      e.span.startByte = offset + (front.flatMap Lexeme.bytes).length ∧
      e.span.endByte = offset + (front.flatMap Lexeme.bytes).length + l.bytes.length := by
  induction front generalizing offset p with
  | nil =>
    refine ⟨⟨fault, .between offset p (offset + l.bytes.length) (p.walk l.bytes (firstByte back))⟩, ?_,
      rfl, rfl, rfl⟩
    simp [lexemeErrors, hl]
  | cons l' front ih =>
    obtain ⟨e, he, hfault, hstart, hstop⟩ := ih (offset + l'.bytes.length)
      (p.walk l'.bytes (firstByte (front ++ l :: back)))
    refine ⟨e, List.mem_append_right _ he, hfault, ?_, ?_⟩
    · rw [hstart, List.flatMap_cons, List.length_append, Nat.add_assoc]
    · rw [hstop, List.flatMap_cons, List.length_append, Nat.add_assoc offset]

/-- Errors of lexemes come in their order, since none has two. -/
theorem lexemeErrors_pairwise {ls : List Lexeme} (hne : ∀ l ∈ ls, l.bytes ≠ [])
    (hd : ∀ l ∈ ls, ∀ k, l.dangling = some k → k < l.bytes.length ∧ l.fault? = none) (offset : Nat)
    (p : Point) : (lexemeErrors offset p ls).Pairwise fun a b ↦ a.span.startByte < b.span.startByte := by
  induction ls generalizing offset p with
  | nil => exact .nil
  | cons l ls ih =>
    have hrest := ih (fun l hl ↦ hne l (by simp [hl])) (fun l hl ↦ hd l (by simp [hl]))
      (offset + l.bytes.length) (p.walk l.bytes (firstByte ls))
    have later : ∀ e ∈ lexemeErrors (offset + l.bytes.length) (p.walk l.bytes (firstByte ls)) ls,
        offset + l.bytes.length ≤ e.span.startByte := by
      intro e he
      obtain ⟨front, l', back, -, ⟨-, hstart, -⟩ | ⟨k, -, -, hstart, -⟩⟩ := mem_lexemeErrors he <;> omega
    have hpos := List.length_pos_iff.2 (hne l (by simp))
    cases hk : l.dangling with
    | none =>
      cases hf : l.fault? with
      | none => simpa [lexemeErrors, hk, hf] using hrest
      | some fault =>
        simp only [lexemeErrors, hk, hf, Option.map_some, Option.map_none, Option.toList_some,
          Option.toList_none, List.append_nil, List.singleton_append]
        refine .cons (fun e he ↦ ?_) hrest
        have := later e he
        simp only [Span.between]
        omega
    | some k =>
      obtain ⟨hlt, hf⟩ := hd l (by simp) k hk
      simp only [lexemeErrors, hk, hf, Option.map_some, Option.map_none, Option.toList_some,
        Option.toList_none, List.nil_append, List.singleton_append]
      refine .cons (fun e he ↦ ?_) hrest
      have := later e he
      simp only [Span.between]
      omega

end CodeStyle.Token

namespace CodeStyle.Source

open Text Token

/-- What is promised of the lexing errors of a file. -/
structure ErrorsExact (s : Source) : Prop where
  ordered : s.lexErrors.Pairwise fun a b ↦ a.span.startByte < b.span.startByte
  invalid : ∀ t ∈ s.tokens, ∀ fault, t.kind = .invalid fault → s.lexErrors.count ⟨fault, t.span⟩ = 1
  run : ∀ start stop, IsRun s.bytes start stop →
    s.lexErrors.count ⟨.nonAscii, s.spanFor start stop⟩ = 1 ∧
      ∃ t ∈ s.tokens, t.span.startByte ≤ start ∧ stop ≤ t.span.endByte
  /-- An error is that of an invalid token, that of a run, or that of the backslash of a directive at the
  end of the file with at most a line break behind it. -/
  only : ∀ e ∈ s.lexErrors,
    (∃ t ∈ s.tokens, t.kind = .invalid e.fault ∧ t.span = e.span) ∨
    (e.fault = .nonAscii ∧ ∃ start stop, IsRun s.bytes start stop ∧ e.span = s.spanFor start stop) ∨
    (e.fault = .unterminatedContinuation ∧ ∃ k, s.bytes[k]? = some (byte '\\') ∧
      e.span = s.spanFor k (k + 1) ∧
      Extent.breakLength (s.bytes.drop (k + 1)) = (s.bytes.drop (k + 1)).length ∧
      ∃ t ∈ s.tokens.getLast?, t.kind = .directive ∧ t.span.startByte ≤ k ∧ k < t.span.endByte)
  comment : ∀ t ∈ s.tokens, t.kind = .invalid .unterminatedComment → s.tokens.getLast? = some t
  encoding : s.encoding = .ascii ↔ ∀ e ∈ s.lexErrors, e.fault ≠ .nonAscii

variable {s : Source} {t : Token} {e : LexError}

theorem mem_lexErrors : e ∈ s.lexErrors ↔
    e ∈ lexemeErrors 0 Point.first (lexemes false s.bytes) ∨ e ∈ nonAsciiRuns 0 Point.first s.bytes := by
  rw [lexErrors, Token.lexErrors, List.mem_mergeSort, List.mem_append]

theorem runs_sound (s : Source) :
    (∀ e ∈ nonAsciiRuns 0 Point.first s.bytes, e.fault = .nonAscii ∧
        IsRun s.bytes e.span.startByte e.span.endByte) ∧
      ((nonAsciiRuns 0 Point.first s.bytes).Pairwise fun a b ↦ a.span.startByte < b.span.startByte) ∧
      ∀ start stop, IsRun s.bytes start stop →
        ∃ e ∈ nonAsciiRuns 0 Point.first s.bytes, e.span.startByte = start ∧ e.span.endByte = stop := by
  have hwhole : s.bytes = [] ++ s.bytes := rfl
  obtain ⟨hall, hordered, hcomplete⟩ := nonAsciiRuns_sound 0 Point.first hwhole rfl fun i hi ↦ by cases hi
  refine ⟨fun e he ↦ ?_, hordered, fun start stop hrun ↦ hcomplete start stop hrun (Nat.zero_le _)⟩
  obtain ⟨hfault, -, hrun⟩ := hall e he
  exact ⟨hfault, hrun⟩

theorem lexeme_errors_ascii (he : e ∈ lexemeErrors 0 Point.first (lexemes false s.bytes)) :
    nonAsciiAt s.bytes e.span.startByte = false := by
  obtain ⟨front, l, back, hl, ⟨hf, hstart, -⟩ | ⟨k, hk, -, hstart, -⟩⟩ := mem_lexemeErrors he
  · rw [hstart, Nat.zero_add]
    exact (lexeme_fault hl hf).2.2
  · rw [hstart, Nat.zero_add, nonAsciiAt_of_getElem? (lexeme_dangling hl hk).2.2.1]
    rfl

/-- No two errors start at the same byte: those of lexemes start at ASCII bytes, those of runs do not. -/
theorem lexErrors_ordered (s : Source) :
    s.lexErrors.Pairwise fun a b ↦ a.span.startByte < b.span.startByte := by
  have hlexemes : (lexemeErrors 0 Point.first (lexemes false s.bytes)).Pairwise
      fun a b ↦ a.span.startByte < b.span.startByte := by
    refine lexemeErrors_pairwise lexemes_ne_nil (fun l hl k hk ↦ ?_) 0 Point.first
    obtain ⟨front, back, hsplit⟩ := List.append_of_mem hl
    obtain ⟨hkind, hlt, -⟩ := lexeme_dangling hsplit hk
    exact ⟨hlt, by rw [Lexeme.fault?, hkind]⟩
  obtain ⟨hruns, hordered, -⟩ := s.runs_sound
  have hapart : (lexemeErrors 0 Point.first (lexemes false s.bytes) ++
      nonAsciiRuns 0 Point.first s.bytes).Pairwise fun a b ↦ a.span.startByte ≠ b.span.startByte := by
    refine List.pairwise_append.2 ⟨hlexemes.imp Nat.ne_of_lt, hordered.imp Nat.ne_of_lt, ?_⟩
    intro a ha b hb he
    have hrun := (hruns b hb).2
    have hin := hrun.inside b.span.startByte (Nat.le_refl _) hrun.nonempty
    rw [← he, lexeme_errors_ascii ha] at hin
    cases hin
  have hsorted : s.lexErrors.Pairwise fun a b ↦ decide (a.span.startByte ≤ b.span.startByte) = true := by
    refine List.pairwise_mergeSort (fun a b c hab hbc ↦ ?_) (fun a b ↦ ?_) _
    · simp only [decide_eq_true_eq] at *
      omega
    · simp only [Bool.or_eq_true, decide_eq_true_eq]
      omega
  have hperm : s.lexErrors.Perm (lexemeErrors 0 Point.first (lexemes false s.bytes) ++
      nonAsciiRuns 0 Point.first s.bytes) := List.mergeSort_perm _ _
  have hdistinct := (hperm.pairwise_iff Ne.symm).2 hapart
  refine (hsorted.and hdistinct).imp fun {a b} h ↦ ?_
  simp only [decide_eq_true_eq] at h
  omega

theorem count_lexError (he : e ∈ s.lexErrors) : s.lexErrors.count e = 1 := by
  have hnodup : s.lexErrors.Nodup := s.lexErrors_ordered.imp fun h he ↦ by
    rw [he] at h
    exact Nat.lt_irrefl _ h
  exact List.count_eq_one_of_mem hnodup he

theorem token_cut (ht : t ∈ s.tokens) : CutsAt s.bytes t.span.endByte := by
  obtain ⟨before, after, -, -, -, hcut, hs⟩ := mem_tokenize ht
  rw [hs]
  rwa [List.length_append] at hcut

theorem exists_token {i : Nat} (hi : i < s.length) :
    ∃ t ∈ s.tokens, t.span.startByte ≤ i ∧ i < t.span.endByte := by
  have split {ls : List Lexeme} {i : Nat} (hi : i < (ls.flatMap Lexeme.bytes).length) :
      ∃ front l back, ls = front ++ l :: back ∧ (front.flatMap Lexeme.bytes).length ≤ i ∧
        i < (front.flatMap Lexeme.bytes).length + l.bytes.length := by
    induction ls generalizing i with
    | nil => cases hi
    | cons l ls ih =>
      rw [List.flatMap_cons, List.length_append] at hi
      by_cases hl : i < l.bytes.length
      · exact ⟨[], l, ls, rfl, Nat.zero_le _, by simpa using hl⟩
      · obtain ⟨front, l', back, rfl, hle, hlt⟩ := ih (i := i - l.bytes.length) (by omega)
        refine ⟨l :: front, l', back, rfl, ?_, ?_⟩ <;>
          rw [List.flatMap_cons, List.length_append] <;> omega
  rw [length, ← lexemes_flatMap false s.bytes] at hi
  obtain ⟨front, l, back, hl, hle, hlt⟩ := split hi
  obtain ⟨t, ht, -, hstart, hstop⟩ := lexeme_token hl
  exact ⟨t, ht, by omega, by omega⟩

/-- A run has one error and lies in one token. -/
theorem run_reported {start stop : Nat} (h : IsRun s.bytes start stop) :
    s.lexErrors.count ⟨.nonAscii, s.spanFor start stop⟩ = 1 ∧
      ∃ t ∈ s.tokens, t.span.startByte ≤ start ∧ stop ≤ t.span.endByte := by
  obtain ⟨hruns, -, hcomplete⟩ := s.runs_sound
  constructor
  · obtain ⟨e, he, rfl, rfl⟩ := hcomplete start stop h
    have hmem : e ∈ s.lexErrors := mem_lexErrors.2 (.inr he)
    have heq : e = ⟨.nonAscii, s.spanFor e.span.startByte e.span.endByte⟩ := by
      rw [← (hruns e he).1, ← show e.span = _ from exact_lexError s e hmem]
    rw [← heq]
    exact count_lexError hmem
  · have hlt := h.nonempty
    have hlen := h.le_length
    obtain ⟨t, ht, hle, hin⟩ := exists_token (s := s) (i := start) (Nat.lt_of_lt_of_le hlt hlen)
    refine ⟨t, ht, hle, ?_⟩
    by_contra hstop
    obtain ⟨k, hk⟩ := Nat.exists_eq_add_of_lt (Nat.lt_of_le_of_lt (Nat.zero_le _) hin)
    rw [Nat.zero_add] at hk
    have hcut := token_cut ht
    rw [hk] at hcut
    rcases hcut.beside with hb | hb
    · rw [h.inside k (by omega) (by omega)] at hb
      cases hb
    · rw [h.inside (k + 1) (by omega) (by omega)] at hb
      cases hb

theorem isRun_of_token (ht : t ∈ s.tokens) (hk : t.kind = .invalid .nonAscii) :
    IsRun s.bytes t.span.startByte t.span.endByte := by
  obtain ⟨front, l, back, hl, hkind, hstart, hstop⟩ := token_lexeme ht
  obtain ⟨code, first, rest, hsrc, rfl, -⟩ := lexemes_split hl
  have hfirst := (Extent.of_invalid (hkind.symm.trans hk)).1 rfl
  have hbyte : nonAsciiAt s.bytes (front.flatMap Lexeme.bytes).length = true := by
    rw [nonAsciiAt_of_getElem? (b := first) (by simp [hsrc]), hfirst]
  have hbefore : ∀ i, i + 1 = (front.flatMap Lexeme.bytes).length → nonAsciiAt s.bytes i = false := by
    intro i hi
    rcases front_cut hl i hi with h | h
    · exact h
    · rw [hi, hbyte] at h
      cases h
  have hrun := isRun_takeWhile hsrc hfirst hbefore
  rw [hstart, hstop, Extent.of_nonAscii hfirst]
  have hlen : (first :: rest.take (rest.takeWhile Byte.isNonAscii).length).length =
      1 + (rest.takeWhile Byte.isNonAscii).length := by
    rw [← List.prefix_iff_eq_take.1 (List.takeWhile_prefix _), List.length_cons, Nat.add_comm]
  rwa [Extent.plain, hlen, ← Nat.add_assoc]

/-- An invalid token is reported, by the first pass or as a run. -/
theorem invalid_reported {fault : Fault} (ht : t ∈ s.tokens) (hk : t.kind = .invalid fault) :
    (⟨fault, t.span⟩ : LexError) ∈ s.lexErrors := by
  have hexact := exact_token ht
  by_cases hf : fault = .nonAscii
  · subst hf
    have hcount := (run_reported (isRun_of_token ht hk)).1
    rw [← show t.span = _ from hexact] at hcount
    exact List.count_pos_iff.1 (by omega)
  · obtain ⟨front, l, back, hl, hkind, hstart, hstop⟩ := token_lexeme ht
    have hfault : l.fault? = some fault := by
      rw [Lexeme.fault?, ← hkind, hk]
      split
      · rename_i h
        cases h
        exact absurd rfl hf
      · rename_i h
        cases h
        rfl
      · rename_i hnot
        exact absurd rfl (hnot fault)
    obtain ⟨e, he, rfl, hestart, hestop⟩ := fault_mem_lexemeErrors hfault front back 0 Point.first
    rw [← hl] at he
    have hmem : e ∈ s.lexErrors := mem_lexErrors.2 (.inl he)
    have hspan : e.span = t.span := (exact_lexError s e hmem).ext hexact (by omega) (by omega)
    rwa [← hspan]

theorem lexError_cases (he : e ∈ s.lexErrors) :
    (∃ t ∈ s.tokens, t.kind = .invalid e.fault ∧ t.span = e.span) ∨
    (e.fault = .nonAscii ∧ ∃ start stop, IsRun s.bytes start stop ∧ e.span = s.spanFor start stop) ∨
    (e.fault = .unterminatedContinuation ∧ ∃ k, s.bytes[k]? = some (byte '\\') ∧
      e.span = s.spanFor k (k + 1) ∧
      Extent.breakLength (s.bytes.drop (k + 1)) = (s.bytes.drop (k + 1)).length ∧
      ∃ t ∈ s.tokens.getLast?, t.kind = .directive ∧ t.span.startByte ≤ k ∧ k < t.span.endByte) := by
  have hexact : e.span = s.spanFor e.span.startByte e.span.endByte := exact_lexError s e he
  rcases mem_lexErrors.1 he with hmem | hmem
  · obtain ⟨front, l, back, hl, ⟨hf, hstart, hstop⟩ | ⟨k, hk, hf, hstart, hstop⟩⟩ := mem_lexemeErrors hmem
    all_goals obtain ⟨t, ht, hkind, htstart, htstop⟩ := lexeme_token hl
    · refine .inl ⟨t, ht, hkind.trans (lexeme_fault hl hf).1, ?_⟩
      exact (exact_token ht).ext (exact_lexError s e he) (by omega) (by omega)
    · obtain ⟨hdirective, hlt, hbyte, hbreak⟩ := lexeme_dangling hl hk
      refine .inr (.inr ⟨hf, _, hbyte, ?_, hbreak, t, ?_, hkind.trans hdirective, by omega, by omega⟩)
      · rw [Nat.zero_add] at hstart hstop
        rwa [hstart, hstop] at hexact
      · refine getLast_of_endByte ht ?_
        rw [htstop, ← lexemes_flatMap false s.bytes, hl, lexeme_last hl (.inr hk)]
        simp
  · obtain ⟨hfault, hrun⟩ := s.runs_sound.1 e hmem
    exact .inr (.inl ⟨hfault, _, _, hrun, hexact⟩)

theorem unterminatedComment_last (ht : t ∈ s.tokens) (hk : t.kind = .invalid .unterminatedComment) :
    s.tokens.getLast? = some t := by
  obtain ⟨front, l, back, hl, hkind, -, hstop⟩ := token_lexeme ht
  refine getLast_of_endByte ht ?_
  rw [hstop, ← lexemes_flatMap false s.bytes, hl, lexeme_last (k := 0) hl (.inl (hkind.symm.trans hk))]
  simp

theorem isRun_of_nonAscii (he : e ∈ s.lexErrors) (hf : e.fault = .nonAscii) :
    IsRun s.bytes e.span.startByte e.span.endByte := by
  rcases mem_lexErrors.1 he with hmem | hmem
  · obtain ⟨front, l, back, hl, ⟨hfault, -⟩ | ⟨k, -, hfault, -⟩⟩ := mem_lexemeErrors hmem
    · exact absurd hf (lexeme_fault hl hfault).2.1
    · rw [hf] at hfault
      cases hfault
  · exact (s.runs_sound.1 e hmem).2

theorem encoding_ascii_iff (s : Source) :
    s.encoding = .ascii ↔ ∀ e ∈ s.lexErrors, e.fault ≠ .nonAscii := by
  have hdetect : s.encoding = .ascii ↔ ∀ b ∈ s.bytes, Byte.isNonAscii b = false := by
    unfold encoding Encoding.detect
    split
    · rename_i h
      simpa using h
    · rename_i h
      have hexists : ¬∀ b ∈ s.bytes, Byte.isNonAscii b = false := by simpa using h
      split <;> simpa using hexists
  rw [hdetect]
  constructor
  · intro hascii e he hfault
    have hrun := isRun_of_nonAscii he hfault
    have hin := hrun.inside e.span.startByte (Nat.le_refl _) hrun.nonempty
    have hb := List.getElem?_eq_getElem (lt_length_of_nonAsciiAt hin)
    rw [nonAsciiAt_of_getElem? hb, hascii _ (List.mem_of_getElem? hb)] at hin
    cases hin
  · intro hnone
    have hnil : nonAsciiRuns 0 Point.first s.bytes = [] := by
      refine List.eq_nil_iff_forall_not_mem.2 fun e he ↦ ?_
      exact hnone e (mem_lexErrors.2 (.inr he)) (s.runs_sound.1 e he).1
    exact nonAsciiRuns_eq_nil hnil

/-- The errors of a file are exactly those of its invalid tokens, of its runs of non-ASCII bytes, and of
a continuation at its end. -/
theorem lexErrors_exact (s : Source) : s.ErrorsExact where
  ordered := s.lexErrors_ordered
  invalid _ ht _ hk := count_lexError (invalid_reported ht hk)
  run _ _ h := run_reported h
  only _ he := lexError_cases he
  comment _ ht hk := unterminatedComment_last ht hk
  encoding := s.encoding_ascii_iff

end CodeStyle.Source
