import CodeStyle.Proofs.Nesting
import CodeStyle.Proofs.Positions

/-!
The spans of errors. Those that the lexer counts along and those that the outline takes over from
tokens are the spans that the line table gives to their offsets.
-/

namespace CodeStyle.Token

open Text

namespace Extent

/-- A continuation that nothing follows is a backslash of the directive. -/
theorem directiveReach_dangling {quote : Option UInt8} {taken stop reach d : Nat} {bytes : List UInt8}
    (h : directiveReach quote taken stop bytes = (reach, some d)) :
    taken ≤ d ∧ d < reach ∧ bytes[d - taken]? = some (byte '\\') := by
  -- Behind bytes that are passed over, the rest of the directive is counted from further on.
  have passed {n taken reach d : Nat} (front : List UInt8) {back : List UInt8} (hn : front.length = n)
      (h : taken + n ≤ d ∧ d < reach ∧ back[d - (taken + n)]? = some (byte '\\')) :
      taken ≤ d ∧ d < reach ∧ (front ++ back)[d - taken]? = some (byte '\\') := by
    obtain ⟨hle, hlt, hb⟩ := h
    refine ⟨by omega, hlt, ?_⟩
    rw [List.getElem?_append_right (by omega), hn, Nat.sub_sub]
    exact hb
  have here {taken n : Nat} {b : UInt8} {rest : List UInt8} (hb : (b == byte '\\') = true) (hn : 0 < n)
      (h : (taken + n, some taken) = (reach, some d)) :
      taken ≤ d ∧ d < reach ∧ (b :: rest)[d - taken]? = some (byte '\\') := by
    obtain ⟨rfl, hd⟩ := Prod.mk.inj h
    cases hd
    refine ⟨Nat.le_refl _, by omega, ?_⟩
    simpa using hb
  fun_induction directiveReach quote taken stop bytes with
  | case1 => cases h
  | case2 => cases h
  | case3 _ _ _ b _ hb => exact here hb (by decide) h
  | case4 _ _ _ b _ hb c => exact here hb (by decide) h
  | case5 _ _ _ b _ hb c d => exact here hb (by decide) h
  | case6 _ _ _ b _ _ c d e rest _ ih => exact passed [b, c, d] rfl (ih h)
  | case7 _ _ _ b _ hb c => exact here hb (by decide) h
  | case8 _ _ _ b _ _ c _ d rest _ ih => exact passed [b, c] rfl (ih h)
  | case9 _ _ _ b _ _ c rest _ _ _ ih => exact passed [b, c] rfl (ih h)
  | case10 _ _ _ b _ _ c rest _ _ _ ih => exact passed [b] rfl (ih h)
  | case11 _ _ _ b rest _ _ _ _ ih => exact passed [b] rfl (ih h)
  | case12 => cases h
  | case13 _ _ _ b rest _ _ _ _ _ ih => exact passed [b] rfl (ih h)
  | case14 _ _ _ b rest _ _ _ _ _ ih => exact passed [b] rfl (ih h)

theorem blockComment_dangling (rest : List UInt8) : (blockComment rest).dangling = none := by
  unfold blockComment
  split <;> rfl

theorem word_dangling (first : UInt8) (rest : List UInt8) : (word first rest).dangling = none := by
  unfold word
  dsimp only
  split
  · rfl
  · split <;> rfl

theorem backslash_dangling (rest : List UInt8) : (backslash rest).dangling = none := by
  unfold backslash
  split
  · rfl
  · split <;> rfl

theorem punctuator_dangling (first : UInt8) (rest : List UInt8) :
    (punctuator first rest).dangling = none := by
  unfold punctuator
  split <;> rfl

theorem directive_dangling (first : UInt8) (rest : List UInt8) : ∀ d ∈ (directive rest).dangling,
    d ≤ (directive rest).more ∧ (first :: rest)[d]? = some (byte '\\') := by
  intro d hd
  obtain ⟨k, hk, rfl⟩ := Option.map_eq_some_iff.1 hd
  obtain ⟨-, hlt, hb⟩ := directiveReach_dangling (Prod.ext rfl hk)
  exact ⟨hlt, hb⟩

theorem of_dangling (lineHasCode : Bool) (first : UInt8) (rest : List UInt8) :
    ∀ d ∈ (of lineHasCode first rest).dangling,
      d ≤ (of lineHasCode first rest).more ∧ (first :: rest)[d]? = some (byte '\\') := by
  have absent {e : Extent} (h : e.dangling = none) :
      ∀ d ∈ e.dangling, d ≤ e.more ∧ (first :: rest)[d]? = some (byte '\\') := by simp [h]
  fun_cases of lineHasCode first rest with
  | case1 => exact absent rfl
  | case2 => exact absent rfl
  | case3 => exact absent rfl
  | case4 => exact absent rfl
  | case5 => exact absent (blockComment_dangling rest)
  | case6 => exact directive_dangling first rest
  | case7 => exact absent rfl
  | case8 => exact absent rfl
  | case9 => exact absent (word_dangling first rest)
  | case10 => exact absent (backslash_dangling rest)
  | case11 => exact absent rfl
  | case12 => exact absent (punctuator_dangling first rest)

end Extent

theorem lexemes_dangling {lineHasCode : Bool} {bytes : List UInt8} :
    ∀ l ∈ lexemes lineHasCode bytes, ∀ k ∈ l.dangling, l.bytes[k]? = some (byte '\\') := by
  fun_induction lexemes lineHasCode bytes with
  | case1 => simp
  | case2 lineHasCode b rest e ih =>
    intro l hl
    rcases List.mem_cons.1 hl with rfl | hl
    · intro k hk
      obtain ⟨hle, hb⟩ := Extent.of_dangling lineHasCode b rest k hk
      rw [← List.take_succ_cons, List.getElem?_take_of_lt (Nat.lt_succ_of_le hle)]
      exact hb
    · exact ih l hl

end CodeStyle.Token

namespace CodeStyle.Point

open Text

/-- Bytes that end no line take one column each. -/
theorem walk_columns {part : List UInt8} (h : ∀ b ∈ part, Byte.isNewline b = false) (p : Point)
    (after : Option UInt8) : p.walk part after = ⟨p.line, p.column + part.length⟩ := by
  induction part generalizing p with
  | nil => rfl
  | cons b part ih =>
    have hb : Byte.isNewline b = false := h b (by simp)
    simp only [Byte.isNewline, Bool.or_eq_false_iff] at hb
    have hstep (after : Option UInt8) : p.step b after = ⟨p.line, p.column + 1⟩ := by
      simp only [step, hb.1, hb.2, Bool.false_and, Bool.or_self, Bool.false_eq_true, if_false]
    rw [walk, hstep, ih fun c hc ↦ h c (by simp [hc])]
    simp only [List.length_cons, Nat.add_assoc, Nat.add_comm 1]

end CodeStyle.Point

namespace CodeStyle.Source

open Text Token

variable {s : Source}

theorem exact_lexemeErrors {ls : List Lexeme} (hne : ∀ l ∈ ls, l.bytes ≠ [])
    (hd : ∀ l ∈ ls, ∀ k ∈ l.dangling, l.bytes[k]? = some (byte '\\')) {front : List UInt8}
    (h : s.bytes = front ++ ls.flatMap Lexeme.bytes) :
    ∀ e ∈ lexemeErrors front.length (s.placeOf front.length) ls, s.Exact e.span := by
  induction ls generalizing front with
  | nil => simp [lexemeErrors]
  | cons l ls ih =>
    have hls : ∀ l ∈ ls, l.bytes ≠ [] := fun l hl ↦ hne l (by simp [hl])
    rw [List.flatMap_cons] at h
    have hlen : front.length + l.bytes.length ≤ s.length := by
      simp only [length, h, List.length_append]
      omega
    have hq := placeOf_append h
    rw [← firstByte_eq hls] at hq
    intro e he
    simp only [lexemeErrors, hq, List.mem_append, Option.mem_toList, Option.map_eq_some_iff] at he
    rcases he with (⟨fault, -, rfl⟩ | ⟨k, hk, rfl⟩) | he
    · exact exact_between (Nat.le_add_right _ _) hlen
    · have hb := hd l (by simp) k hk
      obtain ⟨hlt, -⟩ := List.getElem?_eq_some_iff.1 hb
      have hbyte : s.bytes[front.length + k]? = some (byte '\\') := by
        rw [h, List.getElem?_append_right (Nat.le_add_right _ _), Nat.add_sub_cancel_left,
          List.getElem?_append_left hlt, hb]
      have hhere : (s.placeOf front.length).walk (l.bytes.take k) (some (byte '\\')) =
          s.placeOf (front.length + k) := by
        have hsplit : s.bytes = front ++ (l.bytes.take k ++ (l.bytes.drop k ++ ls.flatMap Lexeme.bytes)) := by
          rw [h, ← List.append_assoc (l.bytes.take k), List.take_append_drop]
        have hw := placeOf_append hsplit
        rwa [List.head?_append, List.head?_drop, hb, Option.some_or,
          List.length_take_of_le (Nat.le_of_lt hlt)] at hw
      have hexact : s.Exact (Span.between (front.length + k) (s.placeOf (front.length + k))
          (front.length + k + 1) (s.placeOf (front.length + k + 1))) :=
        exact_between (Nat.le_succ _) (by omega)
      rw [s.placeOf_succ hbyte] at hexact
      rw [hhere]
      exact hexact
    · have hrest := ih hls (fun l hl ↦ hd l (by simp [hl])) (h.trans (List.append_assoc ..).symm)
      rw [List.length_append] at hrest
      exact hrest e he

theorem exact_nonAsciiRuns {bytes front : List UInt8} (h : s.bytes = front ++ bytes) :
    ∀ e ∈ nonAsciiRuns front.length (s.placeOf front.length) bytes, s.Exact e.span := by
  generalize ho : front.length = offset
  generalize hp : s.placeOf offset = p
  fun_induction nonAsciiRuns offset p bytes generalizing front with
  | case1 => simp
  | case2 offset p b rest hb more q =>
    rename_i ih
    subst ho hp
    have hrun : ∀ c ∈ b :: rest.takeWhile Byte.isNonAscii, Byte.isNewline c = false := by
      intro c hc
      have hn : Byte.isNonAscii c = true := by
        rcases List.mem_cons.1 hc with rfl | hc
        · exact hb
        · exact List.mem_takeWhile_imp hc
      by_contra hnl
      simp [Byte.isNonAscii_of_isNewline (by simpa using hnl)] at hn
    have hsplit : s.bytes = front ++ ((b :: rest.takeWhile Byte.isNonAscii) ++ rest.drop more) := by
      have ht : rest.takeWhile Byte.isNonAscii = rest.take more :=
        List.prefix_iff_eq_take.1 (List.takeWhile_prefix _)
      rw [h, ht, List.cons_append, List.take_append_drop]
    have hq : q = s.placeOf (front.length + 1 + more) := by
      have hw := placeOf_append hsplit
      rw [Point.walk_columns hrun, List.length_cons, Nat.add_comm _ 1, ← Nat.add_assoc,
        ← Nat.add_assoc] at hw
      exact hw
    have hlen : front.length + 1 + more ≤ s.length := by
      simp only [length, hsplit, List.length_append, List.length_cons, more]
      omega
    intro e he
    rcases List.mem_cons.1 he with rfl | he
    · rw [hq]
      exact exact_between (by omega) hlen
    · refine ih (hsplit.trans (List.append_assoc ..).symm) ?_ hq.symm e he
      simp only [List.length_append, List.length_cons, more]
      omega
  | case3 offset p b rest hb =>
    rename_i ih
    subst ho hp
    have hbyte : s.bytes[front.length]? = some b := by simp [h]
    refine ih (h.trans (List.append_cons ..)) (by simp) ?_
    rw [s.placeOf_succ hbyte, h, List.getElem?_append_right (Nat.le_add_right _ 1),
      Nat.add_sub_cancel_left, List.getElem?_cons_succ, List.head?_eq_getElem?]

theorem exact_lexError (s : Source) : ∀ e ∈ s.lexErrors, s.Exact e.span := by
  intro e he
  rw [lexErrors, Token.lexErrors, List.mem_mergeSort, List.mem_append] at he
  rcases he with he | he
  · have hsplit : s.bytes = [] ++ (lexemes false s.bytes).flatMap Lexeme.bytes :=
      (lexemes_flatMap false s.bytes).symm
    exact exact_lexemeErrors lexemes_ne_nil lexemes_dangling hsplit e he
  · have hsplit : s.bytes = [] ++ s.bytes := rfl
    exact exact_nonAsciiRuns hsplit e he

/-- Delimiter errors stand at tokens. -/
theorem exact_delimiterError (s : Source) :
    ∀ e ∈ (Outline.ofFoci (Focus.all s.tokens)).2, s.Exact e.span := by
  intro e he
  have hsound := Outline.forest_sound (Q := (· ∈ Focus.all s.tokens)) 0 false false
    (Focus.all_consecutive s.tokens) fun _ hf ↦ hf
  obtain ⟨f, hf, hs⟩ := hsound.errors e (List.mem_mergeSort.1 he)
  rw [hs]
  exact exact_token (Focus.token_mem hf)

end CodeStyle.Source
