import CodeStyle.Proofs.LexErrors

/-!
What stands behind a line break, or behind a letter, does not matter to a token that ends before it. A scanner
may look at such a byte, and may take it, but looks behind it only when it takes it. So for any two ends of a file
that start with such a byte, and for others that are alike, the tokens before them are the same.
-/

namespace CodeStyle.Text.Byte

theorem eq_of_isNewline {b : UInt8} (h : isNewline b = true) : b = byte '\n' ∨ b = byte '\r' := by
  simpa [isNewline] using h

end CodeStyle.Text.Byte

namespace CodeStyle.Token.Extent

open Text

/-- The quote in which a directive stands after the quote `b`. -/
def toggled (open? : Option UInt8) (b : UInt8) : Option UInt8 :=
  match open? with
  | none => some b
  | some q => if q == b then none else some q

section

variable {b c d quote : UInt8} {taken stop : Nat} {rest : List UInt8} {open? : Option UInt8}

theorem quotedReach_break (hb : Byte.isNewline b = true) : quotedReach quote taken (b :: rest) = (taken, false) := by
  rw [quotedReach.eq_def]
  simp only [hb, if_true]

theorem quotedReach_splice (hb : ¬Byte.isNewline b = true) (hslash : (b == byte '\\') = true)
    (hc : (c == byte '\r' && some d == some (byte '\n')) = true) :
    quotedReach quote taken (b :: c :: d :: rest) = quotedReach quote (taken + 3) rest := by
  rw [quotedReach.eq_def]
  simp only [hb, hslash, List.head?_cons, hc, Bool.false_eq_true, if_true, if_false]

theorem quotedReach_escape (hb : ¬Byte.isNewline b = true) (hslash : (b == byte '\\') = true)
    (hc : ¬(c == byte '\r' && rest.head? == some (byte '\n')) = true) :
    quotedReach quote taken (b :: c :: rest) = quotedReach quote (taken + 2) rest := by
  rw [quotedReach.eq_def]
  simp only [hb, hslash, hc, Bool.false_eq_true, if_true, if_false]

theorem quotedReach_close (hb : ¬Byte.isNewline b = true) (hslash : ¬(b == byte '\\') = true)
    (hquote : (b == quote) = true) : quotedReach quote taken (b :: rest) = (taken + 1, true) := by
  rw [quotedReach.eq_def]
  simp only [hb, hslash, hquote, Bool.false_eq_true, if_true, if_false]

theorem quotedReach_step (hb : ¬Byte.isNewline b = true) (hslash : ¬(b == byte '\\') = true)
    (hquote : ¬(b == quote) = true) : quotedReach quote taken (b :: rest) = quotedReach quote (taken + 1) rest := by
  rw [quotedReach.eq_def]
  simp only [hb, hslash, hquote, Bool.false_eq_true, if_false]

theorem directiveReach_break (hb : Byte.isNewline b = true) :
    directiveReach open? taken stop (b :: rest) = (stop, none) := by
  rw [directiveReach.eq_def]
  simp only [hb, if_true]

/-- A directive is carried over a line break of two bytes. -/
theorem directiveReach_splice (hb : ¬Byte.isNewline b = true) (hslash : (b == byte '\\') = true)
    (hc : (c == byte '\r' && some d == some (byte '\n')) = true) (hne : rest ≠ []) :
    directiveReach open? taken stop (b :: c :: d :: rest) = directiveReach open? (taken + 3) (taken + 3) rest := by
  obtain ⟨e, rest, rfl⟩ := List.exists_cons_of_ne_nil hne
  rw [directiveReach.eq_def]
  simp only [hb, hslash, List.head?_cons, hc, Bool.false_eq_true, if_true, if_false]

/-- A directive is carried over a line break of one byte. -/
theorem directiveReach_continue (hb : ¬Byte.isNewline b = true) (hslash : (b == byte '\\') = true)
    (hc : ¬(c == byte '\r' && rest.head? == some (byte '\n')) = true) (hbreak : Byte.isNewline c = true)
    (hne : rest ≠ []) :
    directiveReach open? taken stop (b :: c :: rest) = directiveReach open? (taken + 2) (taken + 2) rest := by
  obtain ⟨e, rest, rfl⟩ := List.exists_cons_of_ne_nil hne
  rw [directiveReach.eq_def]
  simp only [hb, hslash, hc, hbreak, Bool.false_eq_true, if_true, if_false]

theorem directiveReach_end (hb : ¬Byte.isNewline b = true) (hslash : (b == byte '\\') = true) :
    directiveReach open? taken stop [b] = (taken + 1, some taken) := by
  rw [directiveReach.eq_def]
  simp only [hb, hslash, Bool.false_eq_true, if_true, if_false]

theorem directiveReach_splice_end (hb : ¬Byte.isNewline b = true) (hslash : (b == byte '\\') = true)
    (hc : (c == byte '\r' && some d == some (byte '\n')) = true) :
    directiveReach open? taken stop [b, c, d] = (taken + 3, some taken) := by
  rw [directiveReach.eq_def]
  simp only [hb, hslash, List.head?_cons, hc, Bool.false_eq_true, if_true, if_false]

theorem directiveReach_continue_end (hb : ¬Byte.isNewline b = true) (hslash : (b == byte '\\') = true)
    (hbreak : Byte.isNewline c = true) : directiveReach open? taken stop [b, c] = (taken + 2, some taken) := by
  have hhead : (none == some (byte '\n')) = false := rfl
  rw [directiveReach.eq_def]
  simp only [hb, hslash, hbreak, List.head?_nil, hhead, Bool.and_false, Bool.false_eq_true, if_true, if_false]

theorem directiveReach_escape (hb : ¬Byte.isNewline b = true) (hslash : (b == byte '\\') = true)
    (hbreak : ¬Byte.isNewline c = true) (hopen : open?.isSome = true) :
    directiveReach open? taken stop (b :: c :: rest) = directiveReach open? (taken + 2) (taken + 2) rest := by
  rw [directiveReach.eq_def]
  have hc : (c == byte '\r') = false := by simp_all [Byte.isNewline]
  simp only [hb, hslash, hc, hbreak, hopen, Bool.false_and, Bool.false_eq_true, if_true, if_false]

theorem directiveReach_backslash (hb : ¬Byte.isNewline b = true) (hslash : (b == byte '\\') = true)
    (hbreak : ¬Byte.isNewline c = true) (hopen : ¬open?.isSome = true) :
    directiveReach open? taken stop (b :: c :: rest) = directiveReach open? (taken + 1) (taken + 1) (c :: rest) := by
  rw [directiveReach.eq_def]
  have hc : (c == byte '\r') = false := by simp_all [Byte.isNewline]
  simp only [hb, hslash, hc, hbreak, hopen, Bool.false_and, Bool.false_eq_true, if_true, if_false]

theorem directiveReach_quote (hb : ¬Byte.isNewline b = true) (hslash : ¬(b == byte '\\') = true)
    (hquote : Byte.isQuote b = true) :
    directiveReach open? taken stop (b :: rest) =
      directiveReach (toggled open? b) (taken + 1) (taken + 1) rest := by
  rw [directiveReach.eq_def]
  simp only [hb, hslash, hquote, Bool.false_eq_true, if_true, if_false]
  rfl

theorem directiveReach_comment (hb : ¬Byte.isNewline b = true) (hslash : ¬(b == byte '\\') = true)
    (hquote : ¬Byte.isQuote b = true) (hcomment : (b == byte '/' && open?.isNone && startsComment rest) = true) :
    directiveReach open? taken stop (b :: rest) = (stop, none) := by
  rw [directiveReach.eq_def]
  simp only [hb, hslash, hquote, hcomment, Bool.false_eq_true, if_true, if_false]

theorem directiveReach_blank (hb : ¬Byte.isNewline b = true) (hslash : ¬(b == byte '\\') = true)
    (hquote : ¬Byte.isQuote b = true) (hcomment : ¬(b == byte '/' && open?.isNone && startsComment rest) = true)
    (hblank : Byte.isBlank b = true) :
    directiveReach open? taken stop (b :: rest) = directiveReach open? (taken + 1) stop rest := by
  rw [directiveReach.eq_def]
  simp only [hb, hslash, hquote, hcomment, hblank, Bool.false_eq_true, if_true, if_false]

theorem directiveReach_step (hb : ¬Byte.isNewline b = true) (hslash : ¬(b == byte '\\') = true)
    (hquote : ¬Byte.isQuote b = true) (hcomment : ¬(b == byte '/' && open?.isNone && startsComment rest) = true)
    (hblank : ¬Byte.isBlank b = true) :
    directiveReach open? taken stop (b :: rest) = directiveReach open? (taken + 1) (taken + 1) rest := by
  rw [directiveReach.eq_def]
  simp only [hb, hslash, hquote, hcomment, hblank, Bool.false_eq_true, if_false]

end

theorem le_quotedReach (quote : UInt8) (taken : Nat) (bytes : List UInt8) :
    taken ≤ (quotedReach quote taken bytes).1 := by
  fun_induction quotedReach quote taken bytes with grind

theorem le_directiveReach (quote : Option UInt8) (taken : Nat) (bytes : List UInt8) :
    taken ≤ (directiveReach quote taken taken bytes).1 := by
  rcases directiveReach_cut quote taken taken bytes with ⟨k, h, -⟩ | ⟨h, -⟩ <;> omega

theorem operators_line : ∀ op ∈ operators, ∀ b ∈ op, Byte.isNewline b = false := by
  have h : (operators.all fun op ↦ op.all fun b ↦ !Byte.isNewline b) = true := by decide +kernel
  simpa using h

theorem operators_word : ∀ op ∈ operators, ∀ b ∈ op, Byte.isWord b = false := by
  have h : (operators.all fun op ↦ op.all fun b ↦ !Byte.isWord b) = true := by decide +kernel
  simpa using h

/-- A byte behind which no scanner looks that does not take it. -/
structure Bound (b : UInt8) : Prop where
  notBlank : ¬Byte.isBlank b = true
  notOperator : ∀ op ∈ operators, b ∉ op

namespace Bound

variable {b : UInt8}

theorem of_isNewline (h : Byte.isNewline b = true) : Bound b := by
  refine ⟨?_, fun op hop hb ↦ ?_⟩
  · rcases Byte.eq_of_isNewline h with rfl | rfl <;> decide
  · rw [operators_line op hop b hb] at h
    cases h

theorem of_isWord (h : Byte.isWord b = true) : Bound b := by
  refine ⟨fun hblank ↦ ?_, fun op hop hb ↦ ?_⟩
  · simp only [Byte.isBlank, Bool.or_eq_true, beq_iff_eq] at hblank
    rcases hblank with ((rfl | rfl) | rfl) | rfl <;> cases h
  · rw [operators_word op hop b hb] at h
    cases h

theorem ne_slash (h : Bound b) : b ≠ byte '/' := by
  rintro rfl
  exact h.notOperator [byte '/'] (by decide +kernel) (List.mem_singleton_self _)

end Bound

/-- Two ends of a file, from `x` and from `y` on. A scanner that stops before them does not tell them apart. -/
structure Alike (x y : UInt8) (back back' : List UInt8) : Prop where
  same : y = x ∨ Byte.isBlank x = true ∧ Byte.isBlank y = true
  notOperator : ∀ op ∈ operators, x ∉ op ∧ y ∉ op
  directive : ∀ quote taken stop, (directiveReach quote taken stop (x :: back)).1 ≤ taken →
    directiveReach quote taken stop (y :: back') = directiveReach quote taken stop (x :: back)

/-- A directive that stops before a bound stops at it. -/
theorem Bound.alike {x : UInt8} (hx : Bound x) (back back' : List UInt8) : Alike x x back back' := by
  refine ⟨.inl rfl, fun op hop ↦ ⟨hx.notOperator op hop, hx.notOperator op hop⟩, fun quote taken stop h ↦ ?_⟩
  by_cases hbreak : Byte.isNewline x = true
  · rw [directiveReach_break hbreak, directiveReach_break hbreak]
  · have hlow : taken + 1 ≤ (directiveReach quote taken stop (x :: back)).1 := by
      generalize hin : x :: back = bytes
      fun_cases directiveReach quote taken stop bytes with
      | case1 => cases hin
      | case2 _ _ hb =>
        cases hin
        exact absurd hb hbreak
      | case12 _ _ _ _ _ hcomment =>
        cases hin
        exact absurd (by simp_all) hx.ne_slash
      | case13 _ _ _ _ _ _ hblank =>
        cases hin
        exact absurd hblank hx.notBlank
      | case3 | case4 | case5 | case7 => simp
      | case6 | case8 | case9 | case10 | case11 | case14 =>
        exact Nat.le_trans (by omega) (le_directiveReach ..)
    omega

section

variable {x y : UInt8} {line back back' : List UInt8}

theorem head?_line (line back back' : List UInt8) : (line ++ x :: back').head? = (line ++ x :: back).head? := by
  cases line <;> rfl

/-- Bytes that a scanner passes stand in `line`, if what it takes does. -/
theorem line_passed {taken n reach : Nat} (front : List UInt8) {tail : List UInt8} (hn : front.length = n)
    (hline : line ++ x :: back = front ++ tail) (hle : taken + n ≤ reach) (h : reach ≤ taken + line.length) :
    ∃ line', line = front ++ line' ∧ tail = line' ++ x :: back ∧ reach ≤ taken + n + line'.length := by
  obtain ⟨line', h₁, h₂⟩ | ⟨mid, h₁, h₂⟩ := List.append_eq_append_iff.1 hline
  · have hlen := congrArg List.length h₁
    rw [List.length_append] at hlen
    obtain rfl : line' = [] := List.length_eq_zero_iff.1 (by omega)
    exact ⟨[], by simp [h₁], by simp [h₂], by omega⟩
  · refine ⟨mid, h₁, h₂, ?_⟩
    rw [h₁, List.length_append] at h
    omega

namespace Alike

variable (h : Alike x y back back')

include h

theorem test {p : UInt8 → Bool} (hp : p (byte '\t') = p (byte ' ') ∧ p 0x0B = p (byte ' ') ∧ p 0x0C = p (byte ' ')) :
    p y = p x := by
  have hblank {b : UInt8} (hb : Byte.isBlank b = true) : p b = p (byte ' ') := by
    simp only [Byte.isBlank, Bool.or_eq_true, beq_iff_eq] at hb
    rcases hb with ((rfl | rfl) | rfl) | rfl
    exacts [rfl, hp.1, hp.2.1, hp.2.2]
  rcases h.same with rfl | ⟨hx, hy⟩
  · rfl
  · rw [hblank hx, hblank hy]

theorem newline : Byte.isNewline y = Byte.isNewline x := h.test ⟨rfl, rfl, rfl⟩

theorem head {c : UInt8} (hc : Byte.isBlank c = false) (line : List UInt8) :
    ((line ++ y :: back').head? == some c) = ((line ++ x :: back).head? == some c) := by
  have hne {b : UInt8} (hb : Byte.isBlank b = true) : (some b == some c) = false := by
    refine beq_false_of_ne fun he ↦ ?_
    rw [Option.some.inj he, hc] at hb
    cases hb
  cases line with
  | nil =>
    rcases h.same with rfl | ⟨hx, hy⟩
    · rfl
    · rw [List.nil_append, List.nil_append, List.head?_cons, List.head?_cons, hne hx, hne hy]
  | cons => rfl

theorem startsComment_eq (line : List UInt8) :
    startsComment (line ++ y :: back') = startsComment (line ++ x :: back) := by
  rw [startsComment, h.head rfl, h.head rfl, startsComment]

end Alike

theorem takeWhile_line {p : UInt8 → Bool} (hp : p x = false) (line back : List UInt8) :
    (line ++ x :: back).takeWhile p = line.takeWhile p := by
  induction line with
  | nil => simp [hp]
  | cons b line ih => simp only [List.cons_append, List.takeWhile_cons, ih]

/-- A run of bytes that ends before `x` does not depend on what stands there. -/
theorem takeWhile_line_of_le {p : UInt8 → Bool} (hp : p y = p x)
    (h : ((line ++ x :: back).takeWhile p).length ≤ line.length) :
    (line ++ y :: back').takeWhile p = (line ++ x :: back).takeWhile p := by
  induction line with
  | nil =>
    rw [List.nil_append, List.takeWhile_cons] at h
    split at h
    · cases h
    · rename_i hx
      rw [List.nil_append, List.nil_append, List.takeWhile_cons_of_neg hx, List.takeWhile_cons_of_neg (hp ▸ hx)]
  | cons b line ih =>
    simp only [List.cons_append, List.takeWhile_cons] at h ⊢
    split at h
    · rw [ih (Nat.le_of_succ_le_succ h)]
    · rename_i hb
      rw [if_neg hb, if_neg hb]

theorem commentClose_line (hxy : Alike x y back back') {n : Nat} (h : commentClose (line ++ x :: back) = some n)
    (hn : n ≤ line.length) : commentClose (line ++ y :: back') = some n := by
  induction line generalizing n with
  | nil =>
    obtain rfl : n = 0 := Nat.le_zero.1 hn
    rw [List.nil_append, commentClose] at h
    split at h
    · cases h
    · cases hback : commentClose back <;> simp [hback] at h
  | cons b line ih =>
    simp only [List.cons_append, commentClose, hxy.head (c := byte '/') rfl] at h ⊢
    split at h
    · rename_i hc
      rw [if_pos hc, h]
    · rename_i hc
      obtain ⟨m, hm, rfl⟩ := Option.map_eq_some_iff.1 h
      rw [if_neg hc, ih hm (by simpa using hn)]
      rfl

theorem quotedReach_line (hxy : Alike x y back back') {quote : UInt8} {taken : Nat}
    (h : (quotedReach quote taken (line ++ x :: back)).1 ≤ taken + line.length) :
    quotedReach quote taken (line ++ y :: back') = quotedReach quote taken (line ++ x :: back) := by
  generalize hin : line ++ x :: back = bytes at h
  fun_induction quotedReach quote taken bytes generalizing line with
  | case1 => simp at hin
  | case2 taken b rest hb =>
    cases line with
    | nil =>
      cases hin
      exact quotedReach_break (hxy.newline ▸ hb)
    | cons =>
      cases hin
      exact quotedReach_break hb
  | case3 taken b hb =>
    obtain ⟨line, -, hnil, -⟩ := line_passed [b] rfl hin (Nat.le_refl (taken + 1)) h
    simp at hnil
  | case4 taken b _ _ c hc => simp at hc
  | case5 taken b hb hslash c d rest hc ih =>
    obtain ⟨line, rfl, rfl, h⟩ := line_passed [b, c, d] rfl hin (le_quotedReach ..) h
    exact (quotedReach_splice hb hslash hc).trans (ih rfl h)
  | case6 taken b hb hslash c rest hc ih =>
    obtain ⟨line, rfl, rfl, h⟩ := line_passed [b, c] rfl hin (le_quotedReach ..) h
    rw [← hxy.head rfl] at hc
    exact (quotedReach_escape hb hslash hc).trans (ih rfl h)
  | case7 taken b rest hb hslash hquote =>
    obtain ⟨line, rfl, -⟩ := line_passed [b] rfl hin (Nat.le_refl (taken + 1)) h
    exact quotedReach_close hb hslash hquote
  | case8 taken b rest hb hslash hquote ih =>
    obtain ⟨line, rfl, rfl, h⟩ := line_passed [b] rfl hin (le_quotedReach ..) h
    exact (quotedReach_step hb hslash hquote).trans (ih rfl h)

theorem directiveReach_line (hxy : Alike x y back back') {quote : Option UInt8} {taken stop : Nat}
    (h : (directiveReach quote taken stop (line ++ x :: back)).1 ≤ taken + line.length) :
    directiveReach quote taken stop (line ++ y :: back') = directiveReach quote taken stop (line ++ x :: back) := by
  -- a directive may look at what stands behind `line` without taking it
  have hend {quote : Option UInt8} {taken stop : Nat} {r : Nat × Option Nat}
      (hr : directiveReach quote taken stop (x :: back) = r) (hle : r.1 ≤ taken) :
      directiveReach quote taken stop (y :: back') = r := by
    rw [hxy.directive quote taken stop (hr ▸ hle), hr]
  generalize hin : line ++ x :: back = bytes at h
  fun_induction directiveReach quote taken stop bytes generalizing line with
  | case1 => simp at hin
  | case2 _ _ _ b _ hb =>
    cases line <;> cases hin
    · exact hend (directiveReach_break hb) h
    · exact directiveReach_break hb
  | case3 _ taken _ b hb =>
    obtain ⟨line, -, hnil, -⟩ := line_passed [b] rfl hin (Nat.le_refl (taken + 1)) h
    simp at hnil
  | case4 _ _ _ b _ _ c hc => simp at hc
  | case5 _ taken _ b hb _ c d =>
    obtain ⟨line, -, hnil, -⟩ := line_passed [b, c, d] rfl hin (Nat.le_refl (taken + 3)) h
    simp at hnil
  | case6 _ _ _ b hb hslash c d e rest hc ih =>
    obtain ⟨line, rfl, hrest, h⟩ := line_passed [b, c, d] rfl hin (le_directiveReach ..) h
    rw [hrest] at ih ⊢
    exact (directiveReach_splice hb hslash hc (by simp)).trans (ih rfl (hrest ▸ h))
  | case7 _ taken _ b hb _ c =>
    obtain ⟨line, -, hnil, -⟩ := line_passed [b, c] rfl hin (Nat.le_refl (taken + 2)) h
    simp at hnil
  | case8 _ _ _ b hb hslash c hbreak d rest hc ih =>
    obtain ⟨line, rfl, hrest, h⟩ := line_passed [b, c] rfl hin (le_directiveReach ..) h
    rw [hrest] at ih hc ⊢
    rw [← hxy.head rfl] at hc
    exact (directiveReach_continue hb hslash hc hbreak (by simp)).trans (ih rfl (hrest ▸ h))
  | case9 _ _ _ b hb hslash c rest hc hbreak hopen ih =>
    obtain ⟨line, rfl, rfl, h⟩ := line_passed [b, c] rfl hin (le_directiveReach ..) h
    exact (directiveReach_escape hb hslash hbreak hopen).trans (ih rfl h)
  | case10 _ _ _ b hb hslash c rest hc hbreak hopen ih =>
    obtain ⟨line, rfl, hrest, h⟩ := line_passed [b] rfl hin (le_directiveReach ..) h
    -- the byte behind the backslash is looked at, and may be the first that is not of the line
    cases line <;> cases hrest
    · rw [← hxy.newline] at hbreak
      exact (directiveReach_backslash hb hslash hbreak hopen).trans (ih (List.nil_append _) h)
    · exact (directiveReach_backslash hb hslash hbreak hopen).trans (ih rfl h)
  | case11 _ _ _ b rest hb hslash hquote =>
    rename_i ih
    obtain ⟨line, rfl, rfl, h⟩ := line_passed [b] rfl hin (le_directiveReach ..) h
    exact (directiveReach_quote hb hslash hquote).trans (ih rfl h)
  | case12 _ _ _ b rest hb hslash hquote hcomment =>
    rcases List.append_eq_cons_iff.1 hin with ⟨rfl, hx⟩ | ⟨line, rfl, rfl⟩
    · exact hend (hx ▸ directiveReach_comment hb hslash hquote hcomment) h
    · rw [← hxy.startsComment_eq] at hcomment
      exact directiveReach_comment hb hslash hquote hcomment
  | case13 _ _ _ b rest hb hslash hquote hcomment hblank ih =>
    rcases List.append_eq_cons_iff.1 hin with ⟨rfl, hx⟩ | ⟨line, rfl, rfl⟩
    · exact hend (hx ▸ directiveReach_blank hb hslash hquote hcomment hblank) h
    · rw [← hxy.startsComment_eq] at hcomment
      refine (directiveReach_blank hb hslash hquote hcomment hblank).trans (ih rfl ?_)
      rw [List.length_cons] at h
      omega
  | case14 _ _ _ b rest hb hslash hquote hcomment hblank ih =>
    obtain ⟨line, rfl, rfl, h⟩ := line_passed [b] rfl hin (le_directiveReach ..) h
    rw [← hxy.startsComment_eq] at hcomment
    exact (directiveReach_step hb hslash hquote hcomment hblank).trans (ih rfl h)

theorem blockComment_line (hxy : Alike x y back back') (h : (blockComment (line ++ x :: back)).more ≤ line.length) :
    blockComment (line ++ y :: back') = blockComment (line ++ x :: back) := by
  cases line with
  | nil =>
    simp only [blockComment, plain] at h
    split at h <;> simp at h
  | cons b line =>
    simp only [blockComment, List.cons_append, List.drop_succ_cons, List.drop_zero] at h ⊢
    cases hclose : commentClose (line ++ x :: back) with
    | none =>
      rw [hclose] at h
      simp only [plain, List.length_cons, List.length_append] at h
      omega
    | some n =>
      rw [hclose] at h
      rw [commentClose_line hxy hclose (by simpa [plain] using h)]

theorem quoted_line (hxy : Alike x y back back') {quote : UInt8} {before : Nat}
    (h : (quoted quote before (line ++ x :: back)).more ≤ before + line.length) :
    quoted quote before (line ++ y :: back') = quoted quote before (line ++ x :: back) := by
  have hreach : (quotedReach quote 0 (line ++ x :: back)).1 ≤ 0 + line.length := by
    simp only [quoted, plain] at h
    omega
  rw [quoted, quotedReach_line hxy hreach, quoted]

theorem numberReach_line (hxy : Alike x y back back') {hex : Bool} {last : UInt8}
    (h : numberReach hex last (line ++ x :: back) ≤ line.length) :
    numberReach hex last (line ++ y :: back') = numberReach hex last (line ++ x :: back) := by
  induction line generalizing last with
  | nil =>
    have htest : (Byte.isWord y || y == byte '.' || (y == byte '+' || y == byte '-') && isExponent hex last) =
        (Byte.isWord x || x == byte '.' || (x == byte '+' || x == byte '-') && isExponent hex last) :=
      hxy.test (p := fun b ↦ Byte.isWord b || b == byte '.' || (b == byte '+' || b == byte '-') && isExponent hex last)
        ⟨rfl, rfl, rfl⟩
    simp only [List.nil_append, numberReach, htest] at h ⊢
    split at h
    · cases h
    · rename_i hx
      rw [if_neg hx, if_neg hx]
  | cons b line ih =>
    simp only [List.cons_append, numberReach] at h ⊢
    split at h
    · rw [ih (Nat.le_of_succ_le_succ h)]
    · rename_i hb
      rw [if_neg hb, if_neg hb]

theorem number_line (hxy : Alike x y back back') {first : UInt8}
    (h : (number first (line ++ x :: back)).more ≤ line.length) :
    number first (line ++ y :: back') = number first (line ++ x :: back) := by
  simp only [number, plain, hxy.head (c := byte 'x') rfl, hxy.head (c := byte 'X') rfl] at h ⊢
  rw [numberReach_line hxy h, List.take_append_of_le_length h, List.take_append_of_le_length h]

theorem le_more_word (first : UInt8) (rest : List UInt8) :
    (rest.takeWhile Byte.isWord).length ≤ (word first rest).more := by
  simp only [word]
  split
  · exact Nat.le_refl _
  · split
    · simp only [quoted, plain]
      omega
    · exact Nat.le_refl _

theorem word_line (hxy : Alike x y back back') {first : UInt8}
    (h : (word first (line ++ x :: back)).more ≤ line.length) :
    word first (line ++ y :: back') = word first (line ++ x :: back) := by
  have hlen := (le_more_word first (line ++ x :: back)).trans h
  have htake : (line ++ y :: back').takeWhile Byte.isWord = (line ++ x :: back).takeWhile Byte.isWord :=
    takeWhile_line_of_le (hxy.test ⟨rfl, rfl, rfl⟩) hlen
  simp only [word, htake] at h ⊢
  generalize ((line ++ x :: back).takeWhile Byte.isWord).length = more at h hlen ⊢
  simp only [List.take_append_of_le_length hlen, List.drop_append_of_le_length hlen] at h ⊢
  cases hdrop : line.drop more with
  | nil =>
    -- a literal right behind the word would be taken
    have hmore : line.length = more := by
      have := congrArg List.length hdrop
      rw [List.length_drop, List.length_nil] at this
      omega
    simp only [hdrop, List.nil_append] at h ⊢
    split at h
    · simp only [quoted, plain] at h
      omega
    · rename_i hx
      have hquote : Byte.isQuote y = Byte.isQuote x := hxy.test ⟨rfl, rfl, rfl⟩
      rw [hquote, if_neg hx, if_neg hx]
  | cons q after =>
    simp only [hdrop, List.cons_append] at h ⊢
    split
    · rename_i hq
      rw [if_pos hq] at h
      refine quoted_line hxy (h.trans (Nat.le_of_eq ?_))
      have hlength := congrArg List.length hdrop
      rw [List.length_drop, List.length_cons] at hlength
      omega
    · rfl

theorem prefix_line {op : List UInt8} (hop : x ∉ op) (line back : List UInt8) :
    op <+: line ++ x :: back ↔ op <+: line := by
  refine ⟨fun ⟨tail, h⟩ ↦ ?_, fun h ↦ h.trans (List.prefix_append ..)⟩
  obtain ⟨mid, hline, -⟩ | ⟨mid, hop', hmid⟩ := List.append_eq_append_iff.1 h
  · exact ⟨mid, hline.symm⟩
  · cases mid with
    | nil => exact ⟨[], by simp [hop']⟩
    | cons c mid =>
      cases hmid
      exact absurd (by simp [hop']) hop

theorem punctuator_line (hxy : Alike x y back back') (first : UInt8) (line : List UInt8) :
    punctuator first (line ++ y :: back') = punctuator first (line ++ x :: back) := by
  have hfind : operators.find? (·.isPrefixOf (first :: (line ++ y :: back'))) =
      operators.find? (·.isPrefixOf (first :: (line ++ x :: back))) := by
    rw [← List.head?_filter, ← List.head?_filter]
    refine congrArg List.head? (List.filter_congr fun op hop ↦ ?_)
    obtain ⟨hx, hy⟩ := hxy.notOperator op hop
    rw [Bool.eq_iff_iff, List.isPrefixOf_iff_prefix, List.isPrefixOf_iff_prefix]
    exact (prefix_line hy (first :: line) back').trans (prefix_line hx (first :: line) back).symm
  rw [punctuator, hfind, punctuator]

theorem backslash_line (hxy : Alike x y back back') (line : List UInt8) :
    backslash (line ++ y :: back') = backslash (line ++ x :: back) := by
  cases line with
  | nil => simp only [backslash, List.nil_append, List.head?_cons, hxy.newline]
  | cons => rfl

theorem ite_rel {R : Extent → Extent → Prop} {c : Prop} [Decidable c] {x x' y y' : Extent}
    (hx : c → R x x') (hy : ¬c → R y y') : R (if c then x else y) (if c then x' else y') := by
  split
  · exact hx ‹_›
  · exact hy ‹_›

theorem of_line (hxy : Alike x y back back') {lineHasCode : Bool} {first : UInt8}
    (h : (of lineHasCode first (line ++ x :: back)).more ≤ line.length) :
    of lineHasCode first (line ++ y :: back') = of lineHasCode first (line ++ x :: back) := by
  let R (e e' : Extent) : Prop := e.more ≤ line.length → e' = e
  suffices R (of lineHasCode first (line ++ x :: back)) (of lineHasCode first (line ++ y :: back')) from this h
  have hdigit : (line ++ y :: back').head?.any Byte.isDigit = (line ++ x :: back).head?.any Byte.isDigit := by
    cases line with
    | nil => exact hxy.test (p := Byte.isDigit) ⟨rfl, rfl, rfl⟩
    | cons => rfl
  simp only [of, hxy.head (c := byte '\n') rfl, hxy.head (c := byte '/') rfl, hxy.head (c := byte '*') rfl, hdigit]
  refine ite_rel (fun _ _ ↦ rfl) fun _ ↦ ite_rel (fun _ _ ↦ rfl) fun _ ↦ ite_rel (fun _ h ↦ ?blank) fun _ ↦
    ite_rel (fun _ h ↦ ?lineComment) fun _ ↦ ite_rel (fun _ h ↦ ?blockComment) fun _ ↦
    ite_rel (fun _ h ↦ ?directive) fun _ ↦ ite_rel (fun _ h ↦ ?quoted) fun _ ↦
    ite_rel (fun _ h ↦ ?number) fun _ ↦ ite_rel (fun _ h ↦ ?word) fun _ ↦
    ite_rel (fun _ _ ↦ ?backslash) fun _ ↦ ite_rel (fun _ h ↦ ?nonAscii) fun _ _ ↦ ?punctuator
  case blank => rw [takeWhile_line_of_le (hxy.test (p := Byte.isBlank) ⟨rfl, rfl, rfl⟩) h]
  case lineComment =>
    have hline : (!Byte.isNewline y) = !Byte.isNewline x := by rw [hxy.newline]
    rw [lineComment, takeWhile_line_of_le (p := fun b ↦ !Byte.isNewline b) hline h, lineComment]
  case blockComment => exact blockComment_line hxy h
  case directive => rw [directive, directiveReach_line hxy (by simpa [directive] using h), directive]
  case quoted => exact quoted_line hxy (by simpa using h)
  case number => exact number_line hxy h
  case word => exact word_line hxy h
  case backslash => exact backslash_line hxy line
  case nonAscii => rw [takeWhile_line_of_le (hxy.test (p := Byte.isNonAscii) ⟨rfl, rfl, rfl⟩) h]
  case punctuator => exact punctuator_line hxy first line

end

end CodeStyle.Token.Extent
