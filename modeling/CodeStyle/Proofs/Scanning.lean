import CodeStyle.Proofs.LossyText
import CodeStyle.Token.Extent

/-!
Where tokens end. Whatever a scanner meets, the token it answers lies inside the text and ends at a
place at which the text may be cut.
-/

namespace CodeStyle.Text.Byte

variable {b : UInt8}

theorem isNonAscii_of_isNewline (h : isNewline b = true) : isNonAscii b = false := by
  simp only [isNewline, Bool.or_eq_true, beq_iff_eq] at h
  rcases h with rfl | rfl <;> rfl

theorem isNonAscii_of_isBlank (h : isBlank b = true) : isNonAscii b = false := by
  simp only [isBlank, Bool.or_eq_true, beq_iff_eq] at h
  rcases h with ((rfl | rfl) | rfl) | rfl <;> rfl

theorem isNonAscii_of_isQuote (h : isQuote b = true) : isNonAscii b = false := by
  simp only [isQuote, Bool.or_eq_true, beq_iff_eq] at h
  rcases h with rfl | rfl <;> rfl

theorem isNonAscii_of_le {c : UInt8} (h : b ≤ c) (hc : c < 0x80) : isNonAscii b = false := by
  simp only [isNonAscii, decide_eq_false_iff_not, UInt8.not_le]
  exact UInt8.lt_of_le_of_lt h hc

theorem isNonAscii_of_isWord (h : isWord b = true) : isNonAscii b = false := by
  simp only [isWord, startsWord, isLetter, isLower, isUpper, isDigit, Bool.or_eq_true,
    Bool.and_eq_true, decide_eq_true_eq, beq_iff_eq] at h
  rcases h with ((⟨-, h⟩ | ⟨-, h⟩) | rfl) | ⟨-, h⟩
  · exact isNonAscii_of_le h (by decide)
  · exact isNonAscii_of_le h (by decide)
  · rfl
  · exact isNonAscii_of_le h (by decide)

end CodeStyle.Text.Byte

namespace CodeStyle.Text.CutsAt

variable {bytes : List UInt8}

theorem zero (h : ∀ b ∈ bytes.head?, Byte.isNonAscii b = false) : CutsAt bytes 0 :=
  ⟨Nat.zero_le _, .inl (by simpa using h)⟩

/-- A text may be cut behind the part that a class of bytes takes, when only ASCII bytes end it. -/
theorem takeWhile (p : UInt8 → Bool) (h : ∀ b, p b = false → Byte.isNonAscii b = false)
    (bytes : List UInt8) : CutsAt bytes (bytes.takeWhile p).length := by
  induction bytes with
  | nil => exact CutsAt.length []
  | cons b bytes ih =>
    cases hb : p b with
    | false =>
      have hz : CutsAt (b :: bytes) 0 := CutsAt.zero (by simpa using h b hb)
      simpa [hb] using hz
    | true => simpa [hb] using ih.cons b

/-- A text may be cut inside and behind a run of ASCII bytes that follow an ASCII byte. -/
theorem of_ascii {first : UInt8} (hf : Byte.isNonAscii first = false) {k : Nat} (hk : k ≤ bytes.length)
    (h : ∀ b ∈ bytes.take k, Byte.isNonAscii b = false) : CutsAt (first :: bytes) (k + 1) := by
  refine ⟨by simpa using hk, .inr ⟨_, List.getLast?_cons, ?_⟩⟩
  cases hl : (bytes.take k).getLast? with
  | none => exact hf
  | some b => exact h b (List.mem_of_getLast? hl)

end CodeStyle.Text.CutsAt

namespace CodeStyle.Token.Extent

open Text

theorem commentClose_cut {bytes : List UInt8} {n : Nat} (h : commentClose bytes = some n) :
    CutsAt bytes n := by
  induction bytes generalizing n with
  | nil => cases h
  | cons b rest ih =>
    unfold commentClose at h
    split at h
    · rename_i hc
      cases h
      simp only [Bool.and_eq_true, beq_iff_eq, List.head?_eq_some_iff] at hc
      obtain ⟨-, tail, rfl⟩ := hc
      exact CutsAt.of_previous (k := 1) rfl rfl
    · obtain ⟨m, hm, rfl⟩ := Option.map_eq_some_iff.1 h
      exact (ih hm).cons b

/-- A literal ends behind its quote, or before the line break or the end that cuts it short. -/
theorem quotedReach_cut {quote : UInt8} (hq : Byte.isNonAscii quote = false) (taken : Nat)
    (bytes : List UInt8) :
    ∃ k, (quotedReach quote taken bytes).1 = taken + k ∧ CutsAt bytes k := by
  fun_induction quotedReach quote taken bytes with
  | case1 taken => exact ⟨0, rfl, CutsAt.length []⟩
  | case2 taken b rest hb =>
    exact ⟨0, rfl, CutsAt.of_next (k := 0) rfl (Byte.isNonAscii_of_isNewline hb)⟩
  | case3 taken b => exact ⟨1, rfl, CutsAt.length [b]⟩
  | case4 taken b _ _ c => exact ⟨2, rfl, CutsAt.length [b, c]⟩
  | case5 taken b _ _ c d rest _ ih =>
    obtain ⟨k, he, hk⟩ := ih
    exact ⟨k + 3, by omega, ((hk.cons d).cons c).cons b⟩
  | case6 taken b _ _ c rest _ ih =>
    obtain ⟨k, he, hk⟩ := ih
    exact ⟨k + 2, by omega, (hk.cons c).cons b⟩
  | case7 taken b rest _ _ hb =>
    obtain rfl : b = quote := by simpa using hb
    exact ⟨1, rfl, CutsAt.of_previous (k := 0) rfl hq⟩
  | case8 taken b rest _ _ _ ih =>
    obtain ⟨k, he, hk⟩ := ih
    exact ⟨k + 1, by omega, hk.cons b⟩

/-- A directive ends behind a byte that it takes for certain, or where it stood before the blanks
that it is reading. -/
theorem directiveReach_cut (quote : Option UInt8) (taken stop : Nat) (bytes : List UInt8) :
    (∃ k, (directiveReach quote taken stop bytes).1 = taken + k ∧ CutsAt bytes k) ∨
      ((directiveReach quote taken stop bytes).1 = stop ∧
        ∀ b ∈ bytes.head?, Byte.isNonAscii b = false) := by
  -- Once `stop` has caught up with `taken`, both answers are cuts of what is left.
  have settle {taken n : Nat} (front : List UInt8) {back : List UInt8} {r : Nat × Option Nat}
      (hn : front.length = n) (h : (∃ k, r.1 = taken + n + k ∧ CutsAt back k) ∨
        (r.1 = taken + n ∧ ∀ b ∈ back.head?, Byte.isNonAscii b = false)) :
      ∃ k, r.1 = taken + k ∧ CutsAt (front ++ back) k := by
    subst hn
    rcases h with ⟨k, he, hk⟩ | ⟨he, hb⟩
    · exact ⟨front.length + k, by omega, hk.prepend front⟩
    · exact ⟨front.length, he, (CutsAt.zero hb).prepend front⟩
  fun_induction directiveReach quote taken stop bytes with
  | case1 => exact .inr ⟨rfl, by simp⟩
  | case2 _ _ _ b _ hb => exact .inr ⟨rfl, by simpa using Byte.isNonAscii_of_isNewline hb⟩
  | case3 _ _ _ b => exact .inl ⟨1, rfl, CutsAt.length [b]⟩
  | case4 _ _ _ b _ _ c => exact .inl ⟨2, rfl, CutsAt.length [b, c]⟩
  | case5 _ _ _ b _ _ c d => exact .inl ⟨3, rfl, CutsAt.length [b, c, d]⟩
  | case6 _ _ _ b _ _ c d e rest _ ih => exact .inl (settle [b, c, d] rfl ih)
  | case7 _ _ _ b _ _ c => exact .inl ⟨2, rfl, CutsAt.length [b, c]⟩
  | case8 _ _ _ b _ _ c _ d rest _ ih => exact .inl (settle [b, c] rfl ih)
  | case9 _ _ _ b _ _ c rest _ _ _ ih => exact .inl (settle [b, c] rfl ih)
  | case10 _ _ _ b _ _ c rest _ _ _ ih => exact .inl (settle [b] rfl ih)
  | case11 _ _ _ b rest _ _ _ _ ih => exact .inl (settle [b] rfl ih)
  | case12 _ _ _ b rest _ _ _ hb =>
    simp only [Bool.and_eq_true, beq_iff_eq] at hb
    obtain ⟨⟨rfl, -⟩, -⟩ := hb
    exact .inr ⟨rfl, fun c hc ↦ by cases hc; rfl⟩
  | case13 _ _ _ b rest _ _ _ _ hb ih =>
    rcases ih with ⟨k, he, hk⟩ | ⟨he, -⟩
    · exact .inl ⟨k + 1, by omega, hk.cons b⟩
    · exact .inr ⟨he, by simpa using Byte.isNonAscii_of_isBlank hb⟩
  | case14 _ _ _ b rest _ _ _ _ _ ih => exact .inl (settle [b] rfl ih)

theorem directive_cut (rest : List UInt8) : CutsAt rest (directive rest).more := by
  rcases directiveReach_cut none 0 0 rest with ⟨k, he, hk⟩ | ⟨he, hb⟩
  · simpa [directive, he] using hk
  · simpa [directive, he] using CutsAt.zero hb

theorem quoted_cut {quote : UInt8} (hq : Byte.isNonAscii quote = false) {before : Nat}
    (front rest : List UInt8) (hf : front.length = before + 1) :
    CutsAt (front ++ rest) ((quoted quote before rest).more + 1) := by
  obtain ⟨k, he, hk⟩ := quotedReach_cut hq 0 rest
  have hm : (quoted quote before rest).more + 1 = front.length + k := by
    simp only [quoted, plain, he]
    omega
  exact hm ▸ hk.prepend front

theorem numberReach_ascii (hex : Bool) (last : UInt8) (rest : List UInt8) :
    numberReach hex last rest ≤ rest.length ∧
      ∀ b ∈ rest.take (numberReach hex last rest), Byte.isNonAscii b = false := by
  induction rest generalizing last with
  | nil => simp [numberReach]
  | cons b rest ih =>
    simp only [numberReach]
    split
    · rename_i hb
      obtain ⟨hl, ha⟩ := ih b
      have hba : Byte.isNonAscii b = false := by
        simp only [Bool.or_eq_true, Bool.and_eq_true, beq_iff_eq] at hb
        rcases hb with (hb | rfl) | ⟨rfl | rfl, -⟩
        · exact Byte.isNonAscii_of_isWord hb
        all_goals rfl
      refine ⟨Nat.succ_le_succ hl, ?_⟩
      simpa [hba] using ha
    · simp

theorem number_cut {first : UInt8} (hf : Byte.isNonAscii first = false) (rest : List UInt8) :
    CutsAt (first :: rest) ((number first rest).more + 1) := by
  obtain ⟨hl, ha⟩ := numberReach_ascii
    (first == byte '0' && (rest.head? == some (byte 'x') || rest.head? == some (byte 'X'))) first rest
  exact CutsAt.of_ascii hf hl ha

theorem word_cut {first : UInt8} (hf : Byte.isNonAscii first = false) (rest : List UInt8) :
    CutsAt (first :: rest) ((word first rest).more + 1) := by
  have ht := List.prefix_iff_eq_take.1 (List.takeWhile_prefix Byte.isWord (l := rest))
  have hl := (List.takeWhile_sublist Byte.isWord (l := rest)).length_le
  have hword : CutsAt (first :: rest) ((rest.takeWhile Byte.isWord).length + 1) := by
    refine CutsAt.of_ascii hf hl fun b hb ↦ ?_
    rw [← ht] at hb
    exact Byte.isNonAscii_of_isWord (List.mem_takeWhile_imp hb)
  simp only [word]
  split
  · exact hword
  · rename_i q after hd
    split
    · rename_i hq
      have hr : first :: rest = first :: (rest.takeWhile Byte.isWord ++ [q]) ++ after := by
        nth_rewrite 1 [← List.take_append_drop (rest.takeWhile Byte.isWord).length rest]
        rw [hd, ← ht]
        simp
      rw [hr]
      simp only [Bool.and_eq_true] at hq
      exact quoted_cut (Byte.isNonAscii_of_isQuote hq.1) _ after (by simp)
    · exact hword

theorem operators_ascii : ∀ op ∈ operators, op ≠ [] ∧ ∀ b ∈ op, Byte.isNonAscii b = false := by
  have h : (operators.all fun op ↦ !op.isEmpty && op.all fun b ↦ !Byte.isNonAscii b) = true := by decide +kernel
  simpa using h

theorem punctuator_cut {first : UInt8} (hf : Byte.isNonAscii first = false) (rest : List UInt8) :
    CutsAt (first :: rest) ((punctuator first rest).more + 1) := by
  unfold punctuator
  split
  · rename_i op ho
    obtain ⟨hne, ha⟩ := operators_ascii op (List.mem_of_find?_eq_some ho)
    have hp : op <+: first :: rest := by simpa using List.find?_some ho
    obtain ⟨b, tail, rfl⟩ := List.exists_cons_of_ne_nil hne
    obtain ⟨rfl, htail⟩ := List.cons_prefix_cons.1 hp
    refine CutsAt.of_ascii hf (by simpa [plain] using htail.length_le) fun c hc ↦ ?_
    have he : rest.take tail.length = tail := (List.prefix_iff_eq_take.1 htail).symm
    simp only [plain, List.length_cons, Nat.add_sub_cancel, he] at hc
    exact ha c (List.mem_cons_of_mem b hc)
  · exact CutsAt.of_ascii hf (Nat.zero_le _) (by simp [plain])

theorem blockComment_cut (first second : UInt8) (rest : List UInt8) :
    CutsAt (first :: second :: rest) ((blockComment (second :: rest)).more + 1) := by
  simp only [blockComment, List.drop_succ_cons, List.drop_zero]
  split
  · rename_i n hn
    exact ((commentClose_cut hn).cons second).cons first
  · exact CutsAt.length (first :: second :: rest)

theorem backslash_more (rest : List UInt8) : (backslash rest).more = 0 := by
  unfold backslash
  split
  · rfl
  · split <;> rfl

/-- Every token ends inside the text, at a place at which the text may be cut. -/
theorem of_cut (lineHasCode : Bool) (first : UInt8) (rest : List UInt8) :
    CutsAt (first :: rest) ((of lineHasCode first rest).more + 1) := by
  fun_cases of lineHasCode first rest with
  | case1 h =>
    obtain rfl : first = byte '\n' := by simpa using h
    exact CutsAt.of_previous (k := 0) rfl rfl
  | case2 _ h =>
    obtain rfl : first = byte '\r' := by simpa using h
    cases rest with
    | nil => exact CutsAt.length _
    | cons c rest =>
      by_cases hc : c = byte '\n'
      · subst hc
        exact CutsAt.of_previous (k := 1) rfl rfl
      · simp only [plain, List.head?_cons, beq_iff_eq, Option.some_inj, hc, if_false]
        exact CutsAt.of_previous (k := 0) rfl rfl
  | case3 _ _ h =>
    refine CutsAt.of_ascii (Byte.isNonAscii_of_isBlank h) (List.takeWhile_sublist _).length_le fun b hb ↦ ?_
    simp only [plain, ← List.prefix_iff_eq_take.1 (List.takeWhile_prefix _)] at hb
    exact Byte.isNonAscii_of_isBlank (List.mem_takeWhile_imp hb)
  | case4 =>
    refine (CutsAt.takeWhile _ (fun b hb ↦ ?_) rest).cons first
    exact Byte.isNonAscii_of_isNewline (by simpa using hb)
  | case5 _ _ _ _ h =>
    simp only [Bool.and_eq_true, beq_iff_eq, List.head?_eq_some_iff] at h
    obtain ⟨-, tail, rfl⟩ := h
    exact blockComment_cut first _ tail
  | case6 => exact (directive_cut rest).cons first
  | case7 _ _ _ _ _ _ h => exact quoted_cut (Byte.isNonAscii_of_isQuote h) [first] rest rfl
  | case8 _ _ _ _ _ _ _ h =>
    have hf : Byte.isNonAscii first = false := by
      simp only [Bool.or_eq_true, Bool.and_eq_true, beq_iff_eq] at h
      rcases h with h | ⟨rfl, -⟩
      · exact Byte.isNonAscii_of_isWord (by simp [Byte.isWord, h])
      · rfl
    exact number_cut hf rest
  | case9 _ _ _ _ _ _ _ _ h =>
    exact word_cut (Byte.isNonAscii_of_isWord (by simp [Byte.isWord, h])) rest
  | case10 _ _ _ _ _ _ _ _ _ h =>
    obtain rfl : first = byte '\\' := by simpa using h
    rw [backslash_more]
    exact CutsAt.of_previous (k := 0) rfl rfl
  | case11 => exact (CutsAt.takeWhile Byte.isNonAscii (fun _ h ↦ h) rest).cons first
  | case12 _ _ _ _ _ _ _ _ _ _ h => exact punctuator_cut (by simpa using h) rest

end CodeStyle.Token.Extent
