import CodeStyle.Proofs.LineCuts

/-!
Lexing does not depend on the style of the line endings. `crlf` ends each line with a carriage return
and a line feed instead of a line feed alone; every scanner then takes the same bytes, so ended, and
tokens and errors keep their kinds, lines and columns.
-/

namespace CodeStyle

open Text

namespace Text

/-- The text with a carriage return put before each line feed. -/
def crlf (bytes : List UInt8) : List UInt8 :=
  bytes.flatMap fun b ↦ if b == byte '\n' then [byte '\r', byte '\n'] else [b]

theorem crlf_nil : crlf [] = [] := rfl

theorem crlf_newline (rest : List UInt8) :
    crlf (byte '\n' :: rest) = byte '\r' :: byte '\n' :: crlf rest := rfl

theorem crlf_cons {b : UInt8} (hb : b ≠ byte '\n') (rest : List UInt8) : crlf (b :: rest) = b :: crlf rest := by
  have hne : (b == byte '\n') = false := beq_false_of_ne hb
  rw [crlf, List.flatMap_cons, hne]
  rfl

theorem crlf_append (front back : List UInt8) : crlf (front ++ back) = crlf front ++ crlf back :=
  List.flatMap_append

theorem crlf_eq_self {bytes : List UInt8} (h : byte '\n' ∉ bytes) : crlf bytes = bytes := by
  induction bytes with
  | nil => rfl
  | cons b bytes ih =>
    obtain ⟨hb, hbytes⟩ := not_or.1 (mt List.mem_cons.2 h)
    rw [crlf_cons (Ne.symm hb), ih hbytes]

theorem crlf_ne_nil {bytes : List UInt8} (h : bytes ≠ []) : crlf bytes ≠ [] := by
  obtain ⟨b, bytes, rfl⟩ := List.exists_cons_of_ne_nil h
  by_cases hb : b = byte '\n'
  · subst hb
    exact List.cons_ne_nil _ _
  · rw [crlf_cons hb]
    exact List.cons_ne_nil _ _

theorem crlf_split (bytes : List UInt8) (k : Nat) : crlf bytes = crlf (bytes.take k) ++ crlf (bytes.drop k) := by
  rw [← crlf_append, List.take_append_drop]

theorem take_crlf (bytes : List UInt8) (k : Nat) :
    (crlf bytes).take (crlf (bytes.take k)).length = crlf (bytes.take k) := by
  rw [crlf_split bytes k, List.take_left]

/-- What is asked of the next byte is answered the same, if the answer is the same for the bytes that end lines. -/
theorem any_head?_crlf {p : UInt8 → Bool} (hp : p (byte '\r') = p (byte '\n')) (bytes : List UInt8) :
    (crlf bytes).head?.any p = bytes.head?.any p := by
  cases bytes with
  | nil => rfl
  | cons b bytes =>
    by_cases hb : b = byte '\n'
    · subst hb
      exact hp
    · rw [crlf_cons hb]
      rfl

theorem head?_crlf {c : UInt8} (hc : Byte.isNewline c = false) (bytes : List UInt8) :
    ((crlf bytes).head? == some c) = (bytes.head? == some c) := by
  have hany (bytes : List UInt8) : (bytes.head? == some c) = bytes.head?.any (· == c) := by cases bytes <;> rfl
  simp only [Byte.isNewline, Bool.or_eq_false_iff, beq_eq_false_iff_ne] at hc
  rw [hany, hany, any_head?_crlf]
  rw [beq_false_of_ne hc.1.symm, beq_false_of_ne hc.2.symm]

theorem takeWhile_crlf {p : UInt8 → Bool} (hn : p (byte '\n') = false) (hr : p (byte '\r') = false)
    (bytes : List UInt8) : (crlf bytes).takeWhile p = bytes.takeWhile p := by
  induction bytes with
  | nil => rfl
  | cons b bytes ih =>
    by_cases hb : b = byte '\n'
    · subst hb
      simp only [crlf_newline, List.takeWhile_cons, hr, hn, Bool.false_eq_true, if_false]
    · rw [crlf_cons hb, List.takeWhile_cons, List.takeWhile_cons, ih]

theorem newline_notMem_takeWhile {p : UInt8 → Bool} (hn : p (byte '\n') = false) (bytes : List UInt8) :
    byte '\n' ∉ bytes.takeWhile p := by
  intro hmem
  rw [List.mem_takeWhile_imp hmem] at hn
  cases hn

end Text

namespace Token.Extent

theorem commentClose_crlf (bytes : List UInt8) :
    commentClose (crlf bytes) = (commentClose bytes).map fun n ↦ (crlf (bytes.take n)).length := by
  induction bytes with
  | nil => rfl
  | cons b bytes ih =>
    by_cases hb : b = byte '\n'
    · subst hb
      have hstep (c : UInt8) (hc : (c == byte '*') = false) (rest : List UInt8) :
          commentClose (c :: rest) = (commentClose rest).map (· + 1) := by
        rw [commentClose, hc]
        rfl
      rw [crlf_newline, hstep _ rfl, hstep _ rfl, ih, hstep _ rfl]
      simp only [Option.map_map]
      rfl
    · rw [crlf_cons hb, commentClose, commentClose, head?_crlf rfl, ih]
      split
      · rename_i hc
        simp only [Bool.and_eq_true, beq_iff_eq, List.head?_eq_some_iff] at hc
        obtain ⟨rfl, tail, rfl⟩ := hc
        rfl
      · simp only [Option.map_map, Function.comp_def, List.take_succ_cons, crlf_cons hb, List.length_cons]

/-- A literal takes the same bytes. -/
theorem quotedReach_crlf (quote : UInt8) (taken : Nat) {bytes : List UInt8} (h : byte '\r' ∉ bytes) :
    ∃ k closed, quotedReach quote taken bytes = (taken + k, closed) ∧
      ∀ taken', quotedReach quote taken' (crlf bytes) = (taken' + (crlf (bytes.take k)).length, closed) := by
  -- Behind bytes that are passed, the rest of the literal is counted from further on.
  have passed {n m taken : Nat} (front : List UInt8) {back : List UInt8} (hn : front.length = n)
      (hm : (crlf front).length = m)
      (ih : ∃ k closed, quotedReach quote (taken + n) back = (taken + n + k, closed) ∧
        ∀ taken', quotedReach quote taken' (crlf back) = (taken' + (crlf (back.take k)).length, closed))
      (hstep : ∀ taken', quotedReach quote taken' (crlf (front ++ back)) =
        quotedReach quote (taken' + m) (crlf back)) :
      ∃ k closed, quotedReach quote (taken + n) back = (taken + k, closed) ∧
        ∀ taken', quotedReach quote taken' (crlf (front ++ back)) =
          (taken' + (crlf ((front ++ back).take k)).length, closed) := by
    obtain ⟨k, closed, hback, hcrlf⟩ := ih
    refine ⟨front.length + k, closed, by rw [hback, ← hn, Nat.add_assoc], fun taken' ↦ ?_⟩
    rw [hstep, hcrlf, List.take_length_add_append, crlf_append, List.length_append, ← hm, Nat.add_assoc]
  fun_induction quotedReach quote taken bytes with
  | case1 => exact ⟨0, false, rfl, fun _ ↦ rfl⟩
  | case2 taken b rest hb =>
    refine ⟨0, false, rfl, fun taken' ↦ ?_⟩
    rcases Byte.eq_of_isNewline hb with rfl | rfl
    · exact quotedReach_break rfl
    · exact absurd List.mem_cons_self h
  | case3 taken b hb hslash =>
    obtain rfl : b = byte '\\' := by simpa using hslash
    exact ⟨1, false, rfl, fun _ ↦ rfl⟩
  | case4 taken b _ _ c hc => simp at hc
  | case5 taken b hb hslash c d rest hc ih =>
    obtain ⟨rfl, -⟩ : c = byte '\r' ∧ _ := by simpa using hc
    exact absurd (by simp) h
  | case6 taken b hb hslash c rest hc ih =>
    obtain rfl : b = byte '\\' := by simpa using hslash
    have hrest := mt (List.mem_cons_of_mem _) h
    have hcr : c ≠ byte '\r' := fun hcr ↦ hrest (hcr ▸ List.mem_cons_self)
    by_cases hcn : c = byte '\n'
    · subst hcn
      exact passed [byte '\\', byte '\n'] rfl rfl (ih (mt (List.mem_cons_of_mem _) hrest)) fun taken' ↦
        quotedReach_splice hb hslash rfl
    · have hfront (back : List UInt8) : crlf (byte '\\' :: c :: back) = byte '\\' :: c :: crlf back := by
        rw [crlf_cons (by decide), crlf_cons hcn]
      refine passed [byte '\\', c] rfl (by rw [hfront]) (ih (mt (List.mem_cons_of_mem _) hrest)) fun taken' ↦ ?_
      have hbreak : ¬(c == byte '\r' && (crlf rest).head? == some (byte '\n')) = true := by
        rw [beq_false_of_ne hcr]
        exact Bool.false_ne_true
      exact (congrArg _ (hfront rest)).trans (quotedReach_escape hb hslash hbreak)
  | case7 taken b rest hb hslash hquote =>
    have hbn : b ≠ byte '\n' := fun hbn ↦ hb (hbn ▸ rfl)
    refine ⟨1, true, rfl, fun taken' ↦ ?_⟩
    rw [crlf_cons hbn, List.take_succ_cons, List.take_zero, crlf_cons hbn]
    exact quotedReach_close hb hslash hquote
  | case8 taken b rest hb hslash hquote ih =>
    have hbn : b ≠ byte '\n' := fun hbn ↦ hb (hbn ▸ rfl)
    refine passed [b] rfl (by rw [crlf_cons hbn]) (ih (mt (List.mem_cons_of_mem _) h)) fun taken' ↦ ?_
    exact (congrArg _ (crlf_cons hbn rest)).trans (quotedReach_step hb hslash hquote)

theorem startsComment_crlf (bytes : List UInt8) : startsComment (crlf bytes) = startsComment bytes := by
  rw [startsComment, head?_crlf rfl, head?_crlf rfl, startsComment]

/-- A directive ends where it last stood, whatever its line ends are. -/
def Stops (quote : Option UInt8) (taken stop : Nat) (bytes : List UInt8) : Prop :=
  directiveReach quote taken stop bytes = (stop, none) ∧
    ∀ taken' stop', directiveReach quote taken' stop' (crlf bytes) = (stop', none)

/-- A directive takes the first `k` bytes, whatever its line ends are. -/
def Takes (quote : Option UInt8) (taken stop : Nat) (bytes : List UInt8) (k : Nat) (dangling : Option Nat) : Prop :=
  directiveReach quote taken stop bytes = (taken + k, dangling.map (taken + ·)) ∧
    ∀ taken' stop', directiveReach quote taken' stop' (crlf bytes) =
      (taken' + (crlf (bytes.take k)).length, dangling.map fun j ↦ taken' + (crlf (bytes.take j)).length)

/-- Behind bytes that a directive takes for certain, both answers count from these bytes. -/
theorem takes_front {quote quote' : Option UInt8} {taken stop n m : Nat} (front : List UInt8) {back : List UInt8}
    (hn : front.length = n) (hm : (crlf front).length = m)
    (hback : Stops quote' (taken + n) (taken + n) back ∨
      ∃ k dangling, Takes quote' (taken + n) (taken + n) back k dangling)
    (hsame : directiveReach quote taken stop (front ++ back) = directiveReach quote' (taken + n) (taken + n) back)
    (hcrlf : ∀ taken' stop', directiveReach quote taken' stop' (crlf (front ++ back)) =
      directiveReach quote' (taken' + m) (taken' + m) (crlf back)) :
    ∃ k dangling, Takes quote taken stop (front ++ back) k dangling := by
  have htake (k taken' : Nat) : taken' + (crlf ((front ++ back).take (front.length + k))).length =
      taken' + m + (crlf (back.take k)).length := by
    rw [List.take_length_add_append, crlf_append, List.length_append, hm, Nat.add_assoc]
  rcases hback with ⟨hlf, hback⟩ | ⟨k, dangling, hlf, hback⟩
  · refine ⟨front.length + 0, none, by rw [hsame, hlf, hn]; rfl, fun taken' stop' ↦ ?_⟩
    rw [hcrlf, hback, htake]
    rfl
  · refine ⟨front.length + k, dangling.map (front.length + ·), ?_, fun taken' stop' ↦ ?_⟩
    · rw [hsame, hlf]
      simp only [hn, Nat.add_assoc, Option.map_map, Function.comp_def]
    · simp only [hcrlf, hback, htake, Option.map_map, Function.comp_def]

theorem directiveReach_crlf (quote : Option UInt8) (taken stop : Nat) {bytes : List UInt8} (h : byte '\r' ∉ bytes) :
    Stops quote taken stop bytes ∨ ∃ k dangling, Takes quote taken stop bytes k dangling := by
  have plain {b : UInt8} (hb : ¬Byte.isNewline b = true) : b ≠ byte '\n' := fun hbn ↦ hb (hbn ▸ rfl)
  fun_induction directiveReach quote taken stop bytes with
  | case1 => exact .inl ⟨by rw [directiveReach], fun _ _ ↦ by rw [crlf_nil, directiveReach]⟩
  | case2 _ _ _ b _ hb =>
    rcases Byte.eq_of_isNewline hb with rfl | rfl
    · exact .inl ⟨directiveReach_break rfl, fun _ _ ↦ directiveReach_break rfl⟩
    · exact absurd List.mem_cons_self h
  | case3 _ _ _ b hb hslash =>
    obtain rfl : b = byte '\\' := by simpa using hslash
    exact .inr ⟨1, some 0, directiveReach_end hb hslash, fun _ _ ↦ directiveReach_end hb hslash⟩
  | case4 _ _ _ b _ _ c hc => simp at hc
  | case5 _ taken _ b hb _ c d hc =>
    obtain ⟨rfl, -⟩ : c = byte '\r' ∧ _ := by simpa using hc
    exact absurd (by simp) h
  | case6 _ _ _ b hb hslash c d e rest hc ih =>
    obtain ⟨rfl, -⟩ : c = byte '\r' ∧ _ := by simpa using hc
    exact absurd (by simp) h
  | case7 _ taken _ b hb hslash c hbreak =>
    obtain rfl : b = byte '\\' := by simpa using hslash
    rcases Byte.eq_of_isNewline hbreak with rfl | rfl
    · exact .inr ⟨2, some 0, directiveReach_continue_end hb hslash hbreak, fun _ _ ↦
        directiveReach_splice_end hb hslash rfl⟩
    · exact absurd (by simp) h
  | case8 _ _ _ b hb hslash c hbreak d rest hc ih =>
    rcases Byte.eq_of_isNewline hbreak with rfl | rfl
    · have ih := ih (mt (List.mem_cons_of_mem _) (mt (List.mem_cons_of_mem _) h))
      refine .inr (takes_front [b, byte '\n'] rfl (by rw [crlf_cons (plain hb), crlf_newline]) ih
        (directiveReach_continue hb hslash hc hbreak (by simp)) fun taken' stop' ↦ ?_)
      exact (congrArg _ (crlf_cons (plain hb) _)).trans (directiveReach_splice hb hslash rfl (crlf_ne_nil (by simp)))
    · exact absurd (by simp) h
  | case9 _ _ _ b hb hslash c rest hc hbreak hopen ih =>
    have ih := ih (mt (List.mem_cons_of_mem _) (mt (List.mem_cons_of_mem _) h))
    have hfront (back : List UInt8) : crlf (b :: c :: back) = b :: c :: crlf back := by
      rw [crlf_cons (plain hb), crlf_cons (plain hbreak)]
    refine .inr (takes_front [b, c] rfl (by rw [hfront]) ih
      (directiveReach_escape hb hslash hbreak hopen) fun taken' stop' ↦ ?_)
    exact (congrArg _ (hfront rest)).trans (directiveReach_escape hb hslash hbreak hopen)
  | case10 _ _ _ b hb hslash c rest hc hbreak hopen ih =>
    have ih := ih (mt (List.mem_cons_of_mem _) h)
    refine .inr (takes_front [b] rfl (by rw [crlf_cons (plain hb)]) ih
      (directiveReach_backslash hb hslash hbreak hopen) fun taken' stop' ↦ ?_)
    rw [List.singleton_append, crlf_cons (plain hb), crlf_cons (plain hbreak)]
    exact directiveReach_backslash hb hslash hbreak hopen
  | case11 _ _ _ b rest hb hslash hquote =>
    rename_i ih
    have ih := ih (mt (List.mem_cons_of_mem _) h)
    refine .inr (takes_front [b] rfl (by rw [crlf_cons (plain hb)]) ih
      (directiveReach_quote hb hslash hquote) fun taken' stop' ↦ ?_)
    exact (congrArg _ (crlf_cons (plain hb) rest)).trans (directiveReach_quote hb hslash hquote)
  | case12 _ _ _ b rest hb hslash hquote hcomment =>
    refine .inl ⟨directiveReach_comment hb hslash hquote hcomment, fun taken' stop' ↦ ?_⟩
    rw [← startsComment_crlf] at hcomment
    exact (congrArg _ (crlf_cons (plain hb) rest)).trans (directiveReach_comment hb hslash hquote hcomment)
  | case13 quote _ _ b rest hb hslash hquote hcomment hblank ih =>
    have hstep (taken' stop' : Nat) : directiveReach quote taken' stop' (crlf (b :: rest)) =
        directiveReach quote (taken' + 1) stop' (crlf rest) := by
      rw [← startsComment_crlf] at hcomment
      rw [crlf_cons (plain hb), directiveReach_blank hb hslash hquote hcomment hblank]
    have htake (k taken' : Nat) : taken' + (crlf ((b :: rest).take (1 + k))).length =
        taken' + 1 + (crlf (rest.take k)).length := by
      rw [Nat.add_comm 1 k, List.take_succ_cons, crlf_cons (plain hb), List.length_cons]
      omega
    rcases ih (mt (List.mem_cons_of_mem _) h) with ⟨hlf, hcrlf⟩ | ⟨k, dangling, hlf, hcrlf⟩
    · refine .inl ⟨?_, fun taken' stop' ↦ ?_⟩
      · rw [directiveReach_blank hb hslash hquote hcomment hblank, hlf]
      · rw [hstep, hcrlf]
    · refine .inr ⟨1 + k, dangling.map (1 + ·), ?_, fun taken' stop' ↦ ?_⟩
      · rw [directiveReach_blank hb hslash hquote hcomment hblank, hlf]
        simp only [Nat.add_assoc, Option.map_map, Function.comp_def]
      · simp only [hstep, hcrlf, htake, Option.map_map, Function.comp_def]
  | case14 _ _ _ b rest hb hslash hquote hcomment hblank ih =>
    have ih := ih (mt (List.mem_cons_of_mem _) h)
    refine .inr (takes_front [b] rfl (by rw [crlf_cons (plain hb)]) ih
      (directiveReach_step hb hslash hquote hcomment hblank) fun taken' stop' ↦ ?_)
    rw [← startsComment_crlf] at hcomment
    exact (congrArg _ (crlf_cons (plain hb) rest)).trans (directiveReach_step hb hslash hquote hcomment hblank)

theorem numberReach_crlf (hex : Bool) (last : UInt8) (bytes : List UInt8) :
    numberReach hex last (crlf bytes) = numberReach hex last bytes := by
  induction bytes generalizing last with
  | nil => rfl
  | cons b bytes ih =>
    by_cases hb : b = byte '\n'
    · subst hb
      rfl
    · rw [crlf_cons hb, numberReach, numberReach, ih]

/-- The extent of a token when the line ends of the text behind `first` are rewritten. -/
structure Recoded (first : UInt8) (rest : List UInt8) (e e' : Extent) : Prop where
  kind : e'.kind = e.kind
  more : e'.more = (crlf (rest.take e.more)).length
  dangling : e'.dangling = e.dangling.map fun k ↦ (crlf ((first :: rest).take k)).length

namespace Recoded

variable {first : UInt8} {rest : List UInt8}

theorem of_plain (kind : Kind) {more more' : Nat} (h : more' = (crlf (rest.take more)).length) :
    Recoded first rest (plain kind more) (plain kind more') :=
  ⟨rfl, h, rfl⟩

/-- A token that takes the bytes of one class does not reach the end of its line. -/
theorem takeWhile (kind : Kind) {p : UInt8 → Bool} (hn : p (byte '\n') = false) (hr : p (byte '\r') = false) :
    Recoded first rest (plain kind (rest.takeWhile p).length) (plain kind ((crlf rest).takeWhile p).length) := by
  apply of_plain
  rw [takeWhile_crlf hn hr, ← List.prefix_iff_eq_take.1 (List.takeWhile_prefix _),
    crlf_eq_self (newline_notMem_takeWhile hn rest)]

end Recoded

theorem blockComment_crlf {first : UInt8} {rest : List UInt8} (h : rest.head? = some (byte '*')) :
    Recoded first rest (blockComment rest) (blockComment (crlf rest)) := by
  obtain ⟨rest, rfl⟩ := List.head?_eq_some_iff.1 h
  have hstar (bytes : List UInt8) : crlf (byte '*' :: bytes) = byte '*' :: crlf bytes := crlf_cons (by decide) bytes
  simp only [blockComment, hstar, List.drop_succ_cons, List.drop_zero, commentClose_crlf]
  cases commentClose rest with
  | none =>
    apply Recoded.of_plain
    rw [List.take_length, hstar]
  | some n =>
    apply Recoded.of_plain
    rw [List.take_succ_cons, hstar, List.length_cons]

theorem directive_crlf {rest : List UInt8} (h : byte '\r' ∉ rest) :
    Recoded (byte '#') rest (directive rest) (directive (crlf rest)) := by
  rcases directiveReach_crlf none 0 0 h with ⟨hlf, hcrlf⟩ | ⟨k, dangling, hlf, hcrlf⟩
  · rw [directive, hlf, directive, hcrlf]
    exact ⟨rfl, rfl, rfl⟩
  · rw [directive, hlf, directive, hcrlf]
    refine ⟨rfl, by simp, ?_⟩
    simp only [Option.map_map, Function.comp_def, Nat.zero_add, List.take_succ_cons]
    rfl

/-- A literal whose opening quote `front` ends with. -/
theorem quoted_crlf {first quote : UInt8} {before : Nat} {front rest : List UInt8} (h : byte '\r' ∉ rest)
    (hlen : front.length = before) (hfront : byte '\n' ∉ front) :
    Recoded first (front ++ rest) (quoted quote before rest) (quoted quote before (crlf rest)) := by
  obtain ⟨k, closed, hlf, hcrlf⟩ := quotedReach_crlf quote 0 h
  rw [quoted, hlf, quoted, hcrlf]
  apply Recoded.of_plain
  rw [Nat.zero_add, Nat.zero_add, ← hlen, List.take_length_add_append, crlf_append, crlf_eq_self hfront,
    List.length_append]

theorem newline_notMem_number (hex : Bool) (last : UInt8) (rest : List UInt8) :
    byte '\n' ∉ rest.take (numberReach hex last rest) := by
  induction rest generalizing last with
  | nil => simp
  | cons b rest ih =>
    by_cases hb : b = byte '\n'
    · subst hb
      exact List.not_mem_nil
    · rw [numberReach]
      split
      · exact fun hmem ↦ (List.mem_cons.1 hmem).elim (fun h ↦ hb h.symm) (ih b)
      · exact List.not_mem_nil

theorem number_crlf (first : UInt8) (rest : List UInt8) :
    Recoded first rest (number first rest) (number first (crlf rest)) := by
  have hself (hex : Bool) := crlf_eq_self (newline_notMem_number hex first rest)
  have hlen (hex : Bool) : (rest.take (numberReach hex first rest)).length = numberReach hex first rest :=
    List.length_take_of_le (numberReach_ascii hex first rest).1
  have htake (hex : Bool) : (crlf rest).take (numberReach hex first rest) = rest.take (numberReach hex first rest) := by
    have h := take_crlf rest (numberReach hex first rest)
    rwa [hself, hlen] at h
  simp only [number, head?_crlf (c := byte 'x') rfl, head?_crlf (c := byte 'X') rfl, numberReach_crlf, htake]
  apply Recoded.of_plain
  rw [hself, hlen]

theorem word_crlf {first : UInt8} {rest : List UInt8} (h : byte '\r' ∉ rest) :
    Recoded first rest (word first rest) (word first (crlf rest)) := by
  have hline := newline_notMem_takeWhile (p := Byte.isWord) rfl rest
  have hsplit := List.take_append_drop (rest.takeWhile Byte.isWord).length rest
  rw [← List.prefix_iff_eq_take.1 (List.takeWhile_prefix _)] at hsplit
  simp only [word, takeWhile_crlf (p := Byte.isWord) rfl rfl]
  generalize rest.takeWhile Byte.isWord = w at hline hsplit ⊢
  generalize rest.drop w.length = tail at hsplit ⊢
  subst hsplit
  have hself : crlf w = w := crlf_eq_self hline
  simp only [crlf_append, hself, List.take_left, List.drop_left]
  have named (kind : Kind) : Recoded first (w ++ tail) (plain kind w.length) (plain kind w.length) := by
    apply Recoded.of_plain
    rw [List.take_left, hself]
  cases tail with
  | nil => exact named _
  | cons q after =>
    by_cases hq : q = byte '\n'
    · subst hq
      exact named _
    · rw [crlf_cons hq]
      dsimp only
      split
      · rw [List.append_cons]
        apply quoted_crlf
        · exact fun hr ↦ h (by rw [List.append_cons]; exact List.mem_append_right _ hr)
        · simp
        · exact fun hmem ↦ (List.mem_append.1 hmem).elim hline fun hmem ↦ hq (List.mem_singleton.1 hmem).symm
      · exact named _

theorem backslash_crlf (first : UInt8) (rest : List UInt8) :
    Recoded first rest (backslash rest) (backslash (crlf rest)) := by
  cases rest with
  | nil => exact .of_plain _ rfl
  | cons b rest =>
    by_cases hb : b = byte '\n'
    · subst hb
      exact .of_plain _ rfl
    · simp only [backslash, crlf_cons hb, List.head?_cons]
      split <;> exact .of_plain _ rfl

theorem prefix_crlf {op : List UInt8} (hop : ∀ b ∈ op, Byte.isNewline b = false) (bytes : List UInt8) :
    op <+: crlf bytes ↔ op <+: bytes := by
  induction op generalizing bytes with
  | nil => simp
  | cons c op ih =>
    cases bytes with
    | nil => rfl
    | cons b bytes =>
      by_cases hb : b = byte '\n'
      · subst hb
        have hc := hop c List.mem_cons_self
        constructor
        · intro hpre
          obtain ⟨rfl, -⟩ := List.cons_prefix_cons.1 hpre
          cases hc
        · intro hpre
          obtain ⟨rfl, -⟩ := List.cons_prefix_cons.1 hpre
          cases hc
      · rw [crlf_cons hb, List.cons_prefix_cons, List.cons_prefix_cons,
          ih fun b hb ↦ hop b (List.mem_cons_of_mem _ hb)]

theorem punctuator_crlf {first : UInt8} (hfirst : first ≠ byte '\n') (rest : List UInt8) :
    Recoded first rest (punctuator first rest) (punctuator first (crlf rest)) := by
  have hfind : operators.find? (·.isPrefixOf (first :: crlf rest)) =
      operators.find? (·.isPrefixOf (first :: rest)) := by
    rw [← List.head?_filter, ← List.head?_filter]
    refine congrArg List.head? (List.filter_congr fun op hop ↦ ?_)
    rw [Bool.eq_iff_iff, List.isPrefixOf_iff_prefix, List.isPrefixOf_iff_prefix, ← crlf_cons hfirst,
      prefix_crlf (operators_line op hop)]
  rw [punctuator, punctuator, hfind]
  cases hop : operators.find? (·.isPrefixOf (first :: rest)) with
  | none => exact .of_plain _ rfl
  | some op =>
    have hmem := List.mem_of_find?_eq_some hop
    have hpre : op <+: first :: rest := by simpa using List.find?_some hop
    obtain ⟨b, tail, rfl⟩ := List.exists_cons_of_ne_nil (operators_ascii op hmem).1
    obtain ⟨rfl, htail⟩ := List.cons_prefix_cons.1 hpre
    have hline : byte '\n' ∉ tail := by
      intro hn
      exact absurd (operators_line _ hmem _ (List.mem_cons_of_mem _ hn)) (by decide)
    apply Recoded.of_plain
    rw [List.length_cons, Nat.add_sub_cancel, ← List.prefix_iff_eq_take.1 htail, crlf_eq_self hline]

theorem of_crlf (lineHasCode : Bool) {first : UInt8} {rest : List UInt8} (hfirst : Byte.isNewline first = false)
    (h : byte '\r' ∉ rest) :
    Recoded first rest (of lineHasCode first rest) (of lineHasCode first (crlf rest)) := by
  have hn : ¬(first == byte '\n') = true := by
    intro hc
    rw [Byte.isNewline, hc] at hfirst
    cases hfirst
  have hr : ¬(first == byte '\r') = true := by
    intro hc
    rw [Byte.isNewline, hc, Bool.or_true] at hfirst
    cases hfirst
  simp only [of, head?_crlf (c := byte '/') rfl, head?_crlf (c := byte '*') rfl, any_head?_crlf (p := Byte.isDigit) rfl]
  refine ite_rel (fun hc ↦ absurd hc hn) fun _ ↦ ite_rel (fun hc ↦ absurd hc hr) fun _ ↦
    ite_rel (fun _ ↦ .takeWhile _ rfl rfl) fun _ ↦ ite_rel (fun _ ↦ .takeWhile _ rfl rfl) fun _ ↦
    ite_rel (fun hc ↦ ?blockComment) fun _ ↦ ite_rel (fun hc ↦ ?directive) fun _ ↦
    ite_rel (fun hc ↦ ?quoted) fun _ ↦ ite_rel (fun _ ↦ number_crlf first rest) fun _ ↦
    ite_rel (fun _ ↦ word_crlf h) fun _ ↦ ite_rel (fun _ ↦ backslash_crlf first rest) fun _ ↦
    ite_rel (fun _ ↦ .takeWhile _ rfl rfl) fun _ ↦ ?punctuator
  case blockComment => exact blockComment_crlf (by simpa using (Bool.and_eq_true_iff.1 hc).2)
  case directive =>
    obtain rfl : first = byte '#' := by simpa using (Bool.and_eq_true_iff.1 hc).1
    exact directive_crlf h
  case quoted => exact quoted_crlf h rfl List.not_mem_nil
  case punctuator => exact punctuator_crlf (by simpa using hn) rest

end Token.Extent

theorem Point.walk_crlf (p : Point) {bytes : List UInt8} (h : byte '\r' ∉ bytes) (after after' : Option UInt8) :
    p.walk (crlf bytes) after' = p.walk bytes after := by
  induction bytes generalizing p with
  | nil => rfl
  | cons b bytes ih =>
    have hbytes := mt (List.mem_cons_of_mem b) h
    by_cases hb : b = byte '\n'
    · subst hb
      exact ih ⟨p.line + 1, 1⟩ hbytes
    · have hr : (b == byte '\r') = false := beq_false_of_ne fun hr ↦ h (hr ▸ List.mem_cons_self)
      simp only [crlf_cons hb, walk, step, hr, Bool.false_and, ih _ hbytes]

/-- The offset, in the rewritten text, of what has the given offset in `src`. -/
def Text.crlfOffset (src : List UInt8) (offset : Nat) : Nat := (crlf (src.take offset)).length

def Span.crlf (src : List UInt8) (s : Span) : Span :=
  { s with startByte := crlfOffset src s.startByte, endByte := crlfOffset src s.endByte }

/-- The token of the rewritten text: its bytes are rewritten, its lines and columns are the same. -/
def Token.crlf (src : List UInt8) (t : Token) : Token :=
  ⟨t.kind, Text.crlf t.bytes, Utf8.lossy (Text.crlf t.bytes), t.span.crlf src⟩

def LexError.crlf (src : List UInt8) (e : LexError) : LexError := ⟨e.fault, e.span.crlf src⟩

namespace Token

def Lexeme.crlf (l : Lexeme) : Lexeme :=
  ⟨l.kind, Text.crlf l.bytes, l.dangling.map fun k ↦ (Text.crlf (l.bytes.take k)).length⟩

theorem lexemes_crlf (code : Bool) {src : List UInt8} (h : byte '\r' ∉ src) :
    lexemes code (Text.crlf src) = (lexemes code src).map Lexeme.crlf := by
  fun_induction lexemes code src with
  | case1 => simp [Text.crlf, lexemes]
  | case2 code b rest e ih =>
    have hrest := mt (List.mem_cons_of_mem b) h
    have ih := ih (mt List.mem_of_mem_drop hrest)
    by_cases hb : b = byte '\n'
    · subst hb
      rw [crlf_newline, lexemes]
      exact congrArg _ ih
    · have hr : b ≠ byte '\r' := fun hr ↦ h (hr ▸ List.mem_cons_self)
      have hline : Byte.isNewline b = false := by
        rw [Byte.isNewline, beq_false_of_ne hb, beq_false_of_ne hr]
        rfl
      have hrec := Extent.of_crlf code hline hrest
      have hdangling : e.dangling.map (fun k ↦ (Text.crlf ((b :: rest).take k)).length) =
          e.dangling.map fun k ↦ (Text.crlf ((b :: rest.take e.more).take k)).length := by
        apply Option.map_congr
        intro k hk
        have hle := (Extent.of_dangling code b rest k hk).1
        rw [← List.take_succ_cons, List.take_take, Nat.min_eq_left (Nat.le_succ_of_le hle)]
      rw [crlf_cons hb, crlf_split rest e.more, lexemes_part rfl (by rw [← crlf_split]; exact hrec.more.symm),
        ← crlf_split, hrec.kind, hrec.dangling, hdangling, ih, List.map_cons, Lexeme.crlf, crlf_cons hb]

theorem crlfOffset_append (front back : List UInt8) :
    crlfOffset (front ++ back) front.length = (Text.crlf front).length := by
  rw [crlfOffset, List.take_left]

theorem crlfOffset_part {src before part after : List UInt8} (h : src = before ++ (part ++ after)) {k : Nat}
    (hk : k ≤ part.length) : crlfOffset src (before.length + k) =
      (Text.crlf before).length + (Text.crlf (part.take k)).length := by
  rw [h, crlfOffset, List.take_length_add_append, List.take_append_of_le_length hk, crlf_append, List.length_append]

namespace Spot

/-- A spot of the lexemes of `src`. -/
structure In (src : List UInt8) (s : Spot) : Prop where
  part : ∃ before after, src = before ++ (s.lexeme.bytes ++ after) ∧ before.length = s.offset
  dangling : ∀ k ∈ s.lexeme.dangling, s.lexeme.bytes[k]? = some (byte '\\')

def crlf (src : List UInt8) (s : Spot) : Spot := ⟨s.lexeme.crlf, crlfOffset src s.offset, s.start, s.stop⟩

variable {src : List UInt8} {s : Spot}

theorem In.offset_add (h : s.In src) {k : Nat} (hk : k ≤ s.lexeme.bytes.length) :
    crlfOffset src s.offset + (Text.crlf (s.lexeme.bytes.take k)).length = crlfOffset src (s.offset + k) := by
  obtain ⟨before, after, hsrc, hlen⟩ := h.part
  have hstart := crlfOffset_part hsrc (Nat.zero_le _)
  rw [← hlen, crlfOffset_part hsrc hk, ← Nat.add_zero before.length, hstart]
  rfl

theorem In.notMem (h : s.In src) (hr : byte '\r' ∉ src) : byte '\r' ∉ s.lexeme.bytes := by
  obtain ⟨before, after, hsrc, -⟩ := h.part
  intro hmem
  rw [hsrc] at hr
  exact hr (List.mem_append_right _ (List.mem_append_left _ hmem))

theorem token_crlf (h : s.In src) : (s.crlf src).token = s.token.crlf src := by
  have hstop := h.offset_add (Nat.le_refl _)
  rw [List.take_length] at hstop
  rw [token, crlf, Lexeme.crlf, hstop]
  rfl

theorem errors_crlf (hr : byte '\r' ∉ src) (h : s.In src) :
    (s.crlf src).errors = s.errors.map (LexError.crlf src) := by
  have hinvalid : (s.crlf src).invalid = s.invalid.map (LexError.crlf src) := by
    have hstop := h.offset_add (Nat.le_refl _)
    rw [List.take_length] at hstop
    rw [invalid, crlf, Lexeme.crlf, hstop, invalid, Option.map_map]
    rfl
  have hdangling : (s.crlf src).dangling = s.dangling.map (LexError.crlf src) := by
    rw [dangling, crlf, Lexeme.crlf, dangling, Option.map_map, Option.map_map]
    apply Option.map_congr
    intro k hk
    obtain ⟨hlt, hbyte⟩ := List.getElem?_eq_some_iff.1 (h.dangling k hk)
    have hhere : s.start.walk ((Text.crlf s.lexeme.bytes).take (Text.crlf (s.lexeme.bytes.take k)).length)
        (some (byte '\\')) = s.start.walk (s.lexeme.bytes.take k) (some (byte '\\')) := by
      rw [take_crlf]
      exact s.start.walk_crlf (mt List.mem_of_mem_take (h.notMem hr)) _ _
    have hnext := h.offset_add hlt
    rw [List.take_succ_eq_append_getElem hlt, hbyte, crlf_append, List.length_append, ← Nat.add_assoc] at hnext
    simp only [Function.comp_apply, hhere, h.offset_add (Nat.le_of_lt hlt)]
    rw [h.offset_add (Nat.le_of_lt hlt)] at hnext
    rw [show crlfOffset src (s.offset + k) + 1 = _ from hnext]
    rfl
  rw [errors, hinvalid, hdangling, errors, List.map_append, Option.toList_map, Option.toList_map]

end Spot

theorem mem_spots {src : List UInt8} {ls : List Lexeme}
    (hd : ∀ l ∈ ls, ∀ k ∈ l.dangling, l.bytes[k]? = some (byte '\\')) (before : List UInt8)
    (h : src = before ++ ls.flatMap Lexeme.bytes) (p : Point) : ∀ s ∈ spots before.length p ls, s.In src := by
  induction ls generalizing before p with
  | nil => simp [spots]
  | cons l ls ih =>
    intro s hs
    rcases List.mem_cons.1 hs with rfl | hs
    · exact ⟨⟨before, _, h, rfl⟩, hd l List.mem_cons_self⟩
    · rw [List.flatMap_cons, ← List.append_assoc] at h
      rw [← List.length_append] at hs
      exact ih (fun l hl ↦ hd l (List.mem_cons_of_mem _ hl)) _ h _ s hs

theorem spots_crlf {src : List UInt8} (hr : byte '\r' ∉ src) {ls : List Lexeme} (before : List UInt8)
    (h : src = before ++ ls.flatMap Lexeme.bytes) (p : Point) :
    spots (Text.crlf before).length p (ls.map Lexeme.crlf) = (spots before.length p ls).map (Spot.crlf src) := by
  induction ls generalizing before p with
  | nil => rfl
  | cons l ls ih =>
    have hbytes : byte '\r' ∉ l.bytes := by
      intro hmem
      rw [h, List.flatMap_cons] at hr
      exact hr (List.mem_append_right _ (List.mem_append_left _ hmem))
    have hstart : crlfOffset src before.length = (Text.crlf before).length := by rw [h, crlfOffset_append]
    rw [List.flatMap_cons, ← List.append_assoc] at h
    rw [List.map_cons, spots, spots, List.map_cons, Spot.crlf, hstart, Lexeme.crlf,
      p.walk_crlf hbytes (firstByte ls) (firstByte (ls.map Lexeme.crlf)), ← List.length_append, ← crlf_append,
      ih _ h, ← List.length_append]

/-- A run of non-ASCII bytes lies in one line. -/
theorem crlf_run {b : UInt8} (hb : Byte.isNonAscii b = true) (rest : List UInt8) :
    Text.crlf (b :: rest.takeWhile Byte.isNonAscii) = b :: rest.takeWhile Byte.isNonAscii := by
  apply crlf_eq_self
  intro hmem
  rcases List.mem_cons.1 hmem with rfl | hmem
  · cases hb
  · exact newline_notMem_takeWhile rfl rest hmem

theorem nonAsciiRuns_crlf {src bytes : List UInt8} (hr : byte '\r' ∉ bytes) (before : List UInt8)
    (h : src = before ++ bytes) (p : Point) : nonAsciiRuns (Text.crlf before).length p (Text.crlf bytes) =
      (nonAsciiRuns before.length p bytes).map (LexError.crlf src) := by
  generalize ho : before.length = offset
  fun_induction nonAsciiRuns offset p bytes generalizing before with
  | case1 => rw [crlf_nil, nonAsciiRuns, List.map_nil]
  | case2 offset p b rest hb more q =>
    rename_i ih
    have hbn : b ≠ byte '\n' := fun hbn ↦ by rw [hbn] at hb; cases hb
    have hsplit : rest.takeWhile Byte.isNonAscii ++ rest.drop more = rest := by
      rw [List.prefix_iff_eq_take.1 (List.takeWhile_prefix (l := rest) Byte.isNonAscii), List.take_append_drop]
    have hsrc : src = before ++ (b :: rest.takeWhile Byte.isNonAscii) ++ rest.drop more := by
      rw [List.append_assoc, List.cons_append, hsplit, h]
    have hdrop : (Text.crlf rest).drop more = Text.crlf (rest.drop more) := by
      nth_rewrite 1 [← hsplit]
      rw [crlf_append, crlf_eq_self (newline_notMem_takeWhile rfl rest), List.drop_left]
    have hnext : (Text.crlf (before ++ b :: rest.takeWhile Byte.isNonAscii)).length =
        (Text.crlf before).length + 1 + more := by
      rw [crlf_append, crlf_run hb, List.length_append, List.length_cons, Nat.add_assoc, Nat.add_comm 1]
    have hlen : (before ++ b :: rest.takeWhile Byte.isNonAscii).length = offset + 1 + more := by
      rw [List.length_append, List.length_cons, ho, Nat.add_assoc, Nat.add_comm 1]
    have hstart : (Text.crlf before).length = crlfOffset src offset := by rw [h, ← ho, crlfOffset_append]
    have hstop : (Text.crlf before).length + 1 + more = crlfOffset src (offset + 1 + more) := by
      rw [← hlen, ← hnext, hsrc, crlfOffset_append]
    have ih := ih (mt List.mem_of_mem_drop (mt (List.mem_cons_of_mem _) hr)) _ hsrc hlen
    rw [crlf_cons hbn, nonAsciiRuns, if_pos hb]
    dsimp only
    rw [takeWhile_crlf rfl rfl, hdrop, ← hnext, ih, hnext, hstop, hstart]
    rfl
  | case3 offset p b rest hb =>
    rename_i ih
    have hrest := mt (List.mem_cons_of_mem _) hr
    have ih := ih hrest _ (h.trans (List.append_cons ..)) (by rw [List.length_append, ho]; rfl)
    by_cases hbn : b = byte '\n'
    · subst hbn
      rw [crlf_append, List.length_append] at ih
      rw [crlf_newline, nonAsciiRuns, if_neg (by decide), nonAsciiRuns, if_neg hb]
      exact ih
    · have hbr : (b == byte '\r') = false := beq_false_of_ne fun hbr ↦ hr (hbr ▸ List.mem_cons_self)
      rw [crlf_append, crlf_cons hbn, List.length_append] at ih
      rw [crlf_cons hbn, nonAsciiRuns, if_neg hb, Point.step, hbr, ← ih, Point.step, hbr]
      rfl

theorem crlfOffset_lt {src : List UInt8} {j k : Nat} (hlt : j < k) (hk : k ≤ src.length) :
    crlfOffset src j < crlfOffset src k := by
  have hne : (src.take k).drop j ≠ [] := by
    apply List.ne_nil_of_length_pos
    rw [List.length_drop, List.length_take_of_le hk]
    omega
  have hpos := List.length_pos_iff.2 (crlf_ne_nil hne)
  rw [crlfOffset, crlfOffset, crlf_split (src.take k) j, List.take_take, Nat.min_eq_left (Nat.le_of_lt hlt),
    List.length_append]
  omega

theorem crlfOffset_le_iff {src : List UInt8} {j k : Nat} (hj : j ≤ src.length) (hk : k ≤ src.length) :
    crlfOffset src j ≤ crlfOffset src k ↔ j ≤ k := by
  constructor
  · intro hle
    by_contra hlt
    exact absurd (crlfOffset_lt (Nat.lt_of_not_le hlt) hj) (Nat.not_lt_of_le hle)
  · intro hle
    rcases Nat.eq_or_lt_of_le hle with rfl | hlt
    · exact Nat.le_refl _
    · exact Nat.le_of_lt (crlfOffset_lt hlt hk)

section

variable {src : List UInt8} (h : byte '\r' ∉ src)

theorem spots_in : ∀ s ∈ spots 0 Point.first (lexemes false src), s.In src :=
  mem_spots lexemes_dangling [] (lexemes_flatMap false src).symm Point.first

include h

theorem spots_lexemes_crlf : spots 0 Point.first (lexemes false (Text.crlf src)) =
    (spots 0 Point.first (lexemes false src)).map (Spot.crlf src) := by
  rw [lexemes_crlf false h]
  exact spots_crlf h [] (lexemes_flatMap false src).symm Point.first

theorem lexemeErrors_crlf : lexemeErrors 0 Point.first (lexemes false (Text.crlf src)) =
    (lexemeErrors 0 Point.first (lexemes false src)).map (LexError.crlf src) := by
  rw [lexemeErrors_eq, spots_lexemes_crlf h, lexemeErrors_eq, List.flatMap_map, List.map_flatMap]
  exact List.flatMap_congr fun s hs ↦ Spot.errors_crlf h (spots_in s hs)

theorem lexErrors_crlf : lexErrors (Text.crlf src) = (lexErrors src).map (LexError.crlf src) := by
  have hruns : nonAsciiRuns 0 Point.first (Text.crlf src) =
      (nonAsciiRuns 0 Point.first src).map (LexError.crlf src) := nonAsciiRuns_crlf h [] rfl Point.first
  rw [lexErrors, lexErrors, lexemeErrors_crlf h, hruns, ← List.map_append]
  refine (List.map_mergeSort fun e he f hf ↦ ?_).symm
  have hle := crlfOffset_le_iff (Nat.le_of_lt (lexError_start_lt (List.mem_mergeSort.2 he)))
    (Nat.le_of_lt (lexError_start_lt (List.mem_mergeSort.2 hf)))
  exact decide_eq_decide.2 hle.symm

end

/-- Rewritten line ends change bytes and offsets only. -/
theorem tokenize_crlf (src : List UInt8) (h : byte '\r' ∉ src) :
    tokenize (Text.crlf src) = (tokenize src).map (Token.crlf src) ∧
      lexErrors (Text.crlf src) = (lexErrors src).map (LexError.crlf src) := by
  refine ⟨?_, lexErrors_crlf h⟩
  rw [tokenize, place_eq, spots_lexemes_crlf h, tokenize, place_eq, List.map_map, List.map_map]
  exact List.map_congr_left fun s hs ↦ Spot.token_crlf (spots_in s hs)

/-- A comment and a literal over two lines, a directive that the last line does not continue, and a damaged byte. -/
theorem tokenize_crlf_continued :
    ∃ src, src = bytesOf "/*\né*/ \"a\\\nb\nx\n#y\\\n" ∧ byte '\r' ∉ src ∧
      tokenize (Text.crlf src) = (tokenize src).map (Token.crlf src) ∧
      lexErrors (Text.crlf src) = (lexErrors src).map (LexError.crlf src) := by
  have h : byte '\r' ∉ bytesOf "/*\né*/ \"a\\\nb\nx\n#y\\\n" := by decide +kernel
  exact ⟨_, rfl, h, tokenize_crlf _ h⟩

end Token

end CodeStyle
