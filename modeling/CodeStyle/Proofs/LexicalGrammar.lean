import CodeStyle.Proofs.LexErrors
import Mathlib.Data.List.Induction

/-!
The lexical grammar. What the bytes of a token look like is said for each kind of token without the
scanners, together with what may not follow: a token goes on as far as its kind allows. A `#` starts a
directive exactly if only blanks and comments stand before it on its line.
-/

namespace CodeStyle.Token

open Text

/-- Whether a byte behind `front` is escaped: a backslash that is not escaped itself stands right before it. -/
def escaped (front : List UInt8) : Bool := front.foldl (fun before b ↦ b == byte '\\' && !before) false

/-- Behind `body` stands the first quote that is not escaped. -/
def ClosedBy (quote : UInt8) (body : List UInt8) : Prop :=
  escaped body = false ∧ ∀ inner rest, body = inner ++ quote :: rest → escaped inner = true

/-- A literal in quotes, with or without an encoding word before it. -/
def IsQuoted (quote : UInt8) (bytes : List UInt8) : Prop :=
  ∃ mark body, mark ∈ [] :: Extent.encodingPrefixes ∧ bytes = mark ++ quote :: (body ++ [quote]) ∧ ClosedBy quote body

/-- A run of bytes of a class that does not go on behind it. -/
def IsRunOf (p : UInt8 → Bool) (after bytes : List UInt8) : Prop :=
  bytes ≠ [] ∧ (∀ b ∈ bytes, p b = true) ∧ ∀ b ∈ after.head?, p b = false

def IsWord (after bytes : List UInt8) : Prop :=
  IsRunOf Byte.isWord after bytes ∧ ∀ b ∈ bytes.head?, Byte.isDigit b = false

/-- The longest operator with which the text starts. -/
def IsLongest (after bytes : List UInt8) : Prop :=
  bytes ∈ Extent.operators ∧ ∀ op ∈ Extent.operators, op <+: bytes ++ after → op.length ≤ bytes.length

/-- A comment in which `*/` comes for the first time at its end. -/
def IsBlockComment (bytes : List UInt8) : Prop :=
  ∃ body, bytes = bytesOf "/*" ++ (body ++ bytesOf "*/") ∧
    ∀ k < body.length, ¬bytesOf "*/" <+: (body ++ bytesOf "*/").drop k

/-- Whether `bytes` may be those of a token of a kind when `after` follows. -/
def Kind.Spells (after bytes : List UInt8) : Kind → Prop
  | .newline =>
    bytes = [byte '\n'] ∨ bytes = [byte '\r', byte '\n'] ∨
      bytes = [byte '\r'] ∧ after.head? ≠ some (byte '\n')
  | .whitespace =>
    IsRunOf Byte.isBlank after bytes ∨ bytes = [byte '\\'] ∧ after.head?.any Byte.isNewline = true
  | .lineComment =>
    bytesOf "//" <+: bytes ∧ (∀ b ∈ bytes, Byte.isNewline b = false) ∧ ∀ b ∈ after.head?, Byte.isNewline b = true
  | .blockComment => IsBlockComment bytes
  | .identifier => IsWord after bytes ∧ bytes ∉ Extent.keywordBytes
  | .keyword => IsWord after bytes ∧ bytes ∈ Extent.keywordBytes
  | .operator => IsLongest after bytes ∧ bytes ∉ Extent.punctuation
  | .punctuation => IsLongest after bytes ∧ bytes ∈ Extent.punctuation
  | .stringLiteral => IsQuoted (byte '"') bytes
  | .charLiteral => IsQuoted (byte '\'') bytes
  | .directive => bytes.head? = some (byte '#')
  | .intLiteral | .floatLiteral | .invalid _ => True

theorem escaped_cons {b : UInt8} (hb : b ≠ byte '\\') (front : List UInt8) : escaped (b :: front) = escaped front := by
  rw [escaped, List.foldl_cons, beq_false_of_ne hb]
  rfl

theorem escaped_pair (c : UInt8) (front : List UInt8) : escaped (byte '\\' :: c :: front) = escaped front := by
  rw [escaped, List.foldl_cons, List.foldl_cons]
  simp [escaped]

namespace ClosedBy

variable {quote b : UInt8} {body : List UInt8}

theorem nil (quote : UInt8) : ClosedBy quote [] := ⟨rfl, by simp⟩

theorem cons (h : ClosedBy quote body) (hb : b ≠ byte '\\') (hne : b ≠ quote) : ClosedBy quote (b :: body) := by
  refine ⟨by rw [escaped_cons hb, h.1], fun inner rest he ↦ ?_⟩
  cases inner with
  | nil => exact absurd (List.cons.inj he).1 hne
  | cons d inner =>
    obtain ⟨rfl, htail⟩ := List.cons.inj he
    rw [escaped_cons hb]
    exact h.2 inner rest htail

/-- A backslash takes the byte behind it along. -/
theorem pair (h : ClosedBy quote body) (hquote : quote ≠ byte '\\') (c : UInt8) :
    ClosedBy quote (byte '\\' :: c :: body) := by
  refine ⟨by rw [escaped_pair, h.1], fun inner rest he ↦ ?_⟩
  cases inner with
  | nil => exact absurd (List.cons.inj he).1.symm hquote
  | cons d inner =>
    obtain ⟨rfl, hpair⟩ := List.cons.inj he
    cases inner with
    | nil => rfl
    | cons d inner =>
      obtain ⟨rfl, htail⟩ := List.cons.inj hpair
      rw [escaped_pair]
      exact h.2 inner rest htail

end ClosedBy

namespace Extent

theorem quotedReach_closed {quote : UInt8} (hquote : Byte.isQuote quote = true) {taken reach : Nat}
    {bytes : List UInt8} (h : quotedReach quote taken bytes = (reach, true)) :
    ∃ body after, bytes = body ++ quote :: after ∧ reach = taken + body.length + 1 ∧ ClosedBy quote body := by
  have hslash : quote ≠ byte '\\' := by
    rintro rfl
    exact absurd hquote (by decide)
  have hbreak : byte '\n' ≠ quote := by
    rintro rfl
    exact absurd hquote (by decide)
  fun_induction quotedReach quote taken bytes with
  | case1 => cases h
  | case2 => cases h
  | case3 => cases h
  | case4 => cases h
  | case5 taken b _ hb c d rest hc ih =>
    -- the backslash takes both bytes of the break, but the second one is none to be escaped
    obtain ⟨body, after, rfl, hreach, hclosed⟩ := ih h
    obtain rfl := eq_of_beq hb
    obtain rfl : d = byte '\n' := by simpa using (Bool.and_eq_true_iff.1 hc).2
    refine ⟨byte '\\' :: c :: byte '\n' :: body, after, rfl, ?_, (hclosed.cons (by decide) hbreak).pair hslash c⟩
    simp only [List.length_cons, hreach]
    omega
  | case6 taken b _ hb c rest hc ih =>
    obtain ⟨body, after, rfl, hreach, hclosed⟩ := ih h
    obtain rfl := eq_of_beq hb
    refine ⟨byte '\\' :: c :: body, after, rfl, ?_, hclosed.pair hslash c⟩
    simp only [List.length_cons, hreach]
    omega
  | case7 taken b rest _ _ hb =>
    obtain rfl := eq_of_beq hb
    exact ⟨[], rest, rfl, (Prod.mk.inj h).1.symm, .nil b⟩
  | case8 taken b rest _ hb hq ih =>
    obtain ⟨body, after, rfl, hreach, hclosed⟩ := ih h
    refine ⟨b :: body, after, rfl, ?_, hclosed.cons (by simpa using hb) (by simpa using hq)⟩
    simp only [List.length_cons, hreach]
    omega

theorem bytesOf_close : bytesOf "*/" = [byte '*', byte '/'] := by decide +kernel

theorem commentClose_first {bytes : List UInt8} {n : Nat} (h : commentClose bytes = some n) :
    ∃ body after, bytes = body ++ (bytesOf "*/" ++ after) ∧ n = body.length + 2 ∧
      ∀ k < body.length, ¬bytesOf "*/" <+: (body ++ bytesOf "*/").drop k := by
  rw [bytesOf_close]
  fun_induction commentClose bytes generalizing n with
  | case1 => cases h
  | case2 b rest hb =>
    obtain ⟨hstar, hslash⟩ := Bool.and_eq_true_iff.1 hb
    obtain rfl := eq_of_beq hstar
    obtain ⟨after, rfl⟩ := List.head?_eq_some_iff.1 (eq_of_beq hslash)
    cases h
    exact ⟨[], after, rfl, rfl, by simp⟩
  | case3 b rest hb ih =>
    obtain ⟨m, hm, rfl⟩ := Option.map_eq_some_iff.1 h
    obtain ⟨body, after, rfl, rfl, hfirst⟩ := ih hm
    refine ⟨b :: body, after, rfl, by simp, fun k hk hstarts ↦ ?_⟩
    cases k with
    | zero =>
      refine hb ?_
      cases body with
      | nil => simp_all
      | cons c body => simp_all
    | succ k => exact hfirst k (by simpa using hk) hstarts

/-- The token that an extent cuts off obeys the grammar of its kind. -/
def Fits (e : Extent) (first : UInt8) (rest : List UInt8) : Prop :=
  e.kind.Spells (rest.drop e.more) (first :: rest.take e.more)

section

variable {e : Extent} {first : UInt8} {rest bytes after : List UInt8}

theorem Fits.of_append (hcut : first :: rest = bytes ++ after) (hlen : bytes.length = e.more + 1)
    (h : e.kind.Spells after bytes) : e.Fits first rest := by
  have htake : first :: rest.take e.more = bytes := by
    rw [← List.take_succ_cons, hcut, List.take_left' hlen]
  have hdrop : rest.drop e.more = after := by
    rw [← List.drop_succ_cons, hcut, List.drop_left' hlen]
  rwa [Fits, htake, hdrop]

theorem isRunOf_takeWhile {p : UInt8 → Bool} (hfirst : p first = true) (rest : List UInt8) :
    IsRunOf p (rest.dropWhile p) (first :: rest.takeWhile p) := by
  refine ⟨List.cons_ne_nil _ _, ?_, fun b hb ↦ ?_⟩
  · simpa [hfirst] using fun b ↦ List.mem_takeWhile_imp
  · have h := List.head?_dropWhile_not p rest
    rwa [hb] at h

theorem cut_takeWhile (p : UInt8 → Bool) : first :: rest = first :: rest.takeWhile p ++ rest.dropWhile p := by
  rw [List.cons_append, List.takeWhile_append_dropWhile]

/-- A literal obeys the grammar unless it is not closed, and is then of no kind that has one. -/
theorem quoted_fits {quote : UInt8} (hquote : Byte.isQuote quote = true) {mark tail : List UInt8}
    (hmark : mark ∈ [] :: encodingPrefixes) (hcut : first :: rest = mark ++ quote :: tail) :
    (quoted quote mark.length tail).Fits first rest := by
  cases hreach : quotedReach quote 0 tail with
  | mk taken closed =>
    cases closed with
    | false =>
      simp only [Fits, quoted, hreach, plain]
      trivial
    | true =>
      obtain ⟨body, after, rfl, rfl, hclosed⟩ := quotedReach_closed hquote hreach
      have hspells : IsQuoted quote (mark ++ quote :: (body ++ [quote])) := ⟨mark, body, hmark, rfl, hclosed⟩
      have hliteral : first :: rest = mark ++ quote :: (body ++ [quote]) ++ after := by simpa using hcut
      refine .of_append hliteral ?_ ?_
      · simp only [quoted, hreach, plain, List.length_append, List.length_cons, List.length_nil]
        omega
      · simp only [quoted, hreach, plain, if_true]
        split
        · rename_i hstring
          obtain rfl := eq_of_beq hstring
          exact hspells
        · rename_i hstring
          obtain rfl : quote = byte '\'' := eq_of_beq ((Bool.or_eq_true_iff.1 hquote).resolve_left hstring)
          exact hspells

theorem word_fits (hfirst : Byte.startsWord first = true) (hdigit : Byte.isDigit first = false) (rest : List UInt8) :
    (word first rest).Fits first rest := by
  have htake : rest.take (rest.takeWhile Byte.isWord).length = rest.takeWhile Byte.isWord :=
    (List.prefix_iff_eq_take.1 (List.takeWhile_prefix Byte.isWord)).symm
  have hdrop : rest.drop (rest.takeWhile Byte.isWord).length = rest.dropWhile Byte.isWord := by
    nth_rewrite 2 [← List.takeWhile_append_dropWhile (p := Byte.isWord) (l := rest)]
    exact List.drop_left
  have hword : IsWord (rest.dropWhile Byte.isWord) (first :: rest.takeWhile Byte.isWord) :=
    ⟨isRunOf_takeWhile (by rw [Byte.isWord, hfirst, Bool.true_or]) rest, by simpa using hdigit⟩
  have plain_fits : (plain (if keywordBytes.contains (first :: rest.takeWhile Byte.isWord) then .keyword
      else .identifier) (rest.takeWhile Byte.isWord).length).Fits first rest := by
    refine .of_append (cut_takeWhile Byte.isWord) rfl ?_
    simp only [plain]
    split
    · rename_i hkey
      exact ⟨hword, by simpa using hkey⟩
    · rename_i hkey
      exact ⟨hword, by simpa using hkey⟩
  simp only [word, htake, hdrop]
  split
  · exact plain_fits
  · rename_i q after hafter
    split
    · rename_i hq
      obtain ⟨hq, hmark⟩ := Bool.and_eq_true_iff.1 hq
      have hmark : first :: rest.takeWhile Byte.isWord ∈ [] :: encodingPrefixes :=
        List.mem_cons_of_mem _ (by simpa using hmark)
      have hcut : first :: rest = first :: rest.takeWhile Byte.isWord ++ q :: after := by
        rw [← hafter]
        exact cut_takeWhile Byte.isWord
      exact quoted_fits hq hmark hcut
    · exact plain_fits

theorem operators_sorted : operators.Pairwise fun op later ↦ later.length ≤ op.length := by
  decide +kernel

theorem punctuator_fits (first : UInt8) (rest : List UInt8) : (punctuator first rest).Fits first rest := by
  unfold punctuator
  split
  · rename_i op hop
    obtain ⟨hstarts, before, behind, htable, hbefore⟩ := List.find?_eq_some_iff_append.1 hop
    have hmem : op ∈ operators := List.mem_of_find?_eq_some hop
    obtain ⟨after, hafter⟩ := List.isPrefixOf_iff_prefix.1 hstarts
    have hlongest : IsLongest after op := by
      refine ⟨hmem, fun other hother hlonger ↦ ?_⟩
      rw [htable, List.mem_append, List.mem_cons] at hother
      -- an entry before `op` does not match, and one behind it is not longer
      rcases hother with hb | rfl | hb
      · have hnot := hbefore other hb
        rw [hafter, ← List.isPrefixOf_iff_prefix] at hlonger
        rw [hlonger] at hnot
        cases hnot
      · exact le_rfl
      · have hsorted := htable ▸ operators_sorted
        exact (List.pairwise_cons.1 (List.pairwise_append.1 hsorted).2.1).1 other hb
    refine .of_append hafter.symm (Nat.sub_add_cancel ?_).symm ?_
    · exact List.length_pos_iff.2 (operators_ascii op hmem).1
    · simp only [plain]
      split
      · rename_i hpunct
        exact ⟨hlongest, by simpa using hpunct⟩
      · rename_i hpunct
        exact ⟨hlongest, by simpa using hpunct⟩
  · trivial

theorem lineComment_fits (hrest : rest.head? = some (byte '/')) : (lineComment rest).Fits (byte '/') rest := by
  obtain ⟨tail, rfl⟩ := List.head?_eq_some_iff.1 hrest
  have hfirst : (!Byte.isNewline (byte '/')) = true := rfl
  obtain ⟨-, hline, hafter⟩ := isRunOf_takeWhile (p := fun b ↦ !Byte.isNewline b) hfirst (byte '/' :: tail)
  refine .of_append (cut_takeWhile fun b ↦ !Byte.isNewline b) rfl ⟨?_, ?_, ?_⟩
  · have hmark : bytesOf "//" = [byte '/', byte '/'] := by decide +kernel
    rw [hmark]
    exact ⟨tail.takeWhile fun b ↦ !Byte.isNewline b, rfl⟩
  · simpa using hline
  · simpa using hafter

theorem blockComment_fits (hrest : rest.head? = some (byte '*')) : (blockComment rest).Fits (byte '/') rest := by
  obtain ⟨tail, rfl⟩ := List.head?_eq_some_iff.1 hrest
  simp only [blockComment, List.drop_succ_cons, List.drop_zero]
  split
  · rename_i n hn
    obtain ⟨body, after, rfl, rfl, hfirst⟩ := commentClose_first hn
    have hopen : bytesOf "/*" = [byte '/', byte '*'] := by decide +kernel
    have hcut : byte '/' :: byte '*' :: (body ++ (bytesOf "*/" ++ after)) =
        bytesOf "/*" ++ (body ++ bytesOf "*/") ++ after := by
      rw [List.append_assoc, List.append_assoc, hopen]
      rfl
    refine .of_append hcut ?_ ⟨body, rfl, hfirst⟩
    rw [hopen, bytesOf_close, List.length_append, List.length_append]
    exact Nat.add_comm 2 _
  · trivial

theorem carriageReturn_fits (rest : List UInt8) :
    (plain .newline (if rest.head? == some (byte '\n') then 1 else 0)).Fits (byte '\r') rest := by
  split
  · rename_i h
    obtain ⟨tail, rfl⟩ := List.head?_eq_some_iff.1 (eq_of_beq h)
    exact .inr (.inl rfl)
  · rename_i h
    exact .inr (.inr ⟨rfl, fun hbreak ↦ h (beq_iff_eq.2 hbreak)⟩)

theorem backslash_fits (rest : List UInt8) : (backslash rest).Fits (byte '\\') rest := by
  unfold backslash
  split
  · trivial
  · rename_i b hb
    split
    · rename_i hnewline
      refine .inr ⟨rfl, ?_⟩
      simpa [plain, hb] using hnewline
    · trivial

end

theorem of_fits (lineHasCode : Bool) (first : UInt8) (rest : List UInt8) :
    (of lineHasCode first rest).Fits first rest := by
  fun_cases of lineHasCode first rest with
  | case1 h => exact .inl (by rw [eq_of_beq h]; rfl)
  | case2 _ h =>
    obtain rfl := eq_of_beq h
    exact carriageReturn_fits rest
  | case3 _ _ h => exact .of_append (cut_takeWhile Byte.isBlank) rfl (.inl (isRunOf_takeWhile h rest))
  | case4 _ _ _ h =>
    obtain ⟨hfirst, hrest⟩ := Bool.and_eq_true_iff.1 h
    obtain rfl := eq_of_beq hfirst
    exact lineComment_fits (eq_of_beq hrest)
  | case5 _ _ _ _ h =>
    obtain ⟨hfirst, hrest⟩ := Bool.and_eq_true_iff.1 h
    obtain rfl := eq_of_beq hfirst
    exact blockComment_fits (eq_of_beq hrest)
  | case6 _ _ _ _ _ h =>
    rw [eq_of_beq (Bool.and_eq_true_iff.1 h).1]
    exact rfl
  | case7 _ _ _ _ _ _ h => exact quoted_fits h List.mem_cons_self rfl
  | case8 =>
    simp only [Fits, number, plain]
    split <;> trivial
  | case9 _ _ _ _ _ _ _ hnumber h =>
    exact word_fits h (Bool.or_eq_false_iff.1 (Bool.eq_false_iff.2 hnumber)).1 rest
  | case10 _ _ _ _ _ _ _ _ _ h =>
    obtain rfl := eq_of_beq h
    exact backslash_fits rest
  | case11 => trivial
  | case12 => exact punctuator_fits first rest

/-- A byte that is an operator starts one, whatever follows it. -/
theorem punctuator_of_mem {b : UInt8} (h : [b] ∈ operators) (rest : List UInt8) :
    ∃ op ∈ operators, op.head? = some b ∧
      punctuator b rest = plain (if punctuation.contains op then .punctuation else .operator) (op.length - 1) := by
  rw [punctuator]
  split
  · rename_i op hop
    have hmem := List.mem_of_find?_eq_some hop
    obtain ⟨c, tail, rfl⟩ := List.exists_cons_of_ne_nil (operators_ascii op hmem).1
    have hstarts : c :: tail <+: b :: rest := by simpa using List.find?_some hop
    exact ⟨_, hmem, congrArg some (List.cons_prefix_cons.1 hstarts).1, rfl⟩
  · rename_i hnone
    exact absurd (List.isPrefixOf_iff_prefix.2 ⟨rest, rfl⟩) (List.find?_eq_none.1 hnone [b] h)

/-- A `#` is read as an operator behind code on its line, whatever follows it. -/
theorem of_hash (lineHasCode : Bool) (rest : List UInt8) :
    (of lineHasCode (byte '#') rest).kind = if lineHasCode then .operator else .directive := by
  cases lineHasCode with
  | false => rfl
  | true =>
    have hof : of true (byte '#') rest = punctuator (byte '#') rest := rfl
    have htable : ∀ op ∈ operators, op.head? = some (byte '#') → punctuation.contains op = false := by
      decide +kernel
    obtain ⟨op, hop, hhead, hpunctuator⟩ := punctuator_of_mem (b := byte '#') (by decide +kernel) rest
    rw [hof, hpunctuator, htable op hop hhead]
    rfl

end Extent

/-- Only blanks and comments stand behind the last line break of `front`. -/
def AtLineStart (front : List Token) : Prop :=
  ∀ t ∈ front.reverse.takeWhile (·.kind != .newline), t.kind = .whitespace ∨ t.kind.isComment = true

theorem Kind.lineHasCode_eq_false_iff {kind : Kind} (h : kind ≠ .newline) (before : Bool) :
    kind.lineHasCode before = false ↔ (kind = .whitespace ∨ kind.isComment = true) ∧ before = false := by
  cases kind <;> simp_all [Kind.lineHasCode, Kind.isComment]

theorem codeBehind_eq_false_iff (front : List Token) :
    codeBehind false (front.map Token.kind) = false ↔ AtLineStart front := by
  induction front using List.reverseRecOn with
  | nil => simp [codeBehind, AtLineStart]
  | append_singleton front t ih =>
    have hstep : codeBehind false ((front ++ [t]).map Token.kind) =
        t.kind.lineHasCode (codeBehind false (front.map Token.kind)) := by
      rw [List.map_append, codeBehind, List.foldl_append]
      rfl
    rw [hstep, AtLineStart, List.reverse_append, List.reverse_singleton, List.singleton_append, List.takeWhile_cons]
    by_cases hbreak : t.kind = .newline
    · simp [hbreak, Kind.lineHasCode]
    · rw [if_pos (bne_iff_ne.2 hbreak), List.forall_mem_cons, ← AtLineStart, ← ih,
        Kind.lineHasCode_eq_false_iff hbreak]

theorem place_split {offset : Nat} {p : Point} {ls : List Lexeme} {front back : List Token} {t : Token}
    (h : place offset p ls = front ++ t :: back) :
    ∃ before l behind, ls = before ++ l :: behind ∧ before.map Lexeme.kind = front.map Token.kind ∧
      before.flatMap Lexeme.bytes = front.flatMap Token.bytes ∧ l.kind = t.kind ∧ l.bytes = t.bytes := by
  induction front generalizing offset p ls with
  | nil =>
    cases ls with
    | nil => cases h
    | cons l ls =>
      obtain ⟨rfl, -⟩ := List.cons.inj h
      exact ⟨[], l, ls, rfl, rfl, rfl, rfl, rfl⟩
  | cons s front ih =>
    cases ls with
    | nil => cases h
    | cons m ls =>
      obtain ⟨rfl, htail⟩ := List.cons.inj h
      obtain ⟨before, l, behind, rfl, hkind, hbytes, hl⟩ := ih htail
      refine ⟨m :: before, l, behind, rfl, ?_, ?_, hl⟩
      · rw [List.map_cons, List.map_cons, hkind]
      · rw [List.flatMap_cons, List.flatMap_cons, hbytes]

/-- Every token obeys the grammar of its kind with what follows it, and a `#` opens a directive exactly
at the start of a line. -/
theorem tokenize_spells {src : List UInt8} {front back : List Token} {t : Token}
    (h : tokenize src = front ++ t :: back) :
    ∃ after, src = front.flatMap Token.bytes ++ (t.bytes ++ after) ∧ t.kind.Spells after t.bytes ∧
      (t.bytes.head? = some (byte '#') →
        (t.kind = .directive ↔ AtLineStart front) ∧ (t.kind = .operator ↔ ¬AtLineStart front)) := by
  obtain ⟨before, l, behind, hsplit, hkinds, hbytes, hkind, hl⟩ := place_split h
  obtain ⟨first, rest, hsrc, hlexeme, -⟩ := lexemes_at hsplit rfl
  rw [hkinds] at hlexeme
  generalize hcode : codeBehind false (front.map Token.kind) = code at hlexeme
  have hat : code = false ↔ AtLineStart front := hcode ▸ codeBehind_eq_false_iff front
  subst hlexeme
  refine ⟨rest.drop (Extent.of code first rest).more, ?_, ?_, fun hhash ↦ ?_⟩
  · rw [hsrc, hbytes, ← hl, List.cons_append, List.take_append_drop]
  · rw [← hl, ← hkind]
    exact Extent.of_fits code first rest
  · rw [← hl] at hhash
    obtain rfl := Option.some.inj hhash
    rw [← hkind, Extent.of_hash, ← hat]
    cases code <;> simp

/-- A `#` behind a literal on its line; the one before it follows a comment only. -/
theorem tokenize_spells_hash :
    ∃ src front t, src = bytesOf "/*/**/ #a\nL\"\\\\\" #" ∧ tokenize src = front ++ t :: [] ∧ front.length = 6 ∧
      t.bytes.head? = some (byte '#') ∧
      ∃ after, src = front.flatMap Token.bytes ++ (t.bytes ++ after) ∧ t.kind.Spells after t.bytes ∧
        (t.kind = .directive ↔ AtLineStart front) ∧ (t.kind = .operator ↔ ¬AtLineStart front) := by
  generalize hsrc : bytesOf "/*/**/ #a\nL\"\\\\\" #" = src
  obtain ⟨front, t, htokens, hfront, ht⟩ : ∃ front t, tokenize src = front ++ t :: [] ∧ front.length = 6 ∧
      t.bytes.head? = some (byte '#') := by
    subst hsrc
    exact ⟨_, (tokenize (bytesOf "/*/**/ #a\nL\"\\\\\" #")).getLast (by decide +kernel),
      (List.dropLast_append_getLast _).symm, by decide +kernel, by decide +kernel⟩
  obtain ⟨after, hafter, hspells, hhash⟩ := tokenize_spells htokens
  exact ⟨src, front, t, rfl, htokens, hfront, ht, after, hafter, hspells, hhash ht⟩

end CodeStyle.Token
