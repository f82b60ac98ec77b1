import CodeStyle.Proofs.Bounds
import CodeStyle.Proofs.Encoding
import CodeStyle.Proofs.LineEndings
import CodeStyle.Proofs.ReturnedLines
import Mathlib.Data.List.Flatten

/-!
Directives and the style of line endings. Of the directives of a file, those that give a reason or end their comment
are left when its lines end in a carriage return and a line feed; with what is left nothing changes.
-/

namespace CodeStyle

open Text

namespace Text

namespace Utf8

theorem notMem_units {bytes : List UInt8} (h : byte '\n' ∉ bytes) : some '\n' ∉ units bytes := by
  intro hmem
  obtain ⟨front, back, hunits⟩ := List.append_of_mem hmem
  obtain ⟨before, after, rfl, -⟩ := exists_cut_of_units (by decide) hunits
  exact h (by simp)

theorem head?_ascii {b : UInt8} (hb : Byte.isNonAscii b = false) (rest : List UInt8) :
    ∀ x ∈ (b :: rest).head?, Byte.isNonAscii x = false := by
  intro x hx
  cases hx
  exact hb

theorem units_crlf (bytes : List UInt8) : units (crlf bytes) = withReturns (some '\r') (some '\n') (units bytes) := by
  by_cases h : byte '\n' ∈ bytes
  · obtain ⟨line, rest, rfl, hline⟩ := List.eq_append_cons_of_mem h
    have hbreak (bytes : List UInt8) : units (byte '\n' :: bytes) = some '\n' :: units bytes := units_ascii rfl bytes
    have hreturn (bytes : List UInt8) : units (byte '\r' :: bytes) = some '\r' :: units bytes := units_ascii rfl bytes
    rw [crlf_append, crlf_eq_self hline, crlf_newline, units_append_of_next _ _ (head?_ascii rfl _),
      units_append_of_next _ _ (head?_ascii rfl _), hreturn, hbreak, hbreak, units_crlf rest,
      withReturns_line (notMem_units hline), List.append_assoc, List.singleton_append]
  · rw [crlf_eq_self h, withReturns_eq_self (notMem_units h)]
termination_by bytes.length

end Utf8

theorem toList_lossy_crlf (bytes : List UInt8) :
    (Utf8.lossy (crlf bytes)).toList = withReturns '\r' '\n' (Utf8.lossy bytes).toList := by
  have hbreak (u : Option Char) : u.getD Utf8.replacement = (some '\n').getD Utf8.replacement ↔ u = some '\n' := by
    cases u with
    | none => decide
    | some c => simp
  rw [Utf8.lossy, String.toList_ofList, Utf8.units_crlf, map_withReturns hbreak, Utf8.lossy, String.toList_ofList]
  rfl

theorem isValid_crlf {bytes : List UInt8} (h : Utf8.isValid bytes = true) : Utf8.isValid (crlf bytes) = true := by
  rw [Utf8.isValid, List.all_eq_true] at h
  rw [Utf8.isValid, Utf8.units_crlf, withReturns, List.all_flatMap, List.all_eq_true]
  intro u hu
  split
  next => rfl
  next => rw [List.all_cons, h u hu]; rfl

end Text

namespace Token

theorem Kind.delimiters_ne_zero {kind : Kind} (h : kind.isComment = true) : kind.delimiters ≠ 0 := by
  unfold Kind.isComment at h
  split at h
  · decide
  · decide
  · cases h

namespace Extent

theorem of_comment {lineHasCode : Bool} {first : UInt8} {rest : List UInt8}
    (h : (of lineHasCode first rest).kind.isComment = true) :
    first = byte '/' ∧
      (rest.head? = some (byte '/') ∧ of lineHasCode first rest = lineComment rest ∨
        rest.head? = some (byte '*') ∧ of lineHasCode first rest = blockComment rest) := by
  revert h
  fun_cases of lineHasCode first rest with
  | case1 | case2 | case3 | case6 | case11 =>
    intro h
    cases h
  | case4 _ _ _ hslash =>
    intro _
    simp only [Bool.and_eq_true, beq_iff_eq] at hslash
    exact ⟨hslash.1, .inl ⟨hslash.2, rfl⟩⟩
  | case5 _ _ _ _ hstar =>
    intro _
    simp only [Bool.and_eq_true, beq_iff_eq] at hstar
    exact ⟨hstar.1, .inr ⟨hstar.2, rfl⟩⟩
  | case7 => exact fun h ↦ absurd (delimiters_quoted _ _ _) (Kind.delimiters_ne_zero h)
  | case8 =>
    intro h
    simp only [number, plain] at h
    split at h <;> cases h
  | case9 => exact fun h ↦ absurd (delimiters_word _ _) (Kind.delimiters_ne_zero h)
  | case10 =>
    intro h
    unfold backslash at h
    split at h
    · cases h
    · split at h <;> cases h
  | case12 =>
    intro h
    unfold punctuator at h
    split at h
    · simp only [plain] at h
      split at h <;> cases h
    · cases h

theorem eq_nil_of_commentClose {bytes a b : List UInt8} {n : Nat} (h : commentClose bytes = some n)
    (hsplit : bytes.take n = a ++ byte '*' :: byte '/' :: b) : b = [] := by
  induction bytes generalizing a n with
  | nil => cases h
  | cons c bytes ih =>
    unfold commentClose at h
    split at h
    next =>
      obtain rfl := Option.some.inj h
      have hlength := congrArg List.length hsplit
      simp only [List.length_take, List.length_append, List.length_cons] at hlength
      exact List.length_eq_zero_iff.1 (by omega)
    next hopen =>
      obtain ⟨m, hm, rfl⟩ := Option.map_eq_some_iff.1 h
      rw [List.take_succ_cons] at hsplit
      cases a with
      | nil =>
        obtain ⟨rfl, hrest⟩ := List.cons.inj hsplit
        have hslash : bytes.head? = some (byte '/') := by
          rw [← List.take_append_drop m bytes, hrest]
          rfl
        exact absurd (by rw [hslash]; rfl) hopen
      | cons d a =>
        exact ih hm (List.cons.inj hsplit).2

end Extent

/-- The bytes of a comment: behind the two that start it, `*/` stands on its last line only. -/
def IsComment (bytes : List UInt8) : Prop :=
  ∃ x inner, bytes = byte '/' :: x :: inner ∧ (x = byte '/' ∨ x = byte '*') ∧
    ∀ a b, inner = a ++ byte '*' :: byte '/' :: b → byte '\n' ∉ b

theorem isComment_line (rest : List UInt8) :
    IsComment (byte '/' :: (byte '/' :: rest).take (Extent.lineComment (byte '/' :: rest)).more) := by
  refine ⟨byte '/', rest.takeWhile fun b ↦ !Byte.isNewline b, ?_, .inl rfl, ?_⟩
  · rw [Extent.lineComment, Extent.plain, List.takeWhile_cons_of_pos rfl, List.length_cons, List.take_succ_cons,
      ← List.prefix_iff_eq_take.1 (List.takeWhile_prefix _)]
  · intro a b hsplit hmem
    refine newline_notMem_takeWhile (p := fun b ↦ !Byte.isNewline b) rfl rest ?_
    rw [hsplit]
    exact List.mem_append_right _ (List.mem_cons_of_mem _ (List.mem_cons_of_mem _ hmem))

theorem isComment_block (rest : List UInt8)
    (h : (Extent.blockComment (byte '*' :: rest)).kind.isComment = true) :
    IsComment (byte '/' :: (byte '*' :: rest).take (Extent.blockComment (byte '*' :: rest)).more) := by
  rw [Extent.blockComment, List.drop_one, List.tail_cons] at h ⊢
  cases hclose : Extent.commentClose rest with
  | none =>
    rw [hclose] at h
    cases h
  | some n =>
    refine ⟨byte '*', rest.take n, rfl, .inr rfl, ?_⟩
    intro a b hsplit hmem
    rw [Extent.eq_nil_of_commentClose hclose hsplit] at hmem
    cases hmem

theorem isComment_lexemes {lineHasCode : Bool} {src : List UInt8} :
    ∀ l ∈ lexemes lineHasCode src, l.kind.isComment = true → IsComment l.bytes := by
  fun_induction lexemes lineHasCode src with
  | case1 => simp
  | case2 lineHasCode first rest e ih =>
    intro l hl hkind
    rcases List.mem_cons.1 hl with rfl | hl
    · have hcomment : e.kind.isComment = true := hkind
      change IsComment (first :: rest.take e.more)
      obtain ⟨rfl, ⟨hslash, he⟩ | ⟨hstar, he⟩⟩ := Extent.of_comment hcomment
      · obtain ⟨rest, rfl⟩ := List.head?_eq_some_iff.1 hslash
        rw [show e = _ from he]
        exact isComment_line rest
      · obtain ⟨rest, rfl⟩ := List.head?_eq_some_iff.1 hstar
        rw [show e = _ from he] at hcomment ⊢
        exact isComment_block rest hcomment
    · exact ih l hl hkind

theorem isComment_bytes {src : List UInt8} {t : Token} (ht : t ∈ tokenize src) (h : t.isComment = true) :
    IsComment t.bytes := by
  obtain ⟨front, l, back, hl, hkind, hbytes, -⟩ := mem_place lexemes_ne_nil ht
  rw [hbytes]
  refine isComment_lexemes l (by rw [hl]; simp) ?_
  rwa [isComment, hkind] at h

end Token

/-- The file with a carriage return before each line feed. -/
def Source.crlf (s : Source) : Source := ⟨s.path, Text.crlf s.bytes⟩

namespace Source

variable {s : Source}

theorem tokens_crlf (h : byte '\r' ∉ s.bytes) : s.crlf.tokens = s.tokens.map (Token.crlf s.bytes) := by
  have hplaced : ∀ spot ∈ Token.spots 0 Point.first (Token.lexemes false s.bytes),
      (spot.crlf s.bytes).token = spot.token.crlf s.bytes :=
    fun spot hspot ↦ Token.Spot.token_crlf (Token.spots_in spot hspot)
  rw [tokens, crlf, Token.tokenize, Token.place_eq, Token.spots_lexemes_crlf h, List.map_map, tokens, Token.tokenize,
    Token.place_eq, List.map_map]
  exact List.map_congr_left hplaced

theorem crlfOffset_le (s : Source) (offset : Nat) : crlfOffset s.bytes offset ≤ s.crlf.length := by
  rw [crlfOffset, length, crlf, crlf_split s.bytes offset, List.length_append]
  exact Nat.le_add_right _ _

theorem placeOf_crlf (h : byte '\r' ∉ s.bytes) {offset : Nat} (hle : offset ≤ s.length) :
    s.crlf.placeOf (crlfOffset s.bytes offset) = s.placeOf offset := by
  rw [← walk_take _ (s.crlfOffset_le offset), ← walk_take _ hle, crlf, crlfOffset, take_crlf]
  exact Point.walk_crlf _ (fun hmem ↦ h (List.mem_of_mem_take hmem)) _ _

theorem startLine_spanFor {offset : Nat} (hle : offset ≤ s.length) (n : Nat) :
    (s.spanFor offset (offset + n)).startLine = (s.placeOf offset).line := by
  have hmin : min offset (min (offset + n) s.length) = offset := by omega
  rw [← position_eq s hle, spanFor, hmin]
  rfl

end Source

namespace Token

theorem isValid_comment {src : List UInt8} {t : Token} (ht : t ∈ tokenize src) (hc : t.isComment = true)
    (h : Utf8.isValid src = true) : Utf8.isValid t.bytes = true := by
  obtain ⟨before, after, hsrc, -, -, hcut, -⟩ := mem_tokenize ht
  obtain ⟨x, inner, hbytes, -⟩ := isComment_bytes ht hc
  have hunits := Utf8.units_cut hcut
  rw [hsrc, ← List.append_assoc, List.take_left, List.drop_left,
    Utf8.units_append_of_next before t.bytes (by rw [hbytes]; exact Utf8.head?_ascii rfl _)] at hunits
  rw [Utf8.isValid, hsrc, ← List.append_assoc, hunits, List.all_append, List.all_append, Bool.and_eq_true,
    Bool.and_eq_true] at h
  exact h.1.2

end Token

namespace Focus

def map (g : Token → Token) (f : Focus) : Focus := ⟨f.index, f.before.map g, g f.token, f.after.map g⟩

theorem fromIndex_map (g : Token → Token) (i : Nat) (before tokens : List Token) :
    fromIndex i (before.map g) (tokens.map g) = (fromIndex i before tokens).map (map g) := by
  induction tokens generalizing i before with
  | nil => rfl
  | cons t tokens ih => rw [List.map_cons, fromIndex, ← List.map_cons, ih, fromIndex, List.map_cons]; rfl

theorem all_map (g : Token → Token) (tokens : List Token) : all (tokens.map g) = (all tokens).map (map g) :=
  fromIndex_map g 0 [] tokens

end Focus

namespace DirectiveSyntax

open Pattern

theorem text_comment {bytes : List UInt8} (h : Token.IsComment bytes) :
    ∃ x inner, (Utf8.lossy bytes).toList = '/' :: x :: inner ∧ (x = '/' ∨ x = '*') ∧
      ∀ a b, inner = a ++ '*' :: '/' :: b → '\n' ∉ b := by
  obtain ⟨x, inner, rfl, hx, hclose⟩ := h
  have htext (x : UInt8) (hx : Byte.isNonAscii x = false) : (Utf8.lossy (byte '/' :: x :: inner)).toList =
      '/' :: Char.ofNat x.toNat :: (Utf8.lossy inner).toList := by
    rw [Utf8.lossy, Utf8.units_ascii rfl, Utf8.units_ascii hx, String.toList_ofList, Utf8.lossy, String.toList_ofList]
    rfl
  have hopen : ∀ a b, (Utf8.lossy inner).toList = a ++ '*' :: '/' :: b → '\n' ∉ b := by
    intro a b hsplit hbreak
    -- The three characters are bytes of the comment, in this order and the first two next to each other.
    obtain ⟨front, rest, rfl, -, hrest⟩ := Utf8.exists_cut_of_lossy (by decide) hsplit
    have hslash : (Utf8.lossy rest).toList = [] ++ '/' :: b := hrest
    obtain ⟨between, back, rfl, hbetween, rfl⟩ := Utf8.exists_cut_of_lossy (by decide) hslash
    obtain ⟨chars, more, hback⟩ := List.append_of_mem hbreak
    obtain ⟨before, after, rfl, -⟩ := Utf8.exists_cut_of_lossy (by decide) hback
    cases between with
    | nil => exact hclose front _ rfl (by simp)
    | cons b between =>
      rw [Utf8.lossy, Utf8.units, String.toList_ofList] at hbetween
      cases hbetween
  rcases hx with rfl | rfl
  · exact ⟨'/', _, htext _ rfl, .inl rfl, hopen⟩
  · exact ⟨'*', _, htext _ rfl, .inr rfl, hopen⟩

theorem findAll_crlf {bytes : List UInt8} (h : Token.IsComment bytes) :
    List.Forall₂ (Returned (Utf8.lossy bytes).toList)
      ((standard.pattern.findAll (Utf8.lossy bytes).toList).filter (isKept (Utf8.lossy bytes).toList.length))
      (standard.pattern.findAll (Utf8.lossy (crlf bytes)).toList) := by
  obtain ⟨x, inner, htext, hx, hclose⟩ := text_comment h
  have hplain : x ≠ 'c' ∧ x ≠ '\n' := by rcases hx with rfl | rfl <;> decide
  have hstart : '\n' ∉ ['/', x] := by simp [hplain.2.symm]
  have hreturns : withReturns '\r' '\n' ('/' :: x :: inner) = '/' :: x :: withReturns '\r' '\n' inner := by
    have hsplit : withReturns '\r' '\n' (['/', x] ++ inner) =
        withReturns '\r' '\n' ['/', x] ++ withReturns '\r' '\n' inner := withReturns_append _ _
    rwa [withReturns_eq_self hstart] at hsplit
  have hscan := scan_crlf ['/', x] inner hclose
  rw [withReturns_eq_self hstart] at hscan
  rw [findAll_eq_scan stops_standard solid_standard, findAll_eq_scan stops_standard solid_standard, toList_lossy_crlf,
    htext, hreturns, scan_standard_of_ne (by decide), scan_standard_of_ne hplain.1, scan_standard_of_ne (by decide),
    scan_standard_of_ne hplain.1]
  exact hscan

theorem filterMap_eq_of_forall₂ {α β γ : Type} {R : α → β → Prop} {f : α → Option γ} {g : β → Option γ} {l : List α}
    {l' : List β} (h : List.Forall₂ R l l') (hfg : ∀ a b, R a b → g b = f a) : l'.filterMap g = l.filterMap f := by
  induction h with
  | nil => rfl
  | cons hab _ ih => rw [List.filterMap_cons, List.filterMap_cons, hfg _ _ hab, ih]

/-- The directives that give a reason or end their comment. -/
def kept (s : DirectiveSyntax) (source : Source) : List Directive :=
  ((Focus.all source.tokens).filter (·.token.isComment)).flatMap fun f ↦
    let text := f.token.text.toList
    ((s.pattern.findAll text).filter (isKept text.length)).filterMap (directive? source f)

theorem exists_byteLength {bytes : List UInt8} (h : Utf8.isValid bytes = true) (n : Nat) :
    ∃ j ≤ bytes.length, byteLength ((Utf8.lossy bytes).toList.take n) = j ∧
      byteLength (withReturns '\r' '\n' ((Utf8.lossy bytes).toList.take n)) = (crlf (bytes.take j)).length := by
  obtain ⟨j, hj, hunits⟩ := Utf8.exists_units_take h n
  have hpart : (Utf8.lossy bytes).toList.take n = (Utf8.lossy (bytes.take j)).toList := by
    rw [Utf8.lossy, Utf8.lossy, String.toList_ofList, String.toList_ofList, hunits, List.map_take]
  have hvalid : Utf8.isValid (bytes.take j) = true := by
    rw [Utf8.isValid, List.all_eq_true] at h
    rw [Utf8.isValid, hunits, List.all_eq_true]
    exact fun u hu ↦ h u (List.mem_of_mem_take hu)
  refine ⟨j, hj, ?_, ?_⟩
  · rw [hpart, byteLength, String.ofList_toList, Utf8.utf8ByteSize_lossy hvalid, List.length_take_of_le hj]
  · rw [hpart, ← toList_lossy_crlf, byteLength, String.ofList_toList, Utf8.utf8ByteSize_lossy (isValid_crlf hvalid)]

section Files

variable {source : Source} {comment : Focus} {m m' : Match}

theorem isBesideCode_crlf (src : List UInt8) (comment : Focus) :
    isBesideCode (comment.map (Token.crlf src)) = isBesideCode comment := by
  rw [isBesideCode, isBesideCode, Focus.map, List.takeWhile_map, List.any_map]
  rfl

theorem line_directive? (source : Source) (comment : Focus) (m : Match) :
    (directive? source comment m).map (·.line) = (request? m).map fun r ↦
      let first := comment.token.span.startByte + byteLength (comment.token.text.toList.take m.start)
      if r.1 == .ignoreNextLine || (r.1 == .ignore && !isBesideCode comment) then comment.token.span.endLine + 1
      else (source.spanFor first (first + byteLength m.text)).startLine := by
  rw [directive?, request?, Option.map_map, Option.map_map]
  rfl

theorem startLine_crlf (hr : byte '\r' ∉ source.bytes) (hvalid : Utf8.isValid source.bytes = true) {t : Token}
    (ht : t ∈ source.tokens) (hc : t.isComment = true) (n width width' : Nat) :
    let first := t.span.startByte + byteLength (t.text.toList.take n)
    let first' := (t.crlf source.bytes).span.startByte + byteLength ((t.crlf source.bytes).text.toList.take
      (withReturns '\r' '\n' (t.text.toList.take n)).length)
    (source.crlf.spanFor first' (first' + width')).startLine = (source.spanFor first (first + width)).startLine := by
  intro first first'
  obtain ⟨before, after, hsrc, -, htext, -, hspan⟩ := Token.mem_tokenize ht
  obtain ⟨j, hj, hlength, hlength'⟩ := exists_byteLength (Token.isValid_comment ht hc hvalid) n
  have hstart : t.span.startByte = before.length := congrArg Span.startByte hspan
  have hfirst : first = before.length + j := by
    rw [← hlength, ← htext, ← hstart]
  have hle : before.length + j ≤ source.length := by
    rw [Source.length, hsrc, List.length_append, List.length_append]
    omega
  have hfirst' : first' = crlfOffset source.bytes (before.length + j) := by
    have htake : (t.crlf source.bytes).text.toList.take (withReturns '\r' '\n' (t.text.toList.take n)).length =
        withReturns '\r' '\n' (t.text.toList.take n) := by
      rw [Token.crlf, toList_lossy_crlf, htext, take_withReturns]
    have hbefore : crlfOffset source.bytes before.length = (Text.crlf before).length := by
      rw [hsrc, Token.crlfOffset_append]
    have hstart' : (t.crlf source.bytes).span.startByte = (Text.crlf before).length := by
      rw [← hbefore, ← hstart]
      rfl
    rw [Token.crlfOffset_part hsrc hj, ← hlength', ← htext, ← hstart']
    exact congrArg (fun cs ↦ (t.crlf source.bytes).span.startByte + byteLength cs) htake
  rw [hfirst, hfirst', Source.startLine_spanFor hle, ← Source.placeOf_crlf hr hle]
  exact Source.startLine_spanFor (source.crlfOffset_le _) width'

theorem map_directives_crlf {α : Type} (φ : Directive → α) (hr : byte '\r' ∉ source.bytes)
    (hφ : ∀ f ∈ Focus.all source.tokens, f.token.isComment = true → ∀ m m', Returned f.token.text.toList m m' →
      (directive? source.crlf (f.map (Token.crlf source.bytes)) m').map φ = (directive? source f m).map φ) :
    (standard.directives source.crlf).map φ = (standard.kept source).map φ := by
  rw [directives, kept, Source.tokens_crlf hr, Focus.all_map, List.filter_map, List.flatMap_map, List.map_flatMap,
    List.map_flatMap]
  apply List.flatMap_congr
  intro f hf
  obtain ⟨hfocus, hkind⟩ := List.mem_filter.1 hf
  have htoken := Focus.token_mem hfocus
  obtain ⟨-, -, -, -, htext, -⟩ := Token.mem_tokenize htoken
  have hfound := findAll_crlf (Token.isComment_bytes htoken hkind)
  rw [← htext] at hfound
  rw [List.map_filterMap, List.map_filterMap]
  exact filterMap_eq_of_forall₂ hfound (hφ f hfocus hkind)

theorem kept_sublist (s : DirectiveSyntax) (source : Source) : (s.kept source).Sublist (s.directives source) := by
  apply List.Sublist.flatMap_right
  intro f _
  exact List.filter_sublist.filterMap _

end Files

/-- Where lines end in a carriage return and a line feed, a file has those of its directives that give a reason or end
their comment, with the same kinds, filters and reasons and, if the file has no damaged parts, the same lines. -/
theorem directives_crlf (source : Source) (h : byte '\r' ∉ source.bytes) :
    (standard.kept source).Sublist (standard.directives source) ∧
      (standard.directives source.crlf).map (fun d ↦ (d.kind, d.filters, d.reason)) =
        (standard.kept source).map (fun d ↦ (d.kind, d.filters, d.reason)) ∧
      (Utf8.isValid source.bytes = true →
        (standard.directives source.crlf).map (·.line) = (standard.kept source).map (·.line)) := by
  refine ⟨kept_sublist standard source, ?_, ?_⟩
  · apply map_directives_crlf content h
    intro f _ _ m m' hreturned
    rw [content_directive?, content_directive?, hreturned.1]
  · intro hvalid
    apply map_directives_crlf _ h
    rintro f hf hc m m' ⟨hrequest, hstart⟩
    have hline := startLine_crlf h hvalid (Focus.token_mem hf) hc m.start (byteLength m.text) (byteLength m'.text)
    rw [line_directive?, line_directive?, hrequest, hstart, isBesideCode_crlf]
    refine Option.map_congr fun r _ ↦ ?_
    exact if_congr Iff.rfl rfl hline

theorem directives_crlf_reason :
    ∃ source : Source, source = ⟨"a.c", bytesOf "/* cstylecheck:enable - é \n cstylecheck:enable\n*/"⟩ ∧
      byte '\r' ∉ source.bytes ∧ Utf8.isValid source.bytes = true ∧
      (standard.directives source).length = 2 ∧
      (standard.kept source).map (fun d ↦ (d.kind, d.filters, d.reason)) = [(.enable, [], some "é")] ∧
      (standard.directives source.crlf).map (fun d ↦ (d.kind, d.filters, d.reason)) =
        (standard.kept source).map (fun d ↦ (d.kind, d.filters, d.reason)) ∧
      (standard.directives source.crlf).map (·.line) = (standard.kept source).map (·.line) := by
  let source : Source := ⟨"a.c", bytesOf "/* cstylecheck:enable - é \n cstylecheck:enable\n*/"⟩
  have h : byte '\r' ∉ source.bytes := by decide +kernel
  have hvalid : Utf8.isValid source.bytes = true := by decide +kernel
  obtain ⟨-, hcontent, hline⟩ := directives_crlf source h
  exact ⟨source, rfl, h, hvalid, by decide +kernel, by decide +kernel, hcontent, hline hvalid⟩

/-- A directive for the whole file is lost where the line behind it ends in a carriage return. -/
theorem directives_crlf_lost :
    ∃ source : Source, source = ⟨"t.c", bytesOf "/* cstylecheck:ignore-file\n */"⟩ ∧ byte '\r' ∉ source.bytes ∧
      (standard.directives source).map (fun d ↦ (d.kind, d.filters, d.reason, d.line)) = [(.ignoreFile, [], none, 1)] ∧
      standard.directives source.crlf = [] := by
  refine ⟨_, rfl, ?_, ?_, ?_⟩ <;> decide +kernel

end DirectiveSyntax

end CodeStyle
