import CodeStyle.Proofs.Encoding
import CodeStyle.Proofs.LayoutIndependence
import CodeStyle.Proofs.LexicalGrammar
import CodeStyle.Proofs.RuleOutcomes

/-!
What the suggested text for a keyword that touches a parenthesis does to a file. The text ends in the
parenthesis, but the finding spans the keyword alone. Put in place of both, the text keeps the code of the file;
in place of the span, it leaves one parenthesis more. The finding is gone in either case.
-/

namespace CodeStyle

open Text

/-- The file with a text in place of its bytes from `start` up to `stop`. -/
def Source.replace (s : Source) (start stop : Nat) (text : String) : Source :=
  { s with bytes := s.bytes.take start ++ (bytesOf text ++ s.bytes.drop stop) }

/-- The code of a file without its layout. -/
def Source.code (s : Source) : List (Token.Kind × String) :=
  (s.tokens.filter Token.isCode).map fun t ↦ (t.kind, t.text)

namespace Token

/-- The opening parenthesis. -/
def paren : Lexeme := ⟨.punctuation, [byte '('], none⟩

namespace Extent

variable {first : UInt8}

theorem of_word (lineHasCode : Bool) (h : Byte.startsWord first = true) (rest : List UInt8) :
    of lineHasCode first rest = word first rest := by
  have hne {c : UInt8} (hc : Byte.startsWord c = false) : (first == c) = false := by
    refine beq_false_of_ne ?_
    rintro rfl
    rw [h] at hc
    cases hc
  have hblank : Byte.isBlank first = false := by
    rw [Byte.isBlank, hne rfl, hne rfl, hne rfl, hne rfl]
    rfl
  have hquote : Byte.isQuote first = false := by
    rw [Byte.isQuote, hne rfl, hne rfl]
    rfl
  have hdigit : Byte.isDigit first = false := by
    by_contra hdigit
    simp only [Byte.startsWord, Byte.isLetter, Byte.isLower, Byte.isUpper, Byte.isDigit, Bool.not_eq_false,
      Bool.or_eq_true, Bool.and_eq_true, decide_eq_true_eq, beq_iff_eq, UInt8.le_iff_toNat_le,
      ← UInt8.toNat_inj] at h hdigit
    simp [byte] at h hdigit
    omega
  simp only [of, hne (c := byte '\n') rfl, hne (c := byte '\r') rfl, hne (c := byte '/') rfl,
    hne (c := byte '#') rfl, hne (c := byte '.') rfl, hblank, hquote, hdigit, h, Bool.false_and, Bool.or_self,
    Bool.false_eq_true, if_false, if_true]

/-- No operator goes on behind an opening parenthesis. -/
theorem of_paren (rest : List UInt8) : of true (byte '(') rest = plain .punctuation 0 := by
  have hof : of true (byte '(') rest = punctuator (byte '(') rest := rfl
  have htable : ∀ op ∈ operators, op.head? = some (byte '(') → op = [byte '('] := by decide +kernel
  have hpunct : punctuation.contains [byte '('] = true := by decide +kernel
  obtain ⟨op, hop, hhead, hpunctuator⟩ := punctuator_of_mem (b := byte '(') (by decide +kernel) rest
  rw [hof, hpunctuator, htable op hop hhead, if_pos hpunct]
  rfl

end Extent

theorem lexemes_paren (rest : List UInt8) : lexemes true (byte '(' :: rest) = paren :: lexemes true rest := by
  rw [lexemes, Extent.of_paren]
  rfl

theorem lexemes_space (rest : List UInt8) : lexemes true (byte ' ' :: byte '(' :: rest) =
    ⟨.whitespace, [byte ' '], none⟩ :: paren :: lexemes true rest := by
  have hof : Extent.of true (byte ' ') (byte '(' :: rest) = Extent.plain .whitespace 0 := rfl
  rw [lexemes, hof, ← lexemes_paren]
  rfl

/-- A keyword stays one before any byte that cannot go on with it. -/
theorem lexemes_keyword {after word : List UInt8} (h : Kind.keyword.Spells after word) {b : UInt8}
    (hb : Byte.isWord b = false) (hquote : Byte.isQuote b = false) (lineHasCode : Bool) (rest : List UInt8) :
    lexemes lineHasCode (word ++ b :: rest) = ⟨.keyword, word, none⟩ :: lexemes true (b :: rest) := by
  obtain ⟨⟨⟨hne, hall, -⟩, hdigit⟩, hkey⟩ := h
  obtain ⟨first, tail, rfl⟩ := List.exists_cons_of_ne_nil hne
  rw [List.forall_mem_cons] at hall
  have hfirst : Byte.startsWord first = true :=
    (Bool.or_eq_true_iff.1 hall.1).resolve_right (by simpa using hdigit)
  have htake : (tail ++ b :: rest).takeWhile Byte.isWord = tail := by
    rw [List.takeWhile_append_of_pos hall.2, List.takeWhile_cons_of_neg (by simp [hb]), List.append_nil]
  have hof : Extent.of lineHasCode first (tail ++ b :: rest) = Extent.plain .keyword tail.length := by
    rw [Extent.of_word lineHasCode hfirst]
    simp only [Extent.word, htake, List.take_left, List.drop_left, hquote, Bool.false_and, Bool.false_eq_true,
      if_false, List.contains_iff_mem.2 hkey, if_true]
  exact lexemes_part hof rfl

section

variable {src : List UInt8} {front back : List Lexeme} {l m : Lexeme}

theorem keyword_spells (h : lexemes false src = front ++ l :: back) (hl : l.kind = .keyword) :
    Kind.keyword.Spells (back.flatMap Lexeme.bytes) l.bytes ∧ lexemes true (back.flatMap Lexeme.bytes) = back := by
  obtain ⟨code, first, rest, -, rfl, rfl⟩ := lexemes_split h
  have hfits := Extent.of_fits code first rest
  have hcode : (Extent.of code first rest).kind.lineHasCode code = true := by
    rw [show (Extent.of code first rest).kind = .keyword from hl]
    rfl
  rw [Extent.Fits, show (Extent.of code first rest).kind = .keyword from hl] at hfits
  rw [lexemes_flatMap, hcode]
  exact ⟨hfits, rfl⟩

/-- Only the parenthesis itself reads as one. -/
theorem paren_of_text (h : lexemes true src = m :: back) (hm : m.kind = .punctuation ∨ m.kind = .operator)
    (htext : Utf8.lossy m.bytes = "(") : ∃ rest, src = byte '(' :: rest ∧ m = paren ∧ back = lexemes true rest := by
  have htable : ∀ op ∈ Extent.operators, Utf8.lossy op = "(" → op = [byte '('] := by decide +kernel
  cases src with
  | nil => simp [lexemes] at h
  | cons b rest =>
    have hlexeme := h
    rw [lexemes] at hlexeme
    obtain ⟨rfl, -⟩ := List.cons.inj hlexeme
    have hmem : b :: rest.take (Extent.of true b rest).more ∈ Extent.operators := by
      have hfits := Extent.of_fits true b rest
      rw [Extent.Fits] at hfits
      rcases hm with hm | hm <;> rw [show (Extent.of true b rest).kind = _ from hm] at hfits <;> exact hfits.1.1
    obtain rfl : b = byte '(' := (List.cons.inj (htable _ hmem htext)).1
    rw [lexemes_paren] at h
    obtain ⟨hm, rfl⟩ := List.cons.inj h
    exact ⟨rest, rfl, hm.symm, rfl⟩

/-- A space in front of the parenthesis is all that changes. -/
theorem lexemes_spaced {after : List UInt8} (h : lexemes false src = front ++ l :: back)
    (hl : Kind.keyword.Spells after l.bytes) (rest : List UInt8) :
    lexemes false (front.flatMap Lexeme.bytes ++ (l.bytes ++ byte ' ' :: byte '(' :: rest)) =
      front ++ ⟨.keyword, l.bytes, none⟩ :: ⟨.whitespace, [byte ' '], none⟩ :: paren :: lexemes true rest := by
  obtain ⟨x, tail, hbytes⟩ := List.exists_cons_of_ne_nil hl.1.1.1
  have hx : Byte.isWord x = true := hl.1.1.2.1 x (by simp [hbytes])
  have hfront := lexemes_front (.of_isWord hx) h hbytes (tail ++ byte ' ' :: byte '(' :: rest)
  rw [← List.cons_append, ← hbytes] at hfront
  rw [hfront, lexemes_keyword hl rfl rfl, lexemes_space]

end

/-- Tokens are placed alike in front of lexemes that start with the same byte. -/
theorem place_cut {offset : Nat} {p : Point} {ls : List Lexeme} {front back : List Token}
    (h : place offset p ls = front ++ back) : ∃ before behind q, ls = before ++ behind ∧
      back = place (offset + (before.flatMap Lexeme.bytes).length) q behind ∧
      ∀ other, firstByte other = firstByte behind →
        place offset p (before ++ other) = front ++ place (offset + (before.flatMap Lexeme.bytes).length) q other := by
  induction front generalizing offset p ls with
  | nil => exact ⟨[], ls, p, rfl, h.symm, fun _ _ ↦ rfl⟩
  | cons t front ih =>
    cases ls with
    | nil => cases h
    | cons l ls =>
      obtain ⟨rfl, htail⟩ := List.cons.inj h
      obtain ⟨before, behind, q, rfl, rfl, hother⟩ := ih htail
      refine ⟨l :: before, behind, q, rfl, ?_, fun other hfirst ↦ ?_⟩
      · simp only [List.flatMap_cons, List.length_append, Nat.add_assoc]
      · have hnext : firstByte (before ++ other) = firstByte (before ++ behind) := by
          cases before with
          | nil => exact hfirst
          | cons => rfl
        simp only [List.cons_append, place, hnext, hother other hfirst, List.flatMap_cons, List.length_append,
          Nat.add_assoc]

/-- The code of a list of lexemes. -/
def codeOf (ls : List Lexeme) : List (Kind × String) :=
  (ls.filter (·.kind.isCode)).map fun l ↦ (l.kind, Utf8.lossy l.bytes)

theorem codeOf_append (ls ls' : List Lexeme) : codeOf (ls ++ ls') = codeOf ls ++ codeOf ls' := by
  rw [codeOf, List.filter_append, List.map_append, codeOf, codeOf]

theorem codeOf_keyword {l : Lexeme} (h : l.kind = .keyword) (ls : List Lexeme) :
    codeOf (l :: ls) = (.keyword, Utf8.lossy l.bytes) :: codeOf ls := by
  rw [codeOf, List.filter_cons_of_pos (by rw [h]; rfl), List.map_cons, h, codeOf]

theorem codeOf_space (bytes : List UInt8) (ls : List Lexeme) :
    codeOf (⟨.whitespace, bytes, none⟩ :: ls) = codeOf ls := rfl

theorem codeOf_paren (ls : List Lexeme) : codeOf (paren :: ls) = (.punctuation, "(") :: codeOf ls := by
  have hparen : Utf8.lossy paren.bytes = "(" := by decide +kernel
  rw [← hparen]
  rfl

theorem codeOf_place (offset : Nat) (p : Point) (ls : List Lexeme) :
    ((place offset p ls).filter Token.isCode).map (fun t ↦ (t.kind, t.text)) = codeOf ls := by
  induction ls generalizing offset p with
  | nil => rfl
  | cons l ls ih =>
    rw [place, codeOf, List.filter_cons, List.filter_cons, Token.isCode]
    split
    · rw [List.map_cons, List.map_cons, ih, codeOf]
    · exact ih _ _

end Token

theorem Source.code_eq (s : Source) : s.code = Token.codeOf (Token.lexemes false s.bytes) := Token.codeOf_place ..

/-- The same question about another file. -/
def RuleInput.on (r : RuleInput) (s : Source) : RuleInput := { r with file := Analysis.of s }

namespace Finding

/-- What a finding says, wherever it stands. -/
def unplaced (x : Finding) : String × Option String := (x.message, x.fix)

/-- Nothing is found any more at the place of `x`. The findings before it are the same, and those behind it say the
same. -/
structure Gone (x : Finding) (old new : List Finding) : Prop where
  nowhere : ∀ y ∈ new, y.span.startByte ≠ x.span.startByte
  others : ∃ before after moved, old = before ++ x :: after ∧ new = before ++ moved ∧
    moved.map unplaced = after.map unplaced

end Finding

namespace Rule.Spacing

open Token

/-- What is found at a token when `next` follows it. -/
def unspaced? (t : Token) (next : Option Token) : Option Finding :=
  if t.kind == .keyword && ["if", "while", "for", "switch", "return"].contains t.text && next.any (·.isPunct "(") then
    some ⟨t.span, s!"missing space between '{t.text}' and '('", some (t.text ++ " (")⟩
  else none

def unspaced : List Token → List Finding
  | [] => []
  | t :: rest => (unspaced? t rest.head?).toList ++ unspaced rest

theorem keywordSpacing_findings (r : RuleInput) (s : Source) :
    (keywordSpacing (r.on s)).findings = unspaced s.tokens := by
  have hfoci (index : Nat) (before tokens : List Token) :
      (Focus.fromIndex index before tokens).filterMap (fun f ↦ unspaced? f.token f.after.head?) = unspaced tokens := by
    induction tokens generalizing index before with
    | nil => rfl
    | cons t rest ih =>
      rw [Focus.fromIndex, List.filterMap_cons, unspaced, ih]
      cases unspaced? t rest.head? <;> rfl
  exact hfoci 0 [] s.tokens

section

variable {t : Token} {next : Option Token} {x : Finding} {tokens front back : List Token}

theorem unspaced?_eq_some (h : unspaced? t next = some x) : t.kind = .keyword ∧
    (∃ m ∈ next, m.isPunct "(" = true) ∧ x.span = t.span ∧ x.fix = some (t.text ++ " (") := by
  rw [unspaced?, Option.ite_none_right_eq_some, Option.some_inj, Bool.and_eq_true, Bool.and_eq_true,
    Option.any_eq_true] at h
  obtain ⟨⟨⟨hkind, -⟩, hnext⟩, rfl⟩ := h
  exact ⟨eq_of_beq hkind, hnext, rfl, rfl⟩

theorem unspaced?_of_kind (h : t.kind ≠ .keyword) : unspaced? t next = none :=
  Option.eq_none_iff_forall_ne_some.2 fun _ hx ↦ h (unspaced?_eq_some hx).1

theorem unspaced?_of_next (h : ∀ m ∈ next, m.isPunct "(" = false) : unspaced? t next = none := by
  refine Option.eq_none_iff_forall_ne_some.2 fun x hx ↦ ?_
  obtain ⟨-, ⟨m, hm, hparen⟩, -⟩ := unspaced?_eq_some hx
  rw [h m hm] at hparen
  cases hparen

theorem unspaced_of_kind (h : t.kind ≠ .keyword) : unspaced (t :: back) = unspaced back := by
  rw [unspaced, unspaced?_of_kind h]
  rfl

theorem mem_unspaced (h : x ∈ unspaced tokens) : ∃ front t back, tokens = front ++ t :: back ∧
    unspaced? t back.head? = some x := by
  induction tokens with
  | nil => cases h
  | cons t rest ih =>
    rcases List.mem_append.1 h with h | h
    · exact ⟨[], t, rest, rfl, Option.mem_toList.1 h⟩
    · obtain ⟨front, u, back, rfl, hu⟩ := ih h
      exact ⟨t :: front, u, back, rfl, hu⟩

theorem span_of_mem_unspaced (h : x ∈ unspaced tokens) : ∃ t ∈ tokens, x.span = t.span := by
  obtain ⟨front, t, back, rfl, hx⟩ := mem_unspaced h
  exact ⟨t, by simp, (unspaced?_eq_some hx).2.2.1⟩

theorem unspaced_append (h : ∀ t ∈ back.head?, t.isPunct "(" = false) :
    unspaced (front ++ back) = unspaced front ++ unspaced back := by
  induction front with
  | nil => rfl
  | cons t front ih =>
    have hnext : unspaced? t (front ++ back).head? = unspaced? t front.head? := by
      cases front with
      | nil => rw [List.nil_append, unspaced?_of_next h, unspaced?_of_next (by simp)]
      | cons => rfl
    rw [List.cons_append, unspaced, unspaced, ih, hnext, List.append_assoc]

theorem not_isPunct (h : t.kind = .keyword) (text : String) : t.isPunct text = false := by
  rw [Token.isPunct, h]
  rfl

theorem unspaced_split (h : unspaced? t back.head? = some x) :
    unspaced (front ++ t :: back) = unspaced front ++ x :: unspaced back := by
  have hkind := (unspaced?_eq_some h).1
  rw [unspaced_append (by simp [not_isPunct hkind]), unspaced, h]
  rfl

theorem unspaced_spaced {u : Token} (ht : t.kind = .keyword) (hu : u.kind = .whitespace) :
    unspaced (front ++ t :: u :: back) = unspaced front ++ unspaced back := by
  have hpunct : u.isPunct "(" = false := by
    rw [Token.isPunct, hu]
    rfl
  rw [unspaced_append (by simp [not_isPunct ht]), unspaced, unspaced?_of_next (by simp [hpunct]),
    unspaced_of_kind (by simp [hu])]
  rfl

end

theorem unplaced_place (ls : List Lexeme) (offset offset' : Nat) (p p' : Point) :
    (unspaced (place offset p ls)).map Finding.unplaced = (unspaced (place offset' p' ls)).map Finding.unplaced := by
  induction ls generalizing offset offset' p p' with
  | nil => rfl
  | cons l ls ih =>
    have hnext : (place (offset + l.bytes.length) (p.walk l.bytes (firstByte ls)) ls).head?.any (·.isPunct "(") =
        (place (offset' + l.bytes.length) (p'.walk l.bytes (firstByte ls)) ls).head?.any (·.isPunct "(") := by
      cases ls <;> rfl
    simp only [place, unspaced, List.map_append, unspaced?, hnext]
    rw [ih _ (offset' + l.bytes.length) _ (p'.walk l.bytes (firstByte ls))]
    congr 1
    split <;> rfl

theorem unplaced_parens (n : Nat) (ls : List Lexeme) (offset offset' : Nat) (p p' : Point) :
    (unspaced (place offset p (List.replicate n paren ++ ls))).map Finding.unplaced =
      (unspaced (place offset' p' ls)).map Finding.unplaced := by
  induction n generalizing offset p with
  | zero => exact unplaced_place ls ..
  | succ n ih =>
    rw [List.replicate_succ, List.cons_append, place, unspaced_of_kind (by simp [paren])]
    exact ih ..

/-- Where a finding stands: behind `front` and the tokens `before`, at a keyword before a parenthesis. -/
structure Touches (s : Source) (x : Finding) (front : List Lexeme) (word : Lexeme) (rest : List UInt8)
    (before : List Token) (p : Point) : Prop where
  lexed : lexemes false s.bytes = front ++ word :: paren :: lexemes true rest
  keyword : word.kind = .keyword
  placed : ∀ other, firstByte other = firstByte [word] →
    place 0 Point.first (front ++ other) = before ++ place (front.flatMap Lexeme.bytes).length p other
  startByte : x.span.startByte = (front.flatMap Lexeme.bytes).length
  endByte : x.span.endByte = (front.flatMap Lexeme.bytes).length + word.bytes.length
  fix : x.fix = some (Utf8.lossy word.bytes ++ " (")
  found : ∃ after, unspaced s.tokens = unspaced before ++ x :: after ∧ ∀ offset q,
    (unspaced (place offset q (lexemes true rest))).map Finding.unplaced = after.map Finding.unplaced

theorem exists_touches {s : Source} {x : Finding} (h : x ∈ unspaced s.tokens) :
    ∃ front word rest before p, Touches s x front word rest before p := by
  obtain ⟨before, t, back, htokens, hx⟩ := mem_unspaced h
  obtain ⟨hkind, ⟨m, hm, hparen⟩, hspan, hfix⟩ := unspaced?_eq_some hx
  obtain ⟨front, behind, p, hlexed, hplace, hother⟩ := place_cut htokens
  rw [Nat.zero_add] at hplace hother
  cases behind with
  | nil => cases hplace
  | cons word behind =>
    obtain ⟨rfl, rfl⟩ := List.cons.inj hplace
    cases behind with
    | nil => cases hm
    | cons l behind =>
      obtain rfl := Option.some.inj hm
      obtain ⟨hpunct, htext⟩ := Bool.and_eq_true_iff.1 hparen
      obtain ⟨-, hback⟩ := keyword_spells hlexed hkind
      obtain ⟨rest, -, rfl, rfl⟩ := paren_of_text hback (by simpa using hpunct) (eq_of_beq htext)
      exact ⟨front, word, rest, before, p, hlexed, hkind, hother, hspan ▸ rfl, hspan ▸ rfl, hfix, _,
        htokens ▸ unspaced_split hx, fun offset q ↦ (unplaced_parens 1 _ _ offset _ q).symm⟩

namespace Touches

variable {s s' : Source} {x : Finding} {front : List Lexeme} {word : Lexeme} {rest : List UInt8} {before : List Token}
  {p : Point} (h : Touches s x front word rest before p)

include h

theorem bytes : s.bytes = front.flatMap Lexeme.bytes ++ (word.bytes ++ byte '(' :: rest) := by
  rw [← lexemes_flatMap false s.bytes, h.lexed, List.flatMap_append, List.flatMap_cons, List.flatMap_cons,
    lexemes_flatMap]
  rfl

theorem spells : ∃ after, Kind.keyword.Spells after word.bytes := ⟨_, (keyword_spells h.lexed h.keyword).1⟩

theorem bytesOf_fix : bytesOf (Utf8.lossy word.bytes ++ " (") = word.bytes ++ [byte ' ', byte '('] := by
  obtain ⟨-, -, hkey⟩ := h.spells
  obtain ⟨name, -, hname⟩ := List.mem_map.1 hkey
  have hspace : " (".toList.flatMap String.utf8EncodeChar = [byte ' ', byte '('] := by decide +kernel
  rw [← hname, Utf8.lossy_bytesOf, Utf8.bytesOf_eq, Utf8.bytesOf_eq, String.toList_append, List.flatMap_append,
    hspace]

/-- The file with the suggested text from the keyword on, and `behind` after it. -/
theorem replace_lexed (stop : Nat) {behind : List UInt8} (hbehind : s.bytes.drop stop = behind) :
    lexemes false (s.replace x.span.startByte stop (Utf8.lossy word.bytes ++ " (")).bytes =
      front ++ ⟨.keyword, word.bytes, none⟩ :: ⟨.whitespace, [byte ' '], none⟩ :: paren :: lexemes true behind := by
  obtain ⟨after, hspells⟩ := h.spells
  have htake : s.bytes.take x.span.startByte = front.flatMap Lexeme.bytes := by
    rw [h.bytes, h.startByte, List.take_left]
  have hbytes : (s.replace x.span.startByte stop (Utf8.lossy word.bytes ++ " (")).bytes =
      front.flatMap Lexeme.bytes ++ (word.bytes ++ byte ' ' :: byte '(' :: behind) := by
    rw [Source.replace, h.bytesOf_fix, htake, hbehind, List.append_assoc]
    rfl
  rw [hbytes, lexemes_spaced h.lexed hspells]

/-- Behind a space the keyword is not found any more, however many parentheses follow. -/
theorem gone {n : Nat} (hs' : lexemes false s'.bytes = front ++ ⟨.keyword, word.bytes, none⟩ ::
      ⟨.whitespace, [byte ' '], none⟩ :: (List.replicate n paren ++ lexemes true rest)) :
    x.Gone (unspaced s.tokens) (unspaced s'.tokens) := by
  obtain ⟨after, hold, hafter⟩ := h.found
  obtain ⟨t, u, offset, q, htokens, ht, hstart, hu⟩ : ∃ t u offset q,
      s'.tokens = before ++ t :: u :: place offset q (List.replicate n paren ++ lexemes true rest) ∧
        t.kind = .keyword ∧ t.span.startByte = x.span.startByte ∧ u.kind = .whitespace :=
    ⟨_, _, _, _, (congrArg (place 0 Point.first) hs').trans (h.placed _ rfl), rfl, h.startByte.symm, rfl⟩
  have hnew := congrArg unspaced htokens
  rw [unspaced_spaced ht hu] at hnew
  refine ⟨fun y hy ↦ ?_, unspaced before, after, _, hold, hnew, (unplaced_parens n ..).trans (hafter 0 p)⟩
  -- the findings are at other tokens than the keyword
  have hapart := tokenize_pairwise s'.bytes
  rw [show tokenize s'.bytes = _ from htokens, List.pairwise_append, List.pairwise_cons] at hapart
  obtain ⟨-, ⟨hbehind, -⟩, hbefore⟩ := hapart
  rw [hnew, List.mem_append] at hy
  rw [← hstart]
  rcases hy with hy | hy
  · obtain ⟨v, hv, hspan⟩ := span_of_mem_unspaced hy
    rw [hspan]
    exact (hbefore v hv t (List.mem_cons_self ..)).ne
  · obtain ⟨v, hv, hspan⟩ := span_of_mem_unspaced hy
    rw [hspan]
    exact (hbehind v (List.mem_cons_of_mem _ hv)).ne'

end Touches

/-- The suggested text is right in place of the keyword and the parenthesis behind it. In place of what the finding
spans it leaves a second parenthesis. Either way this finding is gone. -/
theorem keywordSpacing_replaced (r : RuleInput) (s : Source) {x : Finding}
    (hx : x ∈ (keywordSpacing (r.on s)).findings) :
    ∃ word front back, x.fix = some (word ++ " (") ∧
      s.code = front ++ (.keyword, word) :: (.punctuation, "(") :: back ∧
      (s.replace x.span.startByte x.span.endByte (word ++ " (")).code =
        front ++ (.keyword, word) :: (.punctuation, "(") :: (.punctuation, "(") :: back ∧
      (s.replace x.span.startByte (x.span.endByte + 1) (word ++ " (")).code = s.code ∧
      ∀ stop ∈ [x.span.endByte, x.span.endByte + 1], x.Gone (keywordSpacing (r.on s)).findings
        (keywordSpacing (r.on (s.replace x.span.startByte stop (word ++ " (")))).findings := by
  simp only [keywordSpacing_findings] at hx ⊢
  obtain ⟨front, word, rest, before, p, h⟩ := exists_touches hx
  have hdrop : s.bytes.drop x.span.endByte = byte '(' :: rest := by
    rw [h.bytes, h.endByte, ← List.append_assoc, ← List.length_append, List.drop_left]
  have hspan := h.replace_lexed x.span.endByte hdrop
  have hdrop_paren : s.bytes.drop (x.span.endByte + 1) = rest := by
    rw [← List.drop_drop, hdrop, List.drop_one, List.tail_cons]
  have hthrough := h.replace_lexed (x.span.endByte + 1) hdrop_paren
  rw [lexemes_paren] at hspan
  refine ⟨_, codeOf front, codeOf (lexemes true rest), h.fix, ?_, ?_, ?_, ?_⟩
  · rw [Source.code_eq, h.lexed, codeOf_append, codeOf_keyword h.keyword, codeOf_paren]
  · rw [Source.code_eq, hspan, codeOf_append, codeOf_keyword rfl, codeOf_space, codeOf_paren, codeOf_paren]
  · rw [Source.code_eq, Source.code_eq, hthrough, h.lexed, codeOf_append, codeOf_append, codeOf_keyword rfl,
      codeOf_keyword h.keyword, codeOf_space]
  · simp only [List.forall_mem_cons]
    exact ⟨h.gone (n := 2) hspan, h.gone (n := 1) hthrough, by simp⟩

/-- The second of two keywords, on a line of its own. -/
theorem keywordSpacing_replaced_second :
    ∃ (r : RuleInput) (s : Source) (x : Finding), s.bytes = bytesOf "if(a)\n\twhile(b);" ∧
      x ∈ (keywordSpacing (r.on s)).findings ∧ x.span.startByte = 7 ∧
      ∃ word front back, x.fix = some (word ++ " (") ∧
        s.code = front ++ (.keyword, word) :: (.punctuation, "(") :: back ∧
        (s.replace x.span.startByte x.span.endByte (word ++ " (")).code =
          front ++ (.keyword, word) :: (.punctuation, "(") :: (.punctuation, "(") :: back ∧
        (s.replace x.span.startByte (x.span.endByte + 1) (word ++ " (")).code = s.code ∧
        ∀ stop ∈ [x.span.endByte, x.span.endByte + 1], x.Gone (keywordSpacing (r.on s)).findings
          (keywordSpacing (r.on (s.replace x.span.startByte stop (word ++ " (")))).findings := by
  let s : Source := ⟨"a.c", bytesOf "if(a)\n\twhile(b);"⟩
  let x : Finding := ⟨⟨7, 12, 2, 2, 2, 7⟩, "missing space between 'while' and '('", some "while ("⟩
  have hx : x ∈ (keywordSpacing (RuleInput.on ⟨Analysis.of s, {}, fun _ ↦ false⟩ s)).findings := by decide +kernel
  exact ⟨_, s, x, rfl, hx, rfl, keywordSpacing_replaced _ s hx⟩

/-- In place of what the finding spans, the suggested text changes the code of a file without errors. -/
theorem keywordSpacing_doubles_parenthesis :
    ∃ (r : RuleInput) (s : Source) (x : Finding), s.bytes = bytesOf "if(x);" ∧ s.lexErrors = [] ∧
      x ∈ (keywordSpacing (r.on s)).findings ∧ x.fix = some "if (" ∧
      (s.replace x.span.startByte x.span.endByte "if (").bytes = bytesOf "if ((x);" ∧
      (s.replace x.span.startByte x.span.endByte "if (").code ≠ s.code := by
  let s : Source := ⟨"a.c", bytesOf "if(x);"⟩
  let x : Finding := ⟨⟨0, 2, 1, 1, 1, 3⟩, "missing space between 'if' and '('", some "if ("⟩
  exact ⟨⟨Analysis.of s, {}, fun _ ↦ false⟩, s, x, rfl, by decide +kernel, by decide +kernel, rfl,
    by decide +kernel, by decide +kernel⟩

end Rule.Spacing

end CodeStyle
