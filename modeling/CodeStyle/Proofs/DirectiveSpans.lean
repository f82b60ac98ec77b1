import CodeStyle.Proofs.DirectiveLineEndings
import CodeStyle.Proofs.RangePairing
import CodeStyle.Proofs.ReportOrder

/-!
Where directives stand. A directive is found in the text of its comment and is given a place in the file by
the length of the text before it. Where decoding a comment keeps its length, the place is that of the
directive's own bytes; where it does not, the place may lie behind the comment.
-/

namespace CodeStyle

open Text

/-- Whether a span lies in another one. -/
def Span.Inside (a b : Span) : Prop := b.startByte ≤ a.startByte ∧ a.endByte ≤ b.endByte

instance (a b : Span) : Decidable (a.Inside b) := inferInstanceAs (Decidable (_ ∧ _))

namespace Pattern

variable {p : Pattern} {m : Match} {start : Nat} {cs : List Char}

/-- A match stands in the text behind as many characters as it says. -/
theorem exists_append_of_mem_scan (hsolid : p.solid = true) (h : m ∈ p.scan start cs) :
    m.text ≠ [] ∧ ∃ front back, cs = front ++ (m.text ++ back) ∧ m.start = start + front.length := by
  fun_induction scan p start cs with
  | case1 => cases h
  | case2 start c cs hnone ih =>
    obtain ⟨htext, front, back, rfl, hstart⟩ := ih h
    refine ⟨htext, c :: front, back, rfl, ?_⟩
    rw [hstart, List.length_cons]
    omega
  | case3 start c cs r hr ih =>
    have hmem := List.mem_of_mem_head? hr
    have hne := text_ne_nil_of_solid hsolid hmem
    obtain ⟨more, hmore⟩ := (fits hmem).ahead
    rcases List.mem_cons.1 h with rfl | h
    · exact ⟨hne, [], more, hmore.symm, rfl⟩
    · obtain ⟨htext, front, back, hcs, hstart⟩ := ih h
      have hpos : 0 < r.text.length := List.length_pos_iff.2 hne
      have hdrop : (c :: cs).drop r.text.length = cs.drop (r.text.length - 1) := by
        rw [← Nat.sub_add_cancel hpos, List.drop_succ_cons, Nat.add_sub_cancel]
      refine ⟨htext, r.text ++ front, back, ?_, ?_⟩
      · rw [List.append_assoc, ← hcs, ← hdrop, ← hmore, List.drop_left]
      · rw [hstart, List.length_append, Nat.add_assoc]

theorem le_start_of_mem_scan (hsolid : p.solid = true) (h : m ∈ p.scan start cs) : start ≤ m.start := by
  obtain ⟨-, front, -, -, hstart⟩ := exists_append_of_mem_scan hsolid h
  omega

theorem scan_pairwise (hsolid : p.solid = true) (start : Nat) (cs : List Char) :
    (p.scan start cs).Pairwise fun a b ↦ a.stop ≤ b.start := by
  fun_induction scan p start cs with
  | case1 => exact .nil
  | case2 start c cs hnone ih => exact ih
  | case3 start c cs r hr ih => exact List.pairwise_cons.2 ⟨fun b hb ↦ le_start_of_mem_scan hsolid hb, ih⟩

end Pattern

namespace Text.Utf8

/-- Bytes without damage are cut where their text is. -/
theorem exists_cut {bytes : List UInt8} (h : isValid bytes = true) {front back : List (Option Char)}
    (hunits : units bytes = front ++ back) :
    ∃ before after, bytes = before ++ after ∧ units before = front ∧ units after = back := by
  induction bytes using units.induct generalizing front with
  | case1 =>
    rw [units] at hunits
    obtain ⟨rfl, rfl⟩ := List.append_eq_nil_iff.1 hunits.symm
    exact ⟨[], [], rfl, by simp [units], by simp [units]⟩
  | case2 b rest ih =>
    cases front with
    | nil => exact ⟨[], b :: rest, rfl, by simp [units], hunits⟩
    | cons u front =>
      obtain ⟨c, n, hnext, hrest⟩ := isValid_cons h
      obtain ⟨v, hspells, rfl, hn⟩ := spells_of_next hnext
      rw [units, hnext, List.cons_append] at hunits
      obtain ⟨hhead, htail⟩ := List.cons.inj hunits
      rw [hnext] at ih
      obtain ⟨before, after, hbytes, rfl, hafter⟩ := ih hrest htail
      refine ⟨b :: (rest.take n ++ before), after, ?_, ?_, hafter⟩
      · rw [List.cons_append, List.append_assoc, ← hbytes, List.take_append_drop]
      · rw [units, hspells.next_append, List.drop_left, ← hhead]

theorem exists_cut_lossy {bytes : List UInt8} (h : isValid bytes = true) {front back : List Char}
    (htext : (lossy bytes).toList = front ++ back) :
    ∃ before after, bytes = before ++ after ∧ (isValid before = true ∧ lossy before = String.ofList front) ∧
      isValid after = true ∧ lossy after = String.ofList back := by
  rw [lossy, String.toList_ofList] at htext
  obtain ⟨us, vs, hunits, rfl, rfl⟩ := List.map_eq_append_iff.1 htext
  obtain ⟨before, after, hbytes, rfl, rfl⟩ := exists_cut h hunits
  rw [isValid, hunits, List.all_append, Bool.and_eq_true] at h
  exact ⟨before, after, hbytes, ⟨h.1, rfl⟩, h.2, rfl⟩

end Text.Utf8

namespace Source

variable {s : Source}

theorem tokens_apart (s : Source) : s.tokens.Pairwise fun t u ↦ t.span.endByte ≤ u.span.startByte :=
  Token.place_pairwise 0 _ _

theorem startByte_lt_of_token {t : Token} (ht : t ∈ s.tokens) : t.span.startByte < t.span.endByte := by
  obtain ⟨before, after, -, hne, -, -, hspan⟩ := Token.mem_tokenize ht
  rw [hspan]
  exact Nat.lt_add_of_pos_right (List.length_pos_iff.2 hne)

theorem Exact.startLine_le {x y : Span} (hx : s.Exact x) (hy : s.Exact y) (h : x.startByte ≤ y.startByte) :
    x.startLine ≤ y.startLine := by
  rcases Nat.lt_or_eq_of_le h with h | h
  · rcases hx.start_before hy h with hline | ⟨hline, -⟩ <;> omega
  · exact Nat.le_of_eq (hx.start_congr hy h).1

theorem Exact.spanBytes {x : Span} (h : s.Exact x) : s.spanBytes x = s.slice x.startByte x.endByte := by
  obtain ⟨hle, hlen, -⟩ := exact_iff.1 h
  rw [Source.spanBytes, Nat.min_eq_left hlen, Nat.min_eq_left hle]

end Source

theorem Focus.all_apart (s : Source) :
    (Focus.all s.tokens).Pairwise fun f g ↦ f.token.span.endByte ≤ g.token.span.startByte := by
  have h := s.tokens_apart
  rwa [← Focus.map_token_all s.tokens, List.pairwise_map] at h

namespace Suppression

/-- Ranges whose directives are in order run forward. -/
theorem resolve_forward {ds : List Directive} (hline : ds.Pairwise fun a b ↦ a.span.startLine ≤ b.span.startLine)
    (hds : ∀ d ∈ ds, d.kind = .disable ∨ d.kind = .enable → d.line = d.span.startLine) (book : RuleBook)
    (file : String) : ∀ s ∈ (resolve book file ds).1, s.kind = .range → s.firstLine ≤ s.lastLine := by
  intro s hs hkind
  have hstart : Traced book file [] [] [] ⟨[], [], []⟩ := Traced.start
  obtain ⟨pairs, opened, htraced⟩ := hstart.foldl ds
  rw [List.nil_append] at htraced
  have hmem : s ∈ pairs.map (ofRange file) := by
    rw [← htraced.ranges]
    exact List.mem_filter.2 ⟨hs, by simp [hkind]⟩
  obtain ⟨⟨⟨d, i⟩, ⟨e, j⟩⟩, hp, rfl⟩ := List.mem_map.1 hmem
  have hopen := htraced.paired.start_open hp
  have hend := htraced.paired.ends _ hp
  obtain ⟨hi, hd⟩ := List.mem_zipIdx' hopen.mem
  obtain ⟨hj, he⟩ := List.mem_zipIdx' hend.1
  have hle := List.pairwise_iff_getElem.1 hline i j hi hj hopen.before
  rw [← hd, ← he, ← hds d (hd ▸ List.getElem_mem hi) (.inl hopen.kind),
    ← hds e (he ▸ List.getElem_mem hj) (.inr hend.2)] at hle
  exact hle

end Suppression

namespace DirectiveSyntax

variable {source : Source} {f : Focus} {m : Pattern.Match} {d : Directive}

theorem byteLength_append (cs ds : List Char) : byteLength (cs ++ ds) = byteLength cs + byteLength ds := by
  rw [byteLength, String.ofList_append, String.utf8ByteSize_append]
  rfl

theorem byteLength_take_le (cs : List Char) {i j : Nat} (h : i ≤ j) :
    byteLength (cs.take i) ≤ byteLength (cs.take j) := by
  obtain ⟨k, rfl⟩ := Nat.exists_eq_add_of_le h
  rw [List.take_add, byteLength_append]
  exact Nat.le_add_right _ _

/-- The directives of one comment. -/
def directivesIn (y : DirectiveSyntax) (source : Source) (f : Focus) : List Directive :=
  (y.pattern.findAll f.token.text.toList).filterMap (directive? source f)

theorem directives_eq (y : DirectiveSyntax) (source : Source) :
    y.directives source = ((Focus.all source.tokens).filter (·.token.isComment)).flatMap (y.directivesIn source) := rfl

theorem mem_findAll_standard {cs : List Char} (hm : m ∈ standard.pattern.findAll cs) :
    m.text ≠ [] ∧ ∃ front back, cs = front ++ (m.text ++ back) ∧ m.start = front.length := by
  rw [Pattern.findAll_eq_scan stops_standard solid_standard] at hm
  simpa using Pattern.exists_append_of_mem_scan solid_standard hm

theorem span_directive? (hm : m ∈ standard.pattern.findAll f.token.text.toList) (hd : directive? source f m = some d) :
    d.span = source.spanFor (f.token.span.startByte + byteLength (f.token.text.toList.take m.start))
      (f.token.span.startByte + byteLength (f.token.text.toList.take m.stop)) := by
  obtain ⟨-, front, back, htext, hstart⟩ := mem_findAll_standard hm
  obtain ⟨kind, -, rfl⟩ := Option.map_eq_some_iff.1 hd
  have hstop : f.token.text.toList.take m.stop = f.token.text.toList.take m.start ++ m.text := by
    rw [htext, Pattern.Match.stop, hstart, List.take_left, List.take_length_add_append, List.take_left]
  rw [hstop, byteLength_append, ← Nat.add_assoc]

theorem line_range (hd : directive? source f m = some d) (hkind : d.kind = .disable ∨ d.kind = .enable) :
    d.line = d.span.startLine := by
  obtain ⟨kind, -, rfl⟩ := Option.map_eq_some_iff.1 hd
  obtain rfl | rfl : kind = .disable ∨ kind = .enable := hkind <;> rfl

theorem token_place (hf : f ∈ Focus.all source.tokens) :
    ∃ before after, source.bytes = before ++ (f.token.bytes ++ after) ∧ f.token.text = Utf8.lossy f.token.bytes ∧
      f.token.span.startByte = before.length ∧ f.token.span.endByte = before.length + f.token.bytes.length := by
  obtain ⟨before, after, hsrc, -, htext, -, hspan⟩ := Token.mem_tokenize (Focus.token_mem hf)
  exact ⟨before, after, hsrc, htext, congrArg Span.startByte hspan, congrArg Span.endByte hspan⟩

/-- A directive keeps to its comment where the text up to its end is no longer than the comment, or no byte comes
behind the comment. -/
theorem inside_iff (hf : f ∈ Focus.all source.tokens) (hm : m ∈ standard.pattern.findAll f.token.text.toList)
    (hd : directive? source f m = some d) :
    d.span.Inside f.token.span ↔ f.token.span.endByte = source.length ∨
      byteLength (f.token.text.toList.take m.stop) ≤ f.token.bytes.length := by
  obtain ⟨before, after, hsrc, -, hstart, hend⟩ := token_place hf
  have hlength : source.length = before.length + (f.token.bytes.length + after.length) := by
    rw [Source.length, hsrc, List.length_append, List.length_append]
  rw [span_directive? hm hd]
  simp only [Span.Inside, Source.spanFor, Span.between]
  omega

theorem directivesIn_apart (source : Source) (f : Focus) :
    (standard.directivesIn source f).Pairwise fun a b ↦ a.span.endByte ≤ b.span.startByte := by
  have hmatches := Pattern.scan_pairwise solid_standard 0 f.token.text.toList
  rw [← Pattern.findAll_eq_scan stops_standard solid_standard] at hmatches
  rw [directivesIn, List.pairwise_filterMap]
  refine hmatches.imp_of_mem fun {a b} ha hb hab d hd e he ↦ ?_
  have hstart := byteLength_take_le f.token.text.toList hab
  have hstop := byteLength_take_le f.token.text.toList (hab.trans (Nat.le_add_right b.start b.text.length))
  rw [span_directive? ha hd, span_directive? hb he]
  simp only [Source.spanFor, Span.between, Pattern.Match.stop] at hstart hstop ⊢
  omega

/-- Whether every directive lies in the comment that it was found in. -/
def Kept (source : Source) : Prop :=
  ∀ f ∈ Focus.all source.tokens, f.token.isComment = true →
    ∀ d ∈ standard.directivesIn source f, d.span.Inside f.token.span

instance : Decidable (Kept source) := inferInstanceAs (Decidable (∀ f ∈ Focus.all source.tokens, _))

theorem Kept.apart (h : Kept source) :
    (standard.directives source).Pairwise fun a b ↦ a.span.endByte ≤ b.span.startByte := by
  rw [directives_eq, List.pairwise_flatMap]
  refine ⟨fun f _ ↦ directivesIn_apart source f, ?_⟩
  refine ((Focus.all_apart source).sublist List.filter_sublist).imp_of_mem fun {f g} hf hg hfg a ha b hb ↦ ?_
  obtain ⟨hf, hcf⟩ := List.mem_filter.1 hf
  obtain ⟨hg, hcg⟩ := List.mem_filter.1 hg
  exact (h f hf hcf a ha).2.trans (hfg.trans (h g hg hcg b hb).1)

theorem Kept.sorted (h : Kept source) :
    (standard.directives source).Pairwise fun a b ↦ a.span.startByte ≤ b.span.startByte := by
  refine h.apart.imp_of_mem fun ha _ hab ↦ ?_
  exact (Source.exact_iff.1 (standard.exact_directive source _ ha)).1.trans hab

theorem Kept.forward (h : Kept source) (book : RuleBook) (file : String) :
    ∀ s ∈ (Suppression.resolve book file (standard.directives source)).1, s.kind = .range →
      s.firstLine ≤ s.lastLine := by
  refine Suppression.resolve_forward ?_ ?_ book file
  · refine h.sorted.imp_of_mem fun ha hb hab ↦ ?_
    exact (standard.exact_directive source _ ha).startLine_le (standard.exact_directive source _ hb) hab
  · intro d hd hkind
    obtain ⟨f, -, hd⟩ := List.mem_flatMap.1 hd
    obtain ⟨m, -, hd⟩ := List.mem_filterMap.1 hd
    exact line_range hd hkind

/-- The span of a directive in a file without damage holds the text of the directive. -/
theorem located_of_isValid (hvalid : Utf8.isValid source.bytes = true) (hf : f ∈ Focus.all source.tokens)
    (hcomment : f.token.isComment = true) (hm : m ∈ standard.pattern.findAll f.token.text.toList)
    (hd : directive? source f m = some d) :
    d.span.Inside f.token.span ∧ Utf8.lossy (source.spanBytes d.span) = String.ofList m.text := by
  obtain ⟨before, after, hsrc, htext, hstart, hend⟩ := token_place hf
  obtain ⟨-, front, back, hsplit, hfront⟩ := mem_findAll_standard hm
  have hbytes := Token.isValid_comment (Focus.token_mem hf) hcomment hvalid
  have hspan := span_directive? hm hd
  rw [hsplit, Pattern.Match.stop, hfront, List.take_left, List.take_length_add_append, List.take_left,
    byteLength_append] at hspan
  -- The text is cut before and behind the directive, and so are the bytes of the comment.
  rw [htext] at hsplit
  obtain ⟨first, more, hcut, ⟨hfirst, hfirstText⟩, hmore, hmoreText⟩ := Utf8.exists_cut_lossy hbytes hsplit
  obtain ⟨own, last, rfl, ⟨hown, hownText⟩, -⟩ :=
    Utf8.exists_cut_lossy hmore (by rw [hmoreText, String.toList_ofList])
  rw [byteLength, ← hfirstText, Utf8.utf8ByteSize_lossy hfirst, byteLength, ← hownText,
    Utf8.utf8ByteSize_lossy hown, hstart] at hspan
  rw [hcut] at hsrc hend
  have hlength : source.length = before.length + (first.length + own.length + last.length + after.length) := by
    simp [Source.length, hsrc, Nat.add_assoc]
  have hexact : source.Exact d.span := hspan ▸ source.exact_spanFor _ _
  have hfirstByte : d.span.startByte = (before ++ first).length := by
    simp only [hspan, Source.spanFor, Span.between, List.length_append]
    omega
  have hlastByte : d.span.endByte = (before ++ first).length + own.length := by
    simp only [hspan, Source.spanFor, Span.between, List.length_append]
    omega
  constructor
  · simp only [List.length_append] at hfirstByte hlastByte hend
    unfold Span.Inside
    omega
  · have hbytes : source.bytes = (before ++ first) ++ (own ++ (last ++ after)) := by simp [hsrc]
    rw [hexact.spanBytes, Source.slice, hfirstByte, hlastByte, Nat.add_sub_cancel_left, hbytes, List.drop_left,
      List.take_left, hownText]

theorem kept_of_isValid (hvalid : Utf8.isValid source.bytes = true) : Kept source := by
  intro f hf hcomment d hd
  obtain ⟨m, hm, hd⟩ := List.mem_filterMap.1 hd
  exact (located_of_isValid hvalid hf hcomment hm hd).1

/-- A directive lies in its comment exactly if the text up to its end is no longer than the comment, or the comment
ends the file. Where all directives do so they are in order and their ranges run forward; and all of them do so, and
cover their own text, where the bytes are UTF-8. -/
theorem directives_kept (source : Source) (book : RuleBook) (file : String) :
    (∀ f ∈ Focus.all source.tokens, f.token.isComment = true →
      ∀ m ∈ standard.pattern.findAll f.token.text.toList, ∀ d, directive? source f m = some d →
        (d.span.Inside f.token.span ↔ f.token.span.endByte = source.length ∨
          byteLength (f.token.text.toList.take m.stop) ≤ f.token.bytes.length)) ∧
    (Kept source →
      (standard.directives source).Pairwise (fun a b ↦ a.span.startByte ≤ b.span.startByte) ∧
      ∀ s ∈ (Suppression.resolve book file (standard.directives source)).1, s.kind = .range →
        s.firstLine ≤ s.lastLine) ∧
    (Utf8.isValid source.bytes = true → Kept source ∧
      ∀ f ∈ Focus.all source.tokens, f.token.isComment = true →
        ∀ m ∈ standard.pattern.findAll f.token.text.toList, ∀ d, directive? source f m = some d →
          Utf8.lossy (source.spanBytes d.span) = String.ofList m.text) := by
  refine ⟨fun f hf _ m hm d hd ↦ inside_iff hf hm hd, fun h ↦ ⟨h.sorted, h.forward book file⟩, fun hvalid ↦ ?_⟩
  refine ⟨kept_of_isValid hvalid, fun f hf hcomment m hm d hd ↦ ?_⟩
  exact (located_of_isValid hvalid hf hcomment hm hd).2

/-- A range behind letters of two bytes. -/
theorem directives_kept_accents :
    ∃ source : Source, source = ⟨"a.c", bytesOf "// éé\n/* é cstylecheck:disable\n*/ // cstylecheck:enable\n"⟩ ∧
      Utf8.isValid source.bytes = true ∧ Kept source ∧
      (standard.directives source).map (fun d ↦ (d.span.startByte, d.span.endByte)) = [(14, 33), (40, 58)] ∧
      ((standard.directives source).Pairwise (fun a b ↦ a.span.startByte ≤ b.span.startByte) ∧
        ∀ s ∈ (Suppression.resolve .builtin "a.c" (standard.directives source)).1, s.kind = .range →
          s.firstLine ≤ s.lastLine) := by
  let source : Source := ⟨"a.c", bytesOf "// éé\n/* é cstylecheck:disable\n*/ // cstylecheck:enable\n"⟩
  have hvalid : Utf8.isValid source.bytes = true := by decide +kernel
  obtain ⟨-, hordered, hkept⟩ := directives_kept source .builtin "a.c"
  exact ⟨source, rfl, hvalid, (hkept hvalid).1, by decide +kernel, hordered (hkept hvalid).1⟩

/-- A directive behind bytes that are no text is placed behind its comment and behind the directive that closes its
range, which then ends before it starts. -/
theorem directive_behind_damage :
    ∃ source : Source,
      source = ⟨"a.c", bytesOf "//" ++ List.replicate 21 0xFF ++ bytesOf "cstylecheck:disable\n//cstylecheck:enable\n"⟩ ∧
      ¬Kept source ∧
      (standard.directives source).map (fun d ↦ (d.span.startByte, d.span.endByte)) = [(64, 64), (45, 63)] ∧
      (Suppression.resolve .builtin "a.c" (standard.directives source)).1.map
        (fun s ↦ (s.kind, s.firstLine, s.lastLine)) = [(.range, 3, 2)] :=
  ⟨_, rfl, by decide +kernel, by decide +kernel, by decide +kernel⟩

end DirectiveSyntax

end CodeStyle
