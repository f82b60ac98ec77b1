import CodeStyle.Proofs.DirectiveSpans
import CodeStyle.Proofs.LineCuts
import CodeStyle.Proofs.Reports

/-!
The lines that `ignore` means. A directive stands beside code if no line break token separates its comment from
code before it. Line breaks inside of tokens do not count, so the code need not end on the line of the directive.
-/

namespace CodeStyle

open Text

namespace Source

variable {s : Source}

theorem placeOf_line_le {a b : Nat} (h : a ≤ b) : (s.placeOf a).line ≤ (s.placeOf b).line := by
  rcases Nat.lt_or_eq_of_le h with h | rfl
  · rcases s.placeOf_before h with hline | ⟨hline, -⟩ <;> omega
  · exact Nat.le_refl _

theorem Exact.startLine_eq {x : Span} (h : s.Exact x) : x.startLine = (s.placeOf x.startByte).line :=
  congrArg Point.line h.start_eq

theorem Exact.endLine_eq {x : Span} (h : s.Exact x) : x.endLine = (s.placeOf x.endByte).line := by
  obtain ⟨-, -, hx⟩ := exact_iff.1 h
  exact congrArg Span.endLine hx

theorem newline_lines {t : Token} (ht : t ∈ s.tokens) (hkind : t.kind = .newline) :
    (s.placeOf t.span.startByte).line < (s.placeOf t.span.endByte).line := by
  obtain ⟨front, l, back, hlexemes, hl, -, -, hspan⟩ := Token.mem_place Token.lexemes_ne_nil ht
  have hexact := exact_token ht
  rw [← hexact.startLine_eq, ← hexact.endLine_eq, hspan, Point.walk_append]
  have hne : l.bytes ≠ [] := Token.lexemes_ne_nil l (by rw [hlexemes]; simp)
  obtain ⟨b, tail, hb⟩ := List.exists_cons_of_ne_nil hne
  rw [hb, List.head?_cons, Option.some_or, ← hb, (Token.newline_walk hlexemes (hl ▸ hkind) _).1]
  exact Nat.lt_succ_self _

end Source

namespace Focus

/-- Code before the focus from which no line break token separates it. -/
def FollowsCode (f : Focus) (t : Token) : Prop :=
  (t.isTrivia = false ∧ t.isComment = false) ∧
    ∃ between front, f.before = between ++ t :: front ∧ ∀ u ∈ between, u.kind ≠ .newline

theorem isBesideCode_iff {f : Focus} : DirectiveSyntax.isBesideCode f = true ↔ ∃ t, f.FollowsCode t := by
  simp only [DirectiveSyntax.isBesideCode, List.any_eq_true, Bool.and_eq_true, Bool.not_eq_true']
  constructor
  · rintro ⟨t, ht, hcode⟩
    obtain ⟨between, more, hsplit⟩ := List.append_of_mem ht
    refine ⟨t, hcode, between, more ++ f.before.dropWhile (·.kind != .newline), ?_, fun u hu ↦ ?_⟩
    · rw [← List.cons_append, ← List.append_assoc, ← hsplit, List.takeWhile_append_dropWhile]
    · have hmem : u ∈ f.before.takeWhile (·.kind != .newline) := by
        rw [hsplit]
        exact List.mem_append_left _ hu
      simpa using List.mem_takeWhile_imp hmem
  · rintro ⟨t, hcode, between, front, hbefore, hbetween⟩
    have ht : t.kind ≠ .newline := by
      intro hkind
      rw [Token.isTrivia, hkind] at hcode
      cases hcode.1
    refine ⟨t, ?_, hcode⟩
    rw [hbefore, List.takeWhile_append_of_pos (by simpa using hbetween), List.takeWhile_cons_of_pos (by simpa using ht)]
    simp

end Focus

namespace Suppression

variable {book : RuleBook} {file : String} {p : Progress} {d : Directive} {x : Span}

theorem mem_of_mem_closed {o : Directive} {opened : List Directive} (h : o ∈ (close d opened).1) : o ∈ opened := by
  unfold close at h
  split at h
  · exact List.mem_reverse.1 h
  · split at h
    · cases h
    next start hfind =>
      obtain rfl := List.mem_singleton.1 h
      exact List.mem_of_find?_eq_some hfind

/-- What has been suppressed at a span, while no range is open there. -/
def Progress.Holds (p : Progress) (x : Span) (found : List Suppression) : Prop :=
  p.suppressions.filter (·.span == x) = found ∧ ∀ o ∈ p.opened, o.span ≠ x

variable {found : List Suppression}

theorem step_elsewhere (h : p.Holds x found) (hd : d.span ≠ x) : (step book file p d).Holds x found := by
  obtain ⟨hfound, hopened⟩ := h
  have hone (kind : SuppressionKind) (first last : Nat) :
      (p.suppressions ++ [ofDirective file d kind first last]).filter (·.span == x) = found := by
    rw [List.filter_append, hfound]
    simp [ofDirective, hd]
  unfold step
  cases d.kind with
  | ignore | ignoreNextLine | ignoreFile => exact ⟨hone _ _ _, hopened⟩
  | disable => exact ⟨hfound, List.forall_mem_cons.2 ⟨hd, hopened⟩⟩
  | enable =>
    refine ⟨?_, fun o ho ↦ hopened o (mem_of_mem_close ho)⟩
    have hclosed : ((close d p.opened).1.map fun start ↦ ofDirective file start .range start.line d.line).filter
        (·.span == x) = [] := by
      rw [List.filter_eq_nil_iff]
      intro s hs
      obtain ⟨start, hstart, rfl⟩ := List.mem_map.1 hs
      simpa [ofDirective] using hopened start (mem_of_mem_closed hstart)
    simp only [List.filter_append, hfound, hclosed, List.append_nil]

theorem step_ignore (h : p.Holds d.span found) (hkind : d.kind = .ignore) :
    (step book file p d).Holds d.span (found ++
      [ofDirective file d (if d.line = d.span.startLine then .line else .nextLine) d.line d.line]) := by
  unfold step
  rw [hkind]
  refine ⟨?_, h.2⟩
  simp only [List.filter_append, h.1]
  simp [ofDirective]

theorem foldl_elsewhere {ds : List Directive} (h : p.Holds x found) (hds : ∀ d ∈ ds, d.span ≠ x) :
    (ds.foldl (step book file) p).Holds x found := by
  induction ds generalizing p with
  | nil => exact h
  | cons d ds ih => exact ih (step_elsewhere h (hds d (by simp))) fun o ho ↦ hds o (by simp [ho])

/-- An `ignore` gives one suppression, and no other directive gives one at its span. -/
theorem resolve_ignore (book : RuleBook) (file : String) {front back : List Directive} (hkind : d.kind = .ignore)
    (hother : ∀ o ∈ front ++ back, o.span ≠ d.span) :
    (resolve book file (front ++ d :: back)).1.filter (·.span == d.span) =
      [ofDirective file d (if d.line = d.span.startLine then .line else .nextLine) d.line d.line] := by
  have hstart : Progress.Holds ⟨[], [], []⟩ d.span [] := ⟨rfl, by simp⟩
  have hfront : (front.foldl (step book file) ⟨[], [], []⟩).Holds d.span [] :=
    foldl_elsewhere hstart fun o ho ↦ hother o (List.mem_append_left _ ho)
  have hall : ((front ++ d :: back).foldl (step book file) ⟨[], [], []⟩).Holds d.span
      [ofDirective file d (if d.line = d.span.startLine then .line else .nextLine) d.line d.line] := by
    rw [List.foldl_append, List.foldl_cons]
    exact foldl_elsewhere (step_ignore hfront hkind) fun o ho ↦ hother o (List.mem_append_right _ ho)
  exact hall.1

end Suppression

namespace DirectiveSyntax

variable {source : Source} {f : Focus} {d : Directive}

/-- Code with a byte on the line of a directive, before the directive. -/
def CodeBefore (source : Source) (d : Directive) : Prop :=
  ∃ t ∈ source.tokens, (t.isTrivia = false ∧ t.isComment = false) ∧
    ∃ offset < d.span.startByte, t.span.startByte ≤ offset ∧ offset < t.span.endByte ∧
      (source.placeOf offset).line = d.span.startLine

instance : Decidable (CodeBefore source d) := inferInstanceAs (Decidable (∃ t ∈ source.tokens, _))

theorem startByte_lt_endByte (hvalid : Utf8.isValid source.bytes = true) (hf : f ∈ Focus.all source.tokens)
    (hcomment : f.token.isComment = true) (hd : d ∈ standard.directivesIn source f) :
    d.span.startByte < d.span.endByte := by
  obtain ⟨m, hm, hd⟩ := List.mem_filterMap.1 hd
  have htext := (located_of_isValid hvalid hf hcomment hm hd).2
  have hexact : source.Exact d.span := by
    rw [span_directive? hm hd]
    exact source.exact_spanFor _ _
  by_contra hlt
  rw [hexact.spanBytes, Source.slice, Nat.sub_eq_zero_of_le (Nat.le_of_not_lt hlt), List.take_zero] at htext
  have hempty := congrArg String.toList htext
  rw [String.toList_ofList] at hempty
  exact (mem_findAll_standard hm).1 (hempty.symm.trans (by simp [Utf8.lossy, Utf8.units]))

theorem codeBefore_iff (hf : f ∈ Focus.all source.tokens) (hcomment : f.token.isComment = true)
    (hexact : source.Exact d.span) (hinside : d.span.Inside f.token.span) (hlt : d.span.startByte < d.span.endByte) :
    CodeBefore source d ↔
      ∃ t, f.FollowsCode t ∧ (source.placeOf (t.span.endByte - 1)).line = d.span.startLine := by
  have hline := hexact.startLine_eq
  obtain ⟨hstart, hend⟩ := hinside
  have hall := Focus.mem_all hf
  have hapart := source.tokens_apart
  rw [hall, List.pairwise_append] at hapart
  obtain ⟨hbefore, hafter, hcross⟩ := hapart
  constructor
  · rintro ⟨t, ht, hcode, offset, hoffset, hfirst, hlast, hsame⟩
    rw [hall] at ht
    rcases List.mem_append.1 ht with ht | ht
    · obtain ⟨between, front, hsplit⟩ := List.append_of_mem (List.mem_reverse.1 ht)
      refine ⟨t, ⟨hcode, between, front, hsplit, fun u hu hkind ↦ ?_⟩, ?_⟩
      · -- A line break token between them would put the directive on a later line.
        have hu' : u ∈ f.before := by rw [hsplit]; exact List.mem_append_left _ hu
        have htu : t.span.endByte ≤ u.span.startByte := by
          rw [hsplit, List.pairwise_reverse, List.pairwise_append] at hbefore
          exact hbefore.2.2 u hu t List.mem_cons_self
        have huf := hcross u (List.mem_reverse.2 hu') f.token List.mem_cons_self
        have hbreak := Source.newline_lines (Focus.before_mem hf u hu') hkind
        have hle := source.placeOf_line_le (hlast.le.trans htu)
        have hle' := source.placeOf_line_le (huf.trans hstart)
        omega
      · have htf := hcross t ht f.token List.mem_cons_self
        have hle := source.placeOf_line_le (Nat.le_sub_one_of_lt hlast)
        have hle' : (source.placeOf (t.span.endByte - 1)).line ≤ (source.placeOf d.span.startByte).line :=
          source.placeOf_line_le (by omega)
        omega
    · rcases List.mem_cons.1 ht with rfl | ht
      · rw [hcomment] at hcode
        cases hcode.2
      · have hft := List.rel_of_pairwise_cons hafter ht
        omega
  · rintro ⟨t, ⟨hcode, between, front, hsplit, -⟩, hsame⟩
    have ht : t ∈ f.before := by rw [hsplit]; simp
    have htokens := Focus.before_mem hf t ht
    have hpos := Source.startByte_lt_of_token htokens
    have htf := hcross t (List.mem_reverse.2 ht) f.token List.mem_cons_self
    exact ⟨t, htokens, hcode, t.span.endByte - 1, by omega, by omega, by omega, hsame⟩

theorem line_ignore {m : Pattern.Match} (hd : directive? source f m = some d) (hkind : d.kind = .ignore) :
    d.line = if isBesideCode f then d.span.startLine else f.token.span.endLine + 1 := by
  obtain ⟨kind, -, rfl⟩ := Option.map_eq_some_iff.1 hd
  obtain rfl : kind = .ignore := hkind
  cases isBesideCode f <;> simp

theorem others_elsewhere {front back : List Directive} (hkept : Kept source) (hlt : d.span.startByte < d.span.endByte)
    (hsplit : standard.directives source = front ++ d :: back) : ∀ o ∈ front ++ back, o.span ≠ d.span := by
  have hapart := hkept.apart
  rw [hsplit, List.pairwise_append] at hapart
  intro o ho heq
  rcases List.mem_append.1 ho with ho | ho
  · have hle := hapart.2.2 o ho d List.mem_cons_self
    rw [heq] at hle
    omega
  · have hle := List.rel_of_pairwise_cons hapart.2.1 ho
    rw [heq] at hle
    omega

/-- An `ignore` is resolved to one suppression: of its own line if no line break token separates its comment from code
before it, and else of the line behind its comment. Code on its own line before it is such code, namely such that ends
on that line. -/
theorem ignore_resolved (hvalid : Utf8.isValid source.bytes = true) (hf : f ∈ Focus.all source.tokens)
    (hcomment : f.token.isComment = true) (hd : d ∈ standard.directivesIn source f) (hkind : d.kind = .ignore)
    (book : RuleBook) (file : String) :
    ((∃ t, f.FollowsCode t) →
      (Suppression.resolve book file (standard.directives source)).1.filter (·.span == d.span) =
        [.ofDirective file d .line d.span.startLine d.span.startLine]) ∧
    ((¬∃ t, f.FollowsCode t) →
      (Suppression.resolve book file (standard.directives source)).1.filter (·.span == d.span) =
        [.ofDirective file d .nextLine (f.token.span.endLine + 1) (f.token.span.endLine + 1)]) ∧
    (CodeBefore source d ↔
      ∃ t, f.FollowsCode t ∧ (source.placeOf (t.span.endByte - 1)).line = d.span.startLine) := by
  have hkept := kept_of_isValid hvalid
  have hinside := hkept f hf hcomment d hd
  have hlt := startByte_lt_endByte hvalid hf hcomment hd
  have hmem : d ∈ standard.directives source := List.mem_flatMap.2 ⟨f, List.mem_filter.2 ⟨hf, hcomment⟩, hd⟩
  have hexact := standard.exact_directive source d hmem
  obtain ⟨front, back, hsplit⟩ := List.append_of_mem hmem
  have hresolved := Suppression.resolve_ignore book file hkind (others_elsewhere hkept hlt hsplit)
  rw [← hsplit] at hresolved
  obtain ⟨m, -, hd⟩ := List.mem_filterMap.1 hd
  have hline := line_ignore hd hkind
  refine ⟨fun h ↦ ?_, fun h ↦ ?_, codeBefore_iff hf hcomment hexact hinside hlt⟩
  · rw [if_pos (Focus.isBesideCode_iff.2 h)] at hline
    rw [hresolved, if_pos hline, hline]
  · rw [if_neg (mt Focus.isBesideCode_iff.1 h)] at hline
    have htoken := Source.exact_token (Focus.token_mem hf)
    have hle := source.placeOf_line_le (hlt.le.trans hinside.2)
    rw [← hexact.startLine_eq, ← htoken.endLine_eq] at hle
    rw [hresolved, if_neg (by omega), hline]

/-- One comment beside code and another comment, and one on lines of its own. -/
theorem ignore_resolved_both :
    ∃ source : Source, source = ⟨"a.c", bytesOf "int x; /* é */ /* cstylecheck:ignore */\n/* cstylecheck:ignore\n*/\n"⟩ ∧
      Utf8.isValid source.bytes = true ∧
      ∃ f ∈ Focus.all source.tokens, ∃ g ∈ Focus.all source.tokens, f.token.isComment = true ∧ g.token.isComment = true ∧
      ∃ d ∈ standard.directivesIn source f, ∃ e ∈ standard.directivesIn source g, d.kind = .ignore ∧ e.kind = .ignore ∧
        CodeBefore source d ∧ ¬CodeBefore source e ∧
        (Suppression.resolve .builtin "a.c" (standard.directives source)).1.filter (·.span == d.span) =
          [.ofDirective "a.c" d .line 1 1] ∧
        (Suppression.resolve .builtin "a.c" (standard.directives source)).1.filter (·.span == e.span) =
          [.ofDirective "a.c" e .nextLine 4 4] := by
  let source : Source := ⟨"a.c", bytesOf "int x; /* é */ /* cstylecheck:ignore */\n/* cstylecheck:ignore\n*/\n"⟩
  have hvalid : Utf8.isValid source.bytes = true := by decide +kernel
  let f : Focus := (Focus.all source.tokens).get ⟨7, by decide +kernel⟩
  let g : Focus := (Focus.all source.tokens).get ⟨9, by decide +kernel⟩
  let d : Directive := (standard.directivesIn source f).get ⟨0, by decide +kernel⟩
  let e : Directive := (standard.directivesIn source g).get ⟨0, by decide +kernel⟩
  have hf : f ∈ Focus.all source.tokens := List.get_mem _ _
  have hg : g ∈ Focus.all source.tokens := List.get_mem _ _
  have hd : d ∈ standard.directivesIn source f := List.get_mem _ _
  have he : e ∈ standard.directivesIn source g := List.get_mem _ _
  have hcf : f.token.isComment = true := by decide +kernel
  have hcg : g.token.isComment = true := by decide +kernel
  have hkd : d.kind = .ignore := by decide +kernel
  have hke : e.kind = .ignore := by decide +kernel
  have hbefore : CodeBefore source d := by decide +kernel
  have hbeside : ¬∃ t, g.FollowsCode t := mt Focus.isBesideCode_iff.2 (by decide +kernel)
  obtain ⟨hline, -, hcode⟩ := ignore_resolved hvalid hf hcf hd hkd .builtin "a.c"
  obtain ⟨-, hnext, -⟩ := ignore_resolved hvalid hg hcg he hke .builtin "a.c"
  have hlineOf : d.span.startLine = 1 := by decide +kernel
  have hendOf : g.token.span.endLine = 3 := by decide +kernel
  rw [hlineOf] at hline
  rw [hendOf] at hnext
  obtain ⟨t, ht, -⟩ := hcode.1 hbefore
  exact ⟨source, rfl, hvalid, f, hf, g, hg, hcf, hcg, d, hd, e, he, hkd, hke, hbefore, by decide +kernel, hline ⟨t, ht⟩,
    hnext hbeside⟩

/-- In a comment that begins beside code and goes on below it, the directive is given its own line, on which there is no
code. -/
theorem ignore_below_code :
    ∃ source : Source, source = ⟨"a.c", bytesOf "int x; /* a\n cstylecheck:ignore */\n"⟩ ∧
      Utf8.isValid source.bytes = true ∧
      ∃ d, standard.directives source = [d] ∧ d.kind = .ignore ∧ ¬CodeBefore source d ∧
        (Suppression.resolve .builtin "a.c" (standard.directives source)).1.map
          (fun s ↦ (s.kind, s.firstLine, s.lastLine)) = [(.line, 2, 2)] :=
  ⟨_, rfl, by decide +kernel, ⟨.ignore, [], none, 2, ⟨13, 34, 2, 2, 2, 23⟩⟩, by decide +kernel, rfl, by decide +kernel,
    by decide +kernel⟩

end DirectiveSyntax

end CodeStyle
