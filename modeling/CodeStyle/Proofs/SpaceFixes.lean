import CodeStyle.Proofs.KeywordFixes

/-!
What the suggested text for a wide gap does to a file. To the tokens around it a run of blanks is as good as one
space, also to a directive, which looks through the blanks behind it. With the text in place of every gap that is
found the tokens are the same but for these gaps, and none is found any more.
-/

namespace CodeStyle

open Text

namespace Source

/-- The file with the suggested texts of findings in place. The last comes first, so that the others still say where
they are. -/
def fixed (s : Source) (found : List Finding) : Source :=
  found.foldr (fun x s ↦ x.fix.elim s (s.replace x.span.startByte x.span.endByte)) s

theorem fixed_cons {s : Source} {x : Finding} {text : String} (hfix : x.fix = some text) (found : List Finding) :
    s.fixed (x :: found) = (s.fixed found).replace x.span.startByte x.span.endByte text := by
  rw [fixed, List.foldr_cons, hfix]
  rfl

theorem bytes_replace {s : Source} {front old back : List UInt8} {start stop : Nat}
    (h : s.bytes = front ++ (old ++ back)) (hstart : start = front.length) (hstop : stop = front.length + old.length)
    (text : String) : (s.replace start stop text).bytes = front ++ (bytesOf text ++ back) := by
  rw [replace, h, hstart, hstop, List.take_left, ← List.length_append, ← List.append_assoc front old, List.drop_left]

end Source

namespace Token

namespace Extent

section

variable {quote : Option UInt8} {taken stop : Nat} {bytes : List UInt8}

theorem operators_blank : ∀ op ∈ operators, ∀ b ∈ op, Byte.isBlank b = false := by
  have h : (operators.all fun op ↦ op.all fun b ↦ !Byte.isBlank b) = true := by decide +kernel
  simpa using h

theorem directiveReach_blanks {blanks : List UInt8} (h : ∀ b ∈ blanks, Byte.isBlank b = true) (back : List UInt8) :
    directiveReach quote taken stop (blanks ++ back) = directiveReach quote (taken + blanks.length) stop back := by
  induction blanks generalizing taken with
  | nil => rfl
  | cons b blanks ih =>
    rw [List.forall_mem_cons] at h
    have hb := h.1
    simp only [Byte.isBlank, Bool.or_eq_true, beq_iff_eq] at hb
    have hstep : directiveReach quote taken stop (b :: (blanks ++ back)) =
        directiveReach quote (taken + 1) stop (blanks ++ back) := by
      rcases hb with ((rfl | rfl) | rfl) | rfl <;>
        exact directiveReach_blank (by decide) (by decide) (by decide) (by simp) (by decide)
    rw [List.cons_append, hstep, ih h.2, List.length_cons, Nat.add_assoc, Nat.add_comm 1]

/-- A directive that takes nothing of what it looks at ends where it stood before, however far it had come. -/
theorem directiveReach_idle (h : (directiveReach quote taken stop bytes).1 < taken) (taken' : Nat) :
    directiveReach quote taken' stop bytes = (stop, none) := by
  fun_induction directiveReach quote taken stop bytes generalizing taken' with
  | case1 => rw [directiveReach]
  | case2 _ _ _ _ _ hb => exact directiveReach_break hb
  | case12 _ _ _ _ _ hb hslash hquote hcomment => exact directiveReach_comment hb hslash hquote hcomment
  | case13 _ _ _ _ _ hb hslash hquote hcomment hblank ih =>
    rw [directiveReach_blank hb hslash hquote hcomment hblank]
    exact ih (Nat.lt_succ_of_lt h) _
  | case3 | case4 | case5 | case7 => exact absurd h (Nat.not_lt.2 (Nat.le_add_right _ _))
  | case6 | case8 | case9 | case10 | case11 | case14 =>
    exact absurd (Nat.lt_of_le_of_lt (le_directiveReach ..) h) (by omega)

theorem Alike.of_blanks {x : UInt8} {blanks : List UInt8} (h : ∀ b ∈ x :: blanks, Byte.isBlank b = true)
    (back : List UInt8) : Alike x (byte ' ') (blanks ++ back) back := by
  have hoperator {b : UInt8} (hb : Byte.isBlank b = true) {op : List UInt8} (hop : op ∈ operators) : b ∉ op := by
    intro hmem
    rw [operators_blank op hop b hmem] at hb
    cases hb
  refine ⟨.inr ⟨h x List.mem_cons_self, rfl⟩, fun op hop ↦ ⟨hoperator (h x List.mem_cons_self) hop, hoperator rfl hop⟩,
    fun quote taken stop hle ↦ ?_⟩
  have hspace : ∀ b ∈ [byte ' '], Byte.isBlank b = true := by simp [Byte.isBlank]
  rw [← List.cons_append, directiveReach_blanks h] at hle ⊢
  rw [← List.singleton_append, directiveReach_blanks hspace]
  have hidle := directiveReach_idle (Nat.lt_of_le_of_lt hle (by simp))
  rw [hidle, hidle]

end

end Extent

section

variable {code : Bool} {bytes : List UInt8} {front back : List Lexeme} {l : Lexeme}

def space : Lexeme := ⟨.whitespace, [byte ' '], none⟩

theorem lexemes_of_space {after : List UInt8} (h : ∀ b ∈ after.head?, Byte.isBlank b = false) :
    lexemes code (byte ' ' :: after) = space :: lexemes code after := by
  have hblanks : after.takeWhile Byte.isBlank = [] := by
    cases after with
    | nil => rfl
    | cons b after => exact List.takeWhile_cons_of_neg (by simp [h b rfl])
  have hof : Extent.of code (byte ' ') after = Extent.plain .whitespace (after.takeWhile Byte.isBlank).length := rfl
  rw [lexemes, hof, hblanks]
  rfl

theorem whitespace_run (h : lexemes code bytes = front ++ l :: back) (hl : l.kind = .whitespace)
    (hne : l.bytes ≠ [byte '\\']) : IsRunOf Byte.isBlank (back.flatMap Lexeme.bytes) l.bytes := by
  obtain ⟨code', first, rest, -, rfl, rfl⟩ := lexemes_split h
  have hfits := Extent.of_fits code' first rest
  rw [Extent.Fits, show (Extent.of code' first rest).kind = .whitespace from hl] at hfits
  rw [lexemes_flatMap]
  exact hfits.resolve_right fun hslash ↦ hne hslash.1

theorem lexemes_narrowed (h : lexemes code bytes = front ++ l :: back) (hl : l.kind = .whitespace)
    (hne : l.bytes ≠ [byte '\\']) :
    lexemes code (front.flatMap Lexeme.bytes ++ (byte ' ' :: back.flatMap Lexeme.bytes)) = front ++ space :: back := by
  obtain ⟨hcons, hall, hafter⟩ := whitespace_run h hl hne
  obtain ⟨x, blanks, hbytes⟩ := List.exists_cons_of_ne_nil hcons
  rw [hbytes] at hall
  rw [lexemes_ahead (.of_blanks hall _) h hbytes]
  obtain ⟨first, rest, -, rfl, rfl⟩ := lexemes_at h rfl
  rw [show (Extent.of _ first rest).kind = .whitespace from hl, Kind.lineHasCode, lexemes_flatMap] at hafter ⊢
  rw [lexemes_of_space hafter]

end

/-- What a token is, wherever it stands. -/
def content (t : Token) : Kind × List UInt8 × String := (t.kind, t.bytes, t.text)

end Token

namespace Rule.Spacing

open Token

def isWide (leading : Bool) (kind : Kind) (bytes : List UInt8) (next : Option Kind) : Bool :=
  kind == .whitespace && hasDoubleSpace bytes && !leading && !next.all fun k ↦ k == .newline || k.isComment

/-- What is found from a token on, `leading` if a line starts there. -/
def wide (leading : Bool) : List Token → List Finding
  | [] => []
  | t :: rest =>
    (if isWide leading t.kind t.bytes (rest.head?.map Token.kind) then
      [⟨t.span, s!"{t.bytes.length} spaces where one is expected", some " "⟩]
    else []) ++ wide (t.kind == .newline) rest

def narrow (leading : Bool) : List Lexeme → List Lexeme
  | [] => []
  | l :: rest =>
    (if isWide leading l.kind l.bytes (rest.head?.map Lexeme.kind) then space else l) :: narrow (l.kind == .newline) rest

theorem multipleSpaces_findings (r : RuleInput) (s : Source) :
    (multipleSpaces (r.on s)).findings = wide true s.tokens := by
  have hfoci (index : Nat) (before tokens : List Token) :
      (Focus.fromIndex index before tokens).filterMap multipleSpacesAt =
        wide (before.head?.all (·.kind == .newline)) tokens := by
    induction tokens generalizing index before with
    | nil => rfl
    | cons t rest ih =>
      have hhere : multipleSpacesAt ⟨index, before, t, rest⟩ =
          if isWide (before.head?.all (·.kind == .newline)) t.kind t.bytes (rest.head?.map Token.kind) then
            some ⟨t.span, s!"{t.bytes.length} spaces where one is expected", some " "⟩
          else none := by
        rw [multipleSpacesAt, isWide, Option.all_map]
        rfl
      rw [Focus.fromIndex, List.filterMap_cons, hhere, ih, wide]
      cases isWide (before.head?.all (·.kind == .newline)) t.kind t.bytes (rest.head?.map Token.kind) <;> rfl
  exact hfoci 0 [] s.tokens

section

variable {leading : Bool} {x : Finding} {t : Token} {ts : List Token}

theorem isWide_kind {kind : Kind} {bytes : List UInt8} {next : Option Kind}
    (h : isWide leading kind bytes next = true) : kind = .whitespace ∧ hasDoubleSpace bytes = true := by
  simp only [isWide, Bool.and_eq_true, beq_iff_eq] at h
  exact h.1.1

theorem mem_wide (h : x ∈ wide leading ts) :
    x.fix = some " " ∧ ∃ t ∈ ts, t.kind = .whitespace ∧ x.span = t.span := by
  induction ts generalizing leading with
  | nil => cases h
  | cons t ts ih =>
    rcases List.mem_append.1 h with h | h
    · split at h
      · rename_i hwide
        cases List.mem_singleton.1 h
        exact ⟨rfl, t, List.mem_cons_self, (isWide_kind hwide).1, rfl⟩
      · cases h
    · obtain ⟨hfix, u, hu, hspan⟩ := ih h
      exact ⟨hfix, u, List.mem_cons_of_mem t hu, hspan⟩

theorem wide_pairwise (h : ts.Pairwise fun t u ↦ t.span.endByte ≤ u.span.startByte) (leading : Bool) :
    (wide leading ts).Pairwise fun x y ↦ x.span.endByte ≤ y.span.startByte := by
  induction ts generalizing leading with
  | nil => exact .nil
  | cons t ts ih =>
    rw [List.pairwise_cons] at h
    rw [wide]
    split
    · refine .cons (fun y hy ↦ ?_) (ih h.2 _)
      obtain ⟨-, u, hu, -, hspan⟩ := mem_wide hy
      rw [hspan]
      exact h.1 u hu
    · exact ih h.2 _

theorem exists_wide_head (h : ∀ u ∈ ts, t.span ≠ u.span) : (∃ x ∈ wide leading (t :: ts), x.span = t.span) ↔
    isWide leading t.kind t.bytes (ts.head?.map Token.kind) = true := by
  rw [wide]
  constructor
  · rintro ⟨x, hx, hspan⟩
    rcases List.mem_append.1 hx with hx | hx
    · split at hx
      · assumption
      · cases hx
    · obtain ⟨-, u, hu, -, hspan'⟩ := mem_wide hx
      exact absurd (hspan.symm.trans hspan') (h u hu)
  · intro hwide
    rw [if_pos hwide]
    exact ⟨_, List.mem_cons_self, rfl⟩

theorem exists_wide_tail {u : Token} (h : t.span ≠ u.span) : (∃ x ∈ wide leading (t :: ts), x.span = u.span) ↔
    ∃ x ∈ wide (t.kind == .newline) ts, x.span = u.span := by
  rw [wide]
  constructor
  · rintro ⟨x, hx, hspan⟩
    rcases List.mem_append.1 hx with hx | hx
    · split at hx
      · cases List.mem_singleton.1 hx
        exact absurd hspan h
      · cases hx
    · exact ⟨x, hx, hspan⟩
  · rintro ⟨x, hx, hspan⟩
    exact ⟨x, List.mem_append_right _ hx, hspan⟩

end

theorem head_place (offset : Nat) (p : Point) (ls : List Lexeme) :
    (place offset p ls).head?.map Token.kind = ls.head?.map Lexeme.kind := by
  cases ls <;> rfl

theorem head_narrow (leading : Bool) (ls : List Lexeme) :
    (narrow leading ls).head?.map Lexeme.kind = ls.head?.map Lexeme.kind := by
  cases ls with
  | nil => rfl
  | cons l ls =>
    rw [narrow]
    split
    · rename_i hwide
      exact congrArg some (isWide_kind hwide).1.symm
    · rfl

/-- A single space is not wide, and the tokens beside it are of the same kinds as before. -/
theorem wide_narrow (leading : Bool) (offset : Nat) (p : Point) (ls : List Lexeme) :
    wide leading (place offset p (narrow leading ls)) = [] := by
  induction ls generalizing leading offset p with
  | nil => rfl
  | cons l ls ih =>
    rw [narrow]
    split
    · rename_i hwide
      have hkind : l.kind = .whitespace := (isWide_kind hwide).1
      have hspace (next : Option Kind) : isWide leading space.kind space.bytes next = false := by
        simp [isWide, space, hasDoubleSpace]
      rw [place, wide, hspace, hkind]
      exact ih _ _ _
    · rename_i hwide
      rw [place, wide, head_place, head_narrow, if_neg hwide]
      exact ih _ _ _

theorem lexemes_fixed {s : Source} {front back : List Lexeme} (h : lexemes false s.bytes = front ++ back)
    (leading : Bool) (p : Point) :
    lexemes false (s.fixed (wide leading (place (front.flatMap Lexeme.bytes).length p back))).bytes =
      front ++ narrow leading back := by
  -- the gaps behind the first are fixed before it, and the tokens before them stay as they are
  induction back generalizing front leading p with
  | nil => exact h
  | cons l back ih =>
    have hbehind := ih (List.append_cons front l back ▸ h) (l.kind == .newline) (p.walk l.bytes (firstByte back))
    rw [List.flatMap_append, List.length_append, List.flatMap_singleton] at hbehind
    rw [place, wide, narrow, head_place]
    split
    · rename_i hwide
      obtain ⟨hkind, hdouble⟩ := isWide_kind hwide
      have hne : l.bytes ≠ [byte '\\'] := by
        intro he
        rw [he] at hdouble
        cases hdouble
      rw [← List.append_cons] at hbehind
      have hbytes := lexemes_flatMap false (s.fixed (wide (l.kind == .newline)
        (place ((front.flatMap Lexeme.bytes).length + l.bytes.length) (p.walk l.bytes (firstByte back)) back))).bytes
      rw [hbehind, List.flatMap_append, List.flatMap_cons] at hbytes
      have hspace : bytesOf " " = [byte ' '] := by decide +kernel
      rw [List.singleton_append, Source.fixed_cons rfl, Span.between, Source.bytes_replace hbytes.symm rfl rfl, hspace]
      exact lexemes_narrowed hbehind hkind hne
    · rw [List.nil_append, List.append_cons]
      exact hbehind

theorem content_narrow {ls : List Lexeme} (hls : ∀ l ∈ ls, l.bytes ≠ []) (leading : Bool) (offset offset' : Nat)
    (p p' : Point) : (place offset' p' (narrow leading ls)).map content =
      (place offset p ls).map fun t ↦ if ∃ x ∈ wide leading (place offset p ls), x.span = t.span then
        (t.kind, [byte ' '], " ") else t.content := by
  -- no two tokens have the same span, so a finding with the span of a token is about that token
  induction ls generalizing leading offset offset' p p' with
  | nil => rfl
  | cons l ls ih =>
    rw [List.forall_mem_cons] at hls
    have hapart := place_pairwise offset p (l :: ls)
    rw [place, List.pairwise_cons] at hapart
    have hspan : ∀ u ∈ place (offset + l.bytes.length) (p.walk l.bytes (firstByte ls)) ls,
        Span.between offset p (offset + l.bytes.length) (p.walk l.bytes (firstByte ls)) ≠ u.span := by
      intro u hu he
      have hle := hapart.1 u hu
      have hpos := List.length_pos_iff.2 hls.1
      rw [← he] at hle
      simp only [Span.between] at hle
      omega
    rw [narrow, place, place, List.map_cons, List.map_cons]
    congr 1
    · rw [if_congr (exists_wide_head hspan) rfl rfl, head_place]
      split
      · rename_i hwide
        have htext : Utf8.lossy [byte ' '] = " " := by decide +kernel
        rw [content, (isWide_kind hwide).1, ← htext]
        rfl
      · rfl
    · rw [ih hls.2 (l.kind == .newline) (offset + l.bytes.length) _ (p.walk l.bytes (firstByte ls))]
      refine List.map_congr_left fun u hu ↦ ?_
      rw [if_congr (exists_wide_tail (hspan u hu)) rfl rfl]

/-- With the suggested text in place of every finding, the tokens are the same but for those that were found, which
are single spaces now, and nothing is found any more. -/
theorem multipleSpaces_fixed (r : RuleInput) (s : Source) :
    let found := (multipleSpaces (r.on s)).findings
    found.Pairwise (fun x y ↦ x.span.endByte ≤ y.span.startByte) ∧
    (∀ x ∈ found, x.fix = some " " ∧ ∃ t ∈ s.tokens, t.kind = .whitespace ∧ x.span = t.span) ∧
    (s.fixed found).tokens.map content =
      s.tokens.map (fun t ↦ if ∃ x ∈ found, x.span = t.span then (t.kind, [byte ' '], " ") else t.content) ∧
    (multipleSpaces (r.on (s.fixed found))).findings = [] := by
  intro found
  have hfound : found = wide true (place 0 Point.first (lexemes false s.bytes)) := multipleSpaces_findings r s
  have hfixed : lexemes false (s.fixed found).bytes = narrow true (lexemes false s.bytes) := by
    rw [hfound]
    exact lexemes_fixed (List.nil_append _).symm true Point.first
  have htokens : (s.fixed found).tokens = place 0 Point.first (narrow true (lexemes false s.bytes)) :=
    congrArg (place 0 Point.first) hfixed
  refine ⟨?_, fun x hx ↦ mem_wide (hfound ▸ hx), ?_, ?_⟩
  · rw [hfound]
    exact wide_pairwise (place_pairwise ..) true
  · rw [htokens, hfound]
    exact content_narrow lexemes_ne_nil ..
  · rw [multipleSpaces_findings, htokens, wide_narrow]

/-- Between a directive and a comment that is not closed. -/
example : let s : Source := ⟨"a.c", bytesOf "#x \t  /*  y"⟩
    (s.fixed (wide true s.tokens)).bytes = bytesOf "#x /*  y" := by
  decide +kernel

end Rule.Spacing

end CodeStyle
