import CodeStyle.Proofs.DirectiveLines
import CodeStyle.Proofs.Encoding

/-!
A directive that is written in the usual form is read back. What a pattern takes first from a text is put
together from what its parts take first, and the comment around the directive is one token.
-/

namespace CodeStyle

namespace Pattern

open Reading

/-- `p` first tries to read `w` where `rest` comes after it. -/
def Takes (p : Pattern) (w : List Char) (groups : List (String × List Char)) (rest : List Char) : Prop :=
  ∀ last, (p.reads last (w ++ rest)).head? = some ⟨w, groups⟩

namespace Takes

variable {p q : Pattern} {v w rest : List Char} {gs hs : List (String × List Char)} {set : CharSet}

theorem andThen {rs : List Reading} {f : Option Char → List Char → List Reading} {last : Option Char}
    (hrs : rs.head? = some ⟨v, gs⟩) (hf : ∀ last, (f last (w ++ rest)).head? = some ⟨w, hs⟩) :
    (andThen rs f last (v ++ (w ++ rest))).head? = some ⟨v ++ w, hs ++ gs⟩ := by
  obtain ⟨rs, rfl⟩ := List.head?_eq_some_iff.1 hrs
  rw [head?_andThen, findSome?_cons_or, List.drop_left, hf]
  rfl

theorem seq (hp : Takes p v gs (w ++ rest)) (hq : Takes q w hs rest) :
    Takes (p.seq q) (v ++ w) (hs ++ gs) rest := by
  intro last
  rw [List.append_assoc]
  exact andThen (hp last) hq

theorem single (hp : Takes p w gs rest) : Takes (all [p]) w gs rest := by
  intro last
  rw [reads_all_singleton, hp last]

theorem cons {ps : List Pattern} (hp : Takes p v gs (w ++ rest)) (hps : Takes (all ps) w hs rest) :
    Takes (all (p :: ps)) (v ++ w) (hs ++ gs) rest := hp.seq hps

theorem literal (word : String) (rest : List Char) : Takes (literal word) word.toList [] rest := by
  intro last
  rw [reads_literal, if_pos (List.isPrefixOf_iff_prefix.2 (List.prefix_append _ _))]
  rfl

theorem literal_cons {ps : List Pattern} (word : String) (hps : Takes (all ps) w gs rest) :
    Takes (all (.literal word :: ps)) (word.toList ++ w) gs rest := by
  have h := cons (literal word (w ++ rest)) hps
  rwa [List.append_nil] at h

theorem group (name : String) (hp : Takes p w gs rest) : Takes (group name p) w ((name, w) :: gs) rest := by
  intro last
  rw [reads, List.head?_map, hp last]
  rfl

theorem char {c : Char} (hc : set.holds c = true) : Takes (char set) [c] [] rest := by
  intro last
  simp [reads, hc]

theorem star_char (hw : ∀ c ∈ w, set.holds c = true) (hrest : ∀ c ∈ rest.head?, set.holds c = false) :
    Takes (star (.char set) true) w [] rest := by
  intro last
  have hnone : rest.takeWhile set.holds = [] := by
    cases rest with
    | nil => rfl
    | cons c rest => rw [List.takeWhile_cons_of_neg (by simp [hrest c rfl])]
  rw [head?_reads_star_char, List.takeWhile_append_of_pos hw, hnone, List.append_nil]

theorem star_step (hp : Takes p v gs (w ++ rest)) (hv : v ≠ []) (hstar : Takes (p.star true) w hs rest) :
    Takes (p.star true) (v ++ w) (hs ++ gs) rest := by
  intro last
  obtain ⟨rs, hrs⟩ := List.head?_eq_some_iff.1 (hp last)
  have hkept : ((p.reads last (v ++ (w ++ rest))).filter (!·.text.isEmpty)).head? = some ⟨v, gs⟩ := by
    rw [hrs, List.filter_cons_of_pos (by simpa using hv)]
    rfl
  rw [List.append_assoc, reads_star, if_pos rfl, List.head?_append, andThen hkept hstar]
  rfl

theorem star_stop (hp : ∀ last, p.reads last rest = []) : Takes (p.star true) [] [] rest := by
  intro last
  rw [List.nil_append, reads_star, hp]
  rfl

theorem plus (hp : Takes p v gs (w ++ rest)) (hstar : Takes (p.star true) w hs rest) :
    Takes (p.plus true) (v ++ w) (hs ++ gs) rest := by
  intro last
  rw [List.append_assoc, reads_plus]
  exact andThen (hp last) hstar

theorem opt (hp : Takes p w gs rest) : Takes (p.opt true) w gs rest := by
  intro last
  rw [reads, if_pos rfl, List.head?_append, hp last]
  rfl

theorem opt_skip (hp : ∀ last, p.reads last rest = []) : Takes (p.opt true) [] [] rest := by
  intro last
  rw [List.nil_append, reads, if_pos rfl, hp]
  rfl

end Takes

end Pattern

namespace DirectiveSyntax

open Text Pattern

def startsFilter (c : Char) : Bool := c.isAlpha || c == '_' || c == '*'

def continuesFilter (c : Char) : Bool := startsFilter c || c.isDigit || c == '.'

def IsFilter (f : String) : Prop :=
  ∃ c cs, f.toList = c :: cs ∧ startsFilter c = true ∧ ∀ d ∈ cs, continuesFilter d = true

theorem IsFilter.continuesFilter {f : String} (hf : IsFilter f) : ∀ c ∈ f.toList, continuesFilter c = true := by
  obtain ⟨d, cs, htext, hd, hcs⟩ := hf
  rw [htext]
  refine List.forall_mem_cons.2 ⟨?_, hcs⟩
  rw [DirectiveSyntax.continuesFilter, hd]
  rfl

/-- A text that may stand as a reason in a comment of one line. -/
structure IsReason (r : String) : Prop where
  ne_nil : r.toList ≠ []
  first : ∀ c ∈ r.toList.head?, isBlank c = false
  last : ∀ c ∈ r.toList.getLast?, isBlank c = false
  oneLine : '\n' ∉ r.toList
  closesNothing : ¬ ['*', '/'] <:+: r.toList

/-- A directive in a comment of its own. -/
def written (kind : DirectiveKind) (filters : List String) (reason : Option String) : String :=
  "/* " ++ defaultMarker ++ ":" ++ kind.word
    ++ (if filters.isEmpty then "" else " " ++ ", ".intercalate filters)
    ++ (match reason with
      | none => ""
      | some r => " - " ++ r)
    ++ " */"

example : written .disable ["A.*", "B"] (some "old code") = "/* cstylecheck:disable A.*, B - old code */" := by
  decide

def further (filters : List String) : List Char := filters.flatMap fun f ↦ ',' :: ' ' :: f.toList

def listed : List String → List Char
  | [] => []
  | f :: rest => ' ' :: (f.toList ++ further rest)

def explained : Option String → List Char
  | none => []
  | some r => ' ' :: '-' :: ' ' :: r.toList

def ruleGroups : List String → List (String × List Char)
  | [] => []
  | f :: rest => [("rules", f.toList ++ further rest)]

def reasonGroups : Option String → List (String × List Char)
  | none => []
  | some r => [("reason", r.toList)]

def frontOf (kind : DirectiveKind) (filters : List String) : List Char :=
  defaultMarker.toList ++ (":".toList ++ (kind.word.toList ++ listed filters))

def tailOf (reason : Option String) : List Char := explained reason ++ [' ', '*', '/']

def lineOf (kind : DirectiveKind) (filters : List String) (reason : Option String) : List Char :=
  frontOf kind filters ++ tailOf reason

variable {kind : DirectiveKind} {filters : List String} {reason : Option String}

theorem toList_intercalate_filters (f : String) (rest : List String) :
    (", ".intercalate (f :: rest)).toList = f.toList ++ further rest := by
  induction rest generalizing f with
  | nil => simp [further]
  | cons g rest ih =>
    rw [String.intercalate_cons_cons, String.toList_append, String.toList_append, ih]
    simp [further]

theorem toList_written :
    (written kind filters reason).toList = '/' :: '*' :: ' ' :: lineOf kind filters reason := by
  cases filters with
  | nil => cases reason <;> simp [written, lineOf, frontOf, listed, tailOf, explained]
  | cons f rest =>
    cases reason <;>
      simp [written, lineOf, frontOf, listed, tailOf, explained, toList_intercalate_filters, -String.toList_intercalate]

theorem holds_filterStart (c : Char) : (CharSet.ofRanges filterStart).holds c = startsFilter c := by
  have hupper : (decide ('A' ≤ c) && decide (c ≤ 'Z')) = c.isUpper := (Bool.decide_and _ _).symm
  have hlower : (decide ('a' ≤ c) && decide (c ≤ 'z')) = c.isLower := rfl
  have halpha : c.isAlpha = (c.isUpper || c.isLower) := rfl
  simp [CharSet.holds_ofRanges, filterStart, CharSet.between_self, hupper, hlower, startsFilter, halpha, Bool.or_assoc]

theorem holds_filterRest (c : Char) : (CharSet.ofRanges filterRest).holds c = continuesFilter c := by
  have hdigit : (decide ('0' ≤ c) && decide (c ≤ '9')) = c.isDigit := rfl
  rw [continuesFilter, ← holds_filterStart, CharSet.holds_ofRanges, CharSet.holds_ofRanges, filterRest,
    List.any_append]
  simp [CharSet.between_self, hdigit, Bool.or_assoc]

variable {f : String} {c : Char} {rest : List Char}

theorem takes_filter (hf : IsFilter f) (hrest : ∀ c ∈ rest.head?, continuesFilter c = false) :
    Takes filter f.toList [] rest := by
  obtain ⟨c, cs, htext, hc, hcs⟩ := hf
  rw [htext]
  refine Takes.seq (v := [c]) (.char (by rw [holds_filterStart, hc])) (.star_char ?_ ?_)
  · intro d hd
    rw [holds_filterRest, hcs d hd]
  · intro d hd
    rw [holds_filterRest, hrest d hd]

theorem takes_blanks {gap : List Char} (hgap : ∀ c ∈ gap, isGap c = true) (hrest : ∀ c ∈ rest.head?, isGap c = false) :
    Takes blanks gap [] rest := by
  refine .star_char ?_ ?_ <;> rw [holds_blank] <;> assumption

theorem isGap_of_startsFilter (hc : startsFilter c = true) : isGap c = false := by
  by_contra h
  rw [Bool.not_eq_false, isGap_iff] at h
  rcases h with rfl | rfl <;> cases hc

theorem head?_filter (hf : IsFilter f) (rest : List Char) : ∀ c ∈ (f.toList ++ rest).head?, isGap c = false := by
  obtain ⟨c, cs, htext, hc, -⟩ := hf
  rw [htext]
  intro d hd
  cases hd
  exact isGap_of_startsFilter hc

def separated : Pattern := all [blanks, literal ",", blanks, filter]

theorem takes_separated (hf : IsFilter f) (hrest : ∀ c ∈ rest.head?, continuesFilter c = false) :
    Takes separated (',' :: ' ' :: f.toList) [] rest := by
  have hfilter : Takes (all [blanks, filter]) ([' '] ++ f.toList) [] rest :=
    .cons (takes_blanks (List.forall_mem_singleton.2 rfl) (head?_filter hf rest)) (.single (takes_filter hf hrest))
  have hcomma : Takes (all [literal ",", blanks, filter]) (",".toList ++ ([' '] ++ f.toList)) [] rest :=
    .cons (.literal _ _) hfilter
  exact .cons (v := []) (takes_blanks (by simp) (by simp [isGap])) hcomma

theorem head?_further (filters : List String) :
    ∀ c ∈ (further filters ++ tailOf reason).head?, continuesFilter c = false := by
  intro c hc
  cases filters <;> cases reason <;> cases hc <;> rfl

theorem reads_separated_tail (reason : Option String) (last : Option Char) :
    separated.reads last (tailOf reason) = [] := by
  cases reason with
  | none =>
    rw [reads_of_stops (c := '\n') (by decide) last none]
    decide +kernel
  | some r =>
    -- The dash stops the pattern, so that the reason need not be known.
    have htail : tailOf (some r) = [' '] ++ '-' :: ' ' :: (r.toList ++ [' ', '*', '/']) := rfl
    rw [htail, reads_append (by decide) last none]
    decide +kernel

theorem takes_further (hfilters : ∀ f ∈ filters, IsFilter f) (reason : Option String) :
    Takes (separated.star true) (further filters) [] (tailOf reason) := by
  induction filters with
  | nil => exact .star_stop (reads_separated_tail reason)
  | cons f filters ih =>
    obtain ⟨hf, hfilters⟩ := List.forall_mem_cons.1 hfilters
    exact .star_step (v := ',' :: ' ' :: f.toList) (takes_separated hf (head?_further filters))
      (List.cons_ne_nil _ _) (ih hfilters)

theorem takes_kind (kind : DirectiveKind) (rest : List Char) :
    Takes (any (DirectiveKind.all.map fun k ↦ literal k.word)) kind.word.toList [] (' ' :: rest) := by
  intro last
  rw [reads_append (by decide) last none]
  cases kind <;> decide +kernel

/-- The filters of a written directive are all read as such, unless there are none and no reason either: then
the end of the comment is first taken for a filter. -/
theorem takes_rules (hfilters : ∀ f ∈ filters, IsFilter f) (h : filters ≠ [] ∨ reason ≠ none) :
    Takes (opt (all [plus blank true, group "rules" DirectiveSyntax.filters]) true) (listed filters)
      (ruleGroups filters) (tailOf reason) := by
  cases filters with
  | nil =>
    obtain ⟨r, rfl⟩ := Option.ne_none_iff_exists'.1 (h.resolve_left fun h ↦ h rfl)
    have htail : tailOf (some r) = [' '] ++ '-' :: ' ' :: (r.toList ++ [' ', '*', '/']) := rfl
    refine .opt_skip fun last ↦ ?_
    rw [htail, reads_append (by decide) last none]
    decide +kernel
  | cons f rest =>
    obtain ⟨hf, hrest⟩ := List.forall_mem_cons.1 hfilters
    have hgap : ∀ c ∈ (f.toList ++ further rest ++ tailOf reason).head?, isGap c = false := by
      rw [List.append_assoc]
      exact head?_filter hf _
    have hblank : Takes (plus blank true) ([' '] ++ []) ([] ++ []) (f.toList ++ further rest ++ tailOf reason) :=
      .plus (.char (by rw [holds_blank]; rfl)) (takes_blanks (by simp) hgap)
    have hlist : Takes DirectiveSyntax.filters (f.toList ++ further rest) ([] ++ []) (tailOf reason) :=
      .seq (takes_filter hf (head?_further rest)) (takes_further hrest reason)
    rw [List.append_nil] at hblank hlist
    have hboth := hblank.cons (.single (hlist.group "rules"))
    rw [List.append_nil] at hboth
    exact hboth.opt

theorem takes_opening (kind : DirectiveKind) (hfilters : ∀ f ∈ filters, IsFilter f) (h : filters ≠ [] ∨ reason ≠ none) :
    Takes (opening defaultMarker) (frontOf kind filters) (ruleGroups filters ++ [("directive", kind.word.toList)])
      (tailOf reason) := by
  have hnext : ∃ more, listed filters ++ tailOf reason = ' ' :: more := by
    cases filters <;> cases reason <;> exact ⟨_, rfl⟩
  obtain ⟨more, hmore⟩ := hnext
  have hkind : Takes (group "directive" (any (DirectiveKind.all.map fun k ↦ literal k.word))) kind.word.toList
      [("directive", kind.word.toList)] (listed filters ++ tailOf reason) := by
    rw [hmore]
    exact (takes_kind kind more).group "directive"
  unfold opening frontOf
  exact .literal_cons defaultMarker (.literal_cons ":" (.cons hkind (.single (takes_rules hfilters h))))

theorem isGap_of_isBlank (hc : isBlank c = false) : isGap c = false :=
  Bool.eq_false_iff.2 (mt isBlank_of_isGap (Bool.eq_false_iff.1 hc))

theorem closes_append_end {cs : List Char} (h : closes (cs ++ [' ', '*', '/']) = true) :
    ∀ c ∈ cs, isGap c = true := by
  have hslash : isGap '/' ≠ true := by decide
  obtain ⟨a, b, ha, hb, hcs | hcs⟩ := closes_iff.1 h
  · have hmem : '/' ∈ a ++ b := hcs ▸ by simp
    exact (hslash ((List.mem_append.1 hmem).elim (ha _) (hb _))).elim
  · -- The last character is no blank, so that nothing stands behind the end of the comment.
    obtain rfl : b = [] := by
      rcases List.eq_nil_or_concat b with hnil | ⟨front, x, rfl⟩
      · exact hnil
      · have hsplit : (cs ++ [' ', '*']) ++ ['/'] = (a ++ '*' :: '/' :: front) ++ [x] := by simpa using hcs
        have hx : '/' = x := List.singleton_inj.1 (List.append_inj' hsplit rfl).2
        exact (hslash (hx ▸ hb x (by simp))).elim
    have hcs : (cs ++ [' ']) ++ ['*', '/'] = a ++ ['*', '/'] := by simpa using hcs
    intro c hc
    exact ha c (List.append_cancel_right hcs ▸ List.mem_append_left _ hc)

theorem reasonOf_append_end {cs : List Char} (h : ∀ c ∈ cs.getLast?, isGap c = false) :
    reasonOf (cs ++ [' ', '*', '/']) = cs := by
  induction cs with
  | nil => rfl
  | cons c cs ih =>
    obtain ⟨d, hd⟩ : ∃ d, (c :: cs).getLast? = some d := ⟨_, List.getLast?_cons⟩
    have hopen : ¬ closes (c :: cs ++ [' ', '*', '/']) = true := by
      intro hcloses
      have hgap := closes_append_end hcloses d (List.mem_of_getLast? hd)
      rw [h d hd] at hgap
      cases hgap
    rw [List.cons_append] at hopen ⊢
    rw [reasonOf, if_neg hopen, ih]
    intro e he
    cases cs with
    | nil => cases he
    | cons x cs => exact h e he

theorem ending?_tailOf (hreason : ∀ r ∈ reason, IsReason r) : ending? (tailOf reason) = some (reasonGroups reason) := by
  cases reason with
  | none => rfl
  | some r =>
    have hr := hreason r rfl
    have hstart : (r.toList ++ [' ', '*', '/']).dropWhile isGap = r.toList ++ [' ', '*', '/'] := by
      apply dropWhile_of_head?
      intro c hc
      rw [List.head?_append_of_ne_nil _ hr.ne_nil] at hc
      exact isGap_of_isBlank (hr.first c hc)
    have hdash : behindDash? (tailOf (some r)) = some ((r.toList ++ [' ', '*', '/']).dropWhile isGap) := rfl
    rw [ending?, hdash, hstart]
    simp only [reasonOf_append_end fun c hc ↦ isGap_of_isBlank (hr.last c hc), reasonGroups]

theorem notMem_frontOf (hfilters : ∀ f ∈ filters, IsFilter f) (hc : c = '\n' ∨ c = '/') : c ∉ frontOf kind filters := by
  have hword : c ∉ kind.word.toList := by rcases hc with rfl | rfl <;> cases kind <;> decide
  have hmarker : c ∉ defaultMarker.toList := by rcases hc with rfl | rfl <;> decide
  have hother : c ≠ ':' ∧ c ≠ ',' ∧ c ≠ ' ' := by rcases hc with rfl | rfl <;> decide
  have hrest : continuesFilter c = false := by rcases hc with rfl | rfl <;> rfl
  have hfilter : ∀ f ∈ filters, c ∉ f.toList := by
    intro f hf hmem
    rw [(hfilters f hf).continuesFilter c hmem] at hrest
    cases hrest
  cases filters with
  | nil => simp [frontOf, listed, hword, hmarker, hother]
  | cons f rest =>
    obtain ⟨hf, hrest⟩ := List.forall_mem_cons.1 hfilter
    simpa [frontOf, listed, further, hword, hmarker, hother, hf] using hrest

theorem newline_notMem_lineOf (hfilters : ∀ f ∈ filters, IsFilter f) (hreason : ∀ r ∈ reason, IsReason r) :
    '\n' ∉ lineOf kind filters reason := by
  have htail : '\n' ∉ tailOf reason := by
    cases reason with
    | none => decide
    | some r => simpa [tailOf, explained] using (hreason r rfl).oneLine
  exact fun h ↦ (List.mem_append.1 h).elim (notMem_frontOf hfilters (.inl rfl)) htail

theorem head?_lineOf (hfilters : ∀ f ∈ filters, IsFilter f) (hreason : ∀ r ∈ reason, IsReason r) :
    (standard.pattern.reads none (lineOf kind filters reason)).head? =
      some ⟨lineOf kind filters reason,
        reasonGroups reason ++ (ruleGroups filters ++ [("directive", kind.word.toList)])⟩ := by
  by_cases h : filters ≠ [] ∨ reason ≠ none
  · have hopening := takes_opening kind hfilters h none
    obtain ⟨others, hothers⟩ := List.head?_eq_some_iff.1 hopening
    rw [standard, head?_directivePattern _ _ (newline_notMem_lineOf hfilters hreason), lineOf, hothers,
      findSome?_cons_or, List.drop_left, ending?_tailOf hreason]
    rfl
  · obtain ⟨rfl, rfl⟩ : filters = [] ∧ reason = none := by simpa [not_or] using h
    cases kind <;> decide +kernel

theorem splitWhere_append {separates : Char → Bool} {w : List Char} (hw : ∀ c ∈ w, separates c = false)
    (hc : separates c = true) (rest : List Char) :
    splitWhere separates (w ++ c :: rest) = w :: splitWhere separates rest := by
  induction w with
  | nil => simp [splitWhere, hc]
  | cons d w ih =>
    obtain ⟨hd, hw⟩ := List.forall_mem_cons.1 hw
    rw [List.cons_append, splitWhere, ih hw]
    simp [hd]

theorem splitWhere_eq_self {separates : Char → Bool} {w : List Char} (hw : ∀ c ∈ w, separates c = false) :
    splitWhere separates w = [w] := by
  induction w with
  | nil => rfl
  | cons d w ih =>
    obtain ⟨hd, hw⟩ := List.forall_mem_cons.1 hw
    rw [splitWhere, ih hw]
    simp [hd]

theorem splitFilters_listed {rest : List String} (hf : IsFilter f) (hrest : ∀ g ∈ rest, IsFilter g) :
    splitFilters (String.ofList (f.toList ++ further rest)) = f :: rest := by
  have hinside {f : String} (hf : IsFilter f) :
      ∀ c ∈ f.toList, (c == ',' || c == ' ' || c == '\t') = false := by
    intro c hc
    by_contra h
    rw [Bool.not_eq_false, Bool.or_eq_true, Bool.or_eq_true, beq_iff_eq, beq_iff_eq, beq_iff_eq] at h
    have hcontinues := hf.continuesFilter c hc
    rcases h with (rfl | rfl) | rfl <;> cases hcontinues
  have hne {f : String} (hf : IsFilter f) : (!f.toList.isEmpty) = true := by
    obtain ⟨c, cs, htext, -⟩ := hf
    rw [htext]
    rfl
  unfold splitFilters
  rw [String.toList_ofList]
  dsimp only
  induction rest generalizing f with
  | nil =>
    rw [further, List.flatMap_nil, List.append_nil, splitWhere_eq_self (hinside hf)]
    simp [hne hf]
  | cons g rest ih =>
    obtain ⟨hg, hrest⟩ := List.forall_mem_cons.1 hrest
    have hfurther : f.toList ++ further (g :: rest) =
        f.toList ++ ',' :: ([] ++ ' ' :: (g.toList ++ further rest)) := rfl
    rw [hfurther, splitWhere_append (c := ',') (hinside hf) rfl, splitWhere_append (c := ' ') (by simp) rfl]
    rw [List.filter_cons_of_pos (by exact hne hf), List.filter_cons_of_neg (by simp), List.map_cons, ih hg hrest,
      String.ofList_toList]

theorem trim_reason {r : String} (hr : IsReason r) : trim r = r := by
  have hstart : trimStart r.toList = r.toList := dropWhile_of_head? hr.first
  have hend : trimEnd r.toList = r.toList := by
    rw [trimEnd, dropWhile_of_head?, List.reverse_reverse]
    rw [List.head?_reverse]
    exact hr.last
  rw [trim, hstart, hend, String.ofList_toList]

theorem content_written (kind : DirectiveKind) (hfilters : ∀ f ∈ filters, IsFilter f)
    (hreason : ∀ r ∈ reason, IsReason r) (source : Source) (comment : Focus) (start : Nat) (text : List Char) :
    (directive? source comment ⟨start, text,
        reasonGroups reason ++ (ruleGroups filters ++ [("directive", kind.word.toList)])⟩).map content =
      some (kind, filters, reason) := by
  let m : Match := ⟨start, text, reasonGroups reason ++ (ruleGroups filters ++ [("directive", kind.word.toList)])⟩
  have hword : DirectiveKind.ofWord? kind.word = some kind := by cases kind <;> decide
  have hkind : m.group? "directive" = some kind.word := by
    cases reason <;> cases filters <;> exact congrArg some String.ofList_toList
  have hrules : ((m.group? "rules").map splitFilters).getD [] = filters := by
    cases filters with
    | nil => cases reason <;> rfl
    | cons f rest =>
      obtain ⟨hf, hrest⟩ := List.forall_mem_cons.1 hfilters
      have hgroup : m.group? "rules" = some (String.ofList (f.toList ++ further rest)) := by cases reason <;> rfl
      rw [hgroup, Option.map_some, Option.getD_some, splitFilters_listed hf hrest]
  have hreason : ((m.group? "reason").map trim).filter (!·.isEmpty) = reason := by
    cases reason with
    | none => cases filters <;> rfl
    | some r =>
      have hr := hreason r rfl
      have hgroup : m.group? "reason" = some r := congrArg some String.ofList_toList
      have hne : r.isEmpty = false := by
        rw [String.isEmpty_eq_false_iff]
        rintro rfl
        exact hr.ne_nil rfl
      simp [hgroup, trim_reason hr, hne]
  rw [content_directive?, request?, hkind, hrules, hreason, Option.bind_some, hword]
  rfl

theorem findAll_written (hfilters : ∀ f ∈ filters, IsFilter f) (hreason : ∀ r ∈ reason, IsReason r) :
    standard.pattern.findAll (written kind filters reason).toList =
      [⟨3, lineOf kind filters reason,
        reasonGroups reason ++ (ruleGroups filters ++ [("directive", kind.word.toList)])⟩] := by
  rw [findAll_eq_scan stops_standard solid_standard, toList_written, scan_standard_of_ne (by decide),
    scan_standard_of_ne (by decide), scan_standard_of_ne (by decide),
    scan_of_head? solid_standard (head?_lineOf hfilters hreason), List.drop_length, scan]

end DirectiveSyntax

namespace Token.Extent

open Text

theorem commentClose_append {front : List UInt8} (h : byte '*' ∉ front) (rest : List UInt8) :
    commentClose (front ++ rest) = (commentClose rest).map (· + front.length) := by
  induction front with
  | nil => simp
  | cons b front ih =>
    obtain ⟨hb, hfront⟩ := List.ne_and_not_mem_of_not_mem_cons h
    have hb : (b == byte '*') = false := beq_eq_false_iff_ne.2 hb.symm
    rw [List.cons_append, commentClose, hb, Bool.false_and, if_neg Bool.false_ne_true, ih hfront, Option.map_map]
    rfl

theorem commentClose_encode {cs : List Char} (h : ¬ ['*', '/'] <:+: cs) :
    commentClose (cs.flatMap String.utf8EncodeChar ++ [byte '*', byte '/']) =
      some ((cs.flatMap String.utf8EncodeChar).length + 2) := by
  induction cs with
  | nil => rfl
  | cons c cs ih =>
    have ih := ih fun hcs ↦ h (hcs.trans (List.suffix_cons c cs).isInfix)
    by_cases hc : byte '*' ∈ String.utf8EncodeChar c
    · obtain ⟨hcode, hvalue⟩ := Utf8.encode_of_mem hc rfl
      obtain rfl : c = '*' := Char.toNat_inj.1 hvalue.symm
      have hnext : ¬ (cs.flatMap String.utf8EncodeChar ++ [byte '*', byte '/']).head? = some (byte '/') := by
        intro hslash
        cases cs with
        | nil => cases hslash
        | cons d cs =>
          obtain ⟨a, more, hd⟩ := List.exists_cons_of_ne_nil (String.utf8EncodeChar_ne_nil (c := d))
          rw [List.flatMap_cons, hd] at hslash
          have ha : byte '/' ∈ String.utf8EncodeChar d := hd ▸ Option.some.inj hslash ▸ List.mem_cons_self
          obtain rfl : d = '/' := Char.toNat_inj.1 (Utf8.encode_of_mem ha rfl).2.symm
          exact h ⟨[], cs, rfl⟩
      rw [List.flatMap_cons, hcode, List.singleton_append, List.cons_append, commentClose,
        beq_eq_false_iff_ne.2 hnext, Bool.and_false, if_neg Bool.false_ne_true, ih]
      rfl
    · rw [List.flatMap_cons, List.append_assoc, commentClose_append hc, ih, Option.map_some, List.length_append]
      congr 1
      omega

theorem of_slash_star (lineHasCode : Bool) (rest : List UInt8) :
    of lineHasCode (byte '/') (byte '*' :: rest) = blockComment (byte '*' :: rest) := rfl

end Token.Extent

namespace DirectiveSyntax

open Text Pattern

variable {kind : DirectiveKind} {filters : List String} {reason : Option String}

def insideOf (kind : DirectiveKind) (filters : List String) (reason : Option String) : List Char :=
  ' ' :: (frontOf kind filters ++ (explained reason ++ [' ']))

theorem insideOf_open (hfilters : ∀ f ∈ filters, IsFilter f) (hreason : ∀ r ∈ reason, IsReason r) :
    ¬ ['*', '/'] <:+: insideOf kind filters reason := by
  have hslash {cs : List Char} (h : ['*', '/'] <:+: cs) : '/' ∈ cs := h.subset (by simp)
  have hfront : '/' ∉ frontOf kind filters := notMem_frontOf hfilters (.inr rfl)
  intro h
  cases reason with
  | none => simpa [insideOf, explained, hfront] using hslash h
  | some r =>
    have hsplit : insideOf kind filters (some r) =
        (' ' :: (frontOf kind filters ++ [' ', '-'])) ++ [' '] ++ (r.toList ++ [' ']) := by
      simp [insideOf, explained]
    rw [hsplit] at h
    rcases infix_pair_append h with h | h | ⟨h, -⟩
    · simpa [hfront] using hslash h
    · rcases infix_pair_append h with h | h | ⟨-, h⟩
      · exact (hreason r rfl).closesNothing h
      · exact absurd (hslash h) (by decide)
      · cases h
    · rw [List.getLast?_append] at h
      cases h

theorem tokens_written (kind : DirectiveKind) (hfilters : ∀ f ∈ filters, IsFilter f)
    (hreason : ∀ r ∈ reason, IsReason r) :
    ∃ t, Token.tokenize (bytesOf (written kind filters reason)) = [t] ∧ t.isComment = true ∧
      t.text = written kind filters reason := by
  let more := (insideOf kind filters reason).flatMap String.utf8EncodeChar ++ [byte '*', byte '/']
  have hbytes : bytesOf (written kind filters reason) = byte '/' :: byte '*' :: more := by
    have htext : (written kind filters reason).toList =
        '/' :: '*' :: (insideOf kind filters reason ++ ['*', '/']) := by
      rw [toList_written]
      simp [insideOf, lineOf, tailOf]
    rw [Utf8.bytesOf_eq, htext, List.flatMap_cons, List.flatMap_cons, List.flatMap_append]
    rfl
  have hclose : Token.Extent.commentClose more = some more.length := by
    rw [Token.Extent.commentClose_encode (insideOf_open hfilters hreason), List.length_append]
    rfl
  have hextent : Token.Extent.of false (byte '/') (byte '*' :: more) =
      .plain .blockComment (byte '*' :: more).length := by
    rw [Token.Extent.of_slash_star, Token.Extent.blockComment, List.drop_one, List.tail_cons, hclose]
    rfl
  have hlexemes : Token.lexemes false (bytesOf (written kind filters reason)) =
      [⟨.blockComment, bytesOf (written kind filters reason), none⟩] := by
    rw [hbytes, Token.lexemes, hextent]
    simp [Token.Extent.plain, Token.lexemes]
  exact ⟨_, by rw [Token.tokenize, hlexemes]; rfl, rfl, Utf8.lossy_bytesOf _⟩

/-- A written directive is read back: its comment has one directive, of that kind and with those filters and
that reason. -/
theorem directives_written (path : String) (kind : DirectiveKind) (filters : List String) (reason : Option String)
    (hfilters : ∀ f ∈ filters, IsFilter f) (hreason : ∀ r ∈ reason, IsReason r) :
    (standard.directives ⟨path, bytesOf (written kind filters reason)⟩).map (fun d ↦ (d.kind, d.filters, d.reason)) =
      [(kind, filters, reason)] := by
  obtain ⟨t, htokens, hcomment, htext⟩ := tokens_written kind hfilters hreason
  have hcontent := content_written kind hfilters hreason ⟨path, bytesOf (written kind filters reason)⟩
    ⟨0, [], t, []⟩ 3 (lineOf kind filters reason)
  obtain ⟨d, hd, hkind⟩ := Option.map_eq_some_iff.1 hcontent
  have hall : Focus.all (Source.tokens ⟨path, bytesOf (written kind filters reason)⟩) = [⟨0, [], t, []⟩] := by
    rw [Source.tokens, htokens]
    rfl
  simp only [directives, hall, List.filter_cons, hcomment, if_true, List.filter_nil, List.flatMap_cons,
    List.flatMap_nil, List.append_nil, htext, findAll_written hfilters hreason, List.filterMap_cons,
    List.filterMap_nil, hd, List.map_cons, List.map_nil]
  exact congrArg (fun x ↦ [x]) hkind

theorem directives_written_stars :
    ((∀ f ∈ ["NAMING.*", "*"], IsFilter f) ∧ IsReason "* - é /") ∧
      (standard.directives ⟨"a.c", bytesOf (written .ignoreNextLine ["NAMING.*", "*"] (some "* - é /"))⟩).map
          (fun d ↦ (d.kind, d.filters, d.reason)) =
        [(.ignoreNextLine, ["NAMING.*", "*"], some "* - é /")] := by
  have hfilters : ∀ f ∈ ["NAMING.*", "*"], IsFilter f := by
    intro f hf
    rcases List.mem_pair.1 hf with rfl | rfl
    · exact ⟨'N', "AMING.*".toList, rfl, rfl, List.all_eq_true.1 rfl⟩
    · exact ⟨'*', [], rfl, rfl, by simp⟩
  have hfirst : ∀ c ∈ "* - é /".toList.head?, isBlank c = false := by
    intro c hc
    obtain rfl : '*' = c := Option.some.inj hc
    decide
  have hlast : ∀ c ∈ "* - é /".toList.getLast?, isBlank c = false := by
    intro c hc
    obtain rfl : '/' = c := Option.some.inj hc
    decide
  have hreason : IsReason "* - é /" := ⟨by decide, hfirst, hlast, by decide, by decide +kernel⟩
  have hsome : ∀ r ∈ some "* - é /", IsReason r := by
    intro r hr
    cases hr
    exact hreason
  exact ⟨⟨hfilters, hreason⟩,
    directives_written "a.c" .ignoreNextLine ["NAMING.*", "*"] (some "* - é /") hfilters hsome⟩

end DirectiveSyntax

end CodeStyle
