import CodeStyle.Proofs.OwnTokens

/-!
Comment blocks are as long as they can be. A block goes on while the next comment comes with at most one line break,
and ends with the comment after which none does. A comment behind something else on its line stays alone.
-/

namespace CodeStyle

namespace Token

def breaks (ts : List Token) : Nat := ts.countP (·.kind == .newline)

/-- What stands between two comments that go together: blanks, and at most one line break. -/
structure Joins (gap : List Token) : Prop where
  trivia : ∀ t ∈ gap, t.isTrivia = true
  breaks_le : breaks gap ≤ 1

/-- If a comment comes next in `after`, then behind at least two line breaks. -/
def SetOff (after : List Token) : Prop :=
  ∀ c ∈ after.find? (!·.isTrivia), c.isComment = true → 2 ≤ breaks (after.takeWhile (·.isTrivia))

/-- The tokens of a comment block behind its first comment, and those behind the block. -/
inductive Continued : List Token → List Token → Prop where
  | done {after : List Token} (hafter : SetOff after) : Continued [] after
  | next {gap members after : List Token} {c : Token} (hgap : Joins gap) (hc : c.isComment = true)
      (h : Continued members after) : Continued (gap ++ c :: members) after

section

variable {gap back members after : List Token} {c d : Token}

theorem Joins.comment (h : Joins gap) : ∀ t ∈ gap, t.isComment = false := by
  intro t ht
  refine Bool.eq_false_iff.2 fun hcomment ↦ ?_
  simpa [isTrivia_of_isComment hcomment] using h.trivia t ht

theorem setOff_gap (hgap : ∀ t ∈ gap, t.isTrivia = true) (hc : c.isTrivia = false) (back : List Token) :
    SetOff (gap ++ c :: back) ↔ (c.isComment = true → 2 ≤ breaks gap) := by
  have hfind : (gap ++ c :: back).find? (!·.isTrivia) = some c :=
    List.find?_eq_some_iff_append.2 ⟨by simp [hc], gap, back, rfl, by simpa using hgap⟩
  have htake : (gap ++ c :: back).takeWhile (·.isTrivia) = gap := by
    rw [List.takeWhile_append_of_pos hgap, List.takeWhile_cons_of_neg (by simp [hc]), List.append_nil]
  simp only [SetOff, hfind, htake, Option.mem_some_iff, forall_eq']

theorem setOff_trivia (hgap : ∀ t ∈ gap, t.isTrivia = true) : SetOff gap := by
  have hfind : gap.find? (!·.isTrivia) = none := List.find?_eq_none.2 (by simpa using hgap)
  simp [SetOff, hfind]

theorem SetOff.append (h : SetOff after) (hback : ∀ t ∈ back.head?, t.isTrivia = false ∧ t.isComment = false) :
    SetOff (after ++ back) := by
  cases hfind : after.find? (!·.isTrivia) with
  | some c =>
    obtain ⟨hc, gap, rest, rfl, hgap⟩ := List.find?_eq_some_iff_append.1 hfind
    have hgap : ∀ t ∈ gap, t.isTrivia = true := by simpa using hgap
    have hc : c.isTrivia = false := by simpa using hc
    rw [List.append_assoc, List.cons_append, setOff_gap hgap hc]
    exact (setOff_gap hgap hc rest).1 h
  | none =>
    have hgap : ∀ t ∈ after, t.isTrivia = true := by simpa using List.find?_eq_none.1 hfind
    cases back with
    | nil => rwa [List.append_nil]
    | cons t back =>
      obtain ⟨htrivia, hcomment⟩ := hback t rfl
      rw [setOff_gap hgap htrivia]
      simp [hcomment]

theorem apart_of_isPunct {t : Token} {text : String} (h : t.isPunct text = true) :
    t.isTrivia = false ∧ t.isComment = false := by
  cases hk : t.kind <;> simp_all [isPunct, isTrivia, isComment, Kind.isTrivia, Kind.isComment]

namespace Continued

theorem setOff (h : Continued members after) : SetOff after := by
  induction h with
  | done hafter => exact hafter
  | next _ _ _ ih => exact ih

theorem last (h : Continued members after) {first : Token} (hfirst : first.isComment = true) :
    ∀ t ∈ (first :: members).getLast?, t.isComment = true := by
  induction h generalizing first with
  | done => simpa using hfirst
  | @next gap members after c hgap hc _ ih =>
    rw [← List.cons_append, List.getLast?_append_of_ne_nil _ (List.cons_ne_nil c members)]
    exact ih hc

/-- Two comments of a block with no other between them go together. -/
theorem joins (h : Continued members after) {first : Token} {front : List Token}
    (hsplit : first :: members = front ++ c :: (gap ++ d :: back)) (hc : c.isComment = true)
    (hd : d.isComment = true) (hgap : ∀ t ∈ gap, t.isComment = false) : Joins gap := by
  induction h generalizing first front with
  | done =>
    have hlength := congrArg List.length hsplit
    simp only [List.length_cons, List.length_nil, List.length_append] at hlength
    omega
  | @next gap' members after c' hgap' hc' _ ih =>
    cases front with
    | nil =>
      -- the next comment of either reading is the same
      have hnext {gap back : List Token} {c : Token} (hgap : ∀ t ∈ gap, t.isComment = false)
          (hc : c.isComment = true) : (gap ++ c :: back).takeWhile (!·.isComment) = gap := by
        rw [List.takeWhile_append_of_pos (by simpa using hgap), List.takeWhile_cons_of_neg (by simp [hc]),
          List.append_nil]
      have htail := congrArg (List.takeWhile (!·.isComment)) (List.cons.inj hsplit).2
      rw [hnext hgap'.comment hc', hnext hgap hd] at htail
      exact htail ▸ hgap'
    | cons first' front =>
      obtain ⟨-, htail⟩ := List.cons.inj hsplit
      rcases List.append_eq_append_iff.1 htail with ⟨front', -, hrest⟩ | ⟨gap'', hfront, hrest⟩
      · exact ih hrest
      · cases gap'' with
        | nil => exact ih (show c' :: members = [] ++ c :: (gap ++ d :: back) from hrest.symm)
        | cons x gap'' =>
          obtain ⟨rfl, -⟩ := List.cons.inj hrest
          rw [hgap'.comment c (by simp [hfront])] at hc
          cases hc

end Continued

end

end Token

namespace ItemDraft

open Token (breaks Continued)

section

variable {gap back rest : List Focus} {c : Focus} {lineBreak : Bool} {taken last : Nat}

theorem trivia_cases {f : Focus} (h : f.token.isTrivia = true) :
    f.token.kind = .whitespace ∨ f.token.kind = .newline := by
  cases hk : f.token.kind <;> simp_all [Token.isTrivia, Token.Kind.isTrivia]

theorem commentReach_trivia (hgap : ∀ f ∈ gap, f.token.isTrivia = true) :
    commentReach lineBreak taken last gap = last := by
  fun_induction commentReach lineBreak taken last gap with
  | case1 | case3 | case6 => rfl
  | case2 _ _ _ f rest _ _ ih | case4 _ _ _ f rest _ _ _ _ ih => exact ih fun q hq ↦ hgap q (by simp [hq])
  | case5 _ _ _ f rest _ _ _ hcomment =>
    simpa [Token.isTrivia_of_isComment hcomment] using hgap f (by simp)

/-- The scan goes on at the next comment, unless there is a second line break before it. -/
theorem commentReach_gap (hgap : ∀ f ∈ gap, f.token.isTrivia = true) (hc : c.token.isTrivia = false) :
    commentReach lineBreak taken last (gap ++ c :: back) =
      if c.token.isComment = true ∧ lineBreak.toNat + breaks (gap.map Focus.token) ≤ 1 then
        commentReach false (taken + gap.length + 1) (taken + gap.length + 1) back
      else last := by
  induction gap generalizing lineBreak taken with
  | nil =>
    have hblank : (c.token.kind == .whitespace) = false ∧ (c.token.kind == .newline) = false := by
      cases hk : c.token.kind <;> simp_all [Token.isTrivia, Token.Kind.isTrivia]
    have hbreak : lineBreak.toNat ≤ 1 := Bool.toNat_le lineBreak
    rw [List.nil_append, commentReach, hblank.1, hblank.2]
    simp [breaks, hbreak]
  | cons f gap ih =>
    rw [List.forall_mem_cons] at hgap
    have hlength : taken + 1 + gap.length + 1 = taken + (f :: gap).length + 1 := by
      rw [List.length_cons]
      omega
    rw [List.cons_append, commentReach, List.map_cons]
    rcases trivia_cases hgap.1 with hk | hk
    · have hbreaks : breaks (f.token :: gap.map Focus.token) = breaks (gap.map Focus.token) :=
        List.countP_cons_of_neg (by simp [hk])
      rw [hk, if_pos (beq_self_eq_true _), ih hgap.2, hbreaks, hlength]
    · have hbreaks : breaks (f.token :: gap.map Focus.token) = breaks (gap.map Focus.token) + 1 :=
        List.countP_cons_of_pos (by simp [hk])
      have hblank : (Token.Kind.newline == Token.Kind.whitespace) = false := rfl
      rw [hk, hblank, if_neg Bool.false_ne_true, if_pos (beq_self_eq_true _), hbreaks]
      cases lineBreak with
      | true =>
        rw [if_pos rfl, if_neg]
        rw [Bool.toNat_true]
        omega
      | false =>
        rw [if_neg Bool.false_ne_true, ih hgap.2, hlength, Bool.toNat_true, Bool.toNat_false, Nat.zero_add,
          Nat.add_comm]

theorem commentReach_continued (taken : Nat) (rest : List Focus) :
    ∃ n, commentReach false taken taken rest = taken + n ∧
      Continued ((rest.take n).map Focus.token) ((rest.drop n).map Focus.token) := by
  -- what is left shrinks by the next comment and the gap before it
  induction hlength : rest.length using Nat.strong_induction_on generalizing taken rest with
  | _ length ih =>
    subst hlength
    cases hfind : rest.find? (!·.token.isTrivia) with
    | none =>
      have hgap : ∀ f ∈ rest, f.token.isTrivia = true := by simpa using List.find?_eq_none.1 hfind
      refine ⟨0, commentReach_trivia hgap, .done (Token.setOff_trivia ?_)⟩
      simpa using hgap
    | some c =>
      obtain ⟨hc, gap, back, rfl, hgap⟩ := List.find?_eq_some_iff_append.1 hfind
      have hgap : ∀ f ∈ gap, f.token.isTrivia = true := by simpa using hgap
      have hc : c.token.isTrivia = false := by simpa using hc
      have htokens : ∀ t ∈ gap.map Focus.token, t.isTrivia = true := by simpa using hgap
      rw [commentReach_gap hgap hc]
      split
      · rename_i hnext
        rw [Bool.toNat_false, Nat.zero_add] at hnext
        have hshort : back.length < (gap ++ c :: back).length := by
          rw [List.length_append, List.length_cons]
          omega
        obtain ⟨n, hn, hback⟩ := ih back.length hshort (taken + gap.length + 1) back rfl
        refine ⟨gap.length + 1 + n, by rw [hn]; omega, ?_⟩
        rw [List.append_cons, show gap.length + 1 + n = (gap ++ [c]).length + n by simp, List.take_length_add_append,
          List.drop_length_add_append, List.map_append, List.map_append, List.append_assoc]
        exact .next ⟨htokens, hnext.2⟩ hnext.1 hback
      · rename_i hnext
        refine ⟨0, rfl, .done ?_⟩
        rw [List.drop_zero, List.map_append, List.map_cons, Token.setOff_gap htokens hc]
        intro hcomment
        rw [Bool.toNat_false, Nat.zero_add, not_and, Nat.not_le] at hnext
        exact hnext hcomment

end

end ItemDraft

open Token (Joins SetOff Continued)

/-- A comment block among the tokens of a file. It starts and ends with a comment. At the start of a line it has all
comments up to the next empty line; behind something else, the one comment. -/
structure NodeHead.CommentsMaximal (tokens : List Token) (h : NodeHead) : Prop where
  first : ∃ c ∈ tokens[h.start]?, c.isComment = true
  last : ∃ c ∈ tokens[h.stop - 1]?, c.isComment = true
  alone : h.trailing = true → h.stop = h.start + 1
  joined : ∀ front c gap d back, (tokens.drop h.start).take (h.stop - h.start) = front ++ c :: (gap ++ d :: back) →
    c.isComment = true → d.isComment = true → (∀ t ∈ gap, t.isComment = false) → Joins gap
  maximal : h.trailing = false → SetOff (tokens.drop h.stop)

theorem NodeHead.commentsMaximal_of_continued {h : NodeHead} {before members after behind : List Token} {first : Token}
    (hfirst : first.isComment = true) (hmembers : Continued members after) (hstart : h.start = before.length)
    (hstop : h.stop = before.length + members.length + 1) (halone : h.trailing = true → members = [])
    (hbehind : h.trailing = false → SetOff behind) :
    h.CommentsMaximal (before ++ (first :: members ++ behind)) := by
  have hown : ((before ++ (first :: members ++ behind)).drop h.start).take (h.stop - h.start) = first :: members := by
    rw [hstart, hstop, List.drop_left, Nat.add_assoc, Nat.add_sub_cancel_left, ← List.length_cons, List.take_left]
  have hlast : (before ++ (first :: members ++ behind))[h.stop - 1]? = (first :: members).getLast? := by
    rw [hstop, Nat.add_sub_cancel, List.getElem?_append_right (Nat.le_add_right _ _), Nat.add_sub_cancel_left,
      List.getElem?_append_left (by simp), List.getLast?_eq_getElem?, List.length_cons, Nat.add_sub_cancel]
  refine ⟨⟨first, ?_, hfirst⟩, ?_, fun htrailing ↦ ?_, fun front c gap d back hsplit ↦ ?_, fun htrailing ↦ ?_⟩
  · simp [hstart]
  · have hsome := List.getLast?_eq_some_getLast (List.cons_ne_nil first members)
    exact ⟨_, hlast.trans hsome, hmembers.last hfirst _ hsome⟩
  · rw [hstop, hstart, halone htrailing]
    rfl
  · exact hmembers.joins (hown ▸ hsplit)
  · rw [hstop, Nat.add_assoc, ← List.length_cons, List.drop_length_add_append, List.drop_left]
    exact hbehind htrailing

theorem Focus.Enclosed.split {tokens : List Token} {f : Focus} {rest : List Focus}
    (h : Enclosed (all tokens) (f :: rest)) :
    ∃ before behind, tokens = before ++ (f.token :: rest.map token ++ behind) ∧ f.index = before.length ∧
      ∀ t ∈ behind.head?, t.isPunct "\x7d" = true := by
  obtain ⟨front, back, hall, hback⟩ := h
  refine ⟨front.map token, back.map token, ?_, ?_, ?_⟩
  · rw [← map_token_all tokens, hall, List.map_append, List.map_append, List.map_cons]
  · have hindex := all_consecutive tokens front.length f (by simp [hall])
    rw [hindex, Nat.zero_add, List.length_map]
  · simpa using hback

theorem Forest.item_commentsMaximal {tokens : List Token} {f : Focus} {rest : List Focus}
    (hregion : Focus.Enclosed (Focus.all tokens) (f :: rest)) (inFunction : Bool) {d : ItemDraft}
    (hd : ItemDraft.of inFunction f rest = d) (blocks : Forest) :
    ∀ o ∈ (item f d blocks).nodes, o.head.kind = .commentBlock → o.head.CommentsMaximal tokens := by
  intro o ho hkind
  cases List.mem_singleton.1 ho
  have hcomment : f.token.isComment = true := by
    by_contra hcomment
    exact ItemDraft.of_kind_ne_commentBlock (by simpa using hcomment) inFunction (hd ▸ hkind)
  obtain ⟨before, behind, htokens, hindex, hbehind⟩ := hregion.split
  have hdraft : d = .plain .commentBlock (if f.startsLine then ItemDraft.commentReach false 0 0 rest else 0) := by
    rw [← hd, ItemDraft.of, if_pos hcomment]
  cases hstarts : f.startsLine with
  | false =>
    rw [hstarts, if_neg Bool.false_ne_true] at hdraft
    have hsplit : tokens = before ++ (f.token :: [] ++ (rest.map Focus.token ++ behind)) := htokens
    rw [hsplit, hdraft]
    have hnone : SetOff [] := Token.setOff_trivia (by simp)
    refine NodeHead.commentsMaximal_of_continued hcomment (.done hnone) hindex ?_ (fun _ ↦ rfl) fun htrailing ↦ ?_
    · exact congrArg (· + 1) hindex
    · simp [Outline.head, ItemDraft.plain] at htrailing
  | true =>
    rw [hstarts, if_pos rfl] at hdraft
    obtain ⟨n, hreach, hcontinued⟩ := ItemDraft.commentReach_continued 0 rest
    have hle := ItemDraft.commentReach_le false 0 0 rest (Nat.zero_le _) (Nat.le_of_eq (Nat.zero_add _))
    rw [hreach, Nat.zero_add] at hdraft hle
    have hrest : rest.map Focus.token = (rest.take n).map Focus.token ++ (rest.drop n).map Focus.token := by
      rw [← List.map_append, List.take_append_drop]
    have hsplit : tokens = before ++
        (f.token :: (rest.take n).map Focus.token ++ ((rest.drop n).map Focus.token ++ behind)) := by
      rw [htokens, hrest]
      simp only [List.cons_append, List.append_assoc]
    rw [hsplit, hdraft]
    refine NodeHead.commentsMaximal_of_continued hcomment hcontinued hindex ?_ (fun htrailing ↦ ?_)
      fun _ ↦ hcontinued.setOff.append fun t ht ↦ ?_
    · rw [List.length_map, List.length_take, Nat.min_eq_left hle, ← hindex]
      rfl
    · simp [Outline.head] at htrailing
    · exact Token.apart_of_isPunct (hbehind t ht)

namespace Tree

/-- Every comment block of a file is as long as it can be. -/
theorem commentBlocks_maximal (tokens : List Token) {t : Tree}
    (ht : t ∈ (ofOutline (Outline.ofFoci (Focus.all tokens)).1).preorder) (hkind : t.kind = .commentBlock) :
    t.head.CommentsMaximal tokens := by
  have hitems := items_ofFoci (E := fun _ ↦ True) (Q := fun h inner ↦ h.Itemized (· ∈ Focus.all tokens) inner ∧
      (h.kind = .commentBlock → h.CommentsMaximal tokens)) tokens (fun _ _ h ↦ h.1.blocks)
    (fun hc hregion hread hplain inFunction _ hd _ content o ho ↦
      ⟨Forest.item_itemized hc hregion.mem hread hplain inFunction hd content o ho,
        Forest.item_commentsMaximal hregion inFunction hd _ o ho⟩)
    fun _ _ ↦ trivial
  have hitem : t.kind.isItem = true := by rw [hkind]; rfl
  exact (hitems t ht hitem).2 hkind

/-- A comment and the one on the next line, before an empty line. -/
theorem commentBlocks_maximal_lines :
    let tokens := Token.tokenize (Text.bytesOf "/*a*/ // b\n//c\n\n//d\n")
    ∃ t ∈ (ofOutline (Outline.ofFoci (Focus.all tokens)).1).preorder, t.kind = .commentBlock ∧
      t.start = 0 ∧ t.stop = 5 ∧ t.head.CommentsMaximal tokens := by
  intro tokens
  have hblock : ∃ t ∈ (ofOutline (Outline.ofFoci (Focus.all tokens)).1).preorder, t.kind = .commentBlock ∧
      t.start = 0 ∧ t.stop = 5 := by decide +kernel
  obtain ⟨t, ht, hkind, hstart, hstop⟩ := hblock
  exact ⟨t, ht, hkind, hstart, hstop, commentBlocks_maximal tokens ht hkind⟩

end Tree

end CodeStyle
