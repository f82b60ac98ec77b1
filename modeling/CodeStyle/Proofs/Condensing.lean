import CodeStyle.Proofs.DelimiterErrors

/-!
A file without its blanks and line breaks. The tokens that stay keep their kinds and texts, they are
numbered anew, and their spans may be renamed. Places in the file, and what is recorded there, are carried
over by counting the tokens that stay.
-/

namespace CodeStyle

/-- Neither a blank nor a line break. -/
def Token.isSolid (t : Token) : Bool := !t.isTrivia

theorem Token.isSolid_of_isCode {t : Token} (h : t.isCode = true) : t.isSolid = true := by
  cases hk : t.kind <;> simp_all [isCode, Kind.isCode, isSolid, isTrivia, Kind.isTrivia]

theorem Token.isSolid_of_isPunct {t : Token} {text : String} (h : t.isPunct text = true) :
    t.isSolid = true := by
  by_cases hc : t.isCode = true
  · exact isSolid_of_isCode hc
  · rw [isPunct_of_not_isCode (by simpa using hc)] at h
    cases h

def Focus.isSolid (f : Focus) : Bool := f.token.isSolid

/-- The number of solid tokens before the `i`-th. -/
def rank (tokens : List Token) (i : Nat) : Nat := (tokens.take i).countP Token.isSolid

/-- The number of solid tokens of a region. -/
def weight (region : List Focus) : Nat := region.countP Focus.isSolid

section

variable {α : Type} (p : α → Bool) (l : List α) (n : Nat)

theorem filter_eq_append : l.filter p = (l.take n).filter p ++ (l.drop n).filter p := by
  rw [← List.filter_append, List.take_append_drop]

theorem filter_take : (l.take n).filter p = (l.filter p).take ((l.take n).countP p) := by
  rw [filter_eq_append p l n, List.countP_eq_length_filter, List.take_left]

theorem filter_drop : (l.drop n).filter p = (l.filter p).drop ((l.take n).countP p) := by
  rw [filter_eq_append p l n, List.countP_eq_length_filter, List.drop_left]

end

section

variable {f : Focus} {rest : List Focus}

theorem weight_cons_solid (hf : f.isSolid = true) (rest : List Focus) : weight (f :: rest) = weight rest + 1 :=
  List.countP_cons_of_pos hf

theorem weight_cons_trivia (hf : f.isSolid = false) (rest : List Focus) : weight (f :: rest) = weight rest :=
  List.countP_cons_of_neg (by simp [hf])

theorem weight_append (front back : List Focus) : weight (front ++ back) = weight front + weight back :=
  List.countP_append

theorem weight_eq_countP_token (region : List Focus) :
    weight region = (region.map Focus.token).countP Token.isSolid := by
  rw [List.countP_map]
  rfl

theorem weight_take_succ {whole : List Focus} {n : Nat} (h : whole.drop n = f :: rest) :
    weight (whole.take (n + 1)) = weight (whole.take n) + weight [f] := by
  rw [ItemDraft.take_succ_of_drop h, weight_append]

end

section

variable {tokens : List Token} {i k : Nat} {region : List Focus} {f g : Focus}

theorem rank_mono (tokens : List Token) {i j : Nat} (h : i ≤ j) : rank tokens i ≤ rank tokens j :=
  List.Sublist.countP_le (List.take_sublist_take_left h)

/-- Passing `k` tokens of a region passes the solid ones among them. -/
theorem rank_add (h : Focus.Placed (Focus.all tokens) i region) (hk : k ≤ region.length) :
    rank tokens (i + k) = rank tokens i + weight (region.take k) := by
  rw [h.take_eq hk, weight_eq_countP_token, List.map_take, List.map_drop, Focus.map_token_all, rank, rank,
    List.take_add, List.countP_append]

theorem rank_add_one (h : Focus.Placed (Focus.all tokens) i (f :: region)) (hf : f.isSolid = true) :
    rank tokens (i + 1) = rank tokens i + 1 := by
  rw [rank_add h (k := 1) (Nat.succ_le_of_lt (Nat.succ_pos _)), List.take_succ_cons, List.take_zero,
    weight_cons_solid hf]
  rfl

theorem Focus.placed_of_mem (h : f ∈ Focus.all tokens) : Focus.Placed (Focus.all tokens) f.index [f] := by
  obtain ⟨n, hn, rfl⟩ := List.mem_iff_getElem.1 h
  have hget := List.getElem?_eq_getElem hn
  have hindex := Focus.all_consecutive tokens n _ hget
  intro k q hq
  cases k with
  | zero =>
    cases hq
    rw [hindex, Nat.zero_add]
    exact hget
  | succ k => cases hq

theorem rank_lt (hf : f ∈ Focus.all tokens) (hs : f.isSolid = true) {j : Nat} (hj : f.index < j) :
    rank tokens f.index < rank tokens j := by
  have hsucc := rank_add_one (Focus.placed_of_mem hf) hs
  have hle : rank tokens (f.index + 1) ≤ rank tokens j := rank_mono tokens hj
  omega

/-- A place is behind a solid token if more solid tokens are before it. -/
theorem rank_le_iff (hf : f ∈ Focus.all tokens) (hs : f.isSolid = true) {j : Nat} :
    rank tokens j ≤ rank tokens f.index ↔ j ≤ f.index := by
  constructor
  · intro hle
    by_contra hlt
    have := rank_lt hf hs (Nat.lt_of_not_le hlt)
    omega
  · exact fun hle ↦ rank_mono tokens hle

theorem rank_eq_iff (hf : f ∈ Focus.all tokens) (hs : f.isSolid = true) (hg : g ∈ Focus.all tokens)
    (ht : g.isSolid = true) : rank tokens f.index = rank tokens g.index ↔ f.index = g.index := by
  rw [Nat.eq_iff_le_and_ge, Nat.eq_iff_le_and_ge, rank_le_iff hg ht, rank_le_iff hf hs]

theorem Focus.length_before_fromIndex {before rest : List Token} (h : f ∈ Focus.fromIndex i before rest)
    (hi : before.length = i) : f.before.length = f.index := by
  induction rest generalizing i before with
  | nil => cases h
  | cons t rest ih =>
    rcases List.mem_cons.1 h with rfl | h
    · exact hi
    · exact ih h (by rw [List.length_cons, hi])

theorem Focus.reverse_before (h : f ∈ Focus.all tokens) : f.before.reverse = tokens.take f.index := by
  have hlen : f.before.reverse.length = f.index := by
    rw [List.length_reverse, length_before_fromIndex h rfl]
  conv_rhs => rw [Focus.mem_all h, ← hlen, List.take_left]

/-- The solid tokens between two places are those right before the second. -/
theorem rank_sub (h : f ∈ Focus.all tokens) (start : Nat) :
    rank tokens f.index - rank tokens start = (f.before.take (f.index - start)).countP Token.isSolid := by
  by_cases hle : start ≤ f.index
  · have hlen : f.before.length = f.index := Focus.length_before_fromIndex h rfl
    have hstart : tokens.take start = f.before.reverse.take start := by
      rw [Focus.reverse_before h, List.take_take, Nat.min_eq_left hle]
    have hsplit : f.before.reverse.countP Token.isSolid =
        rank tokens start + (f.before.take (f.index - start)).countP Token.isSolid := by
      conv_lhs => rw [← List.take_append_drop start f.before.reverse]
      rw [List.countP_append, List.drop_reverse, List.countP_reverse, hlen, rank, hstart]
    have hrank : rank tokens f.index = f.before.reverse.countP Token.isSolid := by
      rw [Focus.reverse_before h, rank]
    rw [hrank, hsplit, Nat.add_sub_cancel_left]
  · have hmono := rank_mono tokens (Nat.le_of_not_le hle)
    rw [Nat.sub_eq_zero_of_le hmono, Nat.sub_eq_zero_of_le (Nat.le_of_not_le hle)]
    rfl

end

/-- How a file is condensed: these are its tokens, and this is what becomes of their spans. -/
structure Condensing where
  tokens : List Token
  span : Span → Span

namespace Condensing

variable (c : Condensing)

def index (i : Nat) : Nat := rank c.tokens i

/-- The bytes are left out, since the text alone may be what two files share. -/
def token (t : Token) : Token := ⟨t.kind, [], t.text, c.span t.span⟩

def solids (ts : List Token) : List Token := (ts.filter Token.isSolid).map c.token

def focus (f : Focus) : Focus :=
  ⟨c.index f.index, c.solids f.before, c.token f.token, c.solids f.after⟩

def foci (region : List Focus) : List Focus := (region.filter Focus.isSolid).map c.focus

def error (e : DelimiterError) : DelimiterError := ⟨e.imbalance, c.span e.span⟩

/-- A group among the tokens `rest` after the first of an item. -/
def group (rest : List Focus) (g : BraceGroup) : BraceGroup :=
  ⟨c.focus g.opening, weight (rest.take g.skip), weight (g.content rest), g.closed, g.inFunction⟩

def draft (rest : List Focus) (d : ItemDraft) : ItemDraft :=
  ⟨d.kind, weight (rest.take d.more), d.name.map c.index, d.groups.map (c.group rest), d.errors.map c.error⟩

variable {c : Condensing} {f : Focus} {rest region : List Focus}

@[simp] theorem focus_token (f : Focus) : (c.focus f).token = c.token f.token := rfl

@[simp] theorem focus_index (f : Focus) : (c.focus f).index = c.index f.index := rfl

@[simp] theorem token_kind (t : Token) : (c.token t).kind = t.kind := rfl

@[simp] theorem token_text (t : Token) : (c.token t).text = t.text := rfl

@[simp] theorem token_isCode (t : Token) : (c.token t).isCode = t.isCode := rfl

@[simp] theorem token_isPunct (t : Token) (text : String) : (c.token t).isPunct text = t.isPunct text := rfl

@[simp] theorem token_isKeyword (t : Token) (word : String) : (c.token t).isKeyword word = t.isKeyword word :=
  rfl

@[simp] theorem token_isIdentifier (t : Token) : (c.token t).isIdentifier = t.isIdentifier := rfl

@[simp] theorem token_isComment (t : Token) : (c.token t).isComment = t.isComment := rfl

@[simp] theorem token_isTrivia (t : Token) : (c.token t).isTrivia = t.isTrivia := rfl

@[simp] theorem token_opensDeclaration (t : Token) : (c.token t).opensDeclaration = t.opensDeclaration := rfl

@[simp] theorem focus_isCode (f : Focus) : (c.focus f).isCode = f.isCode := rfl

@[simp] theorem foci_nil : c.foci [] = [] := rfl

theorem foci_cons_solid (hf : f.isSolid = true) (rest : List Focus) :
    c.foci (f :: rest) = c.focus f :: c.foci rest := by
  rw [foci, List.filter_cons_of_pos hf]
  rfl

theorem foci_cons_trivia (hf : f.isSolid = false) (rest : List Focus) : c.foci (f :: rest) = c.foci rest := by
  rw [foci, List.filter_cons_of_neg (by simp [hf])]
  rfl

theorem length_foci (c : Condensing) (region : List Focus) : (c.foci region).length = weight region := by
  rw [foci, List.length_map, weight, List.countP_eq_length_filter]

theorem foci_take (c : Condensing) (region : List Focus) (n : Nat) :
    c.foci (region.take n) = (c.foci region).take (weight (region.take n)) := by
  rw [foci, foci, ← List.map_take, filter_take]
  rfl

theorem foci_drop (c : Condensing) (region : List Focus) (n : Nat) :
    c.foci (region.drop n) = (c.foci region).drop (weight (region.take n)) := by
  rw [foci, foci, ← List.map_drop, filter_drop]
  rfl

theorem getElem?_foci {n : Nat} (h : region[n]? = some f) (hf : f.isSolid = true) :
    (c.foci region)[weight (region.take n)]? = some (c.focus f) := by
  obtain ⟨hn, rfl⟩ := List.getElem?_eq_some_iff.1 h
  rw [← List.head?_drop, ← foci_drop, List.drop_eq_getElem_cons hn, foci_cons_solid hf]
  rfl

/-- Condensing passes over a run of tokens as over what is left of the run. -/
theorem foci_dropWhile {p : Focus → Bool} (hp : ∀ f, p (c.focus f) = p f)
    (htrivia : ∀ f : Focus, f.isSolid = false → p f = true) (region : List Focus) :
    c.foci (region.dropWhile p) = (c.foci region).dropWhile p := by
  induction region with
  | nil => rfl
  | cons f rest ih =>
    by_cases hf : f.isSolid = true
    · rw [foci_cons_solid hf, List.dropWhile_cons, List.dropWhile_cons, hp]
      split
      · exact ih
      · exact foci_cons_solid hf rest
    · have hf : f.isSolid = false := by simpa using hf
      rw [foci_cons_trivia hf, List.dropWhile_cons, if_pos (htrivia f hf)]
      exact ih

theorem isCode_of_trivia (hf : f.isSolid = false) : f.isCode = false := by
  by_contra hc
  have hcode : f.token.isCode = true := (Bool.not_eq_false _).mp hc
  rw [Focus.isSolid, Token.isSolid_of_isCode hcode] at hf
  cases hf

theorem find?_isCode_foci (region : List Focus) :
    (c.foci region).find? Focus.isCode = (region.find? Focus.isCode).map c.focus := by
  rw [foci, List.find?_map, List.find?_filter]
  congr 2
  funext f
  by_cases hf : f.isSolid = true
  · simp [hf]
  · have hf : f.isSolid = false := by simpa using hf
    simp [hf, isCode_of_trivia hf]

/-- A distance in `rest`, counted from a solid token before it. -/
theorem map_weight_solid (hf : f.isSolid = true) (rest : List Focus) (o : Option Nat) :
    (o.map fun n ↦ weight (rest.take n)).map (· + 1) =
      (o.map (· + 1)).map fun n ↦ weight ((f :: rest).take n) := by
  rw [Option.map_map, Option.map_map]
  congr 1
  funext n
  exact (weight_cons_solid hf _).symm

theorem map_weight_trivia (hf : f.isSolid = false) (rest : List Focus) (o : Option Nat) :
    (o.map fun n ↦ weight (rest.take n)) = (o.map (· + 1)).map fun n ↦ weight ((f :: rest).take n) := by
  rw [Option.map_map]
  congr 1
  funext n
  exact (weight_cons_trivia hf _).symm

theorem findIdx?_isCode_foci (region : List Focus) :
    (c.foci region).findIdx? Focus.isCode =
      (region.findIdx? Focus.isCode).map fun k ↦ weight (region.take k) := by
  induction region with
  | nil => rfl
  | cons f rest ih =>
    by_cases hf : f.isSolid = true
    · rw [foci_cons_solid hf, List.findIdx?_cons, List.findIdx?_cons, focus_isCode, ih]
      split
      · rfl
      · exact map_weight_solid hf rest _
    · have hf : f.isSolid = false := by simpa using hf
      rw [foci_cons_trivia hf, ih, List.findIdx?_cons, if_neg (by simp [isCode_of_trivia hf])]
      exact map_weight_trivia hf rest _

theorem closeDistance_foci (depth : Nat) (rest : List Focus) :
    closeDistance depth (c.foci rest) = (closeDistance depth rest).map fun n ↦ weight (rest.take n) := by
  have hsolid {text : String} {f : Focus} (h : f.token.isPunct text = true) : f.isSolid = true :=
    Token.isSolid_of_isPunct h
  fun_induction closeDistance depth rest with
  | case1 => rfl
  | case2 depth f rest hf ih =>
    rw [foci_cons_solid (hsolid hf), closeDistance.eq_def]
    simp only [focus_token, token_isPunct, hf, if_true]
    rw [ih]
    exact map_weight_solid (hsolid hf) rest _
  | case3 f rest hopen hclose =>
    rw [foci_cons_solid (hsolid hclose), closeDistance.eq_def]
    simp only [focus_token, token_isPunct, hopen, hclose, if_true]
    rfl
  | case4 f rest hopen hclose depth ih =>
    rw [foci_cons_solid (hsolid hclose), closeDistance.eq_def]
    simp only [focus_token, token_isPunct, hopen, hclose, if_true]
    rw [ih]
    exact map_weight_solid (hsolid hclose) rest _
  | case5 depth f rest hopen hclose ih =>
    by_cases hf : f.isSolid = true
    · rw [foci_cons_solid hf, closeDistance.eq_def]
      simp only [focus_token, token_isPunct, hopen, hclose]
      rw [ih]
      exact map_weight_solid hf rest _
    · have hf : f.isSolid = false := by simpa using hf
      rw [foci_cons_trivia hf, ih]
      exact map_weight_trivia hf rest _

theorem index_before {before rest : List Token} (h : before.reverse ++ rest = c.tokens) :
    c.index before.length = before.countP Token.isSolid := by
  rw [index, rank, ← h, ← List.length_reverse, List.take_left, List.countP_reverse]

/-- The tokens of a condensed file, each in focus. -/
theorem all_solids (c : Condensing) : Focus.all (c.solids c.tokens) = c.foci (Focus.all c.tokens) := by
  have run (before rest : List Token) (h : before.reverse ++ rest = c.tokens) :
      Focus.fromIndex (c.index before.length) (c.solids before) (c.solids rest) =
        c.foci (Focus.fromIndex before.length before rest) := by
    induction rest generalizing before with
    | nil => rfl
    | cons t rest ih =>
      have hnext : (t :: before).reverse ++ rest = c.tokens := by simpa using h
      have hfoci := ih (t :: before) hnext
      rw [index_before hnext] at hfoci
      rw [index_before h, Focus.fromIndex]
      by_cases ht : t.isSolid = true
      · rw [List.countP_cons_of_pos ht, solids, List.filter_cons_of_pos ht] at hfoci
        rw [foci_cons_solid (f := ⟨_, before, t, rest⟩) ht, solids, solids, List.filter_cons_of_pos ht,
          List.map_cons, Focus.fromIndex]
        refine congrArg₂ List.cons ?_ hfoci
        rw [focus, index_before h]
        rfl
      · rw [List.countP_cons_of_neg ht, solids, List.filter_cons_of_neg ht] at hfoci
        rw [foci_cons_trivia (f := ⟨_, before, t, rest⟩) (Bool.eq_false_iff.2 ht), solids, solids,
          List.filter_cons_of_neg ht]
        exact hfoci
  exact run [] c.tokens rfl

end Condensing

end CodeStyle
