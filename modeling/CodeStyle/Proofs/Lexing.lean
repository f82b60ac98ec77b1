import CodeStyle.Proofs.Scanning
import CodeStyle.Token.Lexer
import Mathlib.Data.List.Chain

/-!
Lexing loses nothing. The lexemes of a text are non-empty pieces of it that give the text when they
are put together, their placed tokens tile the file, and the texts of the tokens make up the text of
the file.
-/

namespace CodeStyle.Point

theorem walk_append (p : Point) (front back : List UInt8) (after : Option UInt8) :
    p.walk (front ++ back) after = (p.walk front (back.head?.or after)).walk back after := by
  induction front generalizing p with
  | nil => rfl
  | cons b front ih => simp only [List.cons_append, walk, List.head?_append, Option.or_assoc, ih]

end CodeStyle.Point

namespace CodeStyle.Token

open Text

theorem lexemes_ne_nil {lineHasCode : Bool} {bytes : List UInt8} :
    ∀ l ∈ lexemes lineHasCode bytes, l.bytes ≠ [] := by
  fun_induction lexemes lineHasCode bytes with
  | case1 => simp
  | case2 _ b rest _ ih => simpa using ih

/-- The lexemes of a text, put together, are the text. -/
theorem lexemes_flatMap (lineHasCode : Bool) (bytes : List UInt8) :
    (lexemes lineHasCode bytes).flatMap Lexeme.bytes = bytes := by
  fun_induction lexemes lineHasCode bytes with
  | case1 => rfl
  | case2 _ b rest _ ih => simp [ih]

/-- The text may be cut behind each of its lexemes. -/
theorem lexemes_cut {lineHasCode : Bool} {bytes : List UInt8} {front back : List Lexeme} {l : Lexeme}
    (h : lexemes lineHasCode bytes = front ++ l :: back) :
    CutsAt bytes (front.flatMap Lexeme.bytes ++ l.bytes).length := by
  fun_induction lexemes lineHasCode bytes generalizing front with
  | case1 => simp at h
  | case2 lineHasCode b rest e =>
    rename_i ih
    have hcut := Extent.of_cut lineHasCode b rest
    have hmore : e.more ≤ rest.length := by simpa using hcut.le_length
    cases front with
    | nil =>
      obtain ⟨rfl, -⟩ := List.cons.inj h
      simpa [hmore] using hcut
    | cons l' front =>
      obtain ⟨rfl, hb⟩ := List.cons.inj h
      have hk := (ih hb).prepend (b :: rest.take e.more)
      rw [List.cons_append, List.take_append_drop, ← List.length_append, ← List.append_assoc] at hk
      exact hk

/-- The texts of the lexemes, put together, are the text of the whole. -/
theorem lossy_lexemes (lineHasCode : Bool) (bytes : List UInt8) :
    String.join ((lexemes lineHasCode bytes).map fun l ↦ Utf8.lossy l.bytes) = Utf8.lossy bytes := by
  fun_induction lexemes lineHasCode bytes with
  | case1 => simp [Utf8.lossy, Utf8.units]
  | case2 lineHasCode b rest e ih =>
    have hcut := Utf8.lossy_cut (Extent.of_cut lineHasCode b rest)
    simp only [List.take_succ_cons, List.drop_succ_cons] at hcut
    rw [List.map_cons, String.join_cons, ih, hcut]

theorem firstByte_eq {ls : List Lexeme} (h : ∀ l ∈ ls, l.bytes ≠ []) :
    firstByte ls = (ls.flatMap Lexeme.bytes).head? := by
  cases ls with
  | nil => rfl
  | cons l ls =>
    obtain ⟨b, tail, hb⟩ := List.exists_cons_of_ne_nil (h l (by simp))
    simp [firstByte, hb]

/-- A placed token is a lexeme with the stretch of bytes that it takes behind those before it. -/
theorem mem_place {ls : List Lexeme} (hls : ∀ l ∈ ls, l.bytes ≠ []) {offset : Nat} {p : Point}
    {t : Token} (ht : t ∈ place offset p ls) :
    ∃ front l back, ls = front ++ l :: back ∧ t.kind = l.kind ∧ t.bytes = l.bytes ∧
      t.text = Utf8.lossy l.bytes ∧
      t.span = Span.between (offset + (front.flatMap Lexeme.bytes).length)
        (p.walk (front.flatMap Lexeme.bytes) l.bytes.head?)
        (offset + (front.flatMap Lexeme.bytes).length + l.bytes.length)
        (p.walk (front.flatMap Lexeme.bytes ++ l.bytes) (firstByte back)) := by
  induction ls generalizing offset p with
  | nil => cases ht
  | cons l ls ih =>
    rcases List.mem_cons.1 ht with rfl | ht
    · exact ⟨[], l, ls, rfl, rfl, rfl, rfl, rfl⟩
    · have hls' : ∀ l ∈ ls, l.bytes ≠ [] := fun l hl ↦ hls l (List.mem_cons_of_mem _ hl)
      obtain ⟨front, l', back, rfl, hk, hb, hx, hs⟩ := ih hls' ht
      have hl' : l'.bytes ≠ [] := hls' l' (by simp)
      have hfirst : firstByte (front ++ l' :: back) =
          (front.flatMap Lexeme.bytes).head?.or l'.bytes.head? := by
        obtain ⟨b, tail, hbt⟩ := List.exists_cons_of_ne_nil hl'
        rw [firstByte_eq hls', List.flatMap_append, List.head?_append, List.flatMap_cons, hbt]
        rfl
      refine ⟨l :: front, l', back, rfl, hk, hb, hx, ?_⟩
      rw [hs, hfirst]
      simp only [List.flatMap_cons, List.append_assoc, Point.walk_append p l.bytes, List.length_append,
        Nat.add_assoc, List.head?_append, Option.or_assoc]
      obtain ⟨b, tail, hbt⟩ := List.exists_cons_of_ne_nil hl'
      simp [hbt]

theorem place_head (offset : Nat) (p : Point) (ls : List Lexeme) :
    ∀ t ∈ (place offset p ls).head?, t.span.startByte = offset := by
  cases ls with
  | nil => simp [place]
  | cons l ls => simp [place, Span.between]

theorem place_isChain (offset : Nat) (p : Point) (ls : List Lexeme) :
    (place offset p ls).IsChain fun s t ↦ s.span.endByte = t.span.startByte := by
  induction ls generalizing offset p with
  | nil => exact .nil
  | cons l ls ih =>
    refine List.isChain_cons.2 ⟨fun t ht ↦ ?_, ih _ _⟩
    exact (place_head _ _ ls t ht).symm

theorem le_startByte_of_mem_place {offset : Nat} {p : Point} {ls : List Lexeme} {t : Token} (h : t ∈ place offset p ls) :
    offset ≤ t.span.startByte := by
  induction ls generalizing offset p with
  | nil => cases h
  | cons l ls ih =>
    rcases List.mem_cons.1 h with rfl | h
    · exact Nat.le_refl _
    · have := ih h
      omega

theorem place_pairwise (offset : Nat) (p : Point) (ls : List Lexeme) :
    (place offset p ls).Pairwise fun s t ↦ s.span.endByte ≤ t.span.startByte := by
  induction ls generalizing offset p with
  | nil => exact .nil
  | cons l ls ih => exact List.pairwise_cons.2 ⟨fun t ht ↦ le_startByte_of_mem_place ht, ih _ _⟩

theorem place_getLast (offset : Nat) (p : Point) (ls : List Lexeme) :
    ∀ t ∈ (place offset p ls).getLast?,
      t.span.endByte = offset + (ls.flatMap Lexeme.bytes).length := by
  induction ls generalizing offset p with
  | nil => simp [place]
  | cons l ls ih =>
    intro t ht
    cases ls with
    | nil =>
      cases ht
      simp [place, Span.between]
    | cons l' ls =>
      have h := ih (offset + l.bytes.length) (p.walk l.bytes (firstByte (l' :: ls))) t ht
      simpa [Nat.add_assoc] using h

theorem map_text_place (offset : Nat) (p : Point) (ls : List Lexeme) :
    (place offset p ls).map Token.text = ls.map fun l ↦ Utf8.lossy l.bytes := by
  induction ls generalizing offset p with
  | nil => rfl
  | cons l ls ih => simp [place, ih]

/-- A token of a file is a non-empty piece of it, behind which the file may be cut, and its span goes
from the place after the bytes before it to the place after its own. -/
theorem mem_tokenize {src : List UInt8} {t : Token} (ht : t ∈ tokenize src) :
    ∃ before after, src = before ++ (t.bytes ++ after) ∧ t.bytes ≠ [] ∧ t.text = Utf8.lossy t.bytes ∧
      CutsAt src (before ++ t.bytes).length ∧
      t.span = Span.between before.length (Point.first.walk before t.bytes.head?)
        (before.length + t.bytes.length) (Point.first.walk (before ++ t.bytes) after.head?) := by
  obtain ⟨front, l, back, hl, -, hb, hx, hs⟩ := mem_place lexemes_ne_nil ht
  have hback : ∀ l ∈ back, l.bytes ≠ [] := fun l hm ↦
    lexemes_ne_nil l (by rw [hl]; exact List.mem_append_right _ (List.mem_cons_of_mem _ hm))
  refine ⟨front.flatMap Lexeme.bytes, back.flatMap Lexeme.bytes, ?_, ?_, ?_, ?_, ?_⟩
  · rw [hb, ← lexemes_flatMap false src, hl]
    simp
  · rw [hb]
    exact lexemes_ne_nil l (by rw [hl]; simp)
  · rw [hx, hb]
  · rw [hb]
    exact lexemes_cut hl
  · rw [hs, hb, firstByte_eq hback, Nat.zero_add]

/-- Lexing is total and loses nothing: the tokens of a file are non-empty, tile it from its first byte
to its last, never claim a byte that is not there, never cut a run of non-ASCII bytes, and their texts
make up the text of the file. -/
theorem tokenize_lossless (src : List UInt8) :
    (∀ t ∈ tokenize src, t.span.startByte < t.span.endByte) ∧
    (∀ t ∈ (tokenize src).head?, t.span.startByte = 0) ∧
    ((tokenize src).IsChain fun s t ↦ s.span.endByte = t.span.startByte) ∧
    (∀ t ∈ (tokenize src).getLast?, t.span.endByte = src.length) ∧
    (tokenize src = [] ↔ src = []) ∧
    (∀ lineHasCode first rest, (Extent.of lineHasCode first rest).more ≤ rest.length) ∧
    (∀ t ∈ tokenize src, CutsAt src t.span.endByte ∧
      t.text = Utf8.lossy ((src.drop t.span.startByte).take (t.span.endByte - t.span.startByte))) ∧
    String.join ((tokenize src).map Token.text) = Utf8.lossy src := by
  refine ⟨fun t ht ↦ ?_, place_head 0 _ _, place_isChain 0 _ _, fun t ht ↦ ?_, ?_, ?_, fun t ht ↦ ?_, ?_⟩
  · obtain ⟨before, after, -, hne, -, -, hs⟩ := mem_tokenize ht
    have := List.length_pos_iff.2 hne
    simp only [hs, Span.between]
    omega
  · have h := place_getLast 0 _ _ t ht
    rwa [lexemes_flatMap, Nat.zero_add] at h
  · constructor
    · intro h
      cases src with
      | nil => rfl
      | cons b rest => simp [tokenize, lexemes, place] at h
    · rintro rfl
      simp [tokenize, lexemes, place]
  · intro lineHasCode first rest
    simpa using (Extent.of_cut lineHasCode first rest).le_length
  · obtain ⟨before, after, hsrc, -, hx, hcut, hs⟩ := mem_tokenize ht
    have he : t.span.endByte = (before ++ t.bytes).length := by simp [hs, Span.between]
    refine ⟨he ▸ hcut, ?_⟩
    rw [hx]
    simp [hs, Span.between, hsrc]
  · rw [tokenize, map_text_place, lossy_lexemes]

end CodeStyle.Token
