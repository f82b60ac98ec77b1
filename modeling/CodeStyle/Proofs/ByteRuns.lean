import CodeStyle.Proofs.Lexing

/-!
Runs of non-ASCII bytes. A second pass over a file meets each of them once, in order, and no token starts
or ends inside one.
-/

namespace CodeStyle.Text

/-- Whether there is a non-ASCII byte at an offset. -/
def nonAsciiAt (bytes : List UInt8) (i : Nat) : Bool := bytes[i]?.any Byte.isNonAscii

/-- The bytes from `start` up to `stop` are non-ASCII, and those next to them are not. -/
structure IsRun (bytes : List UInt8) (start stop : Nat) : Prop where
  nonempty : start < stop
  inside : ∀ i, start ≤ i → i < stop → nonAsciiAt bytes i = true
  before : ∀ i, i + 1 = start → nonAsciiAt bytes i = false
  behind : nonAsciiAt bytes stop = false

variable {bytes : List UInt8}

theorem nonAsciiAt_of_getElem? {i : Nat} {b : UInt8} (h : bytes[i]? = some b) :
    nonAsciiAt bytes i = Byte.isNonAscii b := by
  rw [nonAsciiAt, h, Option.any_some]

theorem lt_length_of_nonAsciiAt {i : Nat} (h : nonAsciiAt bytes i = true) : i < bytes.length := by
  by_contra hlen
  rw [nonAsciiAt, List.getElem?_eq_none (by omega)] at h
  cases h

namespace IsRun

variable {start stop start' stop' : Nat}

theorem le_length (h : IsRun bytes start stop) : stop ≤ bytes.length := by
  have hlt := h.nonempty
  have hlast := lt_length_of_nonAsciiAt (h.inside (stop - 1) (by omega) (by omega))
  omega

/-- Two runs with a byte in common are the same. -/
theorem unique (h : IsRun bytes start stop) (h' : IsRun bytes start' stop') (hle : start ≤ start')
    (hlt : start' < stop) : start' = start ∧ stop' = stop := by
  have hstart : start' = start := by
    by_contra hne
    have hin := h.inside (start' - 1) (by omega) (by omega)
    rw [h'.before (start' - 1) (by omega)] at hin
    cases hin
  have hne' := h'.nonempty
  refine ⟨hstart, ?_⟩
  rcases Nat.lt_trichotomy stop' stop with hstop | hstop | hstop
  · have hin := h.inside stop' (by omega) hstop
    rw [h'.behind] at hin
    cases hin
  · exact hstop
  · have hin := h'.inside stop (by omega) hstop
    rw [h.behind] at hin
    cases hin

end IsRun

/-- At a place at which a text may be cut, one of the two bytes is ASCII. -/
theorem CutsAt.beside {k : Nat} (h : CutsAt bytes (k + 1)) :
    nonAsciiAt bytes k = false ∨ nonAsciiAt bytes (k + 1) = false := by
  obtain ⟨hle, hnext | ⟨b, hlast, hb⟩⟩ := h
  · right
    rw [List.head?_drop] at hnext
    cases hc : bytes[k + 1]? with
    | none => rw [nonAsciiAt, hc, Option.any_none]
    | some c => rw [nonAsciiAt_of_getElem? hc, hnext c hc]
  · left
    have hk : bytes[k]? = some bytes[k] := List.getElem?_eq_getElem hle
    rw [List.getLast?_take, if_neg (Nat.succ_ne_zero k), Nat.add_sub_cancel, hk, Option.some_or] at hlast
    cases hlast
    rw [nonAsciiAt_of_getElem? hk, hb]

end CodeStyle.Text

namespace CodeStyle.Token

open Text

section

variable {src front bytes : List UInt8}

/-- The bytes that a run is told from by its first byte. -/
theorem isRun_takeWhile {b : UInt8} {rest : List UInt8} (h : src = front ++ b :: rest)
    (hb : Byte.isNonAscii b = true) (hbefore : ∀ i, i + 1 = front.length → nonAsciiAt src i = false) :
    IsRun src front.length (front.length + 1 + (rest.takeWhile Byte.isNonAscii).length) := by
  have hsplit : src = front ++ ((b :: rest.takeWhile Byte.isNonAscii) ++ rest.dropWhile Byte.isNonAscii) := by
    rw [h, List.cons_append, List.takeWhile_append_dropWhile]
  generalize hpart : b :: rest.takeWhile Byte.isNonAscii = part at hsplit
  have hlen : front.length + 1 + (rest.takeWhile Byte.isNonAscii).length = front.length + part.length := by
    rw [← hpart, List.length_cons]
    omega
  have hall : ∀ c ∈ part, Byte.isNonAscii c = true := by
    intro c hc
    rw [← hpart] at hc
    rcases List.mem_cons.1 hc with rfl | hc
    · exact hb
    · exact List.mem_takeWhile_imp hc
  rw [hlen]
  refine ⟨by omega, fun i hle hlt ↦ ?_, hbefore, ?_⟩
  · have hi : i - front.length < part.length := by omega
    have hbyte : src[i]? = some part[i - front.length] := by
      rw [hsplit, List.getElem?_append_right hle, List.getElem?_append_left hi, List.getElem?_eq_getElem hi]
    rw [nonAsciiAt_of_getElem? hbyte]
    exact hall _ (List.getElem_mem hi)
  · have hnot := List.head?_dropWhile_not Byte.isNonAscii rest
    rw [nonAsciiAt, hsplit, ← List.head?_drop, ← List.append_assoc, ← List.length_append, List.drop_left]
    cases hc : (rest.dropWhile Byte.isNonAscii).head? with
    | none => rfl
    | some c =>
      rw [hc] at hnot
      exact hnot

/-- The errors of the second pass are the runs, in order. -/
theorem nonAsciiRuns_sound (offset : Nat) (p : Point) (h : src = front ++ bytes) (ho : front.length = offset)
    (hcut : ∀ i, i + 1 = offset → nonAsciiAt src i = false ∨ nonAsciiAt src (i + 1) = false) :
    (∀ e ∈ nonAsciiRuns offset p bytes, e.fault = .nonAscii ∧ offset ≤ e.span.startByte ∧
        IsRun src e.span.startByte e.span.endByte) ∧
      ((nonAsciiRuns offset p bytes).Pairwise fun a b ↦ a.span.startByte < b.span.startByte) ∧
      ∀ start stop, IsRun src start stop → offset ≤ start →
        ∃ e ∈ nonAsciiRuns offset p bytes, e.span.startByte = start ∧ e.span.endByte = stop := by
  fun_induction nonAsciiRuns offset p bytes generalizing front with
  | case1 offset p =>
    refine ⟨by simp, .nil, fun start stop hrun hle ↦ ?_⟩
    have hlen := hrun.le_length
    have hlt := hrun.nonempty
    rw [h, List.append_nil] at hlen
    omega
  | case2 offset p b rest hb more q =>
    rename_i ih
    subst ho
    have hfirst : nonAsciiAt src front.length = true := by
      rw [nonAsciiAt_of_getElem? (b := b) (by simp [h]), hb]
    have hrun := isRun_takeWhile h hb fun i hi ↦ by
      have := hcut i hi
      rwa [hi, hfirst, or_iff_left Bool.noConfusion] at this
    have hdrop : rest.drop more = rest.dropWhile Byte.isNonAscii := by
      nth_rewrite 1 [← List.takeWhile_append_dropWhile (p := Byte.isNonAscii) (l := rest)]
      exact List.drop_left
    have hsplit : src = (front ++ b :: rest.takeWhile Byte.isNonAscii) ++ rest.drop more := by
      rw [h, hdrop, List.append_assoc, List.cons_append, List.takeWhile_append_dropWhile]
    obtain ⟨hall, hordered, hcomplete⟩ := ih hsplit
      (by simp only [List.length_append, List.length_cons, more]; omega)
      (fun i hi ↦ .inr (by rw [hi]; exact hrun.behind))
    refine ⟨?_, ?_, ?_⟩
    · intro e he
      rcases List.mem_cons.1 he with rfl | he
      · exact ⟨rfl, Nat.le_refl _, hrun⟩
      · obtain ⟨hfault, hle, hrun'⟩ := hall e he
        exact ⟨hfault, by omega, hrun'⟩
    · refine .cons (fun e he ↦ ?_) hordered
      obtain ⟨-, hle, -⟩ := hall e he
      simp only [Span.between]
      omega
    · intro start stop hrun' hle
      by_cases hlt : start < front.length + 1 + more
      · obtain ⟨rfl, rfl⟩ := hrun.unique hrun' hle hlt
        exact ⟨_, List.mem_cons_self .., rfl, rfl⟩
      · obtain ⟨e, he, hspan⟩ := hcomplete start stop hrun' (by omega)
        exact ⟨e, List.mem_cons_of_mem _ he, hspan⟩
  | case3 offset p b rest hb =>
    rename_i ih
    subst ho
    have hascii : nonAsciiAt src front.length = false := by
      rw [nonAsciiAt_of_getElem? (b := b) (by simp [h])]
      simpa using hb
    obtain ⟨hall, hordered, hcomplete⟩ := ih (h.trans (List.append_cons ..)) (by simp)
      (fun i hi ↦ .inl (by rwa [Nat.succ.inj hi]))
    refine ⟨?_, hordered, ?_⟩
    · intro e he
      obtain ⟨hfault, hle, hrun⟩ := hall e he
      exact ⟨hfault, by omega, hrun⟩
    · intro start stop hrun hle
      refine hcomplete start stop hrun ?_
      have hne : start ≠ front.length := by
        rintro rfl
        have hin := hrun.inside front.length (Nat.le_refl _) hrun.nonempty
        rw [hascii] at hin
        cases hin
      omega

theorem nonAsciiRuns_eq_nil {offset : Nat} {p : Point} (h : nonAsciiRuns offset p bytes = []) :
    ∀ b ∈ bytes, Byte.isNonAscii b = false := by
  fun_induction nonAsciiRuns offset p bytes with
  | case1 => simp
  | case2 => cases h
  | case3 offset p b rest hb ih => simpa using ⟨by simpa using hb, ih h⟩

end

end CodeStyle.Token
