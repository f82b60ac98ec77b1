import CodeStyle.Text.Utf8
import Mathlib.Data.List.TakeWhile
import Mathlib.Tactic.Common

/-!
Reading a byte text in pieces. A text may be cut at every place that has an ASCII byte on one of its
sides: no character and no damaged part reaches over such a place, so that the pieces, read one by
one, give the text of the whole.
-/

namespace CodeStyle.Text

/-- Whether `bytes` may be cut after `k` bytes: there is an end or an ASCII byte behind the cut, or an
ASCII byte in front of it. -/
def CutsAt (bytes : List UInt8) (k : Nat) : Prop :=
  k ≤ bytes.length ∧
    ((∀ b ∈ (bytes.drop k).head?, Byte.isNonAscii b = false) ∨
      ∃ b ∈ (bytes.take k).getLast?, Byte.isNonAscii b = false)

namespace CutsAt

variable {bytes : List UInt8} {k : Nat}

theorem le_length (h : CutsAt bytes k) : k ≤ bytes.length := h.1

theorem length (bytes : List UInt8) : CutsAt bytes bytes.length :=
  ⟨Nat.le_refl _, .inl (by simp)⟩

theorem of_next {b : UInt8} (h : bytes[k]? = some b) (hb : Byte.isNonAscii b = false) :
    CutsAt bytes k := by
  obtain ⟨hk, -⟩ := List.getElem?_eq_some_iff.1 h
  refine ⟨hk.le, .inl ?_⟩
  simpa [List.head?_drop, h] using hb

theorem of_previous {b : UInt8} (h : bytes[k]? = some b) (hb : Byte.isNonAscii b = false) :
    CutsAt bytes (k + 1) := by
  obtain ⟨hk, -⟩ := List.getElem?_eq_some_iff.1 h
  refine ⟨hk, .inr ⟨b, ?_, hb⟩⟩
  simp [List.getLast?_take, h]

/-- A cut of a text is a cut of every text that ends with it. -/
theorem prepend (front : List UInt8) (h : CutsAt bytes k) :
    CutsAt (front ++ bytes) (front.length + k) := by
  obtain ⟨hk, hb⟩ := h
  refine ⟨by simpa using hk, hb.imp (fun hb ↦ ?_) (fun ⟨b, hm, hb⟩ ↦ ⟨b, ?_, hb⟩)⟩
  · simpa [List.drop_append] using hb
  · rw [List.take_length_add_append, List.getLast?_append, Option.mem_def.1 hm]
    rfl

theorem cons (b : UInt8) (h : CutsAt bytes k) : CutsAt (b :: bytes) (k + 1) := by
  simpa [Nat.add_comm] using h.prepend [b]

end CutsAt

namespace Utf8

theorem low_of_shape {lead : UInt8} {s : Shape} (h : shape? lead = some s) : 0x80 ≤ s.low := by
  unfold shape? at h
  split_ifs at h <;> cases h <;> decide

theorem isNonAscii_of_isContinuation {b : UInt8} (h : isContinuation b = true) :
    Byte.isNonAscii b = true := by
  simp only [isContinuation, Bool.and_eq_true] at h
  exact h.1

theorem reach_le (s : Shape) (rest : List UInt8) : s.reach rest ≤ rest.length := by
  cases rest with
  | nil => simp [Shape.reach]
  | cons b rest =>
    have h := (List.takeWhile_sublist isContinuation (l := rest.take s.further)).length_le
    simp only [List.length_take] at h
    simp only [Shape.reach, List.length_cons]
    split <;> omega

theorem next_le (lead : UInt8) (rest : List UInt8) : (next lead rest).2 ≤ rest.length := by
  unfold next
  split
  · exact Nat.zero_le _
  · cases shape? lead with
    | none => exact Nat.zero_le _
    | some s =>
      dsimp only
      split <;> exact reach_le s rest

/-- What stops a run of continuation bytes stops it wherever the text is cut before it. -/
theorem takeWhile_take_append (n : Nat) (rest tail : List UInt8)
    (h : ∀ b ∈ tail.head?, Byte.isNonAscii b = false) :
    ((rest ++ tail).take n).takeWhile isContinuation = (rest.take n).takeWhile isContinuation := by
  induction rest generalizing n with
  | nil =>
    cases tail with
    | nil => rfl
    | cons b tail =>
      have hb : isContinuation b = false := by
        by_contra hc
        have ha := isNonAscii_of_isContinuation (Bool.not_eq_false _ ▸ hc)
        simp [h b rfl] at ha
      cases n <;> simp [hb]
  | cons c rest ih =>
    cases n with
    | zero => rfl
    | succ n => simp only [List.cons_append, List.take_succ_cons, List.takeWhile_cons, ih]

theorem reach_append (s : Shape) (hs : 0x80 ≤ s.low) (rest tail : List UInt8)
    (h : ∀ b ∈ tail.head?, Byte.isNonAscii b = false) : s.reach (rest ++ tail) = s.reach rest := by
  cases rest with
  | nil =>
    cases tail with
    | nil => rfl
    | cons b tail =>
      have hb : ¬ s.low ≤ b := by
        intro hl
        have ha := h b rfl
        simp only [Byte.isNonAscii, decide_eq_false_iff_not] at ha
        exact ha (UInt8.le_trans hs hl)
      simp [Shape.reach, hb]
  | cons c rest => simp only [List.cons_append, Shape.reach, takeWhile_take_append _ _ _ h]

/-- The character at the head of a text does not depend on what follows an ASCII byte. -/
theorem next_append (lead : UInt8) (rest tail : List UInt8)
    (h : ∀ b ∈ tail.head?, Byte.isNonAscii b = false) : next lead (rest ++ tail) = next lead rest := by
  unfold next
  split
  · rfl
  · cases hs : shape? lead with
    | none => rfl
    | some s =>
      have hr := reach_append s (low_of_shape hs) rest tail h
      simp only [hr, List.take_append_of_le_length (reach_le s rest)]

theorem next_append_of_last (lead : UInt8) (rest tail : List UInt8)
    (h : ∃ b ∈ rest.getLast?, Byte.isNonAscii b = false) :
    next lead (rest ++ tail) = next lead rest := by
  obtain ⟨b, hm, hb⟩ := h
  obtain ⟨front, rfl⟩ := List.getLast?_eq_some_iff.1 (Option.mem_def.1 hm)
  have hone : next lead (front ++ [b]) = next lead front :=
    next_append lead front [b] (by simpa using hb)
  rw [List.append_assoc, next_append lead front ([b] ++ tail) (by simpa using hb), hone]

theorem next_ascii {b : UInt8} (hb : Byte.isNonAscii b = false) (rest : List UInt8) :
    next b rest = (some (Char.ofNat b.toNat), 0) := by
  simp only [Byte.isNonAscii, decide_eq_false_iff_not, UInt8.not_le] at hb
  simp [next, hb]

theorem units_append_of_next (front back : List UInt8)
    (h : ∀ b ∈ back.head?, Byte.isNonAscii b = false) :
    units (front ++ back) = units front ++ units back := by
  match front with
  | [] => simp [units]
  | lead :: rest =>
    have hl := next_le lead rest
    have ht : (rest.drop (next lead rest).2).length < (lead :: rest).length := by
      simp only [List.length_drop, List.length_cons]
      omega
    have ih := units_append_of_next (rest.drop (next lead rest).2) back h
    rw [List.cons_append, units, units, next_append lead rest back h,
      List.drop_append_of_le_length hl, ih, List.cons_append]
termination_by front.length

theorem units_append_of_last (front back : List UInt8)
    (h : ∀ b ∈ front.getLast?, Byte.isNonAscii b = false) :
    units (front ++ back) = units front ++ units back := by
  match front with
  | [] => simp [units]
  | [b] =>
    have hb := h b rfl
    rw [List.cons_append, units, units, next_ascii hb, next_ascii hb]
    simp [units]
  | lead :: c :: rest =>
    have hlast : ∀ b ∈ (c :: rest).getLast?, Byte.isNonAscii b = false := by
      simpa only [List.getLast?_cons_cons] using h
    have hl := next_le lead (c :: rest)
    have ht : ((c :: rest).drop (next lead (c :: rest)).2).length < (lead :: c :: rest).length := by
      simp only [List.length_drop, List.length_cons]
      omega
    have ih := units_append_of_last ((c :: rest).drop (next lead (c :: rest)).2) back (by
      intro b hb
      rw [List.getLast?_drop] at hb
      split at hb
      · cases hb
      · exact hlast b hb)
    have hn : next lead ((c :: rest) ++ back) = next lead (c :: rest) := by
      have hm := List.getLast?_cons (a := c) (l := rest)
      exact next_append_of_last lead _ back ⟨_, hm, hlast _ hm⟩
    rw [List.cons_append, units, units, hn, List.drop_append_of_le_length hl, ih, List.cons_append]
termination_by front.length

theorem units_cut {bytes : List UInt8} {k : Nat} (h : CutsAt bytes k) :
    units bytes = units (bytes.take k) ++ units (bytes.drop k) := by
  have hu : units (bytes.take k ++ bytes.drop k) = units (bytes.take k) ++ units (bytes.drop k) := by
    rcases h.2 with h | ⟨b, hm, hb⟩
    · exact units_append_of_next _ _ h
    · exact units_append_of_last _ _ fun c hc ↦ Option.mem_unique hm hc ▸ hb
  rwa [List.take_append_drop] at hu

/-- A text that is cut where it may be cut is read as its two parts are. -/
theorem lossy_cut {bytes : List UInt8} {k : Nat} (h : CutsAt bytes k) :
    lossy bytes = lossy (bytes.take k) ++ lossy (bytes.drop k) := by
  rw [lossy, units_cut h, List.map_append, String.ofList_append]
  rfl

end Utf8

end CodeStyle.Text
