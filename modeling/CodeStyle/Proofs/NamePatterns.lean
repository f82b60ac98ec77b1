import CodeStyle.Text.NameCase
import Mathlib.Computability.Language

/-!
The patterns of names. The checks of a name's case walk over it once; what they accept is described by two
regular expressions, and each check accepts exactly the words of its expression.
-/

namespace CodeStyle.Text

open Computability

/-- The words of one character of a class. -/
def oneOf (p : Char → Bool) : Language Char := {w | ∃ c, p c = true ∧ w = [c]}

/-- One or more words of a language. -/
def atLeastOne (l : Language Char) : Language Char := l * l∗

def underscore : Language Char := oneOf (· == '_')

/-- `[a-z][a-z0-9]*(_[a-z0-9]+)*` -/
def lowerSnake : Language Char :=
  oneOf Char.isLower * (oneOf isLowerOrDigit)∗ * (underscore * atLeastOne (oneOf isLowerOrDigit))∗

/-- `_*[A-Z][A-Z0-9]*(_+[A-Z0-9]+)*_*` -/
def upperSnake : Language Char :=
  underscore∗ * oneOf Char.isUpper * (oneOf isUpperOrDigit)∗ *
    (atLeastOne underscore * atLeastOne (oneOf isUpperOrDigit))∗ * underscore∗

section

variable {p q : Char → Bool} {l : Language Char} {c : Char} {w : List Char}

theorem cons_mem_oneOf_mul : c :: w ∈ oneOf p * l ↔ p c = true ∧ w ∈ l := by
  rw [Language.mem_mul]
  constructor
  · rintro ⟨_, ⟨d, hd, rfl⟩, v, hv, heq⟩
    obtain ⟨rfl, rfl⟩ := List.cons.inj heq
    exact ⟨hd, hv⟩
  · rintro ⟨hc, hw⟩
    exact ⟨[c], ⟨c, hc, rfl⟩, w, hw, rfl⟩

theorem nil_notMem_oneOf_mul : [] ∉ oneOf p * l := by
  rintro ⟨_, ⟨c, -, rfl⟩, v, -, heq⟩
  cases heq

/-- A word of characters of a class and of what follows them starts with such a character, or with what follows. -/
theorem cons_mem_kstar_mul : c :: w ∈ (oneOf p)∗ * l ↔ p c = true ∧ w ∈ (oneOf p)∗ * l ∨ c :: w ∈ l := by
  have hstep : (oneOf p)∗ * l = oneOf p * ((oneOf p)∗ * l) + l := by
    nth_rewrite 1 [← Language.one_add_self_mul_kstar_eq_kstar]
    rw [add_mul, one_mul, mul_assoc, add_comm]
  nth_rewrite 1 [hstep]
  rw [Language.mem_add, cons_mem_oneOf_mul]

theorem mem_kstar_oneOf : w ∈ (oneOf p)∗ ↔ w.all p = true := by
  induction w with
  | nil => simp [Language.nil_mem_kstar]
  | cons c w ih =>
    rw [← mul_one (oneOf p)∗, cons_mem_kstar_mul, mul_one, ih, List.all_cons, Bool.and_eq_true, Language.mem_one]
    simp

end

theorem continuesLowerSnake_iff (w : List Char) : continuesLowerSnake w = true ↔
    w ∈ (oneOf isLowerOrDigit)∗ * (underscore * atLeastOne (oneOf isLowerOrDigit))∗ := by
  obtain ⟨words, hwords⟩ : ∃ words, (underscore * atLeastOne (oneOf isLowerOrDigit))∗ = words := ⟨_, rfl⟩
  rw [hwords]
  have hnil : [] ∈ (oneOf isLowerOrDigit)∗ * words := by
    rw [← hwords]
    exact Language.append_mem_mul (Language.nil_mem_kstar _) (Language.nil_mem_kstar _)
  have hword {c : Char} {w : List Char} :
      c :: w ∈ words ↔ c = '_' ∧ w ∈ oneOf isLowerOrDigit * ((oneOf isLowerOrDigit)∗ * words) := by
    nth_rewrite 1 [← hwords]
    rw [← Language.one_add_self_mul_kstar_eq_kstar, hwords, Language.mem_add, Language.mem_one, atLeastOne, mul_assoc,
      underscore, cons_mem_oneOf_mul, mul_assoc, beq_iff_eq]
    simp
  induction w with
  | nil => exact iff_of_true rfl hnil
  | cons c w ih =>
    rw [cons_mem_kstar_mul, hword, continuesLowerSnake]
    by_cases hc : c = '_'
    · subst hc
      have hnot : isLowerOrDigit '_' = false := rfl
      simp only [beq_self_eq_true, if_true, hnot, Bool.false_eq_true, false_and, false_or, true_and]
      cases w with
      | nil => simp [nil_notMem_oneOf_mul]
      | cons d w =>
        have hrest := ih.trans cons_mem_kstar_mul
        rw [hword] at hrest
        rw [Bool.and_eq_true, hrest, cons_mem_oneOf_mul, List.head?_cons, Option.any_some]
        constructor
        · rintro ⟨hd, h | ⟨rfl, -⟩⟩
          · exact h
          · cases hd
        · exact fun h ↦ ⟨h.1, .inl h⟩
    · simp [hc, ih]

theorem isLowerSnake_iff (name : String) : isLowerSnake name = true ↔ name.toList ∈ lowerSnake := by
  rw [isLowerSnake, lowerSnake, mul_assoc]
  cases name.toList with
  | nil => exact iff_of_false Bool.false_ne_true nil_notMem_oneOf_mul
  | cons c w => rw [cons_mem_oneOf_mul, Bool.and_eq_true, continuesLowerSnake_iff]

/-- Words of two languages, cut where runs of the one start and end. -/
theorem kstar_add (b u : Language Char) : (b + u)∗ = b∗ * (atLeastOne u * atLeastOne b)∗ * u∗ := by
  have hb : b ≤ b + u := le_self_add
  have hu : u ≤ b + u := le_add_self
  apply le_antisymm
  · obtain ⟨runs, hruns⟩ : ∃ runs, atLeastOne u * atLeastOne b = runs := ⟨_, rfl⟩
    rw [hruns]
    have hwords : runs∗ * u∗ ≤ b∗ * runs∗ * u∗ := by
      nth_rewrite 1 [← one_mul runs∗]
      exact mul_le_mul' (mul_le_mul' one_le_kstar le_rfl) le_rfl
    have hrun : runs * (runs∗ * u∗) ≤ runs∗ * u∗ := by
      rw [← mul_assoc]
      exact mul_le_mul' mul_kstar_le_kstar le_rfl
    have hopens : u * atLeastOne b ≤ runs := by
      nth_rewrite 1 [← hruns, atLeastOne, ← mul_one u]
      exact mul_le_mul' (mul_le_mul' le_rfl one_le_kstar) le_rfl
    have hextends : u * runs ≤ runs := by
      rw [← hruns, atLeastOne, ← mul_assoc]
      exact mul_le_mul' (mul_le_mul' le_rfl mul_kstar_le_kstar) le_rfl
    -- one more word of `u` in front: of the end, of the first run, or before the words of `b`
    have hend : u * (runs∗ * u∗) ≤ runs∗ * u∗ := by
      nth_rewrite 1 [← Language.one_add_self_mul_kstar_eq_kstar runs]
      rw [add_mul, one_mul, mul_add]
      refine add_le ?_ ?_
      · refine mul_kstar_le_kstar.trans ?_
        nth_rewrite 1 [← one_mul u∗]
        exact mul_le_mul' one_le_kstar le_rfl
      · rw [mul_assoc, ← mul_assoc]
        exact (mul_le_mul' hextends le_rfl).trans hrun
    refine kstar_le_of_mul_le_right ?_ ?_
    · exact (one_le_mul one_le_kstar one_le_kstar).trans hwords
    · rw [add_mul]
      refine add_le ?_ ?_
      · rw [← mul_assoc, ← mul_assoc]
        exact mul_le_mul' (mul_le_mul' mul_kstar_le_kstar le_rfl) le_rfl
      · nth_rewrite 1 [← Language.one_add_self_mul_kstar_eq_kstar b]
        rw [add_mul, one_mul, add_mul, mul_add]
        refine add_le (hend.trans hwords) ?_
        rw [mul_assoc _ runs∗, ← mul_assoc u]
        exact ((mul_le_mul' hopens le_rfl).trans hrun).trans hwords
  · have hplus {l : Language Char} (hl : l ≤ b + u) : atLeastOne l ≤ (b + u)∗ := by
      rw [atLeastOne]
      exact (mul_le_mul' (hl.trans le_kstar) (kstar_mono hl)).trans (kstar_mul_kstar _).le
    have hruns : (atLeastOne u * atLeastOne b)∗ ≤ (b + u)∗ := by
      rw [← kstar_idem (b + u)]
      exact kstar_mono ((mul_le_mul' (hplus hu) (hplus hb)).trans (kstar_mul_kstar _).le)
    calc b∗ * (atLeastOne u * atLeastOne b)∗ * u∗ ≤ (b + u)∗ * (b + u)∗ * (b + u)∗ :=
          mul_le_mul' (mul_le_mul' (kstar_mono hb) hruns) (kstar_mono hu)
      _ = (b + u)∗ := by rw [kstar_mul_kstar, kstar_mul_kstar]

theorem oneOf_add (p q : Char → Bool) : oneOf p + oneOf q = oneOf fun c ↦ p c || q c := by
  ext w
  rw [Language.mem_add]
  constructor
  · rintro (⟨c, hc, rfl⟩ | ⟨c, hc, rfl⟩) <;> exact ⟨c, by simp [hc], rfl⟩
  · rintro ⟨c, hc, rfl⟩
    exact (Bool.or_eq_true_iff.1 hc).imp (fun hc ↦ ⟨c, hc, rfl⟩) fun hc ↦ ⟨c, hc, rfl⟩

theorem isUpperSnake_iff (name : String) : isUpperSnake name = true ↔ name.toList ∈ upperSnake := by
  have hpattern : upperSnake =
      underscore∗ * (oneOf Char.isUpper * (oneOf fun d ↦ isUpperOrDigit d || d == '_')∗) := by
    rw [← oneOf_add, kstar_add, upperSnake, underscore]
    simp only [mul_assoc]
  rw [hpattern, isUpperSnake, underscore]
  induction name.toList with
  | nil =>
    refine iff_of_false Bool.false_ne_true ?_
    rintro ⟨_, -, v, hv, heq⟩
    rw [(List.append_eq_nil_iff.1 heq).2] at hv
    exact nil_notMem_oneOf_mul hv
  | cons c w ih =>
    rw [cons_mem_kstar_mul, cons_mem_oneOf_mul, mem_kstar_oneOf, List.dropWhile_cons]
    by_cases hc : c = '_'
    · subst hc
      have hnot : Char.isUpper '_' = false := rfl
      simpa [hnot] using ih
    · simp [hc]

end CodeStyle.Text
