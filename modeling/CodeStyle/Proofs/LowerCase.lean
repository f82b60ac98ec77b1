import CodeStyle.Text.LetterCase
import Mathlib.Tactic.Common

/-!
Lower case is a normal form: no letter that it gives has a small letter other than itself, so that taking it twice is
taking it once.
-/

namespace CodeStyle.Text

namespace CaseRun

variable {r q : CaseRun} {n : Nat}

/-- The number of the small letter of a capital. -/
def small (r : CaseRun) (n : Nat) : Nat := (n + r.shift).toNat

def has (r : CaseRun) (n : Nat) : Bool := r.first ≤ n && n ≤ r.last && (n - r.first) % r.step == 0

/-- No small letter of `r` is a capital of `q`: they lie apart, or every other letter is a capital of `q` and the small
letters of `r` fall in between. -/
def clears (r q : CaseRun) : Bool :=
  Nat.blt (r.small r.last) q.first || Nat.blt q.last (r.small r.first) ||
    Nat.beq q.step 2 && (r.step == 2 || r.first == r.last) && Nat.beq ((r.small r.first + q.first) % 2) 1

theorem has_iff : r.has n = true ↔ r.first ≤ n ∧ n ≤ r.last ∧ (n - r.first) % r.step = 0 := by
  simp [has, and_assoc]

theorem has_small (hlow : 0 ≤ r.first + r.shift) (h : r.clears q = true) (hr : r.has n = true) :
    q.has (r.small n) = false := by
  obtain ⟨hfirst, hlast, hstep⟩ := has_iff.1 hr
  refine Bool.eq_false_iff.2 fun hq ↦ ?_
  obtain ⟨hfirst', hlast', hstep'⟩ := has_iff.1 hq
  simp only [clears, Bool.or_eq_true, Bool.and_eq_true, Nat.blt_eq, Nat.beq_eq, beq_iff_eq] at h
  unfold small at h hfirst' hlast' hstep'
  rcases h with (h | h) | ⟨⟨htwo, h | h⟩, hodd⟩
  · omega
  · omega
  · rw [h] at hstep
    rw [htwo] at hstep'
    omega
  · rw [htwo] at hstep'
    omega

end CaseRun

/-- The small letters of all runs start above zero, pass over the one capital that has two small letters, and are
capitals of no run. -/
theorem caseRuns_clear : (caseRuns.all fun r ↦ decide (0 ≤ r.first + r.shift) &&
    (Nat.blt (r.small r.last) 0x130 || Nat.blt 0x130 (r.small r.first)) && caseRuns.all r.clears) = true := by
  decide +kernel

theorem find?_small {r : CaseRun} {n : Nat} (hr : r ∈ caseRuns) (hn : r.has n = true) :
    caseRuns.find? (·.has (r.small n)) = none ∧ r.small n ≠ 0x130 := by
  have hclear := List.all_eq_true.1 caseRuns_clear r hr
  simp only [Bool.and_eq_true, Bool.or_eq_true, decide_eq_true_eq, Nat.blt_eq] at hclear
  obtain ⟨⟨hlow, hdot⟩, hclear⟩ := hclear
  constructor
  · rw [List.find?_eq_none]
    intro q hq
    simpa using CaseRun.has_small hlow (List.all_eq_true.1 hclear q hq) hn
  · obtain ⟨hfirst, hlast, -⟩ := CaseRun.has_iff.1 hn
    unfold CaseRun.small at hdot ⊢
    omega

/-- A character that lower case leaves as it is, wherever it stands. -/
structure IsSmall (c : Char) : Prop where
  not_sigma : c ≠ 'Σ'
  lower : lowerChar c = [c]

theorem lowerChar_eq (c : Char) :
    lowerChar c = if c.toNat < 0x80 then [c.toLower] else if c.toNat = 0x130 then ['i', Char.ofNat 0x307] else
      ((caseRuns.find? (·.has c.toNat)).map fun r ↦ [Char.ofNat (r.small c.toNat)]).getD [c] := by
  have hruns : caseRuns.find? (fun r ↦ r.first ≤ c.toNat && c.toNat ≤ r.last && (c.toNat - r.first) % r.step == 0) =
      caseRuns.find? (·.has c.toNat) := rfl
  simp only [lowerChar, hruns, beq_iff_eq]
  cases caseRuns.find? (·.has c.toNat) <;> rfl

theorem isSmall_of_find? {c : Char} (h : caseRuns.find? (·.has c.toNat) = none) (hdot : c.toNat ≠ 0x130) :
    IsSmall c := by
  have hascii : c.toLower = c := by
    have hnot := List.find?_eq_none.1 h ⟨0x41, 0x5A, 1, 32⟩ List.mem_cons_self
    rw [CaseRun.has_iff, Nat.mod_one] at hnot
    refine dif_neg fun hcapital ↦ hnot ⟨?_, ?_, rfl⟩
    · exact UInt32.le_iff_toNat_le.1 hcapital.1
    · exact UInt32.le_iff_toNat_le.1 hcapital.2
  constructor
  · rintro rfl
    exact absurd h (by decide +kernel)
  · rw [lowerChar_eq, if_neg hdot, h, hascii, Option.map_none, Option.getD_none, ite_self]

theorem isSmall_ascii : ∀ n < 0x80, (Char.ofNat n).toLower ≠ 'Σ' ∧
    lowerChar (Char.ofNat n).toLower = [(Char.ofNat n).toLower] := by
  decide +kernel

/-- What lower case makes of a character is small. -/
theorem isSmall_of_mem {c y : Char} (h : y ∈ lowerChar c) : IsSmall y := by
  rw [lowerChar_eq] at h
  split at h
  · rename_i hascii
    obtain ⟨hsigma, hlower⟩ := isSmall_ascii c.toNat hascii
    rw [Char.ofNat_toNat] at hsigma hlower
    rw [List.mem_singleton.1 h]
    exact ⟨hsigma, hlower⟩
  · split at h
    · have hletter : IsSmall 'i' := ⟨by decide, by decide⟩
      have hdot : IsSmall (Char.ofNat 0x307) := ⟨by decide, by decide +kernel⟩
      simp only [List.mem_cons, List.not_mem_nil, or_false] at h
      rcases h with rfl | rfl
      · exact hletter
      · exact hdot
    · rename_i hdot
      cases hrun : caseRuns.find? (·.has c.toNat) with
      | none =>
        rw [hrun] at h
        rw [List.mem_singleton.1 h]
        exact isSmall_of_find? hrun hdot
      | some r =>
        rw [hrun] at h
        rw [List.mem_singleton.1 h]
        have hhas : r.has c.toNat = true := (List.find?_eq_some_iff_append.1 hrun).1
        obtain ⟨hnone, hdot⟩ := find?_small (List.mem_of_find?_eq_some hrun) hhas
        by_cases hvalid : (r.small c.toNat).isValidChar
        · have hnat : (Char.ofNat (r.small c.toNat)).toNat = r.small c.toNat := by
            rw [Char.ofNat, dif_pos hvalid]
            rfl
          exact isSmall_of_find? (by rwa [hnat]) (by rwa [hnat])
        · rw [Char.ofNat, dif_neg hvalid]
          exact ⟨by decide, by decide⟩

theorem isSmall_of_mem_lowerFrom {before text : List Char} {y : Char} (h : y ∈ lowerFrom before text) : IsSmall y := by
  induction text generalizing before with
  | nil => cases h
  | cons c rest ih =>
    rw [lowerFrom] at h
    rcases List.mem_append.1 h with h | h
    · split at h
      · rw [List.mem_singleton.1 h]
        split
        · exact ⟨by decide, by decide⟩
        · exact ⟨by decide, by decide⟩
      · exact isSmall_of_mem h
    · exact ih h

theorem lowerFrom_eq_self {before text : List Char} (h : ∀ c ∈ text, IsSmall c) : lowerFrom before text = text := by
  induction text generalizing before with
  | nil => rfl
  | cons c rest ih =>
    rw [List.forall_mem_cons] at h
    rw [lowerFrom, if_neg (by simpa using h.1.not_sigma), h.1.lower, ih h.2, List.singleton_append]

theorem toLower_toLower (s : String) : toLower (toLower s) = toLower s := by
  rw [toLower, toLower, String.toList_ofList]
  exact congrArg String.ofList (lowerFrom_eq_self fun c hc ↦ isSmall_of_mem_lowerFrom hc)

end CodeStyle.Text
