import CodeStyle.Proofs.NamePatterns
import Mathlib

/-!
Names in small letters. The name that is suggested in place of another is in a normal form: words of small letters
and digits, joined by single underscores. Names in normal form stay as they are, and the pattern of names in small
letters describes those of them that start with a letter.
-/

namespace CodeStyle.Text

section

variable {c : Char}

theorem not_isUpper_of_isDigit (h : c.isDigit = true) : ¬c.isUpper = true := by
  have hdigit : 48 ≤ c.toNat ∧ c.toNat ≤ 57 := Char.isDigit_iff_toNat.1 h
  intro hupper
  have hupper : 65 ≤ c.toNat ∧ c.toNat ≤ 90 := of_decide_eq_true hupper
  omega

theorem not_isLower_of_isDigit (h : c.isDigit = true) : ¬c.isLower = true := by
  have hdigit : 48 ≤ c.toNat ∧ c.toNat ≤ 57 := Char.isDigit_iff_toNat.1 h
  intro hlower
  have hlower : 97 ≤ c.toNat := of_decide_eq_true (Bool.and_eq_true_iff.1 hlower).1
  omega

theorem isAlpha_iff : c.isAlpha = true ↔ c.isUpper = true ∨ c.isLower = true := Bool.or_eq_true_iff

theorem toLower_eq_underscore : c.toLower = '_' ↔ c = '_' := by
  refine ⟨fun h ↦ ?_, by rintro rfl; rfl⟩
  have halpha : ¬c.isAlpha = true := by
    rw [← Char.isLower_toLower_eq_isAlpha, h]
    exact Bool.false_ne_true
  rwa [Char.toLower_eq_of_not_isUpper fun hupper ↦ halpha (isAlpha_iff.2 (.inl hupper))] at h

theorem toUpper_eq_underscore : c.toUpper = '_' ↔ c = '_' := by
  refine ⟨fun h ↦ ?_, by rintro rfl; rfl⟩
  have halpha : ¬c.isAlpha = true := by
    rw [← Char.isUpper_toUpper_eq_isAlpha, h]
    exact Bool.false_ne_true
  rwa [Char.toUpper_eq_of_not_isLower fun hlower ↦ halpha (isAlpha_iff.2 (.inr hlower))] at h

end

/-- A name of the language: letters, digits and underscores, and no digit first. -/
def isIdentifier (name : String) : Bool :=
  match name.toList with
  | [] => false
  | c :: rest => (c.isAlpha || c == '_') && rest.all fun d ↦ d.isAlphanum || d == '_'

/-- Small letters, digits and single underscores, none of which stands at an end. -/
structure NormalForm (cs : List Char) : Prop where
  chars : ∀ c ∈ cs, c.isLower = true ∨ c.isDigit = true ∨ c = '_'
  single : cs.IsChain fun a b ↦ ¬(a = '_' ∧ b = '_')
  front : cs.head? ≠ some '_'
  back : cs.getLast? ≠ some '_'

section

variable {c : Char} {cs : List Char} {before : Option Char}

theorem not_isUpper (h : c.isLower = true ∨ c.isDigit = true ∨ c = '_') : ¬c.isUpper = true := by
  rcases h with h | h | rfl
  · exact Char.not_isUpper_of_isLower h
  · exact not_isUpper_of_isDigit h
  · exact Bool.false_ne_true

theorem snakeChar_toLower (h : (c.isAlphanum || c == '_') = true) :
    c.toLower.isLower = true ∨ c.toLower.isDigit = true ∨ c.toLower = '_' := by
  have halphanum : c.isAlphanum = (c.isAlpha || c.isDigit) := rfl
  simp only [halphanum, Bool.or_eq_true, beq_iff_eq, or_assoc] at h
  rcases h with h | h | h
  · exact .inl ((Char.isLower_toLower_eq_isAlpha c).trans h)
  · right; left
    rwa [Char.toLower_eq_of_not_isUpper (not_isUpper (.inr (.inl h)))]
  · exact .inr (.inr (toLower_eq_underscore.2 h))

theorem startsWordAt_isUpper {after : Option Char} (h : startsWordAt before c after = true) : c.isUpper = true :=
  (Bool.and_eq_true_iff.1 h).1

theorem startsWordAt_underscore (c : Char) (after : Option Char) : startsWordAt (some '_') c after = false :=
  Bool.and_false _

theorem chars_snakeFrom (h : ∀ c ∈ cs, (c.isAlphanum || c == '_') = true) (before : Option Char) :
    ∀ d ∈ snakeFrom before cs, d.isLower = true ∨ d.isDigit = true ∨ d = '_' := by
  induction cs generalizing before with
  | nil => simp [snakeFrom]
  | cons c rest ih =>
    rw [List.forall_mem_cons] at h
    have hlower := snakeChar_toLower h.1
    rw [snakeFrom]
    split
    · exact ih h.2 before
    · rw [List.forall_mem_append]
      refine ⟨?_, ih h.2 (some c)⟩
      split
      · rw [List.forall_mem_cons, List.forall_mem_singleton]
        exact ⟨.inr (.inr rfl), hlower⟩
      · rw [List.forall_mem_singleton]
        exact hlower

/-- No two underscores come one after the other, and none behind one that has been written. -/
theorem single_snakeFrom (before : Option Char) (cs : List Char) :
    (snakeFrom before cs).IsChain (fun a b ↦ ¬(a = '_' ∧ b = '_')) ∧
      (before = some '_' → (snakeFrom before cs).head? ≠ some '_') := by
  induction cs generalizing before with
  | nil => simp [snakeFrom]
  | cons c rest ih =>
    obtain ⟨hchain, hhead⟩ := ih (some c)
    -- behind a character that is written, underscores are single
    have hnext : (c.toLower :: snakeFrom (some c) rest).IsChain fun a b ↦ ¬(a = '_' ∧ b = '_') := by
      refine List.isChain_cons.2 ⟨fun b hb ⟨hc, hb'⟩ ↦ ?_, hchain⟩
      exact hhead (congrArg some (toLower_eq_underscore.1 hc)) (hb' ▸ hb)
    rw [snakeFrom]
    split
    · exact ih before
    · rename_i hskip
      split
      · rename_i hword
        refine ⟨List.isChain_cons_cons.2 ⟨fun h ↦ ?_, hnext⟩, ?_⟩
        · have hc := toLower_eq_underscore.1 h.2
          have hupper := startsWordAt_isUpper hword
          exact absurd hupper (hc ▸ Bool.false_ne_true)
        · rintro rfl
          rw [startsWordAt_underscore] at hword
          cases hword
      · refine ⟨hnext, ?_⟩
        rintro rfl hc
        exact hskip (by simpa using toLower_eq_underscore.1 (Option.some.inj hc))

/-- The first character that is no underscore is that of the name. -/
theorem find?_snakeFrom (before : Option Char) (cs : List Char) :
    (snakeFrom before cs).find? (· != '_') = (cs.find? (· != '_')).map Char.toLower := by
  induction cs generalizing before with
  | nil => rfl
  | cons c rest ih =>
    rw [snakeFrom]
    by_cases hc : c = '_'
    · subst hc
      have hword : startsWordAt before '_' rest.head? = false := rfl
      split
      · rw [ih, List.find?_cons_of_neg (by simp)]
      · rw [hword]
        exact ih (some '_')
    · have hlower : (c.toLower != '_') = true := by simpa [toLower_eq_underscore] using hc
      rw [if_neg (by simp [hc]), List.find?_cons_of_pos (by simpa using hc)]
      split <;> simp [hlower]

theorem trimUnderscores_part (cs : List Char) : trimUnderscores cs <:+: cs :=
  (List.rdropWhile_prefix _ _).isInfix.trans (List.dropWhile_suffix _).isInfix

theorem head?_trimUnderscores (cs : List Char) : (trimUnderscores cs).head? = cs.find? (· != '_') := by
  have hfind : cs.find? (· != '_') = (cs.dropWhile (· == '_')).head? := List.find?_not_eq_head?_dropWhile ..
  have htrim : trimUnderscores cs = (cs.dropWhile (· == '_')).rdropWhile (· == '_') := rfl
  have hfront := List.head?_dropWhile_not (· == '_') cs
  rw [hfind, htrim]
  cases hrest : cs.dropWhile (· == '_') with
  | nil => rw [List.rdropWhile_nil]
  | cons c rest =>
    -- the first character stops the trimming from the other end
    rw [hrest] at hfront
    change (c == '_') = false at hfront
    obtain ⟨tail, htail⟩ := List.rdropWhile_prefix (· == '_') (c :: rest)
    cases hleft : (c :: rest).rdropWhile (· == '_') with
    | nil =>
      have hall := List.rdropWhile_eq_nil_iff.1 hleft c (by simp)
      exact absurd hall (hfront ▸ Bool.false_ne_true)
    | cons d left =>
      rw [hleft, List.cons_append] at htail
      exact congrArg some (List.cons.inj htail).1

theorem getLast?_trimUnderscores (cs : List Char) : (trimUnderscores cs).getLast? ≠ some '_' := by
  intro hlast
  have hne : trimUnderscores cs ≠ [] := fun hnil ↦ by simp [hnil] at hlast
  rw [List.getLast?_eq_some_getLast hne] at hlast
  exact List.rdropWhile_last_not _ _ hne (beq_iff_eq.2 (Option.some.inj hlast))

theorem trimUnderscores_eq_self (hfront : cs.head? ≠ some '_') (hback : cs.getLast? ≠ some '_') :
    trimUnderscores cs = cs := by
  have htrim : trimUnderscores cs = (cs.dropWhile (· == '_')).rdropWhile (· == '_') := rfl
  have hdrop : cs.dropWhile (· == '_') = cs := by
    cases cs with
    | nil => rfl
    | cons c rest => exact List.dropWhile_cons_of_neg (by simpa using hfront)
  rw [htrim, hdrop, List.rdropWhile_eq_self_iff]
  intro hne hlast
  rw [List.getLast?_eq_some_getLast hne] at hback
  exact hback (congrArg some (by simpa using hlast))

/-- What has no capitals and no two underscores side by side stays as it is. -/
theorem snakeFrom_eq_self (hchars : ∀ c ∈ cs, c.isLower = true ∨ c.isDigit = true ∨ c = '_')
    (hsingle : cs.IsChain fun a b ↦ ¬(a = '_' ∧ b = '_')) (hbefore : before = some '_' → cs.head? ≠ some '_') :
    snakeFrom before cs = cs := by
  induction cs generalizing before with
  | nil => rfl
  | cons c rest ih =>
    rw [List.forall_mem_cons] at hchars
    rw [List.isChain_cons] at hsingle
    have hupper := not_isUpper hchars.1
    have hword : startsWordAt before c rest.head? = false := by
      rw [Bool.eq_false_iff]
      exact fun h ↦ hupper (startsWordAt_isUpper h)
    have hrest := ih hchars.2 hsingle.2 fun hc hrest ↦ hsingle.1 '_' hrest ⟨Option.some.inj hc, rfl⟩
    rw [snakeFrom, if_neg, hword, hrest, Char.toLower_eq_of_not_isUpper hupper]
    · rfl
    · simp only [Bool.and_eq_true, beq_iff_eq]
      rintro ⟨rfl, hb⟩
      exact hbefore hb rfl

/-- The check of the case accepts behind the first character what a normal form may have there. -/
theorem continuesLowerSnake_iff_normal : continuesLowerSnake cs = true ↔
    (∀ c ∈ cs, c.isLower = true ∨ c.isDigit = true ∨ c = '_') ∧
      cs.IsChain (fun a b ↦ ¬(a = '_' ∧ b = '_')) ∧ cs.getLast? ≠ some '_' := by
  induction cs with
  | nil => simp [continuesLowerSnake]
  | cons c rest ih =>
    rw [continuesLowerSnake, List.forall_mem_cons, List.isChain_cons]
    by_cases hc : c = '_'
    · subst hc
      cases rest with
      | nil => simp
      | cons d rest =>
        rw [if_pos (beq_self_eq_true _), Bool.and_eq_true, ih, List.head?_cons, Option.any_some,
          List.getLast?_cons_cons]
        constructor
        · rintro ⟨hd, hchars, hchain, hlast⟩
          refine ⟨⟨.inr (.inr rfl), hchars⟩, ⟨fun b hb hboth ↦ ?_, hchain⟩, hlast⟩
          obtain rfl : d = '_' := (Option.some.inj hb).trans hboth.2
          cases hd
        · rintro ⟨⟨-, hchars⟩, ⟨hnext, hchain⟩, hlast⟩
          refine ⟨?_, hchars, hchain, hlast⟩
          rw [isLowerOrDigit, Bool.or_eq_true]
          rcases hchars d (by simp) with h | h | rfl
          · exact .inl h
          · exact .inr h
          · exact absurd ⟨rfl, rfl⟩ (hnext '_' rfl)
    · have hlast : (c :: rest).getLast? ≠ some '_' ↔ rest.getLast? ≠ some '_' := by
        cases rest <;> simp [hc]
      rw [if_neg (by simpa using hc), Bool.and_eq_true, ih, hlast, isLowerOrDigit, Bool.or_eq_true]
      simp [hc, and_assoc]

end

section

variable {name : String}

theorem isLowerSnake_iff_normal : isLowerSnake name = true ↔
    NormalForm name.toList ∧ name.toList.head?.any Char.isLower = true := by
  rw [isLowerSnake]
  cases name.toList with
  | nil => simp
  | cons c rest =>
    rw [Bool.and_eq_true, List.head?_cons, Option.any_some, and_comm]
    refine and_congr_left fun hc ↦ ?_
    have hne : c ≠ '_' := by
      rintro rfl
      cases hc
    have hrest : continuesLowerSnake (c :: rest) = continuesLowerSnake rest := by
      rw [continuesLowerSnake, if_neg (by simpa using hne), isLowerOrDigit, hc]
      rfl
    rw [← hrest, continuesLowerSnake_iff_normal]
    constructor
    · rintro ⟨hchars, hsingle, hback⟩
      exact ⟨hchars, hsingle, by simpa using hne, hback⟩
    · exact fun h ↦ ⟨h.chars, h.single, h.back⟩

/-- In capitals, a name in normal form has the pattern of capitals if it starts with a letter. -/
theorem isUpperSnake_iff_normal (h : NormalForm name.toList) :
    isUpperSnake (name.map Char.toUpper) = true ↔ name.toList.head?.any Char.isLower = true := by
  rw [isUpperSnake, String.toList_map]
  cases hname : name.toList with
  | nil => simp
  | cons c rest =>
    rw [hname] at h
    obtain ⟨hc, hrest⟩ := List.forall_mem_cons.1 h.chars
    have hne : ¬c = '_' := by simpa using h.front
    have hall : ((rest.map Char.toUpper).all fun d ↦ isUpperOrDigit d || d == '_') = true := by
      rw [List.all_map, List.all_eq_true]
      intro d hd
      rw [Function.comp_apply, isUpperOrDigit, Bool.or_eq_true, Bool.or_eq_true, beq_iff_eq,
        Char.isUpper_toUpper_eq_isAlpha, isAlpha_iff, toUpper_eq_underscore]
      rcases hrest d hd with hlower | hdigit | hline
      · exact .inl (.inl (.inr hlower))
      · rw [Char.toUpper_eq_of_not_isLower (not_isLower_of_isDigit hdigit)]
        exact .inl (.inr hdigit)
      · exact .inr hline
    rw [List.map_cons, List.dropWhile_cons_of_neg (by simpa [toUpper_eq_underscore] using hne)]
    dsimp only
    rw [hall, Bool.and_true, Char.isUpper_toUpper_eq_isAlpha, isAlpha_iff, List.head?_cons, Option.any_some]
    exact or_iff_right (not_isUpper hc)

theorem normalForm_toSnake (h : isIdentifier name = true) : NormalForm (toSnake name).toList := by
  have hchars : ∀ c ∈ name.toList, (c.isAlphanum || c == '_') = true := by
    rw [isIdentifier] at h
    cases hname : name.toList with
    | nil => simp
    | cons c rest =>
      rw [hname, Bool.and_eq_true, List.all_eq_true] at h
      refine List.forall_mem_cons.2 ⟨?_, h.2⟩
      have halphanum : c.isAlphanum = (c.isAlpha || c.isDigit) := rfl
      rw [halphanum, Bool.or_right_comm, h.1, Bool.true_or]
  have hpart := trimUnderscores_part (snakeFrom none name.toList)
  have hsingle := List.IsChain.infix (single_snakeFrom none name.toList).1 hpart
  rw [toSnake, String.toList_ofList]
  refine ⟨fun c hc ↦ chars_snakeFrom hchars none c (hpart.subset hc), hsingle, ?_, getLast?_trimUnderscores _⟩
  rw [head?_trimUnderscores]
  intro hfind
  have hne := List.find?_some hfind
  cases hne

theorem toSnake_eq_self (h : NormalForm name.toList) : toSnake name = name := by
  rw [toSnake, snakeFrom_eq_self h.chars h.single (by simp), trimUnderscores_eq_self h.front h.back,
    String.ofList_toList]

theorem head?_toSnake (name : String) :
    (toSnake name).toList.head?.any Char.isLower = (name.toList.find? (· != '_')).any Char.isAlpha := by
  rw [toSnake, String.toList_ofList, head?_trimUnderscores, find?_snakeFrom, Option.any_map, Bool.eq_iff_iff]
  simp only [Option.any_eq_true, Char.isLower_toLower_eq_isAlpha]

/-- The name that is suggested for an identifier is in normal form. It has the pattern of names in small letters, and
in capitals that of names in capitals, exactly if the first character of the identifier that is no underscore is a
letter. Names of the pattern stay as they are, and so do suggested names. -/
theorem toSnake_normal (h : isIdentifier name = true) :
    NormalForm (toSnake name).toList ∧
      [(name.toList.find? (· != '_')).any Char.isAlpha = true,
        (toSnake name).toList ∈ lowerSnake, isLowerSnake (toSnake name) = true,
        (toUpperSnake name).toList ∈ upperSnake, isUpperSnake (toUpperSnake name) = true].TFAE ∧
      (name.toList ∈ lowerSnake → toSnake name = name) ∧ toSnake (toSnake name) = toSnake name := by
  have hnormal := normalForm_toSnake h
  refine ⟨hnormal, ?_, fun hname ↦ ?_, toSnake_eq_self hnormal⟩
  · tfae_have 3 ↔ 1 := by
      rw [isLowerSnake_iff_normal, head?_toSnake]
      exact and_iff_right hnormal
    tfae_have 5 ↔ 1 := by
      rw [toUpperSnake, isUpperSnake_iff_normal hnormal, head?_toSnake]
    tfae_have 3 ↔ 2 := isLowerSnake_iff _
    tfae_have 5 ↔ 4 := isUpperSnake_iff _
    tfae_finish
  · exact toSnake_eq_self (isLowerSnake_iff_normal.1 ((isLowerSnake_iff name).2 hname)).1

/-- Acronyms, digits and runs of underscores. -/
theorem toSnake_normal_acronym :
    ∃ name, name = "__HTTPServer2Go__x9_" ∧ isIdentifier name = true ∧ toSnake name = "http_server2_go_x9" ∧
      NormalForm (toSnake name).toList ∧
      [(name.toList.find? (· != '_')).any Char.isAlpha = true,
        (toSnake name).toList ∈ lowerSnake, isLowerSnake (toSnake name) = true,
        (toUpperSnake name).toList ∈ upperSnake, isUpperSnake (toUpperSnake name) = true].TFAE ∧
      (name.toList ∈ lowerSnake → toSnake name = name) ∧ toSnake (toSnake name) = toSnake name := by
  have h : isIdentifier "__HTTPServer2Go__x9_" = true := by decide +kernel
  exact ⟨_, rfl, h, by decide +kernel, toSnake_normal h⟩

end

end CodeStyle.Text
