import CodeStyle.Token.Focus
import Mathlib.Tactic.Common

/-!
Tokens in focus. A focus knows its place among the tokens of the file and the tokens around it.
-/

namespace CodeStyle.Focus

/-- The tokens in focus are those of a file from the `i`-th on. -/
def Consecutive (i : Nat) (region : List Focus) : Prop :=
  ∀ (k : Nat) (f : Focus), region[k]? = some f → f.index = i + k

namespace Consecutive

variable {i : Nat} {f : Focus} {region rest : List Focus}

theorem head (h : Consecutive i (f :: rest)) : f.index = i := h 0 f rfl

theorem drop (h : Consecutive i region) (n : Nat) : Consecutive (i + n) (region.drop n) := by
  intro k f hf
  rw [List.getElem?_drop] at hf
  rw [h _ f hf, Nat.add_assoc]

theorem tail (h : Consecutive i (f :: rest)) : Consecutive (i + 1) rest := h.drop 1

theorem take (h : Consecutive i region) (n : Nat) : Consecutive i (region.take n) := by
  intro k f hf
  rw [List.getElem?_take] at hf
  split at hf
  · exact h k f hf
  · cases hf

end Consecutive

theorem fromIndex_consecutive (i : Nat) (before tokens : List Token) :
    Consecutive i (fromIndex i before tokens) := by
  induction tokens generalizing i before with
  | nil => simp [Consecutive, fromIndex]
  | cons t tokens ih =>
    intro k f hf
    cases k with
    | zero =>
      cases hf
      rfl
    | succ k =>
      rw [fromIndex, List.getElem?_cons_succ] at hf
      rw [ih _ _ k f hf, Nat.add_right_comm, Nat.add_assoc]

theorem map_token_fromIndex (i : Nat) (before tokens : List Token) :
    (fromIndex i before tokens).map Focus.token = tokens := by
  induction tokens generalizing i before with
  | nil => rfl
  | cons t tokens ih => rw [fromIndex, List.map_cons, ih]

theorem map_token_all (tokens : List Token) : (all tokens).map Focus.token = tokens :=
  map_token_fromIndex 0 [] tokens

theorem token_mem {tokens : List Token} {f : Focus} (h : f ∈ all tokens) : f.token ∈ tokens := by
  have := List.mem_map_of_mem (f := Focus.token) h
  rwa [map_token_all] at this

theorem length_all (tokens : List Token) : (all tokens).length = tokens.length := by
  rw [← List.length_map (f := Focus.token), map_token_all]

theorem all_consecutive (tokens : List Token) : Consecutive 0 (all tokens) :=
  fromIndex_consecutive 0 [] tokens

theorem mem_fromIndex {i : Nat} {before tokens : List Token} {f : Focus}
    (h : f ∈ fromIndex i before tokens) :
    before.reverse ++ tokens = f.before.reverse ++ f.token :: f.after := by
  induction tokens generalizing i before with
  | nil => cases h
  | cons t tokens ih =>
    rcases List.mem_cons.1 h with rfl | h
    · rfl
    · rw [← ih h]
      simp

theorem mem_all {tokens : List Token} {f : Focus} (h : f ∈ all tokens) :
    tokens = f.before.reverse ++ f.token :: f.after :=
  mem_fromIndex h

theorem before_mem {tokens : List Token} {f : Focus} (h : f ∈ all tokens) : ∀ t ∈ f.before, t ∈ tokens := by
  intro t ht
  rw [mem_all h]
  exact List.mem_append_left _ (List.mem_reverse.2 ht)

end CodeStyle.Focus
