import Mathlib.Data.List.TakeWhile
import Mathlib.Tactic.Conv
import CodeStyle.Checker

/-!
What a check gives when it is cancelled. Cancelling is not taken back, so if any answer that a check gets is
yes, then so is the last one. A check with such answers gives no report at all, or the report that it gives
when nobody cancels it.
-/

namespace CodeStyle

/-- No answer to a check of this many rules is yes unless the last one is. -/
structure Polls.Settled (polls : Polls) (rules : Nat) : Prop where
  start : polls.start = true → polls.finish = true
  before : ∀ k < rules, polls.before k = true → polls.finish = true
  inside : ∀ k < rules, ∀ j, polls.inside k j = true → polls.finish = true

theorem Polls.constant_settled (cancelled : Bool) (rules : Nat) : (constant cancelled).Settled rules :=
  ⟨id, fun _ _ ↦ id, fun _ _ _ ↦ id⟩

namespace Checker

variable {c : Checker} {polls : Polls} {source : Source}

theorem evaluated_settled (h : polls.Settled c.book.evaluators.length) (hfinish : polls.finish = false) :
    c.evaluated polls = c.book.evaluators.zipIdx := by
  unfold evaluated
  split
  · rfl
  · refine List.takeWhile_eq_self_iff.2 ?_
    rintro ⟨e, k⟩ hk
    have hlt : k < c.book.evaluators.length := by simpa using List.snd_lt_of_mem_zipIdx hk
    cases hbefore : polls.before k with
    | false => simp [hbefore]
    | true =>
      rw [h.before k hlt hbefore] at hfinish
      cases hfinish

theorem outcomes_settled (h : polls.Settled c.book.evaluators.length) (hfinish : polls.finish = false)
    (file : Analysis) :
    c.outcomes polls file = c.book.evaluators.map fun e ↦ (e, outcome e { file, limits := c.limits }) := by
  rw [outcomes, evaluated_settled h hfinish]
  conv_rhs => rw [← List.zipIdx_map_fst 0 c.book.evaluators, List.map_map]
  refine List.map_congr_left ?_
  rintro ⟨e, k⟩ hk
  have hlt : k < c.book.evaluators.length := by simpa using List.snd_lt_of_mem_zipIdx hk
  have hinside : polls.inside k = fun _ ↦ false := by
    funext j
    cases hj : polls.inside k j with
    | false => rfl
    | true =>
      rw [h.inside k hlt j hj] at hfinish
      cases hfinish
  simp only [hinside, Function.comp_apply]

theorem outcomes_uncancelled (c : Checker) (file : Analysis) :
    c.outcomes (.constant false) file =
      c.book.evaluators.map fun e ↦ (e, outcome e { file, limits := c.limits }) :=
  outcomes_settled (Polls.constant_settled false _) rfl file

/-- The same checks, with the rules of a file one after the other. -/
def sequential (c : Checker) : Checker := { c with parallelRules := false }

/-- A check whose last answer is yes gives nothing; any other gives what it gives when nobody cancels it. -/
theorem checkPolled_settled (h : polls.Settled c.book.evaluators.length) (source : Source) :
    (c.checkPolled polls source).1 = if polls.finish then none else (c.sequential.check false source).1 := by
  cases hfinish : polls.finish with
  | true =>
    unfold checkPolled
    split <;> simp [hfinish]
  | false =>
    have hstart : polls.start = false := by
      cases hstart : polls.start with
      | false => rfl
      | true => exact (h.start hstart).symm.trans hfinish
    have houtcomes : c.outcomes polls (Analysis.of source) =
        c.sequential.outcomes (.constant false) (Analysis.of source) := by
      rw [outcomes_settled h hfinish, outcomes_uncancelled]
      rfl
    simp only [checkPolled, hstart, hfinish, houtcomes]
    rfl

/-- A check that gives a report is not cancelled by a rule. -/
theorem check_snd {report : FileReport} (h : (c.check false source).1 = some report) :
    (c.check false source).2 = false := by
  have hcheck : (c.check false source).1 =
      if (c.check false source).2 then none
      else some (c.report source (c.outcomes (.constant false) (Analysis.of source))) := rfl
  cases hcancels : (c.check false source).2 with
  | false => rfl
  | true =>
    rw [hcheck, hcancels] at h
    cases h

theorem checkAll_uncancelled {sources : List Source} (h : ∀ s ∈ sources, (c.check false s).2 = false) :
    c.checkAll false sources = (sources.map fun s ↦ (c.check false s).1, false) := by
  induction sources with
  | nil => rfl
  | cons s sources ih =>
    have hcons : c.checkAll false (s :: sources) =
        ((c.check false s).1 :: (c.checkAll (c.check false s).2 sources).1,
          (c.checkAll (c.check false s).2 sources).2) := rfl
    rw [hcons, h s List.mem_cons_self, ih fun s' hs' ↦ h s' (List.mem_cons_of_mem _ hs')]
    rfl

end Checker

end CodeStyle
