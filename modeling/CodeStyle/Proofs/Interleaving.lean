import Mathlib.Algebra.GroupWithZero.Nat
import CodeStyle.Proofs.Cancellation

/-!
Runs that check files, and the rules of a file, side by side and in any order. All of them look at one flag
that says whether the run is cancelled; it may be raised at any moment and is never lowered. A check looks at
it for the last time after its rules have ended, and reports nothing if it is up.
-/

namespace CodeStyle

theorem sum_set_lt {α : Type} {f : α → Nat} {l : List α} {i : Nat} {x y : α} (hi : l[i]? = some x)
    (hlt : f y < f x) : ((l.set i y).map f).sum < (l.map f).sum := by
  induction l generalizing i with
  | nil => cases hi
  | cons z l ih =>
    cases i with
    | zero =>
      cases hi
      simpa using hlt
    | succ i => simpa using ih (by simpa using hi)

theorem map_set_eq {α β : Type} {f : α → β} {l : List α} {i : Nat} {x y : α} (hi : l[i]? = some x)
    (hf : f y = f x) : (l.set i y).map f = l.map f := by
  obtain ⟨hlt, rfl⟩ := List.getElem?_eq_some_iff.1 hi
  rw [List.map_set, hf, ← List.getElem_map f, List.set_getElem_self]
  simpa using hlt

theorem filterMap_sublist {α β : Type} {f g : α → Option β} {l : List α}
    (h : ∀ x ∈ l, f x = none ∨ f x = g x) : (l.filterMap f).Sublist (l.filterMap g) := by
  induction l with
  | nil => exact .slnil
  | cons x l ih =>
    have hrest := ih fun y hy ↦ h y (List.mem_cons_of_mem _ hy)
    rcases h x List.mem_cons_self with hx | hx
    · rw [List.filterMap_cons_none hx]
      exact hrest.trans ((List.sublist_cons_self x l).filterMap g)
    · cases hg : g x with
      | none => rwa [List.filterMap_cons_none (hx.trans hg), List.filterMap_cons_none hg]
      | some y =>
        rw [List.filterMap_cons_some (hx.trans hg), List.filterMap_cons_some hg]
        exact hrest.cons_cons y

theorem takeWhile_zipIdx {α : Type} (l : List α) (n m : Nat) :
    (l.zipIdx m).takeWhile (fun (_, k) ↦ !decide (m + n ≤ k)) = (l.take n).zipIdx m := by
  induction l generalizing n m with
  | nil => simp
  | cons x l ih =>
    cases n with
    | zero => simp
    | succ n =>
      have hshift : m + (n + 1) = m + 1 + n := by omega
      have hfirst : ¬ m + 1 + n ≤ m := by omega
      simp [List.zipIdx_cons, hshift, hfirst, ih n (m + 1)]

namespace Checker

/-- A rule at work on a file, with what it has been told each time it asked. -/
inductive Task where
  | running (told : List Bool)
  | ended (told : Nat → Bool)

namespace Task

def isEnded : Task → Bool
  | running _ => false
  | ended _ => true

def told : Task → Nat → Bool
  | running told => fun j ↦ told.getD j false
  | ended told => told

def remaining : Task → Nat
  | running _ => 1
  | ended _ => 0

/-- A running rule asks once, or does all that is left of it at once. -/
def turn (ends cancelled : Bool) : Task → Task
  | running told => if ends then ended fun j ↦ told.getD j cancelled else running (told ++ [cancelled])
  | ended told => ended told

theorem told_turn {t : Task} {ends cancelled : Bool} {j : Nat} (h : (t.turn ends cancelled).told j = true) :
    t.told j = true ∨ cancelled = true := by
  cases t with
  | ended told => exact .inl h
  | running told =>
    cases ends with
    | true =>
      cases hj : told[j]? with
      | none => exact .inr (by simpa [turn, Task.told, hj] using h)
      | some answer => exact .inl (by simpa [turn, Task.told, hj] using h)
    | false =>
      rcases Nat.lt_trichotomy j told.length with hj | rfl | hj
      · exact .inl (by simpa [turn, Task.told, List.getElem?_append_left hj] using h)
      · exact .inr (by simpa [turn, Task.told] using h)
      · have hnone : (told ++ [cancelled])[j]? = none := by
          rw [List.getElem?_eq_none_iff, List.length_append]
          exact hj
        simp [turn, Task.told, hnone] at h

end Task

/-- What a rule says of a file after all that it has been told. -/
def said (c : Checker) (file : Analysis) (p : RuleEntry × Task) : RuleEntry × Outcome :=
  (p.1, outcome p.1 { file, limits := c.limits, cancelled := p.2.told })

/-- Whether the run is cancelled after this turn of a rule. -/
def raised (c : Checker) (file : Analysis) (cancelled : Bool) (p : RuleEntry × Task) : Bool :=
  cancelled || p.2.isEnded && (c.said file p).2.cancels

/-- The check of a file, with the rules that have begun and those that are left. -/
inductive Work where
  | waiting
  | running (tasks : List (RuleEntry × Task)) (rest : List RuleEntry)
  | done (polls : Polls) (result : Option FileReport)

inductive Act where
  /-- The check itself starts, goes on to the next rule, or ends. -/
  | advance
  /-- The rule with this number has its turn. -/
  | rule (k : Nat) (ends : Bool)

namespace Work

/-- The answers that a check got in all, if these rules have begun. -/
def answers (tasks : List (RuleEntry × Task)) (cancelled : Bool) : Polls where
  start := false
  -- a check that never stopped has begun all rules, and was not asked behind the last
  before k := decide (tasks.length ≤ k)
  inside k j := tasks[k]?.any (·.2.told j)
  finish := cancelled

def advance (c : Checker) (source : Source) (cancelled : Bool) : Work → Work
  | waiting =>
    if cancelled then done (.constant true) none
    else if c.parallelRules then running (c.book.evaluators.map (·, .running [])) []
    else running [] c.book.evaluators
  | running tasks rest =>
    if tasks.all (·.2.isEnded) then
      match rest with
      | e :: rest => if cancelled then running tasks [] else running (tasks ++ [(e, .running [])]) rest
      | [] =>
        done (answers tasks cancelled)
          (if cancelled then none else some (c.report source (tasks.map (c.said (Analysis.of source)))))
    else running tasks rest
  | done polls result => done polls result

/-- Whether the run is cancelled after an act of this check, and what is left of the check. -/
def step (c : Checker) (source : Source) (cancelled : Bool) (w : Work) : Act → Bool × Work
  | .advance => (cancelled, w.advance c source cancelled)
  | .rule k ends =>
    match w with
    | running tasks rest =>
      match tasks[k]? with
      | some (e, t) =>
        let p := (e, t.turn ends cancelled)
        (c.raised (Analysis.of source) cancelled p, running (tasks.set k p) rest)
      | none => (cancelled, w)
    | _ => (cancelled, w)

end Work

variable {c : Checker} {source : Source} {file : Analysis} {cancelled : Bool}
  {tasks : List (RuleEntry × Task)} {rest : List RuleEntry}

/-- What holds of a check at each moment: the rules begin in their order, only a cancelled check leaves some
of them out, and whatever was told or done about cancelling shows in the flag. -/
structure Underway (c : Checker) (file : Analysis) (cancelled : Bool) (tasks : List (RuleEntry × Task))
    (rest : List RuleEntry) : Prop where
  order : tasks.map Prod.fst ++ rest <+: c.book.evaluators
  whole : cancelled = false → tasks.map Prod.fst ++ rest = c.book.evaluators
  side : c.parallelRules = true → tasks.map Prod.fst = c.book.evaluators
  told : ∀ p ∈ tasks, ∀ j, p.2.told j = true → cancelled = true
  cancels : ∀ p ∈ tasks, p.2.isEnded = true → (c.said file p).2.cancels = true → cancelled = true

namespace Underway

theorem mono {cancelled' : Bool} (h : c.Underway file cancelled tasks rest)
    (hup : cancelled = true → cancelled' = true) : c.Underway file cancelled' tasks rest where
  order := h.order
  whole hdown := h.whole (by cases cancelled <;> simp_all)
  side := h.side
  told p hp j hj := hup (h.told p hp j hj)
  cancels p hp hended hcancels := hup (h.cancels p hp hended hcancels)

theorem evaluated (h : c.Underway file cancelled tasks []) :
    c.evaluated (Work.answers tasks cancelled) = (tasks.map Prod.fst).zipIdx := by
  unfold Checker.evaluated
  split
  · rename_i hside
    rw [h.side hside]
  · have horder : tasks.map Prod.fst <+: c.book.evaluators := by simpa using h.order
    have htake : c.book.evaluators.take tasks.length = tasks.map Prod.fst := by
      simpa using (List.prefix_iff_eq_take.1 horder).symm
    rw [← htake, ← takeWhile_zipIdx c.book.evaluators tasks.length 0, Nat.zero_add]
    rfl

theorem outcomes (h : c.Underway file cancelled tasks []) :
    c.outcomes (Work.answers tasks cancelled) file = tasks.map (c.said file) := by
  rw [Checker.outcomes, h.evaluated, List.zipIdx_map, List.map_map]
  conv_rhs => rw [← List.zipIdx_map_fst 0 tasks, List.map_map]
  refine List.map_congr_left ?_
  rintro ⟨⟨e, t⟩, k⟩ hk
  have hget : tasks[k]? = some (e, t) := List.mem_zipIdx_iff_getElem?.1 hk
  have hinside : (Work.answers tasks cancelled).inside k = t.told := by
    funext j
    simp [Work.answers, hget]
  simp only [Function.comp_apply, Prod.map_apply, id, hinside, said]

theorem answers_settled (h : c.Underway file cancelled tasks []) :
    (Work.answers tasks cancelled).Settled c.book.evaluators.length where
  start hstart := by cases hstart
  before k hk hbefore := by
    cases cancelled with
    | true => rfl
    | false =>
      have hlength := congrArg List.length (h.whole rfl)
      have hle : tasks.length ≤ k := of_decide_eq_true hbefore
      simp only [List.append_nil, List.length_map] at hlength
      omega
  inside k _ j hinside := by
    obtain ⟨p, hp, hj⟩ := (Option.any_eq_true _ _).1 hinside
    exact h.told p (List.mem_of_getElem? hp) j hj

/-- A check whose rules have ended gives what it gives with the answers that it got. -/
theorem checkPolled (h : c.Underway (Analysis.of source) cancelled tasks [])
    (hended : tasks.all (·.2.isEnded) = true) :
    (c.checkPolled (Work.answers tasks cancelled) source).1 =
      if cancelled then none else some (c.report source (tasks.map (c.said (Analysis.of source)))) := by
  have hcheck : (c.checkPolled (Work.answers tasks cancelled) source).1 =
      if cancelled || (tasks.map (c.said (Analysis.of source))).any (·.2.cancels) then none
      else some (c.report source (tasks.map (c.said (Analysis.of source)))) := by
    rw [← h.outcomes]
    rfl
  rw [hcheck]
  cases cancelled with
  | true => rfl
  | false =>
    have hcancels : (tasks.map (c.said (Analysis.of source))).any (·.2.cancels) = false := by
      rw [List.any_map, List.any_eq_false]
      intro p hp hcancels
      cases h.cancels p hp (List.all_eq_true.1 hended p hp) hcancels
    rw [hcancels]
    rfl

theorem startAtOnce (c : Checker) (file : Analysis) :
    c.Underway file false (c.book.evaluators.map (·, .running [])) [] := by
  have hentries : (c.book.evaluators.map ((·, Task.running []) : RuleEntry → RuleEntry × Task)).map Prod.fst =
      c.book.evaluators := by
    rw [List.map_map]
    exact List.map_id' _
  have hwhole := (List.append_nil _).trans hentries
  constructor
  case order => exact ⟨[], (List.append_nil _).trans hwhole⟩
  case whole => exact fun _ ↦ hwhole
  case side => exact fun _ ↦ hentries
  case told =>
    intro p hp j hj
    obtain ⟨e, -, rfl⟩ := List.mem_map.1 hp
    simp [Task.told] at hj
  case cancels =>
    intro p hp hended
    obtain ⟨e, -, rfl⟩ := List.mem_map.1 hp
    cases hended

theorem startInOrder (hside : c.parallelRules = false) (file : Analysis) :
    c.Underway file false [] c.book.evaluators where
  order := List.prefix_rfl
  whole _ := rfl
  side h := by rw [hside] at h; cases h
  told p hp := by cases hp
  cancels p hp := by cases hp

theorem turn {k : Nat} {e : RuleEntry} {t : Task} (h : c.Underway file cancelled tasks rest)
    (hk : tasks[k]? = some (e, t)) (ends : Bool) :
    c.Underway file (c.raised file cancelled (e, t.turn ends cancelled))
      (tasks.set k (e, t.turn ends cancelled)) rest := by
  have hup : c.Underway file (c.raised file cancelled (e, t.turn ends cancelled)) tasks rest :=
    h.mono fun hc ↦ by simp [raised, hc]
  have hentries : (tasks.set k (e, t.turn ends cancelled)).map Prod.fst = tasks.map Prod.fst :=
    map_set_eq hk rfl
  constructor
  case order => rw [hentries]; exact hup.order
  case whole => rw [hentries]; exact hup.whole
  case side => rw [hentries]; exact hup.side
  case told =>
    intro p hp j hj
    rcases List.mem_or_eq_of_mem_set hp with hp | rfl
    · exact hup.told p hp j hj
    · rcases Task.told_turn hj with hj | hc
      · exact hup.told (e, t) (List.mem_of_getElem? hk) j hj
      · simp [raised, hc]
  case cancels =>
    intro p hp hended hcancels
    rcases List.mem_or_eq_of_mem_set hp with hp | rfl
    · exact hup.cancels p hp hended hcancels
    · simp [raised, hended, hcancels]

theorem next {e : RuleEntry} (h : c.Underway file cancelled tasks (e :: rest)) :
    c.Underway file cancelled (tasks ++ [(e, .running [])]) rest := by
  have hentries : (tasks ++ [(e, Task.running [])]).map Prod.fst ++ rest =
      tasks.map Prod.fst ++ e :: rest := by
    simp
  constructor
  case order => rw [hentries]; exact h.order
  case whole => rw [hentries]; exact h.whole
  case side =>
    intro hside
    have hlength := h.order.length_le
    rw [h.side hside, List.length_append, List.length_cons] at hlength
    omega
  case told =>
    intro p hp j hj
    rcases List.mem_append.1 hp with hp | hp
    · exact h.told p hp j hj
    · cases List.mem_singleton.1 hp
      simp [Task.told] at hj
  case cancels =>
    intro p hp hended hcancels
    rcases List.mem_append.1 hp with hp | hp
    · exact h.cancels p hp hended hcancels
    · cases List.mem_singleton.1 hp
      cases hended

theorem stop (h : c.Underway file true tasks rest) : c.Underway file true tasks [] where
  order := by
    rw [List.append_nil]
    exact (List.prefix_append _ rest).trans h.order
  whole hdown := by cases hdown
  side := h.side
  told := h.told
  cancels := h.cancels

end Underway

/-- What holds of a check that is done: it gave what these answers make of it. -/
structure Finished (c : Checker) (source : Source) (cancelled : Bool) (polls : Polls)
    (result : Option FileReport) : Prop where
  settled : polls.Settled c.book.evaluators.length
  given : result = (c.checkPolled polls source).1
  refused : result = none ↔ polls.finish = true
  shown : polls.finish = true → cancelled = true

theorem Underway.finish (h : c.Underway (Analysis.of source) cancelled tasks [])
    (hended : tasks.all (·.2.isEnded) = true) :
    c.Finished source cancelled (Work.answers tasks cancelled)
      (if cancelled then none else some (c.report source (tasks.map (c.said (Analysis.of source))))) where
  settled := h.answers_settled
  given := (h.checkPolled hended).symm
  refused := by cases cancelled <;> simp [Work.answers]
  shown := id

namespace Work

variable {w : Work} {a : Act}

def Sound (c : Checker) (source : Source) (cancelled : Bool) : Work → Prop
  | waiting => True
  | running tasks rest => c.Underway (Analysis.of source) cancelled tasks rest
  | done polls result => c.Finished source cancelled polls result

theorem Sound.mono {cancelled' : Bool} (h : w.Sound c source cancelled)
    (hup : cancelled = true → cancelled' = true) : w.Sound c source cancelled' := by
  cases w with
  | waiting => trivial
  | running tasks rest => exact Underway.mono h hup
  | done polls result => exact { h with shown := fun hfinish ↦ hup (h.shown hfinish) }

theorem Sound.advance (h : w.Sound c source cancelled) :
    (w.advance c source cancelled).Sound c source cancelled := by
  cases w with
  | done polls result => exact h
  | waiting =>
    rw [Work.advance]
    cases cancelled with
    | true => exact ⟨Polls.constant_settled true _, rfl, ⟨fun _ ↦ rfl, fun _ ↦ rfl⟩, id⟩
    | false =>
      cases hside : c.parallelRules with
      | true => exact Underway.startAtOnce c _
      | false => exact Underway.startInOrder hside _
  | running tasks rest =>
    cases rest with
    | cons e rest =>
      rw [Work.advance]
      split
      · cases cancelled with
        | true => exact Underway.stop h
        | false => exact Underway.next h
      · exact h
    | nil =>
      rw [Work.advance]
      split
      · rename_i hended
        exact Underway.finish h hended
      · exact h

theorem step_cancelled (w : Work) (a : Act) : (w.step c source true a).1 = true := by
  unfold step
  split
  · rfl
  · split
    · split <;> rfl
    · rfl

theorem Sound.step (h : w.Sound c source cancelled) (a : Act) :
    (w.step c source cancelled a).2.Sound c source (w.step c source cancelled a).1 := by
  cases a with
  | advance => exact h.advance
  | rule k ends =>
    cases w with
    | waiting => exact h
    | done polls result => exact h
    | running tasks rest =>
      unfold Work.step
      dsimp only
      split
      · rename_i e t hk
        exact Underway.turn h hk ends
      · exact h

def isDone : Work → Bool
  | done _ _ => true
  | _ => false

def result? : Work → Option FileReport
  | done _ result => result
  | _ => none

/-- A check gives nothing, which it does in the end only if the run is cancelled, or what it gives when nobody
cancels it. -/
theorem Sound.result (h : w.Sound c source cancelled) :
    w.result? = none ∧ (w.isDone = true → cancelled = true) ∨
      ∃ report, w.result? = some report ∧ (c.sequential.check false source).1 = some report := by
  cases w with
  | waiting => exact .inl ⟨rfl, nofun⟩
  | running tasks rest => exact .inl ⟨rfl, nofun⟩
  | done polls result =>
    cases result with
    | none => exact .inl ⟨rfl, fun _ ↦ h.shown (h.refused.1 rfl)⟩
    | some report =>
      have hfinish : polls.finish = false := by
        cases hfinish : polls.finish with
        | false => rfl
        | true => cases h.refused.2 hfinish
      refine .inr ⟨report, rfl, ?_⟩
      rw [h.given, checkPolled_settled h.settled, hfinish]
      rfl

/-- A bound on the acts that it takes to end a check. -/
def remaining (c : Checker) : Work → Nat
  | waiting => 2 + 2 * c.book.evaluators.length
  | running tasks rest => 1 + (tasks.map (·.2.remaining)).sum + 2 * rest.length
  | done _ _ => 0

theorem advance_waiting (c : Checker) (source : Source) (cancelled : Bool) :
    (waiting.advance c source cancelled).remaining c < waiting.remaining c := by
  rw [advance]
  cases cancelled with
  | true =>
    rw [if_pos rfl]
    simp only [remaining]
    omega
  | false =>
    cases c.parallelRules with
    | true =>
      have hsum : ((c.book.evaluators.map (·, Task.running [])).map (·.2.remaining)).sum =
          c.book.evaluators.length := by
        simp only [List.map_map, Function.comp_def, Task.remaining, List.map_const', List.sum_replicate_nat,
          Nat.mul_one]
      simp only [remaining, Bool.false_eq_true, if_false, if_true, hsum, List.length_nil]
      omega
    | false => simp [remaining]

theorem advance_ended (hended : tasks.all (·.2.isEnded) = true) (source : Source) (cancelled : Bool) :
    ((running tasks rest).advance c source cancelled).remaining c < (running tasks rest).remaining c := by
  cases rest with
  | nil =>
    rw [advance, if_pos hended]
    simp only [remaining]
    omega
  | cons e rest =>
    rw [advance, if_pos hended]
    cases cancelled with
    | true => simp [remaining]
    | false =>
      simp [remaining, Task.remaining]
      omega

/-- A check that is not done can be brought nearer to its end. -/
theorem exists_step (hw : w.isDone = false) (source : Source) (cancelled : Bool) :
    ∃ a, (w.step c source cancelled a).2.remaining c < w.remaining c := by
  cases w with
  | done polls result => cases hw
  | waiting => exact ⟨.advance, advance_waiting c source cancelled⟩
  | running tasks rest =>
    by_cases hended : tasks.all (·.2.isEnded) = true
    · exact ⟨.advance, advance_ended hended source cancelled⟩
    · simp only [List.all_eq_true, not_forall] at hended
      obtain ⟨⟨e, t⟩, hp, hrunning⟩ := hended
      obtain ⟨k, hk⟩ := List.getElem?_of_mem hp
      refine ⟨.rule k true, ?_⟩
      cases t with
      | ended told => exact absurd rfl hrunning
      | running told =>
        have hlt : ((tasks.set k (e, (Task.running told).turn true cancelled)).map (·.2.remaining)).sum <
            (tasks.map (·.2.remaining)).sum := sum_set_lt hk Nat.zero_lt_one
        simp only [step, hk, remaining]
        omega

end Work

/-- A run over files. -/
structure RunState where
  cancelled : Bool
  works : List (Source × Work)

inductive Event where
  | cancel
  /-- The check of the file with this number acts. -/
  | act (i : Nat) (a : Act)

namespace RunState

variable {p : RunState} {sources : List Source}

def initial (sources : List Source) : RunState := ⟨false, sources.map (·, .waiting)⟩

def step (c : Checker) (p : RunState) : Event → RunState
  | .cancel => { p with cancelled := true }
  | .act i a =>
    match p.works[i]? with
    | some (source, w) =>
      let (cancelled, w) := w.step c source p.cancelled a
      ⟨cancelled, p.works.set i (source, w)⟩
    | none => p

/-- A run after events in this order; those that cannot happen do nothing. -/
def after (c : Checker) (p : RunState) (events : List Event) : RunState := events.foldl (step c) p

/-- The report of a run, once all its files are done. -/
def report (p : RunState) : Option RunReport :=
  if p.works.all (·.2.isDone) then some (runReport (p.works.map (·.2.result?)) p.cancelled) else none

structure Sound (c : Checker) (sources : List Source) (p : RunState) : Prop where
  sources : p.works.map Prod.fst = sources
  works : ∀ x ∈ p.works, x.2.Sound c x.1 p.cancelled

theorem initial_sound (c : Checker) (sources : List Source) : (initial sources).Sound c sources where
  sources := by
    rw [initial, List.map_map]
    exact List.map_id' _
  works x hx := by
    obtain ⟨source, -, rfl⟩ := List.mem_map.1 hx
    trivial

theorem step_act {i : Nat} {w : Work} (hi : p.works[i]? = some (source, w)) (a : Act) :
    p.step c (.act i a) = ⟨(w.step c source p.cancelled a).1,
      p.works.set i (source, (w.step c source p.cancelled a).2)⟩ := by
  simp only [step, hi]

theorem Sound.step (h : p.Sound c sources) (event : Event) : (p.step c event).Sound c sources := by
  cases event with
  | cancel => exact ⟨h.sources, fun x hx ↦ (h.works x hx).mono fun _ ↦ rfl⟩
  | act i a =>
    cases hi : p.works[i]? with
    | none =>
      have hsame : p.step c (.act i a) = p := by simp only [RunState.step, hi]
      rwa [hsame]
    | some x =>
      obtain ⟨source, w⟩ := x
      rw [step_act hi]
      constructor
      case sources =>
        rw [← h.sources]
        exact map_set_eq hi rfl
      case works =>
        intro x hx
        rcases List.mem_or_eq_of_mem_set hx with hx | rfl
        · refine (h.works x hx).mono fun hc ↦ ?_
          dsimp only
          rw [hc]
          exact Work.step_cancelled w a
        · exact (h.works (source, w) (List.mem_of_getElem? hi)).step a

theorem Sound.after (h : p.Sound c sources) (events : List Event) : (p.after c events).Sound c sources := by
  induction events generalizing p with
  | nil => exact h
  | cons event events ih => exact ih (h.step event)

/-- Every run can be brought to its end without cancelling it. -/
theorem exists_finish (c : Checker) (p : RunState) :
    ∃ events, .cancel ∉ events ∧ (p.after c events).works.all (·.2.isDone) = true := by
  -- by induction on the number of acts that are left
  induction hn : (p.works.map (·.2.remaining c)).sum using Nat.strong_induction_on generalizing p with
  | _ n ih =>
    by_cases hdone : p.works.all (·.2.isDone) = true
    · exact ⟨[], List.not_mem_nil, hdone⟩
    · simp only [List.all_eq_true, not_forall] at hdone
      obtain ⟨⟨source, w⟩, hw, hopen⟩ := hdone
      obtain ⟨i, hi⟩ := List.getElem?_of_mem hw
      obtain ⟨a, ha⟩ := Work.exists_step (c := c) (Bool.eq_false_iff.2 hopen) source p.cancelled
      have hlt : ((p.step c (.act i a)).works.map (·.2.remaining c)).sum < n := by
        rw [step_act hi, ← hn]
        exact sum_set_lt hi ha
      obtain ⟨events, hcancel, hdone⟩ := ih _ hlt (p.step c (.act i a)) rfl
      refine ⟨.act i a :: events, ?_, hdone⟩
      simpa using hcancel

theorem report_eq_some {r : RunReport} : p.report = some r ↔
    p.works.all (·.2.isDone) = true ∧ runReport (p.works.map (·.2.result?)) p.cancelled = r := by
  unfold report
  cases p.works.all (·.2.isDone) with
  | true => simp
  | false => simp

theorem Sound.files (h : p.Sound c sources) :
    ((p.works.map (·.2.result?)).filterMap id).Sublist
      (sources.filterMap fun s ↦ (c.sequential.check false s).1) := by
  rw [← h.sources, List.filterMap_map, List.filterMap_map]
  refine filterMap_sublist fun x hx ↦ ?_
  rcases (h.works x hx).result with ⟨hnone, -⟩ | ⟨report, hresult, hcheck⟩
  · exact .inl hnone
  · exact .inr (hresult.trans hcheck.symm)

theorem Sound.uncancelled (h : p.Sound c sources) (hdone : p.works.all (·.2.isDone) = true)
    (hcancelled : p.cancelled = false) :
    runReport (p.works.map (·.2.result?)) p.cancelled = c.sequential.run false sources := by
  have hall : ∀ x ∈ p.works, ∃ report, x.2.result? = some report ∧
      (c.sequential.check false x.1).1 = some report := by
    intro x hx
    rcases (h.works x hx).result with ⟨-, hup⟩ | hreport
    · rw [hup (List.all_eq_true.1 hdone x hx)] at hcancelled
      cases hcancelled
    · exact hreport
  have hresults : p.works.map (·.2.result?) = sources.map fun s ↦ (c.sequential.check false s).1 := by
    rw [← h.sources, List.map_map]
    refine List.map_congr_left fun x hx ↦ ?_
    obtain ⟨report, hresult, hcheck⟩ := hall x hx
    exact hresult.trans hcheck.symm
  have hrun : c.sequential.checkAll false sources =
      (sources.map fun s ↦ (c.sequential.check false s).1, false) := by
    refine checkAll_uncancelled fun s hs ↦ ?_
    rw [← h.sources] at hs
    obtain ⟨x, hx, rfl⟩ := List.mem_map.1 hs
    obtain ⟨report, -, hcheck⟩ := hall x hx
    exact check_snd hcheck
  rw [run, hrun, hresults, hcancelled]

end RunState

theorem runReport_count (results : List (Option FileReport)) (cancelled : Bool) :
    (runReport results cancelled).summary.filesAnalyzed +
      (runReport results cancelled).summary.filesCancelled = results.length := by
  have hle := List.length_filterMap_le id results
  simp only [runReport, Summary.of]
  omega

/-- In whatever order files and their rules are checked, and whenever the run is cancelled, a file that is
done gave what its check gives with the answers that it got: nothing, and then the run is cancelled, or what
it gives when nobody cancels it. The reports of a run are some of those that it has when nobody cancels it,
in the same order, and all of them if nobody does. Every run can come to its end. -/
theorem cancelled_all_or_nothing (c : Checker) (sources : List Source) (events : List Event) :
    let p := (RunState.initial sources).after c events
    (∀ source polls result, (source, Work.done polls result) ∈ p.works →
      result = (c.checkPolled polls source).1 ∧
      (result = none ∧ p.cancelled = true ∨
        ∃ report, result = some report ∧ (c.sequential.check false source).1 = some report)) ∧
    (∀ report, p.report = some report →
      report.files.Sublist (sources.filterMap fun s ↦ (c.sequential.check false s).1) ∧
      report.summary.filesAnalyzed + report.summary.filesCancelled = sources.length ∧
      (p.cancelled = false → report = c.sequential.run false sources)) ∧
    ∃ more, .cancel ∉ more ∧ (p.after c more).report.isSome = true := by
  intro p
  have hp : p.Sound c sources := (RunState.initial_sound c sources).after events
  refine ⟨fun source polls result hmem ↦ ?_, fun report hreport ↦ ?_, ?_⟩
  · have hdone : (Work.done polls result).Sound c source p.cancelled := hp.works _ hmem
    refine ⟨hdone.given, ?_⟩
    rcases hdone.result with ⟨hnone, hup⟩ | hreport
    · exact .inl ⟨hnone, hup rfl⟩
    · exact .inr hreport
  · obtain ⟨hdone, rfl⟩ := RunState.report_eq_some.1 hreport
    refine ⟨hp.files, ?_, hp.uncancelled hdone⟩
    rw [runReport_count, List.length_map, ← hp.sources, List.length_map]
  · obtain ⟨more, hmore, hdone⟩ := RunState.exists_finish c p
    exact ⟨more, hmore, by rw [RunState.report_eq_some.2 ⟨hdone, rfl⟩]; rfl⟩

/-- Two files side by side: one is done when the run is cancelled, and the rule of the other is still at
work. -/
theorem cancelled_all_or_nothing_tabs :
    ∃ c sources events report,
      c = { book := .ofRules (Rule.builtin.filter (·.id == "WHITESPACE.TAB")), parallelRules := true } ∧
      sources = [⟨"a.c", [9]⟩, ⟨"b.c", [9]⟩] ∧
      events = [.act 0 .advance, .act 1 .advance, .act 1 (.rule 0 false), .act 0 (.rule 0 true),
        .act 0 .advance, .cancel, .act 1 (.rule 0 true), .act 1 .advance] ∧
      ((RunState.initial sources).after c events).report = some report ∧
      report.summary.filesAnalyzed = 1 ∧ report.summary.filesCancelled = 1 ∧
      report.files.Sublist (sources.filterMap fun s ↦ (c.sequential.check false s).1) := by
  obtain ⟨c, hc⟩ : ∃ c : Checker, c =
    { book := .ofRules (Rule.builtin.filter (·.id == "WHITESPACE.TAB")), parallelRules := true } := ⟨_, rfl⟩
  obtain ⟨sources, hsources⟩ : ∃ sources : List Source, sources = [⟨"a.c", [9]⟩, ⟨"b.c", [9]⟩] := ⟨_, rfl⟩
  obtain ⟨events, hevents⟩ : ∃ events : List Event, events =
    [.act 0 .advance, .act 1 .advance, .act 1 (.rule 0 false), .act 0 (.rule 0 true), .act 0 .advance, .cancel,
      .act 1 (.rule 0 true), .act 1 .advance] := ⟨_, rfl⟩
  have hcounts : (((RunState.initial sources).after c events).report.map
      fun r ↦ (r.summary.filesAnalyzed, r.summary.filesCancelled)) = some (1, 1) := by
    subst hc hsources hevents
    decide +kernel
  obtain ⟨report, hreport, hpair⟩ := Option.map_eq_some_iff.1 hcounts
  obtain ⟨hanalyzed, hcancelled⟩ := Prod.mk.inj hpair
  obtain ⟨-, hreports, -⟩ := cancelled_all_or_nothing c sources events
  exact ⟨c, sources, events, report, hc, hsources, hevents, hreport, hanalyzed, hcancelled,
    (hreports report hreport).1⟩

end Checker

end CodeStyle
