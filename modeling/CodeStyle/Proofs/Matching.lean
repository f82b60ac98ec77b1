import CodeStyle.Pattern.Basic
import Mathlib.Data.List.Basic
import Mathlib.Tactic.Common

/-!
What a pattern can read, as a list. The readings of a pattern at a place come in the order in which they
are tried, so that the matcher takes the first one that what comes after accepts. Readings are parts of the
text alone: they know neither how much of it was passed before nor what other groups there are.
-/

namespace CodeStyle

namespace CharSet

theorem between_self (c d : Char) : (decide (c ≤ d) && decide (d ≤ c)) = (d == c) := by
  rw [Bool.eq_iff_iff]
  simp only [Bool.and_eq_true, decide_eq_true_eq, beq_iff_eq]
  exact ⟨fun h ↦ Char.le_antisymm h.2 h.1, fun h ↦ h ▸ ⟨Char.le_refl d, Char.le_refl d⟩⟩

theorem holds_ofRanges (ranges : List (Char × Char)) (c : Char) :
    (ofRanges ranges).holds c = ranges.any fun (low, high) ↦ low ≤ c && c ≤ high := by
  simp [holds, ofRanges, inRanges]

theorem holds_one (c d : Char) : (one c).holds d = (d == c) := by
  simp [holds, one, inRanges, between_self]

end CharSet

namespace Pattern

section FirstOf

variable {α β : Type} {f g : α → Option β} {l : List α}

theorem findSome?_cons_or (f : α → Option β) (a : α) (l : List α) :
    (a :: l).findSome? f = (f a).or (l.findSome? f) := by
  rw [List.findSome?_cons]
  cases f a <;> rfl

theorem findSome?_congr (h : ∀ a ∈ l, f a = g a) : l.findSome? f = l.findSome? g := by
  induction l with
  | nil => rfl
  | cons a l ih =>
    rw [findSome?_cons_or, findSome?_cons_or, h a List.mem_cons_self, ih fun b hb ↦ h b (List.mem_cons_of_mem _ hb)]

theorem findSome?_some {f : α → β} : l.findSome? (fun a ↦ some (f a)) = l.head?.map f := by
  cases l <;> rfl

theorem findSome?_filter (keep : α → Bool) :
    (l.filter keep).findSome? f = l.findSome? fun a ↦ if keep a then f a else none := by
  induction l with
  | nil => rfl
  | cons a l ih => cases h : keep a <;> simp [findSome?_cons_or, h, ih]

end FirstOf

/-- What a pattern has read: its text, and its groups with the latest first. -/
@[ext]
structure Reading where
  text : List Char
  groups : List (String × List Char)
deriving Repr, DecidableEq

namespace Reading

def nothing : Reading := ⟨[], []⟩

def append (r next : Reading) : Reading := ⟨r.text ++ next.text, next.groups ++ r.groups⟩

def lastOf (r : Reading) (last : Option Char) : Option Char := r.text.getLast?.or last

/-- Readings of what comes first, each with every reading of what is left. -/
def andThen (first : List Reading) (second : Option Char → List Char → List Reading) (last : Option Char)
    (cs : List Char) : List Reading :=
  first.flatMap fun r ↦ (second (r.lastOf last) (cs.drop r.text.length)).map r.append

variable {r a b : Reading} {last : Option Char} {cs : List Char} {rs : List Reading}

@[simp]
theorem append_nothing (r : Reading) : r.append nothing = r := by simp [append, nothing]

@[simp]
theorem nothing_append (r : Reading) : nothing.append r = r := by simp [append, nothing]

theorem append_assoc (a b c : Reading) : (a.append b).append c = a.append (b.append c) := by
  simp [append]

theorem lastOf_append (a b : Reading) (last : Option Char) :
    (a.append b).lastOf last = b.lastOf (a.lastOf last) := by
  simp [append, lastOf, Option.or_assoc]

theorem mem_andThen {f : Option Char → List Char → List Reading} :
    r ∈ andThen rs f last cs ↔
      ∃ a ∈ rs, ∃ b ∈ f (a.lastOf last) (cs.drop a.text.length), a.append b = r := by
  simp [andThen]

theorem andThen_congr {f g : Option Char → List Char → List Reading}
    (h : ∀ a ∈ rs, f (a.lastOf last) (cs.drop a.text.length) = g (a.lastOf last) (cs.drop a.text.length)) :
    andThen rs f last cs = andThen rs g last cs := by
  apply List.flatMap_congr
  intro a ha
  rw [h a ha]

theorem andThen_assoc (f g : Option Char → List Char → List Reading) :
    andThen (andThen rs f last cs) g last cs =
      andThen rs (fun last cs ↦ andThen (f last cs) g last cs) last cs := by
  simp only [andThen, List.flatMap_assoc, List.flatMap_map, List.map_flatMap, List.map_map]
  apply List.flatMap_congr
  intro a _
  apply List.flatMap_congr
  intro b _
  have hlength : (a.append b).text.length = a.text.length + b.text.length := List.length_append
  rw [lastOf_append, List.drop_drop, hlength]
  apply List.map_congr_left
  intro c _
  exact append_assoc a b c

theorem andThen_singleton (r : Reading) (f : Option Char → List Char → List Reading) :
    andThen [r] f last cs = (f (r.lastOf last) (cs.drop r.text.length)).map r.append := by
  simp [andThen]

theorem andThen_nothing (f : Option Char → List Char → List Reading) :
    andThen [nothing] f last cs = f last cs := by
  rw [andThen_singleton]
  exact (List.map_congr_left fun r _ ↦ nothing_append r).trans (List.map_id _)

theorem head?_andThen (f : Option Char → List Char → List Reading) :
    (andThen rs f last cs).head? =
      rs.findSome? fun r ↦ (f (r.lastOf last) (cs.drop r.text.length)).head?.map r.append := by
  simp [andThen, List.head?_flatMap]

theorem findSome?_andThen {α : Type} (f : Option Char → List Char → List Reading) (g : Reading → Option α) :
    (andThen rs f last cs).findSome? g =
      rs.findSome? fun a ↦ (f (a.lastOf last) (cs.drop a.text.length)).findSome? fun b ↦ g (a.append b) := by
  induction rs with
  | nil => rfl
  | cons a rs ih =>
    rw [andThen, List.flatMap_cons, List.findSome?_append, ← andThen, ih, findSome?_cons_or, List.findSome?_map]
    rfl

end Reading

open Reading

def readRepeated (step : Option Char → List Char → List Reading) (greedy : Bool) :
    Nat → Option Char → List Char → List Reading
  | 0, _, _ => [nothing]
  | fuel + 1, last, cs =>
    let again := andThen ((step last cs).filter (!·.text.isEmpty)) (readRepeated step greedy fuel) last cs
    if greedy then again ++ [nothing] else nothing :: again

/-- All that a pattern can read from a place behind `last` and before `cs`, in the order of the attempts. -/
def reads : Pattern → Option Char → List Char → List Reading
  | empty, _, _ => [nothing]
  | char set, _, cs =>
    match cs with
    | [] => []
    | c :: _ => if set.holds c then [⟨[c], []⟩] else []
  | seq p q, last, cs => andThen (p.reads last cs) q.reads last cs
  | alt p q, last, cs => p.reads last cs ++ q.reads last cs
  | star p greedy, last, cs => readRepeated p.reads greedy (cs.length + 1) last cs
  | plus p greedy, last, cs =>
    andThen (p.reads last cs) (readRepeated p.reads greedy (cs.length + 1)) last cs
  | opt p greedy, last, cs =>
    if greedy then p.reads last cs ++ [nothing] else nothing :: p.reads last cs
  | group name p, last, cs => (p.reads last cs).map fun r ↦ ⟨r.text, (name, r.text) :: r.groups⟩
  | startOfText, last, _ => if last.isNone then [nothing] else []
  | startOfLine, last, _ => if last.all (· == '\n') then [nothing] else []
  | endOfText, _, cs => if cs.isEmpty then [nothing] else []
  | endOfLine, _, cs => if cs.head?.all (· == '\n') then [nothing] else []

/-- Whether `c` ends every reading of a pattern just as the end of the text does, and the pattern does not
ask what comes before it. -/
def stops (c : Char) : Pattern → Bool
  | empty => true
  | char set => !set.holds c
  | seq p q | alt p q => p.stops c && q.stops c
  | star p _ | plus p _ | opt p _ | group _ p => p.stops c
  | endOfLine => c == '\n'
  | startOfText | startOfLine | endOfText => false

/-- Whether a pattern reads one character at least. -/
def solid : Pattern → Bool
  | char _ => true
  | seq p q => p.solid || q.solid
  | alt p q => p.solid && q.solid
  | plus p _ | group _ p => p.solid
  | _ => false

variable {p q : Pattern} {last last' : Option Char} {cs : List Char} {r : Reading}

section Repetition

variable {step : Option Char → List Char → List Reading} {greedy : Bool} {n m : Nat}

/-- What holds of no reading and stays when a step comes in front holds of all repetitions. -/
theorem readRepeated_induct {P : List Char → Reading → Prop} (hnone : ∀ cs, P cs nothing)
    (hstep : ∀ last cs, ∀ a ∈ step last cs, ∀ b, P (cs.drop a.text.length) b → P cs (a.append b))
    (h : r ∈ readRepeated step greedy n last cs) : P cs r := by
  induction n generalizing last cs r with
  | zero =>
    obtain rfl := List.mem_singleton.1 h
    exact hnone cs
  | succ n ih =>
    have h : r ∈ andThen ((step last cs).filter (!·.text.isEmpty)) (readRepeated step greedy n) last cs ∨
        r = nothing := by
      cases greedy
      · simpa [readRepeated, or_comm] using h
      · simpa [readRepeated] using h
    rcases h with h | rfl
    · obtain ⟨a, ha, b, hb, rfl⟩ := mem_andThen.1 h
      exact hstep last cs a (List.mem_filter.1 ha).1 b (ih hb)
    · exact hnone cs

theorem readRepeated_fuel (hstep : ∀ last cs, ∀ r ∈ step last cs, r.text <+: cs) (hn : cs.length < n)
    (hm : cs.length < m) : readRepeated step greedy n last cs = readRepeated step greedy m last cs := by
  induction n generalizing m last cs with
  | zero => omega
  | succ n ih =>
    obtain ⟨m, rfl⟩ : ∃ k, m = k + 1 := ⟨m - 1, by omega⟩
    have h : andThen ((step last cs).filter (!·.text.isEmpty)) (readRepeated step greedy n) last cs =
        andThen ((step last cs).filter (!·.text.isEmpty)) (readRepeated step greedy m) last cs := by
      apply andThen_congr
      intro a ha
      obtain ⟨ha, hne⟩ := List.mem_filter.1 ha
      have hle := (hstep last cs a ha).length_le
      have hpos : 0 < a.text.length := List.length_pos_iff.2 (by simpa using hne)
      apply ih <;> rw [List.length_drop] <;> omega
    simp only [readRepeated, h]

end Repetition

/-- What every reading has: it stands at the head of the text, no character that stops the pattern is in
it, and its groups are groups of the pattern. -/
structure Fits (p : Pattern) (cs : List Char) (r : Reading) : Prop where
  ahead : r.text <+: cs
  taken : ∀ c ∈ r.text, p.stops c = false
  named : ∀ g ∈ r.groups, g.1 ∈ p.groupNames

namespace Fits

theorem nothing : Fits p cs nothing := ⟨List.nil_prefix, by simp [Reading.nothing], by simp [Reading.nothing]⟩

theorem append {b : Reading} (ha : Fits p cs r) (hb : Fits p (cs.drop r.text.length) b) :
    Fits p cs (r.append b) where
  ahead := by
    obtain ⟨more, hmore⟩ := ha.ahead
    subst hmore
    have h := hb.ahead
    rw [List.drop_left] at h
    exact (List.prefix_append_right_inj _).2 h
  taken c hc := (List.mem_append.1 hc).elim (ha.taken c) (hb.taken c)
  named g hg := (List.mem_append.1 hg).elim (hb.named g) (ha.named g)

theorem mono (hr : Fits p cs r) (hstops : ∀ c, q.stops c = true → p.stops c = true)
    (hnames : p.groupNames ⊆ q.groupNames) : Fits q cs r where
  ahead := hr.ahead
  taken c hc := by
    have h := mt (hstops c)
    simp only [Bool.not_eq_true] at h
    exact h (hr.taken c hc)
  named g hg := hnames (hr.named g hg)

end Fits

theorem fits (h : r ∈ p.reads last cs) : Fits p cs r := by
  induction p generalizing last cs r with
  | empty =>
    obtain rfl := List.mem_singleton.1 h
    exact .nothing
  | char set =>
    cases cs with
    | nil => cases h
    | cons c cs =>
      rw [reads] at h
      split at h
      next hc =>
        obtain rfl := List.mem_singleton.1 h
        exact ⟨⟨cs, rfl⟩, by simpa [stops] using hc, by simp⟩
      next => cases h
  | seq p q hp hq =>
    obtain ⟨a, ha, b, hb, rfl⟩ := mem_andThen.1 h
    refine ((hp ha).mono ?_ ?_).append ((hq hb).mono ?_ ?_) <;> simp +contextual [stops, groupNames]
  | alt p q hp hq =>
    rcases List.mem_append.1 h with h | h
    · exact (hp h).mono (by simp +contextual [stops]) (by simp [groupNames])
    · exact (hq h).mono (by simp +contextual [stops]) (by simp [groupNames])
  | star p greedy hp =>
    refine readRepeated_induct (fun _ ↦ .nothing) (fun last cs a ha b hb ↦ ?_) h
    exact ((hp ha).mono (by simp [stops]) (by simp [groupNames])).append hb
  | plus p greedy hp =>
    obtain ⟨a, ha, b, hb, rfl⟩ := mem_andThen.1 h
    have hfits {last cs a} (h : a ∈ p.reads last cs) : Fits (p.plus greedy) cs a :=
      (hp h).mono (by simp [stops]) (by simp [groupNames])
    exact (hfits ha).append (readRepeated_induct (fun _ ↦ .nothing) (fun _ _ _ ha _ hb ↦ (hfits ha).append hb) hb)
  | opt p greedy hp =>
    have h : r ∈ p.reads last cs ∨ r = nothing := by
      cases greedy
      · simpa [reads, or_comm] using h
      · simpa [reads] using h
    rcases h with h | rfl
    · exact (hp h).mono (by simp [stops]) (by simp [groupNames])
    · exact .nothing
  | group name p hp =>
    obtain ⟨a, ha, rfl⟩ := List.mem_map.1 h
    refine ⟨(hp ha).ahead, (hp ha).taken, ?_⟩
    intro g hg
    rcases List.mem_cons.1 hg with rfl | hg
    · exact List.mem_cons_self
    · exact List.mem_cons_of_mem _ ((hp ha).named g hg)
  | startOfText | startOfLine | endOfText | endOfLine =>
    rw [reads] at h
    split at h
    · obtain rfl := List.mem_singleton.1 h
      exact .nothing
    · cases h

theorem text_ne_nil_of_solid (hp : p.solid = true) (h : r ∈ p.reads last cs) : r.text ≠ [] := by
  induction p generalizing last cs r with
  | char set =>
    cases cs with
    | nil => cases h
    | cons c cs =>
      rw [reads] at h
      split at h
      next =>
        obtain rfl := List.mem_singleton.1 h
        exact List.cons_ne_nil _ _
      next => cases h
  | seq p q ihp ihq =>
    obtain ⟨a, ha, b, hb, rfl⟩ := mem_andThen.1 h
    simp only [append, ne_eq, List.append_eq_nil_iff, not_and]
    intro hnil
    rcases Bool.or_eq_true_iff.1 hp with hp | hp
    · exact absurd hnil (ihp hp ha)
    · exact ihq hp hb
  | alt p q ihp ihq =>
    obtain ⟨hp, hq⟩ := Bool.and_eq_true_iff.1 hp
    exact (List.mem_append.1 h).elim (ihp hp) (ihq hq)
  | plus p greedy ih =>
    obtain ⟨a, ha, b, -, rfl⟩ := mem_andThen.1 h
    simp [append, ih hp ha]
  | group name p ih =>
    obtain ⟨a, ha, rfl⟩ := List.mem_map.1 h
    exact ih hp (r := a) ha
  | empty | star | opt | startOfText | startOfLine | endOfText | endOfLine => cases hp

theorem reads_star (p : Pattern) (greedy : Bool) (last : Option Char) (cs : List Char) :
    (p.star greedy).reads last cs =
      let again := andThen ((p.reads last cs).filter (!·.text.isEmpty)) (p.star greedy).reads last cs
      if greedy then again ++ [nothing] else nothing :: again := by
  have h : andThen ((p.reads last cs).filter (!·.text.isEmpty)) (readRepeated p.reads greedy cs.length) last cs =
      andThen ((p.reads last cs).filter (!·.text.isEmpty)) (p.star greedy).reads last cs := by
    apply andThen_congr
    intro a ha
    obtain ⟨ha, hne⟩ := List.mem_filter.1 ha
    have hle := (fits ha).ahead.length_le
    have hpos : 0 < a.text.length := List.length_pos_iff.2 (by simpa using hne)
    apply readRepeated_fuel (fun _ _ _ h ↦ (fits h).ahead) <;> simp only [List.length_drop] <;> omega
  rw [reads, readRepeated, h]

theorem reads_plus (p : Pattern) (greedy : Bool) (last : Option Char) (cs : List Char) :
    (p.plus greedy).reads last cs = andThen (p.reads last cs) (p.star greedy).reads last cs := by
  apply andThen_congr
  intro a ha
  apply readRepeated_fuel (fun _ _ _ h ↦ (fits h).ahead) <;> simp only [List.length_drop] <;> omega

theorem reads_star_append {c : Char} {more : List Char} (greedy : Bool)
    (hp : ∀ last last' cs, p.reads last (cs ++ c :: more) = p.reads last' cs) (last last' : Option Char)
    (cs : List Char) : (p.star greedy).reads last (cs ++ c :: more) = (p.star greedy).reads last' cs := by
  induction hn : cs.length using Nat.strongRecOn generalizing last last' cs with
  | ind n ih =>
    have hagain : andThen ((p.reads last (cs ++ c :: more)).filter (!·.text.isEmpty)) (p.star greedy).reads
          last (cs ++ c :: more) =
        andThen ((p.reads last' cs).filter (!·.text.isEmpty)) (p.star greedy).reads last' cs := by
      rw [hp last last']
      apply List.flatMap_congr
      intro a ha
      obtain ⟨ha, hne⟩ := List.mem_filter.1 ha
      have hle := (fits ha).ahead.length_le
      have hpos : 0 < a.text.length := List.length_pos_iff.2 (by simpa using hne)
      rw [List.drop_append_of_le_length hle, ih _ _ _ (a.lastOf last') _ rfl]
      rw [List.length_drop]
      omega
    rw [reads_star, reads_star, hagain]

/-- Where `c` stops a pattern, the pattern reads what is in front of it as if the text ended there, and it
does not matter what came before. -/
theorem reads_append {c : Char} (hp : p.stops c = true) (last last' : Option Char) (cs more : List Char) :
    p.reads last (cs ++ c :: more) = p.reads last' cs := by
  induction p generalizing last last' cs with
  | empty => rfl
  | char set =>
    cases cs with
    | nil => simp_all [reads, stops]
    | cons d cs => rfl
  | seq p q ihp ihq =>
    obtain ⟨hp, hq⟩ := Bool.and_eq_true_iff.1 hp
    rw [reads, reads, ihp hp last last']
    apply List.flatMap_congr
    intro a ha
    rw [List.drop_append_of_le_length (fits ha).ahead.length_le, ihq hq]
  | alt p q ihp ihq =>
    obtain ⟨hp, hq⟩ := Bool.and_eq_true_iff.1 hp
    rw [reads, reads, ihp hp, ihq hq]
  | star p greedy ih => exact reads_star_append greedy (ih hp) last last' cs
  | plus p greedy ih =>
    rw [reads_plus, reads_plus, ih hp last last']
    apply List.flatMap_congr
    intro a ha
    rw [List.drop_append_of_le_length (fits ha).ahead.length_le, reads_star_append greedy (ih hp)]
  | opt p greedy ih => rw [reads, reads, ih hp]
  | group name p ih => rw [reads, reads, ih hp]
  | endOfLine => cases cs <;> simp_all [reads, stops]
  | startOfText | startOfLine | endOfText => cases hp

theorem reads_of_stops {c : Char} (hp : p.stops c = true) (last last' : Option Char) (cs : List Char) :
    p.reads last cs = p.reads last' cs := by
  rw [← reads_append hp last last cs [], reads_append hp last last' cs []]

theorem mem_reads_all_cons {ps : List Pattern} :
    r ∈ (all (p :: ps)).reads last cs ↔
      ∃ a b rest, cs = a.text ++ rest ∧ a ∈ p.reads last cs ∧ b ∈ (all ps).reads (a.lastOf last) rest ∧
        r = a.append b := by
  constructor
  · intro h
    obtain ⟨a, ha, b, hb, rfl⟩ := mem_andThen.1 h
    obtain ⟨rest, hrest⟩ := (fits ha).ahead
    rw [← hrest, List.drop_left] at hb
    exact ⟨a, b, rest, hrest.symm, ha, hb, rfl⟩
  · rintro ⟨a, b, rest, rfl, ha, hb, rfl⟩
    refine mem_andThen.2 ⟨a, ha, b, ?_, rfl⟩
    rwa [List.drop_left]

theorem reads_all_append (ps qs : List Pattern) (last : Option Char) (cs : List Char) :
    (all (ps ++ qs)).reads last cs = andThen ((all ps).reads last cs) (all qs).reads last cs := by
  induction ps generalizing last cs with
  | nil => exact (andThen_nothing _).symm
  | cons p ps ih =>
    have hcons (ps : List Pattern) (last : Option Char) (cs : List Char) :
        (all (p :: ps)).reads last cs = andThen (p.reads last cs) (all ps).reads last cs := rfl
    rw [List.cons_append, hcons, hcons, andThen_assoc]
    apply andThen_congr
    intro a _
    exact ih _ _

theorem reads_all_singleton (p : Pattern) (last : Option Char) (cs : List Char) :
    (all [p]).reads last cs = p.reads last cs := by
  have h : (all [p]).reads last cs = (p.reads last cs).flatMap fun r ↦ [r.append nothing] := rfl
  rw [h]
  simp

theorem reads_literal (w : String) (last : Option Char) (cs : List Char) :
    (literal w).reads last cs = if w.toList.isPrefixOf cs then [⟨w.toList, []⟩] else [] := by
  unfold literal
  induction w.toList generalizing last cs with
  | nil => rfl
  | cons c w ih =>
    have hcons (cs : List Char) : (all ((c :: w).map fun c ↦ char (.one c))).reads last cs =
        andThen ((char (.one c)).reads last cs) (all (w.map fun c ↦ char (.one c))).reads last cs := rfl
    cases cs with
    | nil => rfl
    | cons d cs =>
      rw [hcons, reads, CharSet.holds_one, List.isPrefixOf, Bool.beq_comm]
      cases hc : c == d with
      | false => rfl
      | true =>
        obtain rfl := beq_iff_eq.1 hc
        rw [if_pos rfl, andThen_singleton, List.length_singleton, List.drop_one, List.tail_cons, ih,
          Bool.true_and]
        split <;> rfl

section OneCharacter

variable {set : CharSet} {greedy : Bool}

theorem reads_star_nil : ((char set).star greedy).reads last [] = [nothing] := by
  cases greedy <;> rfl

theorem reads_star_cons {c : Char} (hc : set.holds c = true) :
    ((char set).star greedy).reads last (c :: cs) =
      let again := (((char set).star greedy).reads (some c) cs).map (append ⟨[c], []⟩)
      if greedy then again ++ [nothing] else nothing :: again := by
  rw [reads_star]
  simp [reads, hc, andThen, lastOf]

theorem reads_star_cons_of_not {c : Char} (hc : set.holds c = false) :
    ((char set).star greedy).reads last (c :: cs) = [nothing] := by
  rw [reads_star]
  cases greedy <;> simp [reads, hc, andThen]

theorem mem_reads_star_char :
    r ∈ ((char set).star greedy).reads last cs ↔
      r.text <+: cs ∧ (∀ c ∈ r.text, set.holds c = true) ∧ r.groups = [] := by
  constructor
  · intro h
    have hr := fits h
    refine ⟨hr.ahead, fun c hc ↦ by simpa [stops] using hr.taken c hc, ?_⟩
    exact List.eq_nil_iff_forall_not_mem.2 fun g hg ↦ by simpa [groupNames] using hr.named g hg
  · obtain ⟨text, groups⟩ := r
    rintro ⟨hahead, hset, hgroups⟩
    obtain rfl : groups = [] := hgroups
    induction text generalizing last cs with
    | nil =>
      rw [reads_star]
      cases greedy <;> simp [nothing]
    | cons c text ih =>
      obtain ⟨more, rfl⟩ := hahead
      rw [List.cons_append, reads_star_cons (hset c List.mem_cons_self)]
      have h : (⟨c :: text, []⟩ : Reading) ∈
          (((char set).star greedy).reads (some c) (text ++ more)).map (append ⟨[c], []⟩) :=
        List.mem_map.2 ⟨⟨text, []⟩, ih ⟨more, rfl⟩ fun d hd ↦ hset d (List.mem_cons_of_mem _ hd), rfl⟩
      cases greedy
      · exact List.mem_cons_of_mem _ h
      · exact List.mem_append_left _ h

theorem head?_reads_star_char :
    (((char set).star true).reads last cs).head? = some ⟨cs.takeWhile set.holds, []⟩ := by
  induction cs generalizing last with
  | nil => rfl
  | cons c cs ih =>
    cases hc : set.holds c with
    | false => rw [reads_star_cons_of_not hc, List.takeWhile_cons_of_neg (by simp [hc])]; rfl
    | true =>
      rw [reads_star_cons hc, List.takeWhile_cons_of_pos hc]
      simp [ih, append]

/-- Where what comes after a greedy repetition needs all that it can read, only the longest reading counts. -/
theorem findSome?_reads_star_char {α : Type} {f : Reading → Option α}
    (hf : ∀ w c more, cs = w ++ c :: more → set.holds c = true → f ⟨w, []⟩ = none) :
    (((char set).star true).reads last cs).findSome? f = f ⟨cs.takeWhile set.holds, []⟩ := by
  induction cs generalizing last f with
  | nil => simp [reads_star_nil, nothing]
  | cons c cs ih =>
    cases hc : set.holds c with
    | false => simp [reads_star_cons_of_not hc, hc, nothing]
    | true =>
      have hnone : f nothing = none := hf [] c cs rfl hc
      have h : (((char set).star true).reads (some c) cs).findSome? (f ∘ append ⟨[c], []⟩) =
          f (append ⟨[c], []⟩ ⟨cs.takeWhile set.holds, []⟩) :=
        ih fun w d more hcs hd ↦ hf (c :: w) d more (by rw [hcs]; rfl) hd
      simp only [reads_star_cons hc, if_true, List.findSome?_append, List.findSome?_map, h, findSome?_cons_or, hnone,
        List.findSome?_nil, Option.or_none, List.takeWhile_cons_of_pos hc]
      rfl

end OneCharacter

def State.after (s : State) (r : Reading) : State :=
  ⟨r.lastOf s.last, s.rest.drop r.text.length, s.passed + r.text.length, r.groups ++ s.groups⟩

@[simp]
theorem State.after_append (s : State) (a b : Reading) : s.after (a.append b) = (s.after a).after b := by
  simp [after, append, lastOf, Option.or_assoc, Nat.add_assoc]

@[simp]
theorem State.after_nothing (s : State) : s.after nothing = s := by
  simp [after, nothing, lastOf]

theorem repeated_eq {step : Next → Next} {reads : Option Char → List Char → List Reading}
    (hstep : ∀ next s, step next s = (reads s.last s.rest).findSome? fun r ↦ next (s.after r))
    (hahead : ∀ last cs, ∀ r ∈ reads last cs, r.text <+: cs) (greedy : Bool) (next : Next) (n : Nat) (s : State) :
    repeated step greedy next n s =
      (readRepeated reads greedy n s.last s.rest).findSome? fun r ↦ next (s.after r) := by
  induction n generalizing s with
  | zero => simp [repeated, readRepeated]
  | succ n ih =>
    have hagain : (step (fun t ↦
          if t.rest.length < s.rest.length then repeated step greedy next n t else none) s) =
        (andThen ((reads s.last s.rest).filter (!·.text.isEmpty)) (readRepeated reads greedy n) s.last
          s.rest).findSome? fun r ↦ next (s.after r) := by
      rw [hstep, findSome?_andThen, findSome?_filter]
      apply findSome?_congr
      intro a ha
      have hle := (hahead _ _ a ha).length_le
      have hshort : (s.after a).rest.length < s.rest.length ↔ (!a.text.isEmpty) = true := by
        rw [State.after, List.length_drop, Bool.not_eq_true', ← Bool.not_eq_true, List.isEmpty_iff,
          ← ne_eq, ← List.length_pos_iff]
        omega
      simp only [hshort, ih, State.after_append]
      rfl
    cases greedy <;> simp [repeated, readRepeated, hagain, findSome?_cons_or]

/-- The matcher takes the first reading that what comes after accepts. -/
theorem run_eq (p : Pattern) (next : Next) (s : State) :
    p.run next s = (p.reads s.last s.rest).findSome? fun r ↦ next (s.after r) := by
  induction p generalizing next s with
  | empty => simp [run, reads]
  | char set =>
    obtain ⟨last, cs, passed, groups⟩ := s
    cases cs with
    | nil => rfl
    | cons c cs => cases hc : set.holds c <;> simp [run, reads, hc, State.after, lastOf]
  | seq p q ihp ihq =>
    rw [run, reads, findSome?_andThen, ihp]
    apply findSome?_congr
    intro a _
    simp only [ihq, State.after_append]
    rfl
  | alt p q ihp ihq => rw [run, reads, List.findSome?_append, ihp, ihq]
  | star p greedy ih => exact repeated_eq ih (fun _ _ _ h ↦ (fits h).ahead) greedy next _ s
  | plus p greedy ih =>
    rw [run, reads, findSome?_andThen, ih]
    apply findSome?_congr
    intro a _
    simp only [State.after_append]
    exact repeated_eq ih (fun _ _ _ h ↦ (fits h).ahead) greedy next _ _
  | opt p greedy ih => cases greedy <;> simp [run, reads, ih, findSome?_cons_or]
  | group name p ih =>
    rw [run, reads, List.findSome?_map, ih]
    apply findSome?_congr
    intro a ha
    have htext : s.rest.take a.text.length = a.text := (List.prefix_iff_eq_take.1 (fits ha).ahead).symm
    simp [State.after, htext, lastOf]
  | startOfText | startOfLine | endOfText | endOfLine =>
    rw [run, reads]
    split <;> simp

theorem matchAt?_eq (p : Pattern) (last : Option Char) (start : Nat) (cs : List Char) :
    p.matchAt? last start cs = (p.reads last cs).head?.map fun r ↦ ⟨start, r.text, r.groups⟩ := by
  rw [matchAt?, run_eq]
  cases h : p.reads last cs with
  | nil => rfl
  | cons r rs =>
    have htext : cs.take r.text.length = r.text :=
      (List.prefix_iff_eq_take.1 (fits (h ▸ List.mem_cons_self)).ahead).symm
    simp [State.after, htext]

/-- The first readings of a pattern in a text, from left to right and apart from one another. -/
def scan (p : Pattern) (start : Nat) : List Char → List Match
  | [] => []
  | c :: cs =>
    match (p.reads none (c :: cs)).head? with
    | none => p.scan (start + 1) cs
    | some r => ⟨start, r.text, r.groups⟩ :: p.scan (start + r.text.length) (cs.drop (r.text.length - 1))
termination_by cs => cs.length

section Scanning

variable {m : Match} {start n : Nat} {before : Option Nat} {c : Char}

theorem scan_cons_of_none (h : p.reads none (c :: cs) = []) : p.scan start (c :: cs) = p.scan (start + 1) cs := by
  simp [scan, h]

theorem scan_of_head? (hsolid : p.solid = true) (h : (p.reads none cs).head? = some r) :
    p.scan start cs = ⟨start, r.text, r.groups⟩ :: p.scan (start + r.text.length) (cs.drop r.text.length) := by
  have hr : r ∈ p.reads none cs := List.mem_of_mem_head? h
  have hpos : 0 < r.text.length := List.length_pos_iff.2 (text_ne_nil_of_solid hsolid hr)
  cases cs with
  | nil =>
    have hle := (fits hr).ahead.length_le
    simp only [List.length_nil] at hle
    omega
  | cons c cs =>
    obtain ⟨k, hk⟩ : ∃ k, r.text.length = k + 1 := ⟨r.text.length - 1, by omega⟩
    simp [scan, h, hk]

theorem reads_nil_of_solid (hsolid : p.solid = true) (last : Option Char) : p.reads last [] = [] := by
  apply List.eq_nil_iff_forall_not_mem.2
  intro r hr
  exact text_ne_nil_of_solid hsolid hr (List.prefix_nil.1 (fits hr).ahead)

/-- Lines are scanned apart from one another by a pattern that reads no line break. -/
theorem scan_line (hstops : p.stops '\n' = true) (hsolid : p.solid = true) (start : Nat) (line rest : List Char) :
    p.scan start (line ++ '\n' :: rest) = p.scan start line ++ p.scan (start + line.length + 1) rest := by
  have hreads (line : List Char) : p.reads none (line ++ '\n' :: rest) = p.reads none line :=
    reads_append hstops none none line rest
  fun_induction scan p start line with
  | case1 start => exact scan_cons_of_none ((hreads []).trans (reads_nil_of_solid hsolid none))
  | case2 start c cs hnone ih =>
    have hcons : p.reads none (c :: (cs ++ '\n' :: rest)) = [] :=
      (hreads (c :: cs)).trans (List.head?_eq_none_iff.1 hnone)
    rw [List.cons_append, scan_cons_of_none hcons, ih, List.length_cons]
    congr 2
    omega
  | case3 start c cs r hr ih =>
    have hmem := List.mem_of_mem_head? hr
    have hle : r.text.length ≤ (c :: cs).length := (fits hmem).ahead.length_le
    have hpos : 0 < r.text.length := List.length_pos_iff.2 (text_ne_nil_of_solid hsolid hmem)
    have hdrop : (c :: cs).drop r.text.length = cs.drop (r.text.length - 1) := by
      rw [← Nat.sub_add_cancel hpos, List.drop_succ_cons, Nat.add_sub_cancel]
    rw [scan_of_head? hsolid ((congrArg List.head? (hreads (c :: cs))).trans hr), List.drop_append_of_le_length hle,
      hdrop, ih, List.cons_append, ← hdrop, List.length_drop]
    congr 3
    omega

theorem stop_le_of_mem_scan (h : m ∈ p.scan start cs) : m.stop ≤ start + cs.length := by
  fun_induction scan p start cs with
  | case1 => cases h
  | case2 start c cs hnone ih =>
    have := ih h
    rw [List.length_cons]
    omega
  | case3 start c cs r hr ih =>
    have hle : r.text.length ≤ (c :: cs).length := (fits (List.mem_of_mem_head? hr)).ahead.length_le
    rw [List.length_cons] at hle ⊢
    rcases List.mem_cons.1 h with rfl | h
    · exact Nat.add_le_add_left hle start
    · have := ih h
      rw [List.length_drop] at this
      omega
theorem matchAt?_solid (hsolid : p.solid = true) (h : p.matchAt? last start cs = some m) :
    m.start = start ∧ m.text ≠ [] := by
  rw [matchAt?_eq] at h
  obtain ⟨r, hr, rfl⟩ := Option.map_eq_some_iff.1 h
  exact ⟨rfl, text_ne_nil_of_solid hsolid (List.mem_of_mem_head? hr)⟩

theorem find?_solid (hsolid : p.solid = true) (h : p.find? last start cs = some m) :
    start ≤ m.start ∧ m.text ≠ [] := by
  fun_induction find? p last start cs with
  | case1 last start =>
    obtain ⟨hstart, htext⟩ := matchAt?_solid hsolid h
    exact ⟨Nat.le_of_eq hstart.symm, htext⟩
  | case2 last start c cs m' hm =>
    obtain rfl := Option.some.inj h
    obtain ⟨hstart, htext⟩ := matchAt?_solid hsolid hm
    exact ⟨Nat.le_of_eq hstart.symm, htext⟩
  | case3 last start c cs hm ih =>
    obtain ⟨hstart, htext⟩ := ih h
    exact ⟨by omega, htext⟩

theorem matchesFrom_cons_of_none (hsolid : p.solid = true) (h : p.matchAt? last start (c :: cs) = none) :
    matchesFrom p before last start (c :: cs) (n + 1) =
      matchesFrom p before (some c) (start + 1) cs (n + 1) := by
  have hfind : p.find? last start (c :: cs) = p.find? (some c) (start + 1) cs := by rw [find?, h]
  cases hm : p.find? (some c) (start + 1) cs with
  | none => simp [matchesFrom, hfind, hm]
  | some m =>
    obtain ⟨hstart, htext⟩ := find?_solid hsolid hm
    have hpos : 0 < m.text.length := List.length_pos_iff.2 htext
    obtain ⟨k, hk⟩ : ∃ k, m.stop = start + 2 + k := ⟨m.stop - (start + 2), by unfold Match.stop; omega⟩
    have h₁ : m.stop - start = k + 2 := by omega
    have h₂ : m.stop - (start + 1) = k + 1 := by omega
    simp [matchesFrom, hfind, hm, htext, h₁, h₂]

theorem matchesFrom_eq_scan (hstops : p.stops '\n' = true) (hsolid : p.solid = true) (hn : cs.length < n) :
    matchesFrom p before last start cs n = p.scan start cs := by
  fun_induction scan p start cs generalizing before last n with
  | case1 start =>
    obtain ⟨n, rfl⟩ : ∃ k, n = k + 1 := ⟨n - 1, by omega⟩
    have hnone : p.reads last [] = [] := by
      refine List.eq_nil_iff_forall_not_mem.2 fun r hr ↦ text_ne_nil_of_solid hsolid hr ?_
      exact List.prefix_nil.1 (fits hr).ahead
    simp [matchesFrom, find?, matchAt?_eq, hnone]
  | case2 start c cs h ih =>
    obtain ⟨n, rfl⟩ : ∃ k, n = k + 1 := ⟨n - 1, by omega⟩
    rw [matchesFrom_cons_of_none hsolid, ih]
    · simp only [List.length_cons] at hn
      omega
    · rw [matchAt?_eq, reads_of_stops hstops last none, h]
      rfl
  | case3 start c cs r h ih =>
    obtain ⟨n, rfl⟩ : ∃ k, n = k + 1 := ⟨n - 1, by omega⟩
    have hr : r ∈ p.reads none (c :: cs) := List.mem_of_mem_head? h
    have htext := text_ne_nil_of_solid hsolid hr
    have hpos : 0 < r.text.length := List.length_pos_iff.2 htext
    obtain ⟨k, hk⟩ : ∃ k, r.text.length = k + 1 := ⟨r.text.length - 1, by omega⟩
    have hm : p.find? last start (c :: cs) = some ⟨start, r.text, r.groups⟩ := by
      rw [find?, matchAt?_eq, reads_of_stops hstops last none, h]
      rfl
    rw [hk, Nat.add_sub_cancel] at ih
    have hlength : (cs.drop k).length < n := by
      simp only [List.length_cons, List.length_drop] at hn ⊢
      omega
    simp [matchesFrom, hm, htext, Match.stop, hk, ih hlength]

theorem findAll_eq_scan (hstops : p.stops '\n' = true) (hsolid : p.solid = true) (text : List Char) :
    p.findAll text = p.scan 0 text :=
  matchesFrom_eq_scan hstops hsolid (by omega)

end Scanning

end Pattern

end CodeStyle
