import CodeStyle.Config.Validation
import CodeStyle.Proofs.LowerCase
import CodeStyle.Proofs.RuleIndependence

/-!
The rules of a configuration. A configuration that is valid gives a checker, and the checker has all built-in rules in
their order, each as the configuration sets it or else as it is by itself. A configuration that sets a rule wrongly is
refused for the first rule that it sets so.
-/

namespace CodeStyle

namespace Severity

/-- The words for a severity. -/
def words : Severity → List String
  | error => ["error"]
  | warning => ["warning", "warn"]
  | info => ["info"]

variable {s : Severity} {w word : String}

theorem ofName?_iff : ofName? w = some s ↔ w = s.name := by
  constructor
  · intro h
    exact (beq_iff_eq.1 (List.find?_eq_some_iff_append.1 h).1).symm
  · rintro rfl
    cases s <;> rfl

theorem parse?_iff : parse? word = some s ↔ Text.toLower word ∈ s.words := by
  unfold parse?
  generalize Text.toLower word = w
  by_cases hwarn : w = "warn"
  · subst hwarn
    cases s <;> decide
  · rw [if_neg (by simpa using hwarn), ofName?_iff]
    cases s <;> simp [words, name, hwarn]

end Severity

namespace RuleSetting

variable {word : String} {s : Severity}

/-- No word both sets a rule off and names a severity. -/
theorem notMem_offWords : ∀ w ∈ s.words, w ∉ offWords := by
  cases s <;> decide

theorem parse?_eq (word : String) :
    parse? word = if Text.toLower word ∈ offWords then some off else (Severity.parse? word).map level := by
  simp only [parse?, Severity.parse?, Text.toLower_toLower, List.contains_iff_mem]

theorem parse?_off_iff : parse? word = some off ↔ Text.toLower word ∈ offWords := by
  rw [parse?_eq]
  split
  · simp [*]
  · cases Severity.parse? word <;> simp [*]

theorem parse?_level_iff : parse? word = some (level s) ↔ Text.toLower word ∈ s.words := by
  rw [parse?_eq, ← Severity.parse?_iff]
  split
  · rename_i hoff
    have hnot : Severity.parse? word ≠ some s := fun h ↦ notMem_offWords _ (Severity.parse?_iff.1 h) hoff
    simp [hnot]
  · simp

theorem parse?_eq_none_iff :
    parse? word = none ↔ Text.toLower word ∉ offWords ∧ ∀ s : Severity, Text.toLower word ∉ s.words := by
  simp only [← parse?_off_iff, ← parse?_level_iff, Option.eq_none_iff_forall_ne_some]
  constructor
  · exact fun h ↦ ⟨h _, fun s ↦ h _⟩
  · rintro ⟨hoff, hlevel⟩ (_ | s)
    · exact hoff
    · exact hlevel s

end RuleSetting

namespace RuleValue

/-- The value sets a rule off. -/
def IsOff : RuleValue → Prop
  | enabled on => on = false
  | setting word => Text.toLower word ∈ RuleSetting.offWords

/-- The value sets a rule on with the severity `s`, where `usual` is the one that the rule has by itself. -/
def Sets (usual s : Severity) : RuleValue → Prop
  | enabled on => on = true ∧ s = usual
  | setting word => Text.toLower word ∈ s.words

theorem not_isOff_of_sets {usual s : Severity} {value : RuleValue} (h : value.Sets usual s) : ¬value.IsOff := by
  cases value with
  | enabled on => simp [IsOff, h.1]
  | setting word => exact RuleSetting.notMem_offWords _ h

end RuleValue

namespace Config

variable {id : String} {value : RuleValue} {setting : RuleSetting} {e : ConfigError}
  {rules : List (String × RuleValue)} {settings : List (String × RuleSetting)}

/-- What is wrong with the value that is given to a rule: there is no such rule, or else the value is a word for no
setting. -/
inductive Refused : String → RuleValue → ConfigError → Prop where
  | unknown {id : String} (value : RuleValue) (hid : id ∉ Rule.builtin.map Rule.id) : Refused id value (.unknownRule id)
  | word {id word : String} (hid : id ∈ Rule.builtin.map Rule.id) (hoff : ¬(RuleValue.setting word).IsOff)
      (hlevel : ∀ usual s, ¬(RuleValue.setting word).Sets usual s) :
      Refused id (.setting word) (.invalidSetting id word)

theorem settingOf_builtin {rule : Rule} (hr : rule ∈ Rule.builtin) :
    settingOf rule.id value = .ok setting ↔
      setting = .off ∧ value.IsOff ∨ ∃ s, setting = .level s ∧ value.Sets rule.severity s := by
  rw [settingOf, find?_of_nodup Rule.ids_nodup hr]
  cases value with
  | enabled on => cases on <;> simp [RuleValue.IsOff, RuleValue.Sets, eq_comm]
  | setting word =>
    dsimp only
    cases setting with
    | off =>
      have hoff := @RuleSetting.parse?_off_iff word
      cases hparse : RuleSetting.parse? word <;> simp_all [RuleValue.IsOff]
    | level s =>
      have hlevel := @RuleSetting.parse?_level_iff word s
      cases hparse : RuleSetting.parse? word <;> simp_all [RuleValue.Sets]

theorem settingOf_error_iff : settingOf id value = .error e ↔ Refused id value e := by
  by_cases hid : id ∈ Rule.builtin.map Rule.id
  · obtain ⟨rule, hr, rfl⟩ := List.mem_map.1 hid
    rw [settingOf, find?_of_nodup Rule.ids_nodup hr]
    cases value with
    | enabled on =>
      have hnot : ¬Refused rule.id (.enabled on) e := by
        rintro ⟨-, hid'⟩
        exact hid' hid
      cases on <;> simp [hnot]
    | setting word =>
      have hword : Refused rule.id (.setting word) e ↔
          RuleSetting.parse? word = none ∧ e = .invalidSetting rule.id word := by
        rw [RuleSetting.parse?_eq_none_iff]
        constructor
        · rintro (⟨-, hid'⟩ | ⟨-, hoff, hlevel⟩)
          · exact absurd hid hid'
          · exact ⟨⟨hoff, hlevel .info⟩, rfl⟩
        · rintro ⟨⟨hoff, hlevel⟩, rfl⟩
          exact .word hid hoff fun _ ↦ hlevel
      rw [hword]
      dsimp only
      cases RuleSetting.parse? word <;> simp [eq_comm]
  · have hnone : Rule.builtin.find? (·.id == id) = none := by
      rw [List.find?_eq_none]
      intro rule hr he
      exact hid (beq_iff_eq.1 he ▸ List.mem_map_of_mem hr)
    rw [settingOf, hnone]
    constructor
    · rintro ⟨⟩
      exact .unknown value hid
    · rintro (- | ⟨hid', -, -⟩)
      · rfl
      · exact absurd hid' hid

theorem settingsOf_mem (h : settingsOf rules = .ok settings) (hmem : (id, value) ∈ rules) :
    ∃ setting, settingOf id value = .ok setting ∧ (id, setting) ∈ settings := by
  induction rules generalizing settings with
  | nil => cases hmem
  | cons p rules ih =>
    obtain ⟨first, rest, hfirst, hrest, rfl⟩ := settingsOf_cons.1 h
    rcases List.mem_cons.1 hmem with rfl | hmem
    · exact ⟨first, hfirst, List.mem_cons_self⟩
    · obtain ⟨setting, hsetting, hin⟩ := ih hrest hmem
      exact ⟨setting, hsetting, List.mem_cons_of_mem _ hin⟩

theorem settingsOf_keys (h : settingsOf rules = .ok settings) : settings.map Prod.fst = rules.map Prod.fst := by
  induction rules generalizing settings with
  | nil =>
    cases h
    rfl
  | cons p rules ih =>
    obtain ⟨first, rest, -, hrest, rfl⟩ := settingsOf_cons.1 h
    rw [List.map_cons, List.map_cons, ih hrest]

/-- Settings are refused for the first bad one. -/
theorem settingsOf_error (h : settingsOf rules = .error e) :
    ∃ before id value after, rules = before ++ (id, value) :: after ∧ Refused id value e ∧
      ∀ p ∈ before, ∀ e', ¬Refused p.1 p.2 e' := by
  induction rules with
  | nil => cases h
  | cons p rules ih =>
    rw [settingsOf] at h
    cases hfirst : settingOf p.1 p.2 with
    | error e' =>
      rw [hfirst] at h
      cases h
      exact ⟨[], p.1, p.2, rules, rfl, settingOf_error_iff.1 hfirst, by simp⟩
    | ok first =>
      have hrest : settingsOf rules = .error e := by
        rw [hfirst] at h
        cases hrest : settingsOf rules with
        | error e' =>
          rw [hrest] at h
          cases h
          rfl
        | ok rest =>
          rw [hrest] at h
          cases h
      obtain ⟨before, id, value, after, rfl, hbad, hgood⟩ := ih hrest
      refine ⟨p :: before, id, value, after, rfl, hbad, List.forall_mem_cons.2 ⟨fun e' hp ↦ ?_, hgood⟩⟩
      rw [settingOf_error_iff.2 hp] at hfirst
      cases hfirst

/-- The rules stand in the order of their ids, each once. Those of a configuration that is read do
(`Reading.config?_ordered`). -/
def Ordered (c : Config) : Prop := (c.rules.map Prod.fst).Pairwise (· < ·)

instance (c : Config) : Decidable c.Ordered := inferInstanceAs (Decidable ((c.rules.map Prod.fst).Pairwise (· < ·)))

theorem Ordered.nodup {c : Config} (h : c.Ordered) : (c.rules.map Prod.fst).Nodup :=
  h.imp fun hlt ↦ String.ne_of_lt hlt

end Config

namespace Reading

variable {α β : Type} {r : Reading α} {P : β → Prop} {known : List (RecordField α β)} {start record : β}

theorem mem_keys_insertSorted {x key : String} {value : β} {l : List (String × β)} :
    x ∈ (insertSorted key value l).map Prod.fst ↔ x = key ∨ x ∈ l.map Prod.fst := by
  induction l with
  | nil => simp [insertSorted]
  | cons p rest ih =>
    rw [insertSorted]
    split
    · simp
    · split
      · rename_i heq
        simp [beq_iff_eq.1 heq]
      · simp only [List.map_cons, List.mem_cons, ih, or_left_comm]

theorem keys_insertSorted_pairwise (key : String) (value : β) {l : List (String × β)}
    (h : (l.map Prod.fst).Pairwise (· < ·)) : ((insertSorted key value l).map Prod.fst).Pairwise (· < ·) := by
  induction l with
  | nil => exact List.pairwise_singleton _ _
  | cons p rest ih =>
    obtain ⟨hp, hrest⟩ := List.pairwise_cons.1 h
    rw [insertSorted]
    split
    · rename_i hlt
      exact .cons (List.forall_mem_cons.2 ⟨hlt, fun x hx ↦ String.lt_trans hlt (hp x hx)⟩) h
    · split
      · rename_i heq
        rw [beq_iff_eq.1 heq]
        exact .cons hp hrest
      · rename_i hlt hne
        have hbehind : p.1 < key :=
          String.not_le.1 fun hle ↦ hne (beq_iff_eq.2 (String.le_antisymm hle (String.not_lt.1 hlt)))
        refine .cons (fun x hx ↦ ?_) (ih hrest)
        rcases mem_keys_insertSorted.1 hx with rfl | hx
        · exact hbehind
        · exact hp x hx

/-- What every field keeps, the whole record keeps. -/
theorem putNamed_keeps (hk : ∀ f ∈ known, ∀ v b b', f.put v b = some b' → P b → P b') {seen : List String}
    {fields : List (String × α)} (hstart : P start) (h : putNamed known seen start fields = some record) :
    P record := by
  fun_induction putNamed known seen start fields with
  | case1 => exact Option.some.inj h ▸ hstart
  | case2 _ _ _ _ _ _ ih => exact ih hstart h
  | case3 => cases h
  | case4 seen start name value rest field hfind _ ih =>
    obtain ⟨next, hput, h⟩ := Option.bind_eq_some_iff.1 h
    exact ih next (hk field (List.mem_of_find?_eq_some hfind) _ _ _ hput hstart) h

theorem putInOrder_keeps (hk : ∀ f ∈ known, ∀ v b b', f.put v b = some b' → P b → P b') {values : List α}
    (hstart : P start) (h : putInOrder start known values = some record) : P record := by
  fun_induction putInOrder start known values with
  | case1 => exact Option.some.inj h ▸ hstart
  | case2 => cases h
  | case3 start field known value rest ih =>
    obtain ⟨next, hput, h⟩ := Option.bind_eq_some_iff.1 h
    rw [List.forall_mem_cons] at hk
    exact ih next hk.2 (hk.1 _ _ _ hput hstart) h

theorem record?_keeps (hk : ∀ f ∈ known, ∀ v b b', f.put v b = some b' → P b → P b') {value : α} (hstart : P start)
    (h : r.record? known start value = some record) : P record := by
  unfold record? at h
  split at h
  · exact putNamed_keeps hk hstart h
  · obtain ⟨values, -, h⟩ := Option.bind_eq_some_iff.1 h
    exact putInOrder_keeps hk hstart h

theorem ruleValues?_pairwise {value : α} {rules : List (String × RuleValue)} (h : r.ruleValues? value = some rules) :
    (rules.map Prod.fst).Pairwise (· < ·) := by
  obtain ⟨fields, -, h⟩ := Option.bind_eq_some_iff.1 h
  obtain ⟨values, -, h⟩ := Option.bind_eq_some_iff.1 h
  rw [← Option.some.inj h]
  clear h
  suffices hfold : ∀ sorted : List (String × RuleValue), (sorted.map Prod.fst).Pairwise (· < ·) →
      ((values.foldl (fun sorted p ↦ insertSorted p.1 p.2 sorted) sorted).map Prod.fst).Pairwise (· < ·) from
    hfold [] .nil
  induction values with
  | nil => exact fun _ h ↦ h
  | cons p values ih => exact fun sorted h ↦ ih _ (keys_insertSorted_pairwise p.1 p.2 h)

theorem configFields_ordered : ∀ f ∈ r.configFields, ∀ v c c', f.put v c = some c' → c.Ordered → c'.Ordered := by
  intro f hf v c c' h hc
  simp only [configFields, limitField, List.mem_cons, List.not_mem_nil, or_false] at hf
  rcases hf with rfl | rfl | rfl | rfl | rfl | rfl | rfl | rfl | rfl | rfl | rfl | rfl | rfl | rfl | rfl
  all_goals obtain ⟨x, hx, rfl⟩ := Option.map_eq_some_iff.1 h
  -- the ninth field is that of the rules, and the others leave them alone
  on_goal 9 => exact ruleValues?_pairwise hx
  all_goals exact hc

/-- The rules of a configuration that is read are in order. -/
theorem config?_ordered {value : α} {c : Config} (h : r.config? value = some c) : c.Ordered := by
  have hnone : ({} : Config).Ordered := List.Pairwise.nil
  exact record?_keeps configFields_ordered hnone h

end Reading

/-- An entry of a rule as these values set it. -/
structure RuleEntry.Follows (rules : List (String × RuleValue)) (rule : Rule) (e : RuleEntry) : Prop where
  same : e.rule = rule
  off_iff : ∀ value, (rule.id, value) ∈ rules → (e.enabled = false ↔ value.IsOff)
  off_severity : ∀ value, (rule.id, value) ∈ rules → value.IsOff → e.severity = rule.severity
  on_severity : ∀ value, (rule.id, value) ∈ rules → ¬value.IsOff → value.Sets rule.severity e.severity
  unnamed : rule.id ∉ rules.map Prod.fst → e.enabled = true ∧ e.severity = rule.severity

theorem RuleEntry.puts_of_mem {e : RuleEntry} {settings : List (String × RuleSetting)} {setting : RuleSetting}
    (hn : (settings.map Prod.fst).Nodup) (h : (e.rule.id, setting) ∈ settings) :
    settings.foldl put e = e.apply setting := by
  obtain ⟨before, after, rfl⟩ := List.append_of_mem h
  rw [List.map_append, List.map_cons, List.nodup_middle, List.nodup_cons, ← List.map_append] at hn
  refine puts_middle fun p hp he ↦ hn.1 ?_
  have hmem := List.mem_map_of_mem (f := Prod.fst) hp
  rwa [he] at hmem

theorem RuleEntry.follows_puts {rules : List (String × RuleValue)} {settings : List (String × RuleSetting)}
    (hn : (rules.map Prod.fst).Nodup) (h : Config.settingsOf rules = .ok settings) {rule : Rule}
    (hr : rule ∈ Rule.builtin) : Follows rules rule (settings.foldl put (plain rule)) := by
  have hkeys := Config.settingsOf_keys h
  rw [← hkeys] at hn
  have hnamed (value : RuleValue) (hv : (rule.id, value) ∈ rules) :
      value.IsOff ∧ settings.foldl put (plain rule) = (plain rule).apply .off ∨
        ∃ s, value.Sets rule.severity s ∧ settings.foldl put (plain rule) = (plain rule).apply (.level s) := by
    obtain ⟨setting, hsetting, hmem⟩ := Config.settingsOf_mem h hv
    have hputs := puts_of_mem (e := plain rule) hn hmem
    rcases (Config.settingOf_builtin hr).1 hsetting with ⟨rfl, hoff⟩ | ⟨s, rfl, hs⟩
    · exact .inl ⟨hoff, hputs⟩
    · exact .inr ⟨s, hs, hputs⟩
  constructor
  case same => exact rule_puts _ _
  case off_iff =>
    intro value hv
    rcases hnamed value hv with ⟨hoff, he⟩ | ⟨s, hs, he⟩
    · simp [he, hoff, apply]
    · simp [he, RuleValue.not_isOff_of_sets hs, apply]
  case off_severity =>
    intro value hv hoff
    rcases hnamed value hv with ⟨-, he⟩ | ⟨s, hs, -⟩
    · rw [he]
      rfl
    · exact absurd hoff (RuleValue.not_isOff_of_sets hs)
  case on_severity =>
    intro value hv hon
    rcases hnamed value hv with ⟨hoff, -⟩ | ⟨s, hs, he⟩
    · exact absurd hoff hon
    · rw [he]
      exact hs
  case unnamed =>
    intro hid
    have hputs : settings.foldl put (plain rule) = plain rule := by
      refine puts_of_ne fun p hp he ↦ hid ?_
      rw [← hkeys]
      exact he ▸ List.mem_map_of_mem hp
    rw [hputs]
    exact ⟨rfl, rfl⟩

namespace Checker

variable {c : Config}

theorem ok_of_bind {α β : Type} {x : Except ConfigError α} {f : α → Except ConfigError β} {b : β}
    (h : x >>= f = .ok b) : ∃ a, x = .ok a ∧ f a = .ok b := by
  cases x with
  | error e => cases h
  | ok a => exact ⟨a, rfl, h⟩

theorem ofConfig_error {e : ConfigError} (h : c.ruleSettings = .error e) : ofConfig c = .error e := by
  rw [ofConfig, Config.ruleBook, h]
  rfl

theorem ofConfig_of_validate (h : c.validate = .ok ()) : ∃ checker, ofConfig c = .ok checker := by
  obtain ⟨-, -, h⟩ := ok_of_bind h
  obtain ⟨-, -, h⟩ := ok_of_bind h
  obtain ⟨settings, hsettings, h⟩ := ok_of_bind h
  obtain ⟨directives, hdirectives, -⟩ := ok_of_bind h
  exact ⟨_, ofConfig_eq_ok.2 ⟨settings, directives, hsettings, hdirectives, rfl⟩⟩

end Checker

end CodeStyle
