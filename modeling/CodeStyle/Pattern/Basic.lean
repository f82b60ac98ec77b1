import CodeStyle.Text.Blank
import CodeStyle.Text.LetterCase

/-!
Patterns over texts, and the first match of a pattern. Of several ways to match from one place the
one is taken that comes first when alternatives are tried from left to right, and repetitions
longest first or, if lazy, shortest first.
-/

namespace CodeStyle

/-- A set of characters, given by ranges or by what they leave out. -/
structure CharSet where
  ranges : List (Char × Char)
  negated : Bool
  /-- Whether letters stand for both of their cases. -/
  caseless : Bool
deriving Repr, DecidableEq, Inhabited

namespace CharSet

/-- The capitals of a small letter. -/
def capitals (c : Char) : List Char :=
  (if c.isLower then [c.toUpper] else [])
    ++ (if c == 's' then [Char.ofNat 0x17F] else [])
    ++ Text.caseRuns.filterMap fun r ↦
      let n : Int := c.toNat - r.shift
      if r.first ≤ n && n ≤ r.last && (n - r.first) % r.step == 0 then some (Char.ofNat n.toNat)
      else none

/-- The character in all its cases. -/
def variants (c : Char) : List Char :=
  let small := if c.toNat == 0x17F then 's' else (Text.lowerChar c).headD c
  c :: small :: capitals small

def inRanges (s : CharSet) (c : Char) : Bool := s.ranges.any fun (low, high) ↦ low ≤ c && c ≤ high

def holds (s : CharSet) (c : Char) : Bool :=
  (if s.caseless then (variants c).any s.inRanges else s.inRanges c) != s.negated

def one (c : Char) : CharSet := ⟨[(c, c)], false, false⟩

def ofRanges (ranges : List (Char × Char)) : CharSet := ⟨ranges, false, false⟩

/-- The blanks of any script. -/
def blankRanges : List (Char × Char) :=
  [('\t', '\r'), (' ', ' ')]
    ++ [(0x85, 0x85), (0xA0, 0xA0), (0x1680, 0x1680), (0x2000, 0x200A), (0x2028, 0x2029),
        (0x202F, 0x202F), (0x205F, 0x205F), (0x3000, 0x3000)].map fun (a, b) ↦
      (Char.ofNat a, Char.ofNat b)

end CharSet

inductive Pattern where
  | empty
  | char (set : CharSet)
  | seq (first second : Pattern)
  | alt (first second : Pattern)
  /-- Any number of times. -/
  | star (body : Pattern) (greedy : Bool)
  /-- At least once. -/
  | plus (body : Pattern) (greedy : Bool)
  /-- At most once. -/
  | opt (body : Pattern) (greedy : Bool)
  /-- The text of the body under a name. -/
  | group (name : String) (body : Pattern)
  | startOfText
  | startOfLine
  | endOfText
  /-- At the end of the text or before a line feed. -/
  | endOfLine
deriving Repr, Inhabited

namespace Pattern

/-- The patterns one after the other. -/
def all (ps : List Pattern) : Pattern := ps.foldr seq empty

/-- One of the patterns, the first that fits. -/
def any : List Pattern → Pattern
  | [] => empty
  | [p] => p
  | p :: rest => alt p (any rest)

def literal (s : String) : Pattern := all (s.toList.map fun c ↦ char (.one c))

/-- The names of the groups, from left to right. -/
def groupNames : Pattern → List String
  | seq p q | alt p q => p.groupNames ++ q.groupNames
  | star p _ | plus p _ | opt p _ => p.groupNames
  | group name p => name :: p.groupNames
  | _ => []

/-- A place in a text while a pattern is matched: the character before it, the rest of the text,
how many characters have been passed, and the groups so far, the latest first. -/
structure State where
  last : Option Char
  rest : List Char
  passed : Nat
  groups : List (String × List Char)
deriving Repr, DecidableEq, Inhabited

/-- What comes after a pattern. -/
abbrev Next := State → Option State

/-- Repeats `step` before `next`, `fuel` times at most. A repetition that passes nothing is not
tried. -/
def repeated (step : Next → Next) (greedy : Bool) (next : Next) : Nat → Next
  | 0, s => next s
  | fuel + 1, s =>
    let again := step fun t ↦
      if t.rest.length < s.rest.length then repeated step greedy next fuel t else none
    if greedy then (again s).or (next s) else (next s).or (again s)

/-- Matches a pattern and then what comes after it. -/
def run : Pattern → Next → Next
  | empty, next, s => next s
  | char set, next, s =>
    match s.rest with
    | [] => none
    | c :: rest =>
      if set.holds c then next { s with last := some c, rest, passed := s.passed + 1 } else none
  | seq p q, next, s => p.run (q.run next) s
  | alt p q, next, s => (p.run next s).or (q.run next s)
  | star p greedy, next, s => repeated p.run greedy next (s.rest.length + 1) s
  | plus p greedy, next, s => p.run (repeated p.run greedy next (s.rest.length + 1)) s
  | opt p greedy, next, s =>
    if greedy then (p.run next s).or (next s) else (next s).or (p.run next s)
  | group name p, next, s =>
    p.run (fun t ↦
      next { t with groups := (name, s.rest.take (t.passed - s.passed)) :: t.groups }) s
  | startOfText, next, s => if s.last.isNone then next s else none
  | startOfLine, next, s => if s.last.all (· == '\n') then next s else none
  | endOfText, next, s => if s.rest.isEmpty then next s else none
  | endOfLine, next, s => if s.rest.head?.all (· == '\n') then next s else none

/-- A match: how many characters come before it, its text, and the texts of its groups. -/
structure Match where
  start : Nat
  text : List Char
  groups : List (String × List Char)
deriving Repr, DecidableEq, Inhabited

def Match.stop (m : Match) : Nat := m.start + m.text.length

/-- The text of a group that took part. -/
def Match.group? (m : Match) (name : String) : Option String :=
  (m.groups.find? (·.1 == name)).map fun (_, text) ↦ String.ofList text

/-- The match that starts at a place, if there is one. -/
def matchAt? (p : Pattern) (last : Option Char) (start : Nat) (cs : List Char) : Option Match :=
  (p.run some ⟨last, cs, start, []⟩).map fun t ↦ ⟨start, cs.take (t.passed - start), t.groups⟩

/-- The first match in `cs`, before which the text has `start` characters. -/
def find? (p : Pattern) (last : Option Char) (start : Nat) : List Char → Option Match
  | [] => p.matchAt? last start []
  | c :: rest =>
    match p.matchAt? last start (c :: rest) with
    | some m => some m
    | none => find? p (some c) (start + 1) rest

/-- The matches in a text one after the other, `fuel` at most. An empty match right behind the
match before it does not count. -/
def matchesFrom (p : Pattern) (before : Option Nat) (last : Option Char) (start : Nat)
    (cs : List Char) : Nat → List Match
  | 0 => []
  | fuel + 1 =>
    match p.find? last start cs with
    | none => []
    | some m =>
      if m.text.isEmpty && before == some m.start then
        match cs with
        | [] => []
        | c :: rest => matchesFrom p before (some c) (start + 1) rest fuel
      else
        let passed := m.stop - start
        let last := if passed == 0 then last else cs[passed - 1]?
        m :: matchesFrom p (some m.stop) last m.stop (cs.drop passed) fuel

/-- The matches in a text, from left to right and apart from one another. -/
def findAll (p : Pattern) (text : List Char) : List Match :=
  matchesFrom p none none 0 text (2 * text.length + 2)

end Pattern

end CodeStyle
