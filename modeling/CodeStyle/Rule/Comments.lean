import CodeStyle.Rule.Basic

/-!
Rules on where comments stand and how they are written.
-/

namespace CodeStyle.Rule.Comments

open Text

def singleLinePlacement (r : RuleInput) : Outcome :=
  .found ((r.foci.filter fun f ↦ f.token.kind == .lineComment && f.startsLine).map fun f ↦
    ⟨f.token.span, "'//' comment on its own line; use /* */ for standalone comments", none⟩)

/-- The offsets of the `/*`s in `bytes`, from `offset` on. -/
def innerOpenings (offset : Nat) : List UInt8 → List Nat
  | a :: b :: rest =>
    if a == byte '/' && b == byte '*' then offset :: innerOpenings (offset + 2) rest
    else innerOpenings (offset + 1) (b :: rest)
  | _ => []

def nested (r : RuleInput) : Outcome :=
  .found ((r.tokens.filter (·.kind == .blockComment)).flatMap fun t ↦
    let body := (t.bytes.take (t.bytes.length - 2)).drop 2
    (innerOpenings (t.span.startByte + 2) body).map fun start ↦
      ⟨r.source.spanFor start (start + 2), "'/*' inside a block comment", none⟩)

/-- Bytes that decorate the start of a comment. -/
def isDecoration (b : UInt8) : Bool :=
  Byte.isSpace b || ['*', '/', '!', '-', '=', '#'].any fun c ↦ b == byte c

/-- Bytes that may close a word. -/
def isWordEnd (b : UInt8) : Bool := ['.', ',', ':', ';', '!', '?', ')'].any fun c ↦ b == byte c

/-- The text of a comment without its delimiters, and the offset of it in the comment. -/
def commentBody (bytes : List UInt8) : Nat × List UInt8 :=
  let start :=
    if (bytesOf "//").isPrefixOf bytes || (bytesOf "/*").isPrefixOf bytes then 2 else 0
  let stop :=
    if (bytesOf "*/").isSuffixOf bytes && 4 ≤ bytes.length then bytes.length - 2 else bytes.length
  (start, (bytes.take stop).drop start)

/-- The first word of a comment after its decoration, and the offset of it in the comment. -/
def firstWord (bytes : List UInt8) : Nat × List UInt8 :=
  let (start, body) := commentBody bytes
  let skipped := (body.takeWhile isDecoration).length
  (start + skipped, (body.drop skipped).takeWhile (!Byte.isSpace ·))

/-- A word without the punctuation at its end. -/
def bareWord (word : List UInt8) : List UInt8 := (word.reverse.dropWhile isWordEnd).reverse

def capitalizationAt (source : Source) (t : Token) : List Finding :=
  let (start, word) := firstWord t.bytes
  let word := bareWord word
  if word.isEmpty || !word.all Byte.isLower then []
  else
    let first := t.span.startByte + start
    let text := Utf8.lossy word
    [⟨source.spanFor first (first + word.length), s!"comment starts with lowercase '{text}'",
      some text.capitalize⟩]

def capitalization (r : RuleInput) : Outcome :=
  .each (r.file.preorder.filter (·.kind == .commentBlock)) fun t ↦
    r.withToken t.start fun f ↦ .found (capitalizationAt r.source f.token)

/-- Whether a comment may follow the line before it directly: that line is blank or missing, or the
comment opens a block or a labelled part. -/
def needsNoBlankLine (facts : Facts) (f : Focus) : Bool :=
  f.token.line == 1
    || (facts.line? (f.token.line - 1)).any LineFact.isBlank
    || (f.before.find? (!·.isTrivia)).any fun t ↦ t.isPunct "\x7b" || t.isPunct ":"

def blankLineBefore (r : RuleInput) : Outcome :=
  let standing (t : Tree) := t.kind == .commentBlock && !t.head.trailing
  .each (r.file.preorder.filter standing) fun t ↦
    r.withToken t.start fun first ↦
      if needsNoBlankLine r.facts first then .clean
      else
        r.withToken (t.stop - 1) fun last ↦
          .found [⟨first.token.span.join last.token.span, "comment must be preceded by a blank line", none⟩]

def lineDelimiter (source : Source) (t : Token) : List Finding :=
  let fine (b : UInt8) := [' ', '/', '!', '\r', '\n'].any fun c ↦ b == byte c
  if t.bytes[2]?.all fine then []
  else
    let base := t.span.startByte
    [⟨source.spanFor base (base + 2), "missing space after '//'", none⟩]

def blockDelimiters (source : Source) (t : Token) : List Finding :=
  let size := t.bytes.length
  let base := t.span.startByte
  let fineAfter (b : UInt8) := Byte.isSpace b || b == byte '*' || b == byte '!'
  let fineBefore (b : UInt8) := Byte.isSpace b || b == byte '*'
  if size ≤ 4 then []
  else
    (if t.bytes[2]?.all fineAfter then []
      else [⟨source.spanFor base (base + 2), "missing space after '/*'", none⟩])
    ++ (if t.bytes[size - 3]?.all fineBefore then []
      else [⟨source.spanFor (base + size - 2) (base + size), "missing space before '*/'", none⟩])

def delimiterSpacing (r : RuleInput) : Outcome :=
  .found (r.tokens.flatMap fun t ↦
    match t.kind with
    | .lineComment => lineDelimiter r.source t
    | .blockComment => blockDelimiters r.source t
    | _ => [])

def rules : List Rule :=
  [ { id := "COMMENTS.SINGLE_LINE_PLACEMENT", category := .comments, severity := .warning
      summary := "// comments only follow code on the same line"
      check := some singleLinePlacement },
    { id := "COMMENTS.NESTED", category := .comments, severity := .warning
      summary := "Block comments do not contain /*"
      check := some nested },
    { id := "COMMENTS.CAPITALIZATION", category := .comments, severity := .info
      summary := "Comments start with a capital letter"
      check := some capitalization },
    { id := "COMMENTS.BLANK_LINE_BEFORE", category := .comments, severity := .info
      summary := "Standalone comments are preceded by a blank line"
      check := some blankLineBefore },
    { id := "COMMENTS.DELIMITER_SPACING", category := .comments, severity := .warning
      summary := "Comment delimiters are separated from the text by a space"
      check := some delimiterSpacing } ]

end CodeStyle.Rule.Comments
