import CodeStyle.Rule.Basic
import CodeStyle.Text.Quoted

/-!
Rules on malformed pieces of a file.
-/

namespace CodeStyle.Rule.Lexical

def message (source : Source) (e : LexError) : String :=
  match e.fault with
  | .nonAscii => s!"{e.fault.message} ({e.span.length} bytes)"
  | .invalidCharacter =>
    e.fault.message ++ " " ++ Text.inQuotes (Text.Utf8.lossy (source.spanBytes e.span))
  | _ => e.fault.message

/-- Reports each piece with the given fault. -/
def report (fault : Fault) (r : RuleInput) : Outcome :=
  .found ((r.file.lexErrors.filter (·.fault == fault)).map fun e ↦
    ⟨e.span, message r.source e, none⟩)

def rules : List Rule :=
  [ { id := "LEX.UNTERMINATED_STRING", category := .lexical, severity := .error
      summary := "String literal runs to the end of the line"
      check := some (report .unterminatedString) },
    { id := "LEX.UNTERMINATED_CHAR", category := .lexical, severity := .error
      summary := "Character literal runs to the end of the line"
      check := some (report .unterminatedChar) },
    { id := "LEX.UNTERMINATED_COMMENT", category := .lexical, severity := .error
      summary := "Block comment is never closed"
      check := some (report .unterminatedComment) },
    { id := "LEX.UNTERMINATED_CONTINUATION", category := .lexical, severity := .error
      summary := "Line continuation at end of file"
      check := some (report .unterminatedContinuation) },
    { id := "LEX.INVALID_CHARACTER", category := .lexical, severity := .error
      summary := "Character that is not part of the C source character set"
      check := some (report .invalidCharacter) },
    { id := "ENCODING.NON_ASCII", category := .encoding, severity := .warning
      summary := "Source must be plain ASCII"
      check := some (report .nonAscii) } ]

end CodeStyle.Rule.Lexical
