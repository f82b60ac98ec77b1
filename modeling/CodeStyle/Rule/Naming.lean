import CodeStyle.Rule.Basic
import CodeStyle.Text.Affix
import CodeStyle.Text.NameCase

/-!
Rules on the names that a file declares.
-/

namespace CodeStyle.Rule.Naming

open Text

/-- Names that a file should not define: words of a sister language and of the standard library. -/
def reservedNames : List String :=
  ["alignas", "alignof", "and", "and_eq", "asm", "bitand", "bitor", "bool",
    "catch", "char16_t", "char32_t", "class", "compl", "const_cast",
    "constexpr", "decltype", "delete", "dynamic_cast", "explicit", "export",
    "false", "friend", "mutable", "namespace", "new", "noexcept", "not",
    "not_eq", "nullptr", "operator", "or", "or_eq", "private", "protected",
    "public", "reinterpret_cast", "static_assert", "static_cast", "template",
    "this", "thread_local", "throw", "true", "try", "typeid", "typename",
    "using", "virtual", "wchar_t", "xor", "xor_eq",
    "abort", "abs", "assert", "atexit", "atof", "atoi", "atol", "bsearch",
    "calloc", "clock", "errno", "exit", "fclose", "feof", "ferror", "fflush",
    "fgetc", "fgets", "fopen", "fprintf", "fputc", "fputs", "fread", "free",
    "freopen", "fscanf", "fseek", "ftell", "fwrite", "getc", "getchar",
    "getenv", "gets", "isalnum", "isalpha", "isdigit", "islower", "isspace",
    "isupper", "labs", "malloc", "memchr", "memcmp", "memcpy", "memmove",
    "memset", "perror", "printf", "putc", "putchar", "puts", "qsort", "rand",
    "realloc", "remove", "rename", "rewind", "scanf", "signal", "sprintf",
    "sqrt", "srand", "sscanf", "strcat", "strchr", "strcmp", "strcpy",
    "strlen", "strncat", "strncmp", "strncpy", "strrchr", "strstr", "strtok",
    "strtol", "strtoul", "system", "time", "tolower", "toupper", "ungetc",
    "NULL", "EOF", "FILE", "stdin", "stdout", "stderr", "offsetof", "size_t",
    "ptrdiff_t"]

/-- Reserved names, and names that start with two underscores or an underscore and a capital. -/
def isReserved (name : String) : Bool :=
  reservedNames.contains name
    || match name.toList with
      | '_' :: c :: _ => c == '_' || c.isUpper
      | _ => false

def typeSuffix (r : RuleInput) : Outcome :=
  .found (r.facts.types.filterMap fun t ↦
    (t.typeName.filter fun n ↦ !endsWith n.text "_t").map fun n ↦
      ⟨n.span, s!"type name '{n.text}' must end in _t", some (n.text ++ "_t")⟩)

def aliasCase (name : Name) : List Finding :=
  let stem := (dropTail? name.text "_t").getD name.text
  if isLowerSnake stem then []
  else
    [⟨name.span, s!"type name '{name.text}' must be lower_snake_case", some (toSnake stem ++ "_t")⟩]

def tagCase (name : Name) : List Finding :=
  if isLowerSnake name.text then []
  else [⟨name.span, s!"tag '{name.text}' must be lower_snake_case", some (toSnake name.text)⟩]

def typeCase (r : RuleInput) : Outcome :=
  .found (r.facts.types.flatMap fun t ↦
    t.typeName.toList.flatMap aliasCase ++ t.tag.toList.flatMap tagCase)

def tagPrefixOf (t : TypeFact) : Option Finding :=
  match t.tagKind, t.tag with
  | some kind, some tag =>
    if t.hasBody && !startsWith tag.text kind.tagStart then
      some ⟨tag.span, s!"{kind.word} tag '{tag.text}' must start with {kind.tagStart}",
        some (kind.tagStart ++ tag.text)⟩
    else none
  | _, _ => none

def typeTagPrefix (r : RuleInput) : Outcome := .found (r.facts.types.filterMap tagPrefixOf)

def macroCase (r : RuleInput) : Outcome :=
  .found ((r.facts.macros.filter (!isUpperSnake ·.name)).map fun m ↦
    ⟨m.span, s!"macro '{m.name}' must be UPPER_SNAKE_CASE", some (toUpperSnake m.name)⟩)

def enumConstantCase (r : RuleInput) : Outcome :=
  let wrong (n : Name) := !isUpperSnake n.text || startsWith n.text "_"
  .found ((r.facts.enumConstants.filter wrong).map fun n ↦
    ⟨n.span, s!"enumeration constant '{n.text}' must be UPPER_SNAKE_CASE",
      some (toUpperSnake n.text)⟩)

def functionCase (r : RuleInput) : Outcome :=
  let names := r.facts.functions.map FunctionFact.name ++ r.facts.prototypes
  .found ((names.filter (!isLowerSnake ·.text)).map fun n ↦
    ⟨n.span, s!"function '{n.text}' must be lower_snake_case", some (toSnake n.text)⟩)

def variableLength (r : RuleInput) : Outcome :=
  let least := r.limits.variableLength
  .found ((r.facts.objects.filter (·.name.text.utf8ByteSize < least)).map fun v ↦
    ⟨v.name.span, s!"{v.scope.word} variable '{v.name.text}' is shorter than {least} characters", none⟩)

def variableCase (r : RuleInput) : Outcome :=
  .found ((r.facts.objects.filter (!isLowerSnake ·.name.text)).map fun v ↦
    ⟨v.name.span, s!"variable '{v.name.text}' must be lower_snake_case", some (toSnake v.name.text)⟩)

/-- How the name of a pointer starts: one `p` for each level, and before them a `g` at file scope. -/
def pointerStart (depth : Nat) (scope : VariableScope) : String :=
  String.ofList ((if scope == .file then ['g'] else []) ++ List.replicate depth 'p' ++ ['_'])

/-- The name without what already looks like the start of a pointer's name. -/
def pointerStem (name : String) : String :=
  match splitOnce '_' name with
  | some (head, rest) =>
    if !head.isEmpty && !rest.isEmpty && head.toList.all (fun c ↦ c == 'g' || c == 'p') then rest
    else name
  | none => name

def pointerPrefixOf (v : VariableFact) : Option Finding :=
  let start := pointerStart v.pointerDepth v.scope
  let name := v.name.text
  if v.pointerDepth == 0 || startsWith name start then none
  else
    some ⟨v.name.span,
      s!"{v.scope.word} pointer '{name}' (depth {v.pointerDepth}) must start with {start}",
      some (start ++ pointerStem name)⟩

def pointerPrefix (r : RuleInput) : Outcome := .found (r.facts.objects.filterMap pointerPrefixOf)

def globalPrefix (r : RuleInput) : Outcome :=
  let wrong (v : VariableFact) :=
    v.scope == .file && v.pointerDepth == 0 && !startsWith v.name.text "g_"
  .found ((r.facts.objects.filter wrong).map fun v ↦
    ⟨v.name.span, s!"global variable '{v.name.text}' must start with g_", some ("g_" ++ v.name.text)⟩)

/-- All names that a file declares, with their spans. -/
def declaredNames (facts : Facts) : List (String × Span) :=
  let named (n : Name) := (n.text, n.span)
  facts.objects.map (named ·.name)
    ++ facts.functions.map (named ·.name)
    ++ facts.prototypes.map named
    ++ facts.macros.map (fun m ↦ (m.name, m.span))
    ++ facts.enumConstants.map named
    ++ facts.types.flatMap (fun t ↦ t.typeName.toList.map named ++ t.tag.toList.map named)
    ++ facts.functions.flatMap (·.labels.map named)

def reserved (r : RuleInput) : Outcome :=
  .found (((declaredNames r.facts).filter (isReserved ·.1)).map fun (name, span) ↦
    ⟨span, s!"'{name}' is a reserved identifier", none⟩)

def rules : List Rule :=
  [ { id := "NAMING.TYPE_SUFFIX", category := .naming, severity := .warning
      summary := "Typedef names end in _t"
      check := some typeSuffix },
    { id := "NAMING.TYPE_CASE", category := .naming, severity := .warning
      summary := "Type names and tags are lower_snake_case"
      check := some typeCase },
    { id := "NAMING.TYPE_TAG_PREFIX", category := .naming, severity := .warning
      summary := "struct, union and enum tags start with st_, u_ or e_"
      check := some typeTagPrefix },
    { id := "NAMING.MACRO_CASE", category := .naming, severity := .warning
      summary := "Macro names are UPPER_SNAKE_CASE"
      check := some macroCase },
    { id := "NAMING.ENUM_CONSTANT_CASE", category := .naming, severity := .warning
      summary := "Enumeration constants are UPPER_SNAKE_CASE"
      check := some enumConstantCase },
    { id := "NAMING.FUNCTION_CASE", category := .naming, severity := .warning
      summary := "Function names are lower_snake_case"
      check := some functionCase },
    { id := "NAMING.VARIABLE_LENGTH", category := .naming, severity := .warning
      summary := "Variable names meet the minimum length"
      check := some variableLength },
    { id := "NAMING.VARIABLE_CASE", category := .naming, severity := .warning
      summary := "Variable names are lower_snake_case"
      check := some variableCase },
    { id := "NAMING.POINTER_PREFIX", category := .naming, severity := .warning
      summary := "Pointer variables carry one p per level of indirection (p_, pp_, gp_)"
      check := some pointerPrefix },
    { id := "NAMING.GLOBAL_PREFIX", category := .naming, severity := .warning
      summary := "File-scope variables start with g_"
      check := some globalPrefix },
    { id := "NAMING.RESERVED", category := .naming, severity := .error
      summary := "Identifiers must not collide with C++ keywords, standard library names or reserved forms"
      check := some reserved } ]

end CodeStyle.Rule.Naming
