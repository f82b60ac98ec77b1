/-!
The configuration file to start from: the usual settings, with folders of foreign code left out.
-/

namespace CodeStyle.Config

def templateLines : List String :=
  ["# cstylecheck configuration",
    "#",
    "# Every setting is optional; the values below are the defaults.",
    "# Run `cstylecheck rules` to list rule ids.",
    "",
    "# Limits checked by the whitespace, structure and naming rules.",
    "max_line_length: 120",
    "max_nesting_depth: 4",
    "max_ternary_depth: 1",
    "max_function_lines: 100",
    "max_file_lines: 2000",
    "max_blank_lines: 2",
    "indent_width: 4",
    "min_variable_length: 3",
    "",
    "# Per-rule settings: error, warning, info, off, true or false.",
    "rules:",
    "  # NAMING.VARIABLE_LENGTH: off",
    "  # WHITESPACE.LINE_LENGTH: error",
    "  DOCUMENTATION.SECTION_ORDER: info",
    "",
    "# Suppression comments, e.g. /* cstylecheck:ignore-next-line NAMING.* - reason */",
    "suppression:",
    "  marker: cstylecheck",
    "  # A full regex may replace the syntax. It needs a `directive` group and",
    "  # may define `rules` and `reason` groups.",
    "  # pattern: 'NOLINT\\((?P<directive>ignore)(?: (?P<rules>[A-Z_.*,]+))?\\)'",
    "",
    "# Files checked when walking directories.",
    "extensions:",
    "  - c",
    "  - h",
    "",
    "# Glob patterns for paths to skip.",
    "excluded_paths:",
    "  - \"**/vendor/**\"",
    "  - \"**/third_party/**\"",
    "",
    "# Lowest severity that fails the run: error, warning or info.",
    "fail_on: warning",
    "",
    "# Worker threads (0 = all cores) and per-file rule parallelism.",
    "jobs: 0",
    "parallel_rules: false"]

/-- The text of the configuration file that is written to start from. -/
def template : String := String.join (templateLines.map (· ++ "\n"))

end CodeStyle.Config
