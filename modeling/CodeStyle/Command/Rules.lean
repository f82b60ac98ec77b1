import CodeStyle.Command.Basic
import CodeStyle.Command.Output
import CodeStyle.Report.Pretty
import CodeStyle.Rule.Book

/-!
Listing the rules.
-/

namespace CodeStyle.Rules

/-- A rule on a line of its own. -/
def row (e : RuleEntry) : String :=
  "  " ++ padRight 34 e.rule.id ++ " " ++ padRight 14 e.rule.category.name ++ " "
    ++ padRight 8 e.severity.name ++ " " ++ e.rule.summary ++ "\n"

def run (o : RulesOptions) : CommandOutput :=
  match o.category with
  | none => .success (String.join (RuleBook.builtin.entries.map row))
  | some word =>
    match Category.parse? word with
    | some c => .success (String.join ((RuleBook.builtin.byCategory c).map row))
    | none =>
      .failure ("Error: unknown category " ++ Text.inQuotes word ++ "\nCategories: "
        ++ ", ".intercalate (Category.all.map Category.name))

end CodeStyle.Rules
