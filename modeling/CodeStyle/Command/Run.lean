import CodeStyle.Command.Init
import CodeStyle.Command.Lint
import CodeStyle.Command.Rules

/-!
Running commands in a folder.
-/

namespace CodeStyle.Command

/-- What a command prints in a folder, and what the folder holds afterwards. -/
def run (c : Command) (folder : String) (userConfig : Option (String × List UInt8)) (colors : Bool)
    (tree : FileTree) : CommandOutput × FileTree :=
  let s := Surroundings.ofTree folder tree userConfig
  match c with
  | lint o => (Lint.run s colors o, tree)
  | rules o => (Rules.run o, tree)
  | init o =>
    match Init.refusal s o with
    | some output => (output, tree)
    | none =>
      let (tree, stored) := tree.store o.output (Text.bytesOf Config.template)
      (Init.report o stored, tree)

end CodeStyle.Command
