import FieldPath.Path.GrammarError
import FieldPath.Yaml.Document

/-!
# Causes

What lies at the bottom of a failure to read something. The messages above it
say what was being read.
-/

namespace FieldPath

inductive Cause where
  | json
  | yaml (error : Yaml.Error)
  | toml
  | path (error : Path.GrammarError)
  | inputOutput
  deriving DecidableEq

end FieldPath
