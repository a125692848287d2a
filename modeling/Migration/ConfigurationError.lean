import Migration.Text.Quoted

/-!
# Why a configuration is refused

All of these are found before any module is touched.
-/

namespace Migration

/-- The cause for which a configuration is refused. `field` names the configured field. -/
inductive ConfigurationError where
  | emptyName (field : String)
  | invalidIdentifier (field value : String)
  /-- A name would be changed into itself. -/
  | identicalNames (name : String)
  /-- Two entries of a table can match the same reference. -/
  | duplicateKey (owner member : String)
  /-- What one entry of a table produces can be matched by another. -/
  | chainedMapping (owner member : String)
  | emptyTable
  /-- The text is no manifest. -/
  | manifest
deriving DecidableEq, Repr

namespace ConfigurationError

/-- The wording of each cause. -/
def message : ConfigurationError → String
  | .emptyName field => "`" ++ field ++ "` must not be empty"
  | .invalidIdentifier field value =>
    "`" ++ field ++ "` is not a valid name: " ++ Text.quotedString value
  | .identicalNames name => "old and new names are identical: " ++ name
  | .duplicateKey owner member => "duplicate mapping for " ++ owner ++ "." ++ member
  | .chainedMapping owner member =>
    "mapping target " ++ owner ++ "." ++ member
      ++ " is also mapped; chained mappings are not allowed"
  | .emptyTable => "mapping table is empty"
  | .manifest => "malformed manifest:"

end ConfigurationError

end Migration
