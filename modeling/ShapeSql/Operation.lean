namespace ShapeSql

inductive Operation where
  | select | insert | update | delete | upsert | sync
  deriving DecidableEq, Repr, Inhabited

def Operation.name : Operation → String
  | .select => "Select"
  | .insert => "Insert"
  | .update => "Update"
  | .delete => "Delete"
  | .upsert => "Upsert"
  | .sync => "Sync"

/-- The kind of result: one entity, a list of them, a number of rows, the number of rows changed,
or nothing. -/
inductive Output where
  | one | many | count | affected | nothing
  deriving DecidableEq, Repr, Inhabited

def Output.name : Output → String
  | .one => "One"
  | .many => "Many"
  | .count => "Count"
  | .affected => "Affected"
  | .nothing => "Nothing"

/-- Whether an operation has a result of this kind. -/
def Operation.allows : Operation → Output → Bool
  | .select, .one | .select, .many | .select, .count => true
  | .insert, .count | .upsert, .count | .sync, .count => false
  | .insert, _ | .upsert, _ | .sync, _ => true
  | .update, .affected | .update, .nothing => true
  | .delete, .affected | .delete, .nothing => true
  | _, _ => false

end ShapeSql
