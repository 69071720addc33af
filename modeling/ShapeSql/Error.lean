import ShapeSql.Operation
import ShapeSql.Value.Basic

namespace ShapeSql

/-- Why a schema declaration is refused. -/
inductive SchemaFault where
  | stated (text : String)
  | tableTwice (table : String)
  | columnTwice (column table : String)
  | unknownTarget (table target : String)
  | unknownTargetColumn (table target column : String)
  | unpaired (table : String) (own referenced : Nat) (target : String)
  | unknownKeyColumn (column table : String)
  | absent
  deriving DecidableEq, Repr

/-- Why a directive, a specification or an option is refused. -/
inductive AttributeFault where
  | stated (text : String)
  | likeWithInequality (path : Path)
  | offsetAndFetch (path : Path)
  | pagingNotInteger (path : Path)
  | mixedRoles (path : Path)
  | viaAndJoin (path : Path)
  | emptyHop (via : String) (field : Path)
  | singleHop (via : String) (field : Path)
  | severalResults
  | argumentTwice (name : String)
  | countOutsideSelect
  | severalOffsets
  | severalFetches
  | severalDynamicOrders
  | setOutsideUpdate (path : Path)
  | orderOutsideSelect (operation : Operation)
  | noTarget
  | unavailable (operation : Operation) (output : Output)
  | viaOnScalarOutput (path : Path)
  | joinOutsideSelect (path : Path)
  | viaOnNestedFilter (path : Path)
  | filterCollection (path : Path)
  | pagedCount
  | pagingWithoutKey (table : String)
  | pagedByCollection (path node : Path)
  | deleteWithoutKey (table : String)
  | entityWithoutKey (entity : Path) (column : String)
  | setNotScalar (path : Path)
  | updateWithoutEntity (table : String)
  | updateWithoutKey (table : String)
  | nothingToUpdate (entity : Path)
  | viaWritten (path : Path)
  | entityCount (operation : Operation) (found : Nat)
  | entityNotRecord (operation : Operation) (path : Path)
  | entityElsewhere (operation : Operation) (path : Path) (found wanted : String)
  | returningWithoutKey (table : String)
  | returningWithoutShape
  | emptyWindowAlias
  deriving DecidableEq, Repr

/-- What a name was expected to denote. -/
inductive Expected where
  | stated (text : String)
  | table (name : String)
  | column (name table : String)
  | shape (name : String)
  | foreignKey (left right : String)
  | navigation (path : Path)
  | hop (name start : String)
  | qualifiedColumn (table column : String)
  | within (via : String) (expected : Expected)
  deriving DecidableEq, Repr

/-- Why an argument value is refused. -/
inductive ArgumentFault where
  | stated (text : String)
  | notDirection (text : String)
  | pagingNull (path : Path)
  | nothingAssigned
  | orderWithoutColumn (path : Path)
  | noRows (path : Path)
  | severalRows (path : Path) (found : Nat)
  | notRecord (kind : Kind)
  deriving DecidableEq, Repr

/-- Refusals outside every kind. -/
inductive Incident where
  | stated (text : String)
  | raggedRow (row values columns : Nat)
  | missingResultColumn (name : String)
  | rootsDiffer (left right : String)
  | conflictingJoins (path : Path)
  | noCompiler
  | noDriver
  deriving DecidableEq, Repr

inductive Cause where
  | incident (what : Incident)
  | foreign (text : String)
  | ambiguousRelation (parent child : String) (candidates : List String)
  | driver (text : String) (sources : List String)
  | badArgument (fault : ArgumentFault)
  | badAttribute (fault : AttributeFault)
  | badName (path : String) (expected : Expected)
  | badSchema (fault : SchemaFault)
  | conversion (value : Kind) (target : String)
  deriving DecidableEq, Repr

/-- A cause and, outermost first, what it happened under. -/
structure Error where
  cause : Cause
  under : List Cause
  deriving DecidableEq, Repr

def SchemaFault.message : SchemaFault → String
  | .stated text => text
  | .tableTwice table => s!"table `{table}` declared more than once"
  | .columnTwice column table => s!"column `{column}` declared more than once on table `{table}`"
  | .unknownTarget table target => s!"foreign key on `{table}` references unknown table `{target}`"
  | .unknownTargetColumn table target column =>
    s!"foreign key on `{table}` references unknown column `{target}.{column}`"
  | .unpaired table own referenced target =>
    s!"foreign key on `{table}` pairs {own} column(s) with {referenced} column(s) of `{target}`"
  | .unknownKeyColumn column table => s!"foreign key column `{column}` not found on `{table}`"
  | .absent => "the compiler requires a schema"

def AttributeFault.message : AttributeFault → String
  | .stated text => text
  | .likeWithInequality path => s!"`{path}` combines a LIKE directive with an inequality"
  | .offsetAndFetch path => s!"`{path}` is marked both offset and fetch"
  | .pagingNotInteger path => s!"paging argument `{path}` must be an integer"
  | .mixedRoles path => s!"`{path}` mixes order-by, paging and set directives"
  | .viaAndJoin path => s!"`{path}` declares both a via-relation and a join-relation path"
  | .emptyHop via field => s!"via-relation `{via}` on `{field}` has an empty hop"
  | .singleHop via field => s!"via-relation `{via}` on `{field}` needs at least two hops"
  | .severalResults => "a query specification declares more than one result kind"
  | .argumentTwice name => s!"argument `{name}` declared more than once"
  | .countOutsideSelect => "a count result is only available for select"
  | .severalOffsets => "more than one `offset` argument"
  | .severalFetches => "more than one `fetch` argument"
  | .severalDynamicOrders => "more than one dynamic order-by argument"
  | .setOutsideUpdate path => s!"SET argument `{path}` outside an update"
  | .orderOutsideSelect operation =>
    "ordering and paging arguments are only valid for select, not " ++ operation.name
  | .noTarget =>
    "cannot infer the target table: declare a table or an output shape mapped to one"
  | .unavailable operation output => operation.name ++ " cannot return " ++ output.name
  | .viaOnScalarOutput path => s!"via-relation on scalar output field `{path}`"
  | .joinOutsideSelect path => s!"join-relation filter `{path}` is only valid for select"
  | .viaOnNestedFilter path => s!"via-relation on nested filter `{path}`"
  | .filterCollection path => s!"filter `{path}` is a collection of records"
  | .pagedCount => "a count cannot be paged"
  | .pagingWithoutKey table => s!"paging across joins requires a primary key on `{table}`"
  | .pagedByCollection path node => s!"`{path}` orders a paged query by the collection `{node}`"
  | .deleteWithoutKey table => s!"deleting entities requires a primary key on `{table}`"
  | .entityWithoutKey entity column => s!"entity `{entity}` does not supply key column `{column}`"
  | .setNotScalar path => s!"SET argument `{path}` is not a scalar"
  | .updateWithoutEntity table =>
    s!"update of `{table}` needs SET arguments or a single entity argument"
  | .updateWithoutKey table => s!"update by entity requires a primary key on `{table}`"
  | .nothingToUpdate entity => s!"entity `{entity}` supplies no column to update"
  | .viaWritten path => s!"via-relation field `{path}` cannot be written"
  | .entityCount operation found =>
    operation.name ++ s!" requires exactly one entity argument, found {found}"
  | .entityNotRecord operation path => operation.name ++ s!" argument `{path}` is not a record"
  | .entityElsewhere operation path found wanted =>
    operation.name ++ s!" argument `{path}` maps to `{found}`, not `{wanted}`"
  | .returningWithoutKey table =>
    s!"returning rows from a write requires a primary key on `{table}`"
  | .returningWithoutShape => "a returning write needs an output shape"
  | .emptyWindowAlias => "the key window alias is empty"

def Expected.message : Expected → String
  | .stated text => text
  | .table name => s!"table `{name}`"
  | .column name owner => s!"column `{name}` on table `{owner}`"
  | .shape name => s!"shape `{name}` is not registered"
  | .foreignKey left right => s!"foreign key between `{left}` and `{right}`"
  | .navigation path => s!"navigation `{path}`"
  | .hop name start => s!"hop `{name}` (expected table `{start}`)"
  | .qualifiedColumn owner name => s!"column `{owner}.{name}`"
  | .within via expected => expected.message ++ s!" in via-relation `{via}`"

def ArgumentFault.message : ArgumentFault → String
  | .stated text => text
  | .notDirection text => s!"`{text}` is not a sort direction"
  | .pagingNull path => s!"paging argument `{path}` is null"
  | .nothingAssigned => "every SET argument was ignored; the update has nothing to assign"
  | .orderWithoutColumn path => s!"order-by argument `{path}` is missing `column`"
  | .noRows path => s!"`{path}` must hold at least one row"
  | .severalRows path found => s!"`{path}` is a single entity, got {found} rows"
  | .notRecord kind => "arguments must be a record, got " ++ kind.name

def Incident.message : Incident → String
  | .stated text => text
  | .raggedRow row values columns => s!"row {row} has {values} values for {columns} columns"
  | .missingResultColumn name => s!"result set has no column `{name}`"
  | .rootsDiffer left right => s!"cannot merge relations rooted at `{left}` and `{right}`"
  | .conflictingJoins path => s!"conflicting joins for `{path}` while merging relations"
  | .noCompiler => "a Db requires a compiler"
  | .noDriver => "a Db requires a driver"

/-- The wording of a cause, without the causes around it. -/
def Cause.message : Cause → String
  | .incident what => what.message
  | .foreign text => text
  | .ambiguousRelation parent child candidates =>
    let names := ", ".intercalate candidates
    s!"ambiguous relation between `{parent}` and `{child}`: junction candidates [{names}]"
  | .driver text sources => ": ".intercalate (text :: sources)
  | .badArgument fault => "invalid argument: " ++ fault.message
  | .badAttribute fault => "invalid attribute: " ++ fault.message
  | .badName path expected => s!"invalid identifier `{path}`: " ++ expected.message
  | .badSchema fault => "invalid schema: " ++ fault.message
  | .conversion value target => "cannot convert " ++ value.name ++ s!" to {target}"

/-- What an error can be tested for. -/
inductive ErrorKind where
  | ambiguousRelation | driver | invalidArgument | invalidAttribute | invalidIdentifier
  | invalidSchema | typeConversion | other
  deriving DecidableEq, Repr

def Cause.kind : Cause → ErrorKind
  | .incident _ | .foreign _ => .other
  | .ambiguousRelation _ _ _ => .ambiguousRelation
  | .driver _ _ => .driver
  | .badArgument _ => .invalidArgument
  | .badAttribute _ => .invalidAttribute
  | .badName _ _ => .invalidIdentifier
  | .badSchema _ => .invalidSchema
  | .conversion _ _ => .typeConversion

/-- The text of the failure a cause wraps, for those that wrap one. -/
def Cause.source? : Cause → Option String
  | .foreign text => some text
  | .driver text sources => some (": ".intercalate (text :: sources))
  | _ => none

namespace Error

def of (cause : Cause) : Error := ⟨cause, []⟩

def incident (what : Incident) : Error := of (.incident what)

def badArgument (fault : ArgumentFault) : Error := of (.badArgument fault)

def badAttribute (fault : AttributeFault) : Error := of (.badAttribute fault)

def badName (path : String) (expected : Expected) : Error := of (.badName path expected)

def badSchema (fault : SchemaFault) : Error := of (.badSchema fault)

def conversion (value : Value) (target : String) : Error := of (.conversion value.kind target)

/-- The error seen from a wider context: `cause` comes first, what happened follows it. -/
def context (e : Error) (cause : Cause) : Error := ⟨cause, e.cause :: e.under⟩

/-- The wording of every cause, outermost first. -/
def message (e : Error) : String :=
  ": ".intercalate ((e.cause :: e.under).map Cause.message)

def kind (e : Error) : ErrorKind := e.cause.kind

def source? (e : Error) : Option String := e.cause.source?

end Error

/-- The integer a value holds. -/
def Value.toInt64 : Value → Except Error Int64
  | .i32 n => .ok n.toInt64
  | .i64 n => .ok n
  | v => .error (.conversion v "i64")

/-- The text a value holds. -/
def Value.toText : Value → Except Error String
  | .text s => .ok s
  | v => .error (.conversion v "String")

end ShapeSql
