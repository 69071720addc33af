import ShapeSql.Compiler

namespace ShapeSql

/-- What can run command text. -/
structure Driver (m : Type → Type) where
  reader : Bound → m Rows
  nonQuery : Bound → m UInt64

structure Session (m : Type → Type) where
  compiler : Compiler
  driver : Driver m

namespace Session

/-- A session needs both of its parts. -/
def build (compiler : Option Compiler) (driver : Option (Driver m)) : Except Error (Session m) :=
  match compiler, driver with
  | none, _ => .error (.incident .noCompiler)
  | some _, none => .error (.incident .noDriver)
  | some compiler, some driver => .ok ⟨compiler, driver⟩

/-- Runs a compiled statement: its rows materialized, or the number of rows changed where that is
the result. -/
def exec [Monad m] [MonadExceptOf BindFailure m] (s : Session m) (compiled : Compiled)
    (args : Value) : m Value := do
  let bound ← MonadExcept.ofExcept (compiled.bind args)
  if compiled.returnsRows then
    let rows ← s.driver.reader bound
    MonadExcept.ofExcept (refuse (compiled.materialize rows))
  else
    let changed ← s.driver.nonQuery bound
    return if compiled.output == .affected then .i64 changed.toInt64 else .null

/-- Compiles a specification and runs it. -/
def execute [Monad m] [MonadExceptOf BindFailure m] (s : Session m) (spec : QuerySpec)
    (args : Value) : m Value := do
  let compiled ← MonadExcept.ofExcept (refuse (s.compiler.compile spec))
  s.exec compiled args

end Session
end ShapeSql
