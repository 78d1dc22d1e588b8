/-!
# Errors of workspaces

Two layers of errors.  A `ServiceError` is the answer to a question that cannot be answered.  A
`WorkspaceError` is what may go wrong with the files of a workspace; asked as a question, each
becomes an error of the first layer.

* `ServiceError.message`, `WorkspaceError.message`: an error in words.
* `WorkspaceError.toService`: the error as the answer to a question.
-/

namespace LuaTyping

/-- Why a question has no answer. -/
inductive ServiceError
  /-- There is no such file. -/
  | notFound (path : String)
  | invalidArgument (reason : String)
  | internal (reason : String)
  deriving DecidableEq, Repr, Inhabited

/-- An error in words. -/
def ServiceError.message : ServiceError → String
  | notFound path => "Not found: " ++ path
  | invalidArgument reason => "Invalid argument: " ++ reason
  | internal reason => "Internal error: " ++ reason

/-- What may go wrong with the files of a workspace. -/
inductive WorkspaceError
  /-- A file cannot be read. -/
  | unreadable
  /-- A text is no configuration. -/
  | malformed
  /-- A configuration makes no sense. -/
  | configuration (reason : String)
  | outsideRoot (path : String)
  | service (e : ServiceError)
  deriving DecidableEq, Repr, Inhabited

namespace WorkspaceError

/-- An error in words. -/
def message : WorkspaceError → String
  | unreadable => "I/O error: the file cannot be read"
  | malformed => "JSON serialization/deserialization error: the text is no configuration"
  | configuration reason => "Invalid configuration: " ++ reason
  | outsideRoot path => "Path " ++ path ++ " is outside the project root"
  | service e => e.message

/-- The error as the answer to a question: a path outside the root is a wrong argument, and what
went wrong inside is an internal error. -/
def toService : WorkspaceError → ServiceError
  | service e => e
  | outsideRoot path => .invalidArgument path
  | e => .internal e.message

end WorkspaceError

end LuaTyping
