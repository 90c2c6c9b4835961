/-! The four source dialects, and the names by which each may be asked for. -/

namespace Retouch.Syntax

inductive Dialect where
  | js
  | jsx
  | ts
  | tsx
  deriving DecidableEq, Repr

namespace Dialect

/-- The name under which a dialect is reported. -/
def name : Dialect → String
  | js => "js"
  | jsx => "jsx"
  | ts => "ts"
  | tsx => "tsx"

/-- A dialect by any of its names (`from_name`); case matters. -/
def ofName? : String → Option Dialect
  | "js" | "javascript" => some js
  | "jsx" | "babel" | "babylon" | "flow" => some jsx
  | "ts" | "typescript" => some ts
  | "tsx" => some tsx
  | _ => none

/-- Whether the dialect has type annotations and their words (`is_typed`). -/
def isTyped : Dialect → Bool
  | ts | tsx => true
  | js | jsx => false

/-- Whether the dialect has element syntax (`has_jsx`). -/
def hasElements : Dialect → Bool
  | jsx | tsx => true
  | js | ts => false

end Dialect

end Retouch.Syntax
