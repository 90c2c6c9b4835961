import Retouch.Notation.Item

/-! Evaluating expressions and statements. -/

namespace Retouch.Notation
open Syntax Toolkit

/-- Where a statement runs. -/
structure Site where
  scope : Scope
  /-- The arguments inside a transform, with the dialect of the toolkit among them. -/
  call : Option (Dialect × Invocation)
  deriving Repr

/-! ### Edits of the source -/

/-- Perform operations on a source up to the first that fails, and print it. -/
def edited (d : Dialect) (source : String) (steps : List (Nat × Operation Unit)) :
    Except Fault Wide :=
  go (Workbench.start (.ofDialect d) source ()).1 steps
where
  go (w : Workbench Unit) : List (Nat × Operation Unit) → Except Fault Wide
    | [] => (w.documentOf ⟨0, []⟩).print w.scene
    | (register, op) :: rest =>
      match w.step register op with
      | (_, .failed f) => .error f
      | (w', _) => go w' rest

/-- The identifier named by a text backwards; only text can be turned round. -/
def reversedIdentifier : Value → Except Fault Value
  | .undefined => .error (.unreadable "split" false)
  | .null => .error (.unreadable "split" true)
  | v =>
    match v.wide? with
    | some w => .ok (identifier w.reverse)
    | none => .error .notCallable

/-- The source with the names of its identifiers backwards. -/
def reversed (d : Dialect) (source : String) : Except Fault Wide :=
  edited d source
    [(0, .find (.text "Identifier") .undefined),
     (1, .replaceBy fun s r _ =>
       .answer s.memory ((reversedIdentifier ((s.node r).get "raw")).map .fixed))]

def tokenTypes (d : Dialect) (source : String) : String :=
  " ".intercalate ((tokenize d source).map fun t => nodeType t.kind)

def renamed (d : Dialect) (source before after : String) : Except Fault Wide :=
  edited d source
    [(0, .find (.text "Identifier") (.object [("name", .text before)])),
     (1, .replace (.thing (.fixed (identifier (.text after)))))]

def positionValue : Option (Int × Int) → Value
  | none => .undefined
  | some (line, column) =>
    .object [("line", .number (.ofInt line)), ("column", .number (.ofInt column))]

def cursorReplaced (d : Dialect) (inv : Invocation) (name : String) : Except Fault Wide :=
  edited d inv.source
    [(0, .closest (positionValue inv.position)),
     (1, .replace (.thing (.fixed (identifier (.text name)))))]

/-! ### Expressions -/

/-- The arguments of the transform; outside there are none, under any name. -/
def Site.arguments (s : Site) (name : String) : Prog (Dialect × Invocation) :=
  match s.call with
  | some call => return call
  | none => fail (name ++ " is not defined")

def Site.file (s : Site) : Prog Invocation := return (← s.arguments "file").2

def Site.position (s : Site) : Prog Invocation := return (← s.arguments "position").2

/-- The toolkit and the ways to tell the host something are arguments too. -/
def Site.api (s : Site) : Prog (Dialect × Invocation) := s.arguments "api"

def coordinate (pick : Int × Int → Int) (inv : Invocation) : Item :=
  match inv.position with
  | some p => .text (toString (pick p))
  | none => .text "undefined"

mutual

def Expr.eval (s : Site) : Expr → Prog Item
  | .source => do return .text (← s.file).source
  | .path => do return .text (← s.file).path
  | .parser => do return .text (← s.api).1.name
  | .requiredParser => do (← importItem s.scope.dir "jscodeshift").member "parser"
  | .filename => return .text s.scope.path
  | .dirname => return .text s.scope.dir
  | .line => do return coordinate (·.1) (← s.position)
  | .column => do return coordinate (·.2) (← s.position)
  | .count => do
    let r ← get
    set { r with counter := r.counter + 1 }
    return .data (.number (.ofNat (r.counter + 1)))
  | .reverse => do
    let (d, inv) ← s.api
    return .ofWide (← orFail (reversed d inv.source))
  | .tokenTypes => do
    let (d, inv) ← s.api
    return .text (tokenTypes d inv.source)
  | .literal v => return .data v
  | .special sp => return .special sp
  | .binding name none =>
    match s.scope.bindings.find? (·.1 = name) with
    | some b => return b.2
    | none => fail (name ++ " is not defined")
  | .binding name (some field) =>
    match s.scope.bindings.find? (·.1 = name) with
    | some b => b.2.member field
    | none => fail (name ++ " is not defined")
  | .concat parts => do return .ofWide (.join (← evalTexts s parts))
  | .rename before after => do
    let (d, inv) ← s.api
    return .ofWide (← orFail (renamed d inv.source before after))
  | .cursor name => do
    let (d, inv) ← s.api
    return .ofWide (← orFail (cursorReplaced d inv name))

def evalTexts (s : Site) : List Expr → Prog (List Wide)
  | [] => return []
  | e :: es => do
    let i ← e.eval s
    let text ← orFail (i.toWide (← get))
    return text :: (← evalTexts s es)

end

def evalAll (s : Site) (es : List Expr) : Prog (List Item) := es.mapM (Expr.eval s)

/-! ### Statements -/

def emit (e : Event) : Prog PUnit := .tell e (.done ⟨⟩)

/-- Tell a line, which has to be text proper. -/
def emitLine (level : String) (message : Wide) : Prog PUnit := do
  emit (.line ⟨level, ← orFail (properText message)⟩)

/-- What can be read off a thrown item as its message. -/
def Thrown.messageItem : Thrown → Prog Item
  | .error message => return .ofWide message
  | .item i => i.member "message"

/-- An item as something to count with. -/
def Item.quantity : Item → Quantity
  | .data (.number n) => if (Value.number n).truthy then .number n else .falsy
  | i => if i.truthy then .other else .falsy

/-- Run one statement. It gives what the function returns, if it returns. -/
def Statement.run (s : Site) : Statement → Prog (Option Item)
  | .log level args => do
    let items ← evalAll s args
    let r ← get
    match items.mapM (Item.logText r) with
    | .ok parts => emitLine level (Wide.intercalate " " parts)
    | .error reason => fail reason
    return none
  | .report message => do
    let _ ← s.api
    let i ← message.eval s
    emitLine "report" (← orFail (i.toWide (← get)))
    return none
  | .stats name quantity => do
    let _ ← s.api
    let n ← name.eval s
    let q ← match quantity with
      | some e => e.eval s
      | none => pure .undefined
    let r ← get
    let name ← orFail (n.toWide r)
    if let .error reason := q.plainData r then fail reason
    emit (.count name q.quantity)
    return none
  | .throw value => do .raise (.item (← value.eval s))
  | .throwError none => fail ""
  | .throwError (some message) => do
    let i ← message.eval s
    if i.isUndefined then fail "" else .raise (.error (← orFail (i.toWide (← get))))
  | .return value => do return some (← value.eval s)
  | .require specifier => do
    let _ ← importItem s.scope.dir specifier
    return none
  | .tryRequire specifier =>
    Prog.catching (fun e => do
      let i ← e.messageItem
      match i.logText (← get) with
      | .ok text => emitLine "log" text
      | .error reason => fail reason
      return none) (do
      let _ ← importItem s.scope.dir specifier
      return none)
  | .setExport name value => do
    let i ← value.eval s
    modify (·.setField (.record s.scope.exports) name i)
    return none

/-- Run statements until one returns. -/
def runAll (s : Site) : List Statement → Prog (Option Item)
  | [] => return none
  | st :: rest => do
    match ← st.run s with
    | some i => return some i
    | none => runAll s rest

end Retouch.Notation
