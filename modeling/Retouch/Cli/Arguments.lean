import Retouch.Cli.Option

/-! Reading the command line. Options and words may be mixed; a word follows an
option as its value; two dashes end the options. Arguments are taken from left to
right, and the first thing that is wrong counts. -/

namespace Retouch.Cli

/-- Why reading ends before the arguments do: a question that can be answered at
once, or an error. -/
inductive Halt where
  | help (topic : Level)
  | version
  | usage (e : UsageError)
  deriving DecidableEq, Repr

/-- What was given at a level. -/
structure Given where
  values : List (Opt × String)
  cursor : Option Cursor
  file : Option String
  deriving DecidableEq, Repr

namespace Given

def nothing : Given := ⟨[], none, none⟩

def has (g : Given) (o : Opt) : Bool := g.values.any (·.1 = o)

def value? (g : Given) (o : Opt) : Option String := (g.values.find? (·.1 = o)).map (·.2)

/-- Take an option with its value, which is empty if it has none. -/
def accept (g : Given) (o : Opt) (v : String) : Except Halt Given :=
  if g.has o then .error (.usage (.repeated o))
  else if o.isPath && v = "" then .error (.usage (.noValue o))
  else
    let g' := { g with values := g.values ++ [(o, v)] }
    if o = .cursor then
      match readCursor v with
      | .ok c => .ok { g' with cursor := some c }
      | .error f => .error (.usage (.badCursor v f))
    else .ok g'

/-- Take an option without a value. -/
def acceptFlag (g : Given) (level : Level) (o : Opt) : Except Halt Given :=
  match o with
  | .help => .error (.help level)
  | .version => .error .version
  | o => g.accept o ""

/-- Take a word that is no value. -/
def acceptWord (g : Given) (level : Level) (word : String) : Except Halt Given :=
  if level = .run && g.file.isNone then
    if word = "" then .error (.usage .noFile) else .ok { g with file := some word }
  else .error (.usage (.unexpected word))

end Given

/-- An option that waits for its value, or whose value is still to be taken. -/
inductive Pending where
  | nothing
  | option (o : Opt) (value : Option String)
  deriving DecidableEq, Repr

namespace Pending

def resolve (p : Pending) (g : Given) : Except Halt Given :=
  match p with
  | nothing => .ok g
  | option o none => .error (.usage (.noValue o))
  | option o (some v) => g.accept o v

end Pending

/-- The shape of an argument. A single dash is a word. -/
inductive Shape where
  | long (name : String) (value : Option String)
  | short (letters : List Char)
  | word
  deriving DecidableEq, Repr

def Shape.of (arg : String) : Shape :=
  match arg.toList with
  | '-' :: '-' :: cs =>
    match cs.span (· ≠ '=') with
    | (name, []) => .long (String.ofList name) none
    | (name, _ :: value) => .long (String.ofList name) (some (String.ofList value))
  | '-' :: c :: cs => .short (c :: cs)
  | _ => .word

/-- Options that share a dash. The first one with a value takes the rest for it. -/
def readShort (level : Level) (arg : String) (g : Given) (p : Pending) :
    List Char → Except Halt (Given × Pending)
  | [] => .ok (g, p)
  | c :: cs =>
    match level.ofShort? c with
    | none => .error (.usage (.unexpected arg))
    | some o => do
      let g ← p.resolve g
      if o.value?.isNone then
        let g ← g.acceptFlag level o
        readShort level arg g .nothing cs
      else
        match cs with
        | [] => return (g, .option o none)
        | '=' :: v => return (← g.accept o (String.ofList v), .nothing)
        | v => return (← g.accept o (String.ofList v), .nothing)

/-- A long option. -/
def readLong (level : Level) (arg : String) (g : Given) (p : Pending) (name : String)
    (value : Option String) : Except Halt (Given × Pending) :=
  match level.ofLong? name with
  | none => .error (.usage (.unexpected arg))
  | some o =>
    match o.value?, value with
    | none, some v => .error (.usage (.needlessValue o v))
    | none, none => do return (← (← p.resolve g).acceptFlag level o, .nothing)
    | some _, some v => do return (← (← p.resolve g).accept o v, .nothing)
    | some _, none => do return (← p.resolve g, .option o none)

/-- Words behind two dashes. -/
def readWords (level : Level) (g : Given) (p : Pending) : List String → Except Halt Given
  | [] => p.resolve g
  | word :: rest => do
    let g ← p.resolve g
    readWords level (← g.acceptWord level word) .nothing rest

/-- The arguments of one level. Before a command they end with the first word that
is no value; that word and the rest are left. -/
def readLevel (level : Level) (g : Given) (p : Pending) :
    List String → Except Halt (Given × List String)
  | [] => do return (← p.resolve g, [])
  | arg :: rest =>
    if arg = "--" then do return (← readWords level g p rest, [])
    else
      match Shape.of arg with
      | .long name value => do
        let (g, p) ← readLong level arg g p name value
        readLevel level g p rest
      | .short letters => do
        let (g, p) ← readShort level arg g p letters
        readLevel level g p rest
      | .word =>
        match p with
        | .option o none => readLevel level g (.option o (some arg)) rest
        | p => do
          if level = .top then return (← p.resolve g, arg :: rest)
          else if level = .run && g.file.isNone then
            let g ← p.resolve g
            readLevel level (← g.acceptWord level arg) .nothing rest
          else .error (.usage (.unexpected arg))

/-- What help is asked for. -/
def helpTopic : List String → Halt
  | [] => .help .top
  | ["help"] => .help .top
  | [name] =>
    match Level.ofName? name with
    | some level => .help level
    | none => .usage (.unknownCommand name)
  | _ :: name :: _ => .usage (.unknownCommand name)

/-- A command from its own arguments. -/
def readCommand (level : Level) (args : List String) : Except Halt Command := do
  let (g, _) ← readLevel level .nothing .nothing args
  match level, g.file with
  | .run, none => .error (.usage .noFile)
  | .run, some file =>
    return .run ⟨.ofText file, (g.value? .root).map .ofText, g.value? .codemod, g.cursor,
      g.has .diff, g.has .suffixOnly⟩
  | _, _ => return .list ⟨(g.value? .root).map .ofText, g.has .suffixOnly, g.has .paths⟩

def readArguments (args : List String) : Except Halt Command := do
  let (_, rest) ← readLevel .top .nothing .nothing args
  match rest with
  | [] => .error (.usage .noCommand)
  | "help" :: args => .error (helpTopic args)
  | name :: args =>
    match Level.ofName? name with
    | some level => readCommand level args
    | none => .error (.usage (.unknownCommand name))

/-! ### What is printed instead -/

def printLines (ls : List String) : String := String.join (ls.map (· ++ "\n"))

def versionText : String := "codemod 0.1.0\n"

def helpText : Level → String
  | .top => printLines [
      "Run project-local codemod scripts",
      "",
      "Usage: codemod <COMMAND>",
      "",
      "Commands:",
      "  run   Apply a codemod to a file",
      "  list  List available codemods",
      "  help  Print this message or the help of the given subcommand(s)",
      "",
      "Options:",
      "  -h, --help     Print help",
      "  -V, --version  Print version"]
  | .run => printLines [
      "Apply a codemod from the project's codemods/ directory to a file",
      "",
      "Usage: codemod run [OPTIONS] <FILE>",
      "",
      "Arguments:",
      "  <FILE>  File to transform",
      "",
      "Options:",
      "      --root <DIR>         Project root. Defaults to the nearest ancestor of FILE holding",
      "                           codemod.toml, codemods/ or .git",
      "  -c, --codemod <NAME>     Codemod to apply, by file name with or without extension",
      "      --cursor <LINE:COL>  Cursor handed to the codemod: 1-based line, 0-based column",
      "      --diff               Print a unified diff instead of writing the file",
      "      --suffix-only        Only consider scripts named <name>.<suffix>.<ext>",
      "  -h, --help               Print help"]
  | .list => printLines [
      "List the codemods available in the project",
      "",
      "Usage: codemod list [OPTIONS]",
      "",
      "Options:",
      "      --root <DIR>   Project root. Defaults to the nearest ancestor of the current",
      "                     directory holding codemod.toml, codemods/ or .git",
      "      --suffix-only  Only consider scripts named <name>.<suffix>.<ext>",
      "      --paths        Print absolute script paths instead of file names",
      "  -h, --help         Print help"]

def Halt.farewell : Halt → Farewell
  | .help topic => ⟨0, helpText topic, ""⟩
  | .version => ⟨0, versionText, ""⟩
  | .usage e => ⟨2, "", e.message⟩

/-- The command that is asked for. Arguments have to be text. -/
def commandOf (args : List OsString) : Except Farewell Command :=
  match args.mapM OsString.text? with
  | none => .error (Halt.usage .notText).farewell
  | some texts => (readArguments texts).mapError Halt.farewell

end Retouch.Cli
