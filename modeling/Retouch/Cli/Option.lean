import Retouch.Cli.Cursor

/-! The options of the command line, and what is wrong with arguments. -/

namespace Retouch.Cli

inductive Opt where
  | debug
  | profile
  | help
  | version
  | root
  | codemod
  | cursor
  | diff
  | suffixOnly
  | paths
  deriving DecidableEq, Repr

namespace Opt

def long : Opt → String
  | debug => "debug"
  | profile => "profile"
  | help => "help"
  | version => "version"
  | root => "root"
  | codemod => "codemod"
  | cursor => "cursor"
  | diff => "diff"
  | suffixOnly => "suffix-only"
  | paths => "paths"

def short? : Opt → Option Char
  | debug => some 'd'
  | help => some 'h'
  | version => some 'V'
  | codemod => some 'c'
  | _ => none

/-- What stands for the value of an option that has one. -/
def value? : Opt → Option String
  | profile => some "PATH"
  | root => some "DIR"
  | codemod => some "NAME"
  | cursor => some "LINE:COL"
  | _ => none

/-- Whether the value is a path, which is never empty. -/
def isPath : Opt → Bool
  | profile => true
  | root => true
  | _ => false

/-- An option as messages show it. -/
def shown (o : Opt) : String :=
  match o.value? with
  | some v => "--" ++ o.long ++ " <" ++ v ++ ">"
  | none => "--" ++ o.long

end Opt

/-- Where an argument stands: before a command, or behind one. -/
inductive Level where
  | top
  | run
  | list
  deriving DecidableEq, Repr

namespace Level

/-- The options that are known at a level. -/
def options : Level → List Opt
  | top => [.debug, .profile, .help, .version]
  | run => [.root, .codemod, .cursor, .diff, .suffixOnly, .debug, .profile, .help]
  | list => [.root, .suffixOnly, .paths, .debug, .profile, .help]

def ofLong? (l : Level) (name : String) : Option Opt := l.options.find? (·.long = name)

def ofShort? (l : Level) (c : Char) : Option Opt := l.options.find? (·.short? = some c)

/-- Commands by their names. -/
def ofName? : String → Option Level
  | "run" => some run
  | "r" => some run
  | "list" => some list
  | "ls" => some list
  | _ => none

end Level

inductive UsageError where
  | unexpected (argument : String)
  | unknownCommand (name : String)
  | noCommand
  | noFile
  | noValue (o : Opt)
  | needlessValue (o : Opt) (value : String)
  | repeated (o : Opt)
  | badCursor (text : String) (fault : CursorFault)
  | notText
  deriving DecidableEq, Repr

namespace UsageError

def reason : UsageError → String
  | unexpected a => "unexpected argument '" ++ a ++ "' found"
  | unknownCommand name => "unrecognized subcommand '" ++ name ++ "'"
  | noCommand => "a subcommand is required but one was not provided"
  | noFile => "the following required arguments were not provided:\n  <FILE>"
  | noValue o => "a value is required for '" ++ o.shown ++ "' but none was supplied"
  | needlessValue o v =>
    "unexpected value '" ++ v ++ "' for '" ++ o.shown ++ "' found; no more were expected"
  | repeated o => "the argument '" ++ o.shown ++ "' cannot be used multiple times"
  | badCursor text fault =>
    "invalid value '" ++ text ++ "' for '" ++ Opt.cursor.shown ++ "': " ++ fault.message
  | notText => "invalid UTF-8 was detected in one or more arguments"

def message (e : UsageError) : String :=
  "error: " ++ e.reason ++ "\n\nFor more information, try '--help'.\n"

end UsageError

end Retouch.Cli
