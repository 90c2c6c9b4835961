import Retouch.Runner

/-! Commands, and what the program takes from libraries to carry them out: how the command
line is understood, how a text of settings is understood, and how a difference is
shown. -/

namespace Retouch.Cli

/-- What `run` is asked to do (`RunArgs`). -/
structure RunOptions where
  file : OsString
  root : Option OsString
  codemod : Option String
  cursor : Option Cursor
  diff : Bool
  suffixOnly : Bool
  deriving DecidableEq, Repr

/-- What `list` is asked to do (`ListArgs`). -/
structure ListOptions where
  root : Option OsString
  suffixOnly : Bool
  paths : Bool
  deriving DecidableEq, Repr

inductive Command where
  | run (o : RunOptions)
  | list (o : ListOptions)
  deriving DecidableEq, Repr

/-- What is printed, and the exit code, where there is no command to carry out. -/
structure Farewell where
  code : UInt32
  out : String
  err : String
  deriving DecidableEq, Repr

structure Libraries where
  /-- The command that arguments ask for. -/
  command : List OsString → Except Farewell Command
  /-- The settings in a text, or what is wrong with it. -/
  settings : String → Except String Settings
  /-- How a file of some name changes from one text to another. -/
  difference : String → String → String → String

end Retouch.Cli
