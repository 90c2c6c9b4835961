import Retouch.Text.Classes
import Retouch.Text.OsString

/-! What can go wrong on the way from a script to an edited buffer, and the words
for it. -/

namespace Retouch

/-- An exception of a script (`ScriptError`). A stack of blanks only is no stack. -/
structure ScriptError where
  message : String
  stack : Option String
  deriving DecidableEq, Repr

namespace ScriptError

def plain (message : String) : ScriptError := ⟨message, none⟩

def isBlankText (s : String) : Bool := s.toList.all Text.isBlank

def withStack (e : ScriptError) (stack : Option String) : ScriptError :=
  { e with stack := stack.filter (!isBlankText ·) }

/-- The message for the user, with the stack if there is one (`user_message`). -/
def userMessage (e : ScriptError) : String :=
  match e.stack with
  | some stack =>
    "Transform error:\n" ++ e.message ++ "\n" ++ String.ofList (Text.trimEnd stack.toList)
  | none => "Transform error:\n" ++ e.message

end ScriptError

/-- Why no transform could be had (`CodemodError`). -/
inductive Failure where
  | io (reason : String)
  | settings (path : OsString) (reason : String)
  | load (path : OsString) (error : ScriptError)
  | notCallable (path : OsString)
  deriving DecidableEq, Repr

namespace Failure

def notCallableReason : String := "exported value is not callable"

def message : Failure → String
  | io reason => "I/O error: " ++ reason
  | settings path reason => "Invalid config " ++ OsString.shown path ++ ": " ++ reason
  | load path error => "Failed to load codemod " ++ OsString.shown path ++ ": " ++ error.message
  | notCallable path => "Codemod " ++ OsString.shown path ++ ": " ++ notCallableReason

/-- The exception behind a failure, or the failure told as one (`script_error`). -/
def scriptError : Failure → ScriptError
  | load _ error => error
  | notCallable _ => .plain notCallableReason
  | other => .plain other.message

end Failure

end Retouch
