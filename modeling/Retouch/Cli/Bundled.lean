import Retouch.Cli.Arguments
import Retouch.Cli.Execute
import Retouch.Diff.Hunk
import Retouch.Settings.Read

/-! The libraries that the program comes with. -/

namespace Retouch.Cli

/-- Settings from a text. What is wrong with one that has a fault is not told. -/
def settingsOf (text : String) : Except String Settings :=
  match Settings.ofText text with
  | some s => .ok s
  | none => .error "invalid settings"

def Libraries.bundled : Libraries := ⟨commandOf, settingsOf, Diff.unified⟩

end Retouch.Cli
