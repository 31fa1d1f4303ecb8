import Clausify.Store.Basic

/-!
What a command leaves behind: its exit code, the text on its two streams and the files.
-/

namespace Clausify.Command

structure Outcome where
  exitCode : Nat := 0
  output : String := ""
  errors : String := ""
  store : Store

/-- The line that reports a broken contract. -/
def crashLine (message : String) : String := "panic: " ++ message ++ "\n"

end Clausify.Command
