import Clausify.Solver.Launch

/-!
Scripts: programs that a store can hold. A script is a list of commands, on lines of their own or
with semicolons between them. `echo` prints its words and a line break, `printf` prints one text,
both to the output, to the errors with `>&2`, or to a file with `>`; `exit` ends the script with
a status. A word may stand between quotes, and `$1` to `$9` stand for the arguments of the script.
Other commands do nothing.
-/

namespace Clausify.Script

/-- Puts arguments in place of their numbers. -/
def expand (arguments : List String) : List Char → List Char
  | '$' :: d :: rest =>
    if d.isDigit && d ≠ '0' then
      ((arguments[d.toNat - '1'.toNat]?).getD "").toList ++ expand arguments rest
    else '$' :: d :: expand arguments rest
  | c :: rest => c :: expand arguments rest
  | [] => []

/-- Splits a line into words and the marks between commands, which are `none`. `quote` is the
quotation mark that is open and `word` the word so far, if one has begun. -/
def wordsFrom (quote : Option Char) (word : Option (List Char)) :
    List Char → List (Option String)
  | [] => (word.map fun w => some (String.ofList w)).toList
  | c :: rest =>
    let soFar := word.getD []
    if quote.isSome then
      if quote = some c then wordsFrom none (some soFar) rest
      else wordsFrom quote (some (soFar ++ [c])) rest
    else if c = '\'' || c = '"' then wordsFrom (some c) (some soFar) rest
    else if c = ' ' || c = '\t' then
      (word.map fun w => some (String.ofList w)).toList ++ wordsFrom none none rest
    else if c = ';' || c = '\n' then
      (word.map fun w => some (String.ofList w)).toList ++ none :: wordsFrom none none rest
    else wordsFrom none (some (soFar ++ [c])) rest

/-- The commands of a script as lists of words; lines that start with `#` are left out. -/
def commands (arguments : List String) (text : String) : List (List String) :=
  let lines := (Text.linesOf text.toList).filter fun line => line.head? ≠ some '#'
  let words := wordsFrom none none (expand arguments (lines.flatMap fun line => line ++ ['\n']))
  (Text.splitAt none words).map fun command => command.filterMap id

/-- Text with the escapes of printing commands resolved. -/
def unescape : List Char → List Char
  | '\\' :: 'n' :: rest => '\n' :: unescape rest
  | '\\' :: 't' :: rest => '\t' :: unescape rest
  | '\\' :: '\\' :: rest => '\\' :: unescape rest
  | c :: rest => c :: unescape rest
  | [] => []

/-- The words of a command before a redirection, and its target. -/
def redirection : List String → List String × Option String
  | [] => ([], none)
  | [word] =>
    if word.startsWith ">" then ([], some (String.ofList (word.toList.drop 1))) else ([word], none)
  | word :: next :: rest =>
    if word = ">" then ([], some next)
    else if word.startsWith ">" then ([], some (String.ofList (word.toList.drop 1)))
    else
      let (words, target) := redirection (next :: rest)
      (word :: words, target)

/-- Adds a text to where it is redirected; of files only the model file is kept. -/
def emit (modelPath text : String) (target : Option String) (reply : ProgramReply) :
    ProgramReply :=
  match target with
  | none => { reply with output := reply.output ++ text }
  | some "&2" => { reply with errors := reply.errors ++ text }
  | some path => if path = modelPath then { reply with model := .ok text.toUTF8 } else reply

/-- Runs commands in order, up to the one that exits. -/
def runCommands (modelPath : String) : List (List String) → ProgramReply → ProgramReply
  | [], reply => reply
  | command :: rest, reply =>
    let (words, target) := redirection command
    match words with
    | ["exit"] => reply
    | "exit" :: status :: _ => { reply with exitCode := status.toNat?.getD 0 % 256 }
    | "echo" :: texts =>
      let text := String.ofList (unescape (" ".intercalate texts).toList) ++ "\n"
      runCommands modelPath rest (emit modelPath text target reply)
    | "printf" :: text :: _ =>
      runCommands modelPath rest
        (emit modelPath (String.ofList (unescape text.toList)) target reply)
    | _ => runCommands modelPath rest reply

/-- What a script leaves behind; the last argument names the model file, which starts empty. -/
def run (text : String) (arguments : List String) : ProgramReply :=
  runCommands (arguments.getLast?.getD "") (commands arguments text)
    { model := .ok ByteArray.empty }

end Clausify.Script

namespace Clausify

/-- The launcher whose programs are the scripts of a store. -/
def Launcher.ofScripts (store : Store) : Launcher where
  reply path arguments :=
    Script.run (((store.content? path).map Text.decode).getD "") arguments

end Clausify
