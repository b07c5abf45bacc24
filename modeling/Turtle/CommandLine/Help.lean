import Turtle.CommandLine.Arguments

/-!
# Help

What is written for who asks how the program is called: what it is for, the form of a call, and a line
for each option. The explanations stand below one another, behind the longest option.
-/

namespace Turtle.CommandLine

/-- A line of the help: the letter and the form of an option, and what it is for. -/
structure HelpLine where
  letter : Option Char
  form : String
  purpose : String

namespace HelpLine

def label (h : HelpLine) : String :=
  match h.letter with
  | some c => .ofList ['-', c, ',', ' '] ++ h.form
  | none => "    " ++ h.form

def text (width : Nat) (h : HelpLine) : String :=
  "  " ++ h.label ++ .ofList (List.replicate (width + 2 - h.label.length) ' ') ++ h.purpose ++ "\n"

end HelpLine

def Flag.purpose : Flag → String
  | .file => "Tells turtlec to read the program from a file instead of the argument"
  | .lenient => "Reads variables that were never assigned as 0 instead of failing"
  | .ast => "Prints the parsed program instead of executing it"
  | .verbose => "Increases log output on standard error (-v, -vv, -vvv)"
  | .help => "Print help"
  | .version => "Print version"

def Flag.helpLine (f : Flag) : HelpLine := ⟨f.short?, f.text, f.purpose⟩

def Definition.helpLine : HelpLine :=
  ⟨some 'D', "--define <NAME=VALUE>", "Binds a variable before the program runs, e.g. `-D size=10`"⟩

def helpLines : List HelpLine :=
  [Flag.file.helpLine, Definition.helpLine, Flag.lenient.helpLine, Flag.ast.helpLine, Flag.verbose.helpLine,
    Flag.help.helpLine, Flag.version.helpLine]

def helpWidth : Nat := (helpLines.map fun h => h.label.length).foldl max 0

def help : String :=
  "Compiles a small imperative turtle-graphics language into device commands\n\n" ++
  "Usage: turtlec [OPTIONS] <CONTENTS>\n\n" ++
  "Arguments:\n  <CONTENTS>  \n\n" ++
  "Options:\n" ++ .join (helpLines.map fun h => h.text helpWidth)

example : Flag.ast.helpLine.text 25 =
    "      --ast                  Prints the parsed program instead of executing it\n" := by decide

end Turtle.CommandLine
