import Turtle.Lexeme

/-!
# Readings

A source of tokens is asked again and again. A `Reading` is one answer, a token or the text that is none, and
the line reached by then. `readings` are the answers of a program text: what separates tokens is passed over,
its line ends are counted, and the last answer is the end of text.
-/

namespace Turtle

structure Reading where
  line : Nat
  answer : Except String Token

namespace Lexeme

/-- The line ends that are counted at a lexeme: where a line ends, and inside a block comment. -/
def lineEnds (l : Lexeme) : Nat :=
  match l.token? with
  | some (.filler .newline) => 1
  | some (.filler .blockComment) => l.text.count '\n'
  | _ => 0

end Lexeme

/-- The answers of a source of which these lexemes are left, on the line reached so far. -/
def readingsOf (line : Nat) : List Lexeme → List Reading
  | [] => [⟨line, .ok .eot⟩]
  | l :: ls =>
    match l.token? with
    | some (.filler _) => readingsOf (line + l.lineEnds) ls
    | some t => ⟨line + l.lineEnds, .ok t⟩ :: readingsOf (line + l.lineEnds) ls
    | none => ⟨line + l.lineEnds, .error (.ofList l.text)⟩ :: readingsOf (line + l.lineEnds) ls

def readings (source : String) : List Reading := readingsOf 1 (lexemes source.toList)

/-- The answers of a source that is no text: the line is the number of requests. -/
def numbered (answers : List (Except String Token)) : List Reading :=
  (answers ++ [Except.ok Token.eot]).mapIdx fun i a => ⟨i + 1, a⟩

end Turtle
