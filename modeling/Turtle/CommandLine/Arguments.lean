import Turtle.CommandLine.Definition

/-!
# Arguments

The words after the program's name. Flags may stand anywhere before `--`, short ones in one word, and
one word is the source or the name of its file. Words are taken from left to right and the first fault
is reported; a value that stands in a word of its own is looked at when the next word that is known is
taken.
-/

namespace Turtle.CommandLine

inductive Flag
  | file | lenient | ast | verbose | help | version
deriving DecidableEq, Repr

namespace Flag

def all : List Flag := [.file, .lenient, .ast, .verbose, .help, .version]

def long : Flag → String
  | .file => "file" | .lenient => "lenient" | .ast => "ast" | .verbose => "verbose" | .help => "help"
  | .version => "version"

def short? : Flag → Option Char
  | .file => some 'f' | .verbose => some 'v' | .help => some 'h' | .version => some 'V'
  | .lenient | .ast => none

/-- The form in which a message names a flag; dots stand behind the one that can be repeated. -/
def text (f : Flag) : String := "--" ++ f.long ++ if f = .verbose then "..." else ""

def ofLong? (s : String) : Option Flag := all.find? fun f => f.long = s

def ofShort? (c : Char) : Option Flag := all.find? fun f => f.short? = some c

end Flag

inductive UsageError
  | badDefinition (text : String) (defect : Definition.Defect)
  | missingValue
  | missingProgram
  | unexpected (argument : String)
  | unexpectedValue (value : String) (flag : Flag)
  | repeated (flag : Flag)
deriving DecidableEq

namespace UsageError

def text : UsageError → String
  | .badDefinition text defect =>
    "error: invalid value '" ++ text ++ "' for '--define <NAME=VALUE>': " ++ defect.message
  | .missingValue => "error: a value is required for '--define <NAME=VALUE>' but none was supplied"
  | .missingProgram => "error: the following required arguments were not provided:"
  | .unexpected argument => "error: unexpected argument '" ++ argument ++ "' found"
  | .unexpectedValue value flag =>
    "error: unexpected value '" ++ value ++ "' for '" ++ flag.text ++ "' found; no more were expected"
  | .repeated flag => "error: the argument '" ++ flag.text ++ "' cannot be used multiple times"

def message (e : UsageError) : String := .ofList (e.text.toList.takeWhile (· ≠ '\n'))

end UsageError

structure Invocation where
  file : Bool
  lenient : Bool
  ast : Bool
  verbosity : Nat
  definitions : List Definition
  program : String
deriving DecidableEq

inductive Request
  | run (i : Invocation)
  | help
  | version
deriving DecidableEq

/-! ## One word after the other -/

inductive Pending
  | nothing
  /-- The value is to come. -/
  | value
  /-- The value has come and is not yet read. -/
  | text (t : String)
deriving DecidableEq

structure Taken where
  flags : List Flag
  definitions : List Definition
  pending : Pending
  program : Option String

inductive Stop
  | usage (e : UsageError)
  | answer (r : Request)

/-- What such a flag asks for needs no program, and is answered without regard to what stands behind it. -/
def Flag.request? : Flag → Option Request
  | .help => some .help
  | .version => some .version
  | .file | .lenient | .ast | .verbose => none

namespace Taken

def start : Taken := ⟨[], [], .nothing, none⟩

def define (t : Taken) (text : String) : Except Stop Taken :=
  match Definition.ofText text with
  | .ok d => .ok { t with definitions := t.definitions ++ [d], pending := .nothing }
  | .error defect => .error (.usage (.badDefinition text defect))

def settle (t : Taken) : Except Stop Taken :=
  match t.pending with
  | .nothing => .ok t
  | .value => .error (.usage .missingValue)
  | .text s => t.define s

/-- Only the flag for more log lines can be given twice. -/
def flag (t : Taken) (f : Flag) : Except Stop Taken := do
  let t ← t.settle
  if let some r := f.request? then throw (.answer r)
  if f ∈ t.flags ∧ f ≠ .verbose then throw (.usage (.repeated f))
  return { t with flags := f :: t.flags }

def definition (t : Taken) (text : Option String) : Except Stop Taken := do
  let t ← t.settle
  match text with
  | some s => t.define s
  | none => return { t with pending := .value }

def long (t : Taken) (word : List Char) : Except Stop Taken :=
  let name := String.ofList (word.takeWhile (· ≠ '='))
  let value := (word.dropWhile (· ≠ '=')).tail
  let hasValue := '=' ∈ word
  if name = "define" then t.definition (if hasValue then some (.ofList value) else none)
  else
    match Flag.ofLong? name with
    | none => .error (.usage (.unexpected ("--" ++ name)))
    | some f => if hasValue then .error (.usage (.unexpectedValue (.ofList value) f)) else t.flag f

/-- Letters behind one dash. The one for a definition takes the rest of the word as its text. -/
def short (t : Taken) : List Char → Except Stop Taken
  | [] => .ok t
  | 'D' :: [] => t.definition none
  | 'D' :: '=' :: cs => t.definition (some (.ofList cs))
  | 'D' :: cs => t.definition (some (.ofList cs))
  | c :: cs =>
    match Flag.ofShort? c with
    | none => .error (.usage (.unexpected (.ofList ['-', c])))
    | some f => do short (← t.flag f) cs

def positional (t : Taken) (word : String) : Except Stop Taken :=
  match t.program with
  | some _ => .error (.usage (.unexpected word))
  | none => do return { ← t.settle with program := some word }

def word (t : Taken) (s : String) : Except Stop Taken :=
  match s.toList with
  | '-' :: '-' :: cs => t.long cs
  | '-' :: c :: cs => t.short (c :: cs)
  | _ => if t.pending = .value then .ok { t with pending := .text s } else t.positional s

/-- All words; behind `--` none is an option or a value. -/
def words (t : Taken) : List String → Except Stop Taken
  | [] => t.settle
  | s :: ss => do
    if s = "--" then (← ss.foldlM positional t).settle else words (← t.word s) ss

end Taken

namespace Request

def ofWords (ws : List String) : Except UsageError Request :=
  match Taken.start.words ws with
  | .error (.answer r) => .ok r
  | .error (.usage e) => .error e
  | .ok t =>
    match t.program with
    | none => .error .missingProgram
    | some program =>
      .ok (.run ⟨.file ∈ t.flags, .lenient ∈ t.flags, .ast ∈ t.flags, t.flags.count .verbose, t.definitions,
        program⟩)

end Request

end Turtle.CommandLine
