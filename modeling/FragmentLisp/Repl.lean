import FragmentLisp.Bytes
import FragmentLisp.Lisp.Source
import FragmentLisp.Text.WhiteSpace

/-!
The command line: its arguments, and a loop that reads lines, evaluates each as a fragment and prints
what comes of it. Lines are bytes until they are read. The reading and printing themselves are left to
the program around this module.
-/

namespace FragmentLisp
namespace Repl

def usage : String :=
  String.join
    ["Usage:\n",
      "  slisp-eval             - Start the fragment REPL\n",
      "  slisp-eval --blocks    - Also accept multi-statement fragments\n",
      "\n",
      "Set RUST_LOG (for example RUST_LOG=debug) to see pipeline logs on stderr.\n"]

def optionsOf (options : Options) : List String → Except String Options
  | [] => .ok options
  | "--blocks" :: rest => optionsOf { options with allowBlocks := true } rest
  | "-h" :: _ => .error usage
  | "--help" :: _ => .error usage
  | other :: _ => .error (String.join ["Unknown argument: ", other, "\n", usage])

def banner (options : Options) : String :=
  String.join
    ["SLisp Fragment Evaluator v0.1.0\n",
      "Type a fragment to compile and run it, or press Ctrl+D to quit.\n",
      if options.allowBlocks then "Multi-statement fragments are enabled.\n" else "", "\n"]

def prompt : String := "slisp-eval> "

def farewell : String := "Goodbye!\n"

/-- More steps than the code of a fragment can take: it is shorter than this in bytes and never jumps
backward. -/
def steps : Nat := UInt32.size

def renderEvaluation (evaluation : Evaluation) : String :=
  let lineEnd :=
    if evaluation.output.isEmpty || evaluation.output.toList.getLast? = some '\n' then "" else "\n"
  let value :=
    match evaluation.value with
    | .nothing => ""
    | value => value.display ++ "\n"
  evaluation.output ++ lineEnd ++ value

def render : Option (Except EvalError Evaluation) → String
  | none => ""
  | some (.ok evaluation) => renderEvaluation evaluation
  | some (.error error) => String.join ["Error: ", error.report, "\n"]

/-- What one line of input leads to. The loop ends where there is no next host. -/
structure Reply where
  text : String
  next? : Option Host

def reply [ObjectFormat] (options : Options) (host : Host) (line : List UInt8) : Reply :=
  match Bytes.text? line with
  | none =>
      { text := "Error reading input: stream did not contain valid UTF-8\n", next? := none }
  | some text =>
      let source := WhiteSpace.trim text
      if source.isEmpty then { text := "", next? := some host }
      else
        let (result, next) := host.evaluateSource options .empty steps source
        { text := render result, next? := some next }

/-- Lines with the line feeds that end them, behind those cut off before and the begun one, which both
stand last first. -/
def linesFrom (lines : List (List UInt8)) (begun : List UInt8) : List UInt8 → List (List UInt8)
  | [] => if begun.isEmpty then lines.reverse else (begun.reverse :: lines).reverse
  | byte :: rest =>
      if byte = 0x0a then linesFrom ((byte :: begun).reverse :: lines) [] rest
      else linesFrom lines (byte :: begun) rest

def lines (input : List UInt8) : List (List UInt8) :=
  linesFrom [] [] input

def converse [ObjectFormat] (options : Options) (host : Host) (printed : String) : List (List UInt8) → String
  | [] => printed ++ prompt ++ farewell
  | line :: rest =>
      let answer := reply options host line
      match answer.next? with
      | some next => converse options next (printed ++ prompt ++ answer.text) rest
      | none => printed ++ prompt ++ answer.text

def transcript [ObjectFormat] (arguments : List String) (input : List UInt8) : String :=
  match optionsOf {} arguments with
  | .error text => text
  | .ok options => converse options .initial (banner options) (lines input)

end Repl
end FragmentLisp
