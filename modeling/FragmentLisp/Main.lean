import FragmentLisp.ObjectFile.Image
import FragmentLisp.Repl

/-!
The program: it reads lines from standard input and prints the answers.
-/

namespace FragmentLisp

/-- The bytes of one line, its line feed included; none at the end of the input. -/
partial def readLineBytes (stream : IO.FS.Stream) (begun : List UInt8) : IO (List UInt8) := do
  let chunk ← stream.read 1
  match chunk.data.toList with
  | [] => return begun.reverse
  | byte :: _ =>
      if byte = 0x0a then return (byte :: begun).reverse
      else readLineBytes stream (byte :: begun)

partial def loop (input output : IO.FS.Stream) (options : Options) (host : Host) : IO Unit := do
  output.putStr Repl.prompt
  output.flush
  let line ← readLineBytes input []
  if line.isEmpty then
    output.putStr Repl.farewell
  else
    let answer := Repl.reply options host line
    output.putStr answer.text
    match answer.next? with
    | some next => loop input output options next
    | none => output.flush

end FragmentLisp

def main (arguments : List String) : IO Unit := do
  let input ← IO.getStdin
  let output ← IO.getStdout
  match FragmentLisp.Repl.optionsOf {} arguments with
  | .error text => output.putStr text
  | .ok options =>
      output.putStr (FragmentLisp.Repl.banner options)
      FragmentLisp.loop input output options .initial
