import Parley.CommandLine

/-!
The program. There is no network below it: the backend it talks to answers every request at once
with the plain response. The calls are made one after the other, which is one of the ways in which
they may take turns.
-/
namespace Parley

/-- An argument as the bytes it was given in. -/
def toArgument (s : String) : Bytes := s.toUTF8.toList

/-- A word that nobody can foretell. -/
def drawWord : IO UInt64 := do
  return (← IO.getRandomBytes 8).toList.foldl (fun n b => n * 256 + b.toUInt64) 0

end Parley

open Parley in
def main (arguments : List String) : IO UInt32 := do
  let output := CommandLine.run (arguments.map toArgument) { overWire := true } (← drawWord)
  (← IO.getStdout).write ⟨output.stdout.toArray⟩
  (← IO.getStderr).write ⟨output.stderr.toArray⟩
  return output.exitCode.toUInt32
