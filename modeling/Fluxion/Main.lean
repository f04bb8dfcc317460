import Fluxion.Transcript

/-! Reads lines of equations and answers from standard input until it ends or cannot
be read. What a line comes to is printed before the next one is read. -/
namespace Fluxion

def Transcript.print (t : Transcript) : IO Unit := do
  (← IO.getStdout).putStr t.output
  (← IO.getStderr).putStr t.errors

/-- The bytes of the next line, with those in front that have been read. -/
partial def readRaw (input : IO.FS.Stream) (front : List UInt8) : IO (List UInt8) := do
  match (← input.read 1).toList with
  | [] => return front
  | b :: _ => if b = 10 then return front ++ [b] else readRaw input (front ++ [b])

partial def serve (input : IO.FS.Stream) : IO UInt32 := do
  let raw ← readRaw input []
  if raw.isEmpty then return 0
  let t := Transcript.ofBytes raw
  t.print
  if t.code = 0 then serve input else return t.code.toUInt32

end Fluxion

def main : IO UInt32 := do
  Fluxion.serve (← IO.getStdin)
