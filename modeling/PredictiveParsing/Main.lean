import PredictiveParsing.Calculator.Command

/-!
# The command line

Runs the calculator with the files, the input and the environment of the process.
-/

open PredictiveParsing

/-- All bytes of a stream behind those that have been read. -/
partial def readToEnd (s : IO.FS.Stream) (bytes : ByteArray) : IO ByteArray := do
  let chunk ← s.read 65536
  if chunk.isEmpty then return bytes else readToEnd s (bytes ++ chunk)

def readFile (path : String) : IO (Except String ByteArray) :=
  try
    return .ok (← IO.FS.readBinFile path)
  catch e =>
    return .error (toString e)

def main (arguments : List String) : IO UInt32 := do
  let environment ← Environment.variableNames.filterMapM fun name => do
    return (← IO.getEnv name).map (name, ·)
  let result ← Calculator.run ⟨environment, readFile, do readToEnd (← IO.getStdin) ⟨#[]⟩⟩ arguments
  (← IO.getStdout).putStr result.output
  (← IO.getStderr).putStr result.complaints
  return result.exitCode.toUInt32
