import Cookbook.CommandLine

/-!
# Cookbook.Main

The executable: opens the paths that the command line names and shows what
`CommandLine.run` reports.
-/

namespace Cookbook.Main

/-- What an open path leads to: what cannot be read is a directory. -/
def readSource (handle : IO.FS.Handle) : IO Source := do
  try
    return .file (← handle.readBinToEnd).data.toList
  catch _ =>
    return .directory

/-- What a path leads to, `none` if it cannot be opened. -/
def open? (path : String) : IO (Option Source) := do
  try
    return some (← readSource (← IO.FS.Handle.mk path .read))
  catch _ =>
    return none

/-- Everything that can still be read from a stream. -/
partial def readRest (stream : IO.FS.Stream) (soFar : ByteArray) : IO ByteArray := do
  let chunk ← stream.read 65536
  if chunk.isEmpty then return soFar else readRest stream (soFar ++ chunk)

/-- Bytes as they are written to a stream. -/
def toBytes (t : Text) : ByteArray := ⟨t.toArray⟩

/-- More statements than any run can carry out. -/
def ampleFuel : Nat := UInt32.size * UInt16.size

/-- Reads, cooks and reports. -/
def run (args : List String) : IO UInt32 := do
  let arguments := args.map Text.ofString
  let wanted : Options := (Options.parse arguments).toOption.getD {}
  let named (path : Text) : Option String :=
    if path.isEmpty then none else args.find? fun arg => Text.ofString arg = path
  let mut sources : List (Text × Source) := []
  for path in [wanted.recipePath, wanted.inputPath] do
    if let some name := named path then
      if let some source ← open? name then
        sources := (path, source) :: sources
  let stdout ← IO.getStdout
  let stderr ← IO.getStderr
  let needsInput := wanted.inputPath.isEmpty && (sources.lookup wanted.recipePath).isSome
  let stdin : Text ←
    if needsInput then pure (← readRest (← IO.getStdin) .empty).data.toList else pure []
  let seed ← IO.rand 0 (UInt32.size - 1)
  match CommandLine.run arguments (sources.lookup ·) stdin (UInt32.ofNat seed) ampleFuel with
  | none => return 3
  | some report =>
    stdout.write (toBytes report.out)
    stdout.flush
    stderr.write (toBytes report.err)
    return UInt32.ofNat report.status

end Cookbook.Main

/-- The entry point of the executable. -/
def main (args : List String) : IO UInt32 := Cookbook.Main.run args
