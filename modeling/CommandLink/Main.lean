import CommandLink.LinkFile.Build

open CommandLink.LinkFile

def readLinkFile : IO (Option ByteArray) := do
  try
    return some (← IO.FS.readBinFile "link.toml")
  catch _ =>
    return none

/-- Check the link file of the working directory and put the memory layout
into the output directory. -/
def main : IO UInt32 := do
  let outDir := (← IO.getEnv "OUT_DIR").getD "."
  IO.FS.writeFile (outDir ++ "/memory.x") Build.memoryLayout
  let build := Build.run outDir (← readLinkFile)
  IO.print build.output
  match build.rejection with
  | none => return 0
  | some r =>
    IO.eprintln (String.ofList (r.report?.getD []))
    return 101
