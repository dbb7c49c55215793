import SfcIndex.Command.Run
import SfcIndex.Files.Search
import SfcIndex.Script.Read

/-! # The command on the machine's own files -/

namespace SfcIndex.Command

/-- Why the machine could not read a file. -/
def readErrorOf : IO.Error → Files.ReadError
  | .noFileOrDirectory _ _ _ => .missing
  | .noSuchThing _ _ _ => .missing
  | .inappropriateType _ _ _ => .notDirectory
  | error => .other error.toString

/-- The machine's own files. -/
def machineDisk : Files.Disk IO where
  kind? path := do
    let entry : IO.FS.DirEntry := { root := path, fileName := "" }
    if ← entry.root.isDir then return some .directory
    if ← entry.root.pathExists then return some .file
    return none
  names path := do
    let entry : IO.FS.DirEntry := { root := path, fileName := "" }
    try
      return (← entry.root.readDir).toList.map (·.fileName)
    catch _ => return []
  read path := do
    let entry : IO.FS.DirEntry := { root := path, fileName := "" }
    if ← entry.root.isDir then return .error .isDirectory
    try
      return .ok (← IO.FS.readBinFile path)
    catch error => return .error (readErrorOf error)

end SfcIndex.Command

def main (arguments : List String) : IO UInt32 := do
  let disk := SfcIndex.Command.machineDisk
  let outcome ← SfcIndex.Command.run SfcIndex.Script.read disk.finder disk arguments
  IO.print outcome.output
  outcome.notes.forM IO.eprintln
  return outcome.status.toUInt32
