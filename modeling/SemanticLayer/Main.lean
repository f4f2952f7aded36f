import SemanticLayer.Cli.Terminal

/-!
# The program

Reads the files below the current folder, runs the command line on them, and writes back what it
made.  Files are read and written as JSON, which every reader of YAML understands.  No warehouse can
be reached from here, and no command looks at the time.
-/

namespace SemanticLayer.Program

def content? (path : String) : IO (Option Value) := do
  try
    return Json.parse? (← IO.FS.readFile path)
  catch _ => return none

def readFiles (folder : String) (paths : List String) : IO (List (String × Value)) := do
  let found ← paths.filterMapM fun path => do
    return (← content? path).map fun v => (Path.relativeTo folder path, v)
  return found

def readDisk : IO Disk := do
  let start ← IO.currentDir
  let folder := start.toString
  let paths := (← start.walkDir).toList.map (·.toString)
  let disk := Disk.ofFiles folder (← readFiles folder paths)
  let some home ← IO.getEnv "HOME" | return disk
  let disk := { disk with home := some home }
  match ← content? (Profile.path home) with
  | some profiles => return disk.deposit [] (Profile.path home) profiles
  | none => return disk

def writeBack (before after : Disk) : IO Unit := do
  let folder := Path.resolved after.current
  for (names, entry) in after.below folder do
    let path := after.current ++ "/" ++ Path.ofNames names
    match before.entry? (folder ++ names), entry with
    | some (.file old), .file new =>
      if Json.render old != Json.render new then IO.FS.writeFile path (Json.render new)
    | some _, _ => pure ()
    | none, .folder => IO.FS.createDirAll path
    | none, .file new => IO.FS.writeFile path (Json.render new)

end SemanticLayer.Program

open SemanticLayer in
def main (args : List String) : IO UInt32 := do
  let disk ← Program.readDisk
  let installation : Installation :=
    { runtimeVersion := "", runtimePath := (← IO.appPath).toString, client := Host.noClient }
  let (result, terminal) := (Terminal.run installation args).run { host := { disk := disk } }
  Program.writeBack disk terminal.host.disk
  match result with
  | .ok (code, output) =>
    IO.print output
    return UInt32.ofNat code
  | .error e =>
    IO.print terminal.host.printed
    IO.eprintln e.detail
    return 1
