import Daybook.CommandLine.Run

/-!
The program: its command line on the files of the machine.
-/

open Daybook in
/-- Runs the program. -/
def main (args : List String) : IO UInt32 := do
  let base ← IO.currentDir
  let machine : Disk IO :=
    { here := Path.ofText base.toString
      node := fun p => do
        if ← (base / p.text).isDir then return some .directory
        else if ← (base / p.text).pathExists then return some .file
        else return none
      bytes := fun p => IO.FS.readBinFile (base / p.text) }
  match ← CommandLine.run machine args with
  | .refused =>
    (← IO.getStderr).putStrLn "Usage: beanparse [-v] parse | check | kinds [-c MANIFEST] [FILES]"
    return 2
  | .done verbose result =>
    (← IO.getStdout).putStr result.answer
    (← IO.getStderr).putStr (result.errors verbose)
    return result.status.toUInt32
