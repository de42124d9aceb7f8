import BinarySchema.Command.Arguments

/-!
# The program

Reads the files that the arguments name, runs the command on them and prints what it answers.
-/

namespace BinarySchema

/-- The file at a path, with nothing there if it cannot be read. -/
def readFile? (path : String) : IO (Option Buffer) := do
  try
    let bytes ← IO.FS.readBinFile path
    pure (some bytes.data)
  catch _ => pure none

def readFiles (paths : List String) : IO Files := do
  let found ← paths.mapM fun path => do
    let bytes ← readFile? path
    pure (path, bytes)
  pure fun path => (found.lookup path).join

def usage : String :=
  "usage: binary-schema types SCHEMA [--type NAME] [--target TARGET] [--json]\n" ++
  "       binary-schema read SCHEMA TYPE (--hex HEX | --file FILE) [--offset OFFSET]\n" ++
  "                          [--target TARGET] [--json]\n" ++
  "       binary-schema write SCHEMA TYPE --value JSON [--target TARGET] [--json]\n"

end BinarySchema

open BinarySchema in
def main (arguments : List String) : IO UInt32 := do
  match Command.Request.ofArguments? arguments with
  | none =>
      IO.eprint usage
      pure 2
  | some request =>
      let files ← readFiles request.paths
      match Command.execute request files with
      | some (.success output) =>
          IO.print output
          pure 0
      | some (.failure complaint) =>
          IO.eprint complaint
          pure 1
      | none =>
          IO.eprint "error: the read has no end\n"
          pure 1
