/-
  DocQuery.Main — the program: reads the one file that a command line is about and prints the
  answer, or the fault on the other channel.
-/

import DocQuery.CommandLine.Answer

namespace DocQuery.CommandLine

/-- The text of a file, if it is there and is text. -/
def readFile? (path : String) : IO (Option String) := do
  try
    return some (← IO.FS.readFile path)
  catch _ => return none

/-- Two for a command line that is no request, one for any other fault. -/
def status : Fault → UInt32
  | .usage => 2
  | _ => 1

def report (fault : Fault) : IO UInt32 := do
  IO.eprintln ("Error: " ++ fault.message.getD "invalid input")
  return status fault

def run (words : List String) : IO UInt32 := do
  match Request.ofWords? words with
  | none => report .usage
  | some request =>
    match answer request (← readFile? request.path) with
    | .ok text =>
      IO.print text
      return 0
    | .error fault => report fault

end DocQuery.CommandLine

def main (words : List String) : IO UInt32 := DocQuery.CommandLine.run words
