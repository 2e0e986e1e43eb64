import PacketTransport.Dump

/-!
# The command line

The program tells of the packets that arrive on the standard input.  Its argument names the
configuration, if it is not the usual one.
-/

namespace PacketTransport

/-- The text of a file, if it can be opened; a directory has none. -/
def textOf? (path : String) : IO (Option String) := do
  try
    let handle ← IO.FS.Handle.mk path .read
    let text ← try handle.readToEnd catch _ => pure ""
    return some text
  catch _ => return none

/-- The pieces that arrive on a stream until it ends. -/
partial def arrivalsOf (stream : IO.FS.Stream) (got : Array Arrival) : IO (List Arrival) := do
  let bytes ← stream.read 4096
  if bytes.isEmpty then return got.toList
  else arrivalsOf stream (got.push (.bytes bytes.toList))

end PacketTransport

open PacketTransport in
def main (args : List String) : IO UInt32 := do
  let home ← IO.getEnv "HOME"
  let path := args.head?
  let mut texts : List (String × String) := []
  for p in Config.searchPaths (path.getD Config.defaultPath) home do
    if let some text ← textOf? p then texts := texts ++ [(p, text)]
  let arrivals ← arrivalsOf (← IO.getStdin) #[]
  let report := dump (fun p => texts.lookup p) home path "standard input" arrivals
  for line in report.out do IO.println line
  for line in report.err do IO.eprintln line
  return report.exitCode.toUInt32
