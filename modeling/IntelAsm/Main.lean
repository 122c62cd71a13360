/-
The program: the command line over the files of the system.
-/
import IntelAsm.CommandLine

namespace IntelAsm.CommandLine

/-- The number of an error of the system. Some calls give it with its sign changed. -/
def errorNumber (code : UInt32) : Nat :=
  if code.toNat < 0x80000000 then code.toNat else UInt32.size - code.toNat

/-- A failure of the system as a file error. -/
def fileError : IO.Error → FileError
  | .alreadyExists _ code _ | .otherError code _ | .resourceBusy code _
  | .resourceVanished code _ | .unsupportedOperation code _ | .hardwareFault code _
  | .unsatisfiedConstraints code _ | .illegalOperation code _ | .protocolError code _
  | .timeExpired code _ | .interrupted _ code _ | .noFileOrDirectory _ code _
  | .invalidArgument _ code _ | .permissionDenied _ code _ | .resourceExhausted _ code _
  | .inappropriateType _ code _ | .noSuchThing _ code _ => .system (errorNumber code)
  | .unexpectedEof | .userError _ => .system 5

/-- The outcome of reaching a file. -/
def reach {α : Type} (action : IO α) : IO (Except FileError α) := do
  try return .ok (← action)
  catch e => return .error (fileError e)

/-- The files of the system. What is written is flushed, so that a full disk is noticed. -/
def systemFiles : Files IO where
  read path := reach (IO.FS.readBinFile path)
  write path bytes := reach do
    let file ← IO.FS.Handle.mk path .write
    file.write bytes
    file.flush

end IntelAsm.CommandLine

def main (args : List String) : IO UInt32 := do
  let report ← IntelAsm.CommandLine.run IntelAsm.CommandLine.systemFiles args
  (← IO.getStdout).putStr report.stdout
  (← IO.getStderr).putStr report.stderr
  return report.exit.toUInt32
