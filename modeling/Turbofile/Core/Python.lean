import Turbofile.Core.Op

/-!
# What the Python layer raises
-/

namespace Turbofile.Core

/-- The exceptions of the Python files, with their messages. -/
inductive PyError
  | osError (error : IoError)
  | invalidArgument
  | valueError (message : String)
  | unsupportedOperation (message : String)
  | overflowError
  | cancelledError
  deriving DecidableEq

/-- `ModeInfo` without the mode string itself. -/
structure ModeInfo where
  read : Bool
  write : Bool
  append : Bool
  truncate : Bool
  create : Bool
  createNew : Bool
  binary : Bool
  deriving DecidableEq

def ModeInfo.writable (info : ModeInfo) : Bool := info.write || info.append

end Turbofile.Core
