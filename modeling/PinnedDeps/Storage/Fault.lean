/-! What can go wrong when a file is asked for, in the system's words. -/

namespace PinnedDeps.Storage

inductive Fault where
  | notFound
  | busy
  | notDirectory
  | isDirectory
  | nameTooLong
  | notText
  | nulInPath
  | other (text : String)
  deriving DecidableEq, Repr

def Fault.message : Fault → String
  | .notFound => "No such file or directory (os error 2)"
  | .busy => "Device or resource busy (os error 16)"
  | .notDirectory => "Not a directory (os error 20)"
  | .isDirectory => "Is a directory (os error 21)"
  | .nameTooLong => "File name too long (os error 36)"
  | .notText => "stream did not contain valid UTF-8"
  | .nulInPath => "file name contained an unexpected NUL byte"
  | .other text => text

end PinnedDeps.Storage
