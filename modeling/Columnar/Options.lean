import Columnar.Bytes

/-!
# Options

What a reader is told before it opens a file: how long a string or a list of the metadata may
be, whether chunks with a dictionary are read, and the four bytes a file begins and ends with.
-/

namespace Columnar

/-- the signature of a file: the letters `PAR1` -/
def defaultMagic : Bytes := [0x50, 0x41, 0x52, 0x31]

structure Options where
  stringLimit : Nat := 16777216
  containerLimit : Nat := 1048576
  dictionary : Bool := true
  magic : Bytes := defaultMagic
deriving DecidableEq

end Columnar
