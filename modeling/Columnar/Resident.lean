import Columnar.Fault

/-!
# Resident files

The bytes of a file, all of them in memory until the file is closed.  A closed file has none.
-/

namespace Columnar

structure Resident where
  /-- the bytes, `none` once the file is closed -/
  content : Option Bytes
deriving DecidableEq

namespace Resident

def ofBytes (bs : Bytes) : Resident := ⟨some bs⟩

def bytes (r : Resident) : Bytes := r.content.getD []

def size (r : Resident) : Nat := r.bytes.length

def isClosed (r : Resident) : Bool := r.content.isNone

def close (_ : Resident) : Resident := ⟨none⟩

/-- a hint that a range will be read, which has to lie in the file -/
def prefetch (r : Resident) (offset len : Nat) : Except Error Unit :=
  if r.size < offset + len then .error (Fault.prefetchPastEnd offset len r.size) else .ok ()

/-- the failure to open a file that does not exist -/
def missing (path : String) : Error :=
  ⟨.io "No such file or directory (os error 2)", [.opening path]⟩

end Resident

end Columnar
