import Mathlib.Algebra.Order.Ring.Int

/-!
# SystemError — the exceptions of the utilities

`errno_to_system_error` returns the exception for a value of `errno`; throwing it is left to the
caller.
-/

namespace FuzzufCc
namespace Utils

def EPERM : Int := 1
def ENXIO : Int := 6
def ENOMEM : Int := 12
def EACCES : Int := 13
def ENODEV : Int := 19
def ENOSPC : Int := 28
def EDQUOT : Int := 122

/-- `std::system_error` in the generic category. -/
structure SystemError where
  code : Int
  what : String
  deriving DecidableEq, Repr

/-- Three values that Linux has and the C++ standard does not are replaced by similar ones. -/
def errnoToSystemError (e : Int) (what : String) : SystemError where
  code :=
    if e = ENODEV then ENXIO
    else if e = EPERM then EACCES
    else if e = EDQUOT then ENOSPC
    else e
  what := what

end Utils
end FuzzufCc
