import FuzzufCc.Runtime.IjonCampaign

/-!
# IjonTargets — values to be minimised

`IJON_MIN(x)` and `IJON_DIST(x, y)` offer the complement of a value to a max slot, so that the slot
grows as the value falls.  The value is of the integer type that C gives the argument, and is
converted to `uint64_t` by the call.
-/

namespace FuzzufCc

open Libc IR Transition

namespace Runtime
namespace Ijon

/-! ## Integers of C -/

/-- An integer type after the promotions. -/
structure CType where
  width : Nat
  signed : Bool
  le : width ≤ 64

namespace CType

variable (t : CType)

def value (x : BitVec t.width) : Int :=
  if t.signed then x.toInt else x.toNat

/-- The conversion to `uint64_t`. -/
def toU64 (x : BitVec t.width) : BitVec 64 :=
  if t.signed then x.signExtend 64 else x.setWidth 64

def lt (x y : BitVec t.width) : Bool :=
  if t.signed then x.slt y else x.ult y

/-- The overflow of a signed difference is undefined. -/
def sub (x y : BitVec t.width) : Option (BitVec t.width) :=
  if t.signed && x.ssubOverflow y then none else some (x - y)

/-- `_IJON_ABS_DIST`. -/
def absDist (x y : BitVec t.width) : Option (BitVec t.width) :=
  if t.lt x y then t.sub y x else t.sub x y

variable {t} {x y d : BitVec t.width}

end CType

/-! ## Targets -/

/-- `IJON_MIN(x)` or `IJON_DIST(x, y)` on a line with this hash; the difference is defined. -/
inductive Target
  | min (hash : BitVec 32) (t : CType) (x : BitVec t.width)
  | dist (hash : BitVec 32) (t : CType) (x y : BitVec t.width) (defined : (t.absDist x y).isSome)

namespace Target

def call : Target → Call
  | .min hash t x => .max hash (0xffffffffffffffff - t.toU64 x)
  | .dist hash t x y defined => .min hash (t.toU64 ((t.absDist x y).get defined))

def hash : Target → BitVec 32
  | .min hash _ _ => hash
  | .dist hash _ _ _ _ => hash

end Target

/-- What a program asks of the runtime: a target, or any other call. -/
inductive Ask
  | target (a : Target)
  | other (c : Call)

def Ask.call : Ask → Call
  | .target a => a.call
  | .other c => c

section Costs

variable {slots i v v' : Nat} {as as' : List Ask}

end Costs

/-! ## Campaigns -/

end Ijon
end Runtime
end FuzzufCc
