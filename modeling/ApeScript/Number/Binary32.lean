import ApeScript.Number.Binary

/-!
# Single-precision numbers

Every number of a script is a `Binary32`, kept as its 32 bits so that signed zeros and the payload
of a NaN survive. Arithmetic is that of the exact result rounded once; comparison is numeric, so
the two zeros are equal and a NaN equals nothing.
-/

namespace ApeScript

structure Binary32 where
  bits : UInt32
  deriving DecidableEq, Repr

namespace Binary32

open Number

def ofWord (w : Nat) : Binary32 := ⟨UInt32.ofNat w⟩

def word (x : Binary32) : Nat := x.bits.toNat

def datum (x : Binary32) : Datum := Format.binary32.decode x.word

def zero : Binary32 := ⟨0⟩

def one : Binary32 := ⟨0x3f800000⟩

def ofNat (n : Nat) : Binary32 := ofWord (Format.binary32.ofNat n)

def add (x y : Binary32) : Binary32 := ofWord (Format.binary32.add x.word y.word)

def sub (x y : Binary32) : Binary32 := ofWord (Format.binary32.sub x.word y.word)

def mul (x y : Binary32) : Binary32 := ofWord (Format.binary32.mul x.word y.word)

def div (x y : Binary32) : Binary32 := ofWord (Format.binary32.div x.word y.word)

def neg (x : Binary32) : Binary32 := ⟨x.bits ^^^ 0x80000000⟩

def isNegative (x : Binary32) : Bool := 0x80000000 ≤ x.bits

def isNaN (x : Binary32) : Bool := x.datum = .nan

def isFinite (x : Binary32) : Bool := x.datum.isFinite

def isZero (x : Binary32) : Bool := x.datum.isZero

def compare? (x y : Binary32) : Option Ordering := x.datum.compare? y.datum

def lt (x y : Binary32) : Bool := x.compare? y = some .lt

def gt (x y : Binary32) : Bool := x.compare? y = some .gt

def eq (x y : Binary32) : Bool := x.compare? y = some .eq

def le (x y : Binary32) : Bool := x.lt y || x.eq y

def ge (x y : Binary32) : Bool := x.gt y || x.eq y

end Binary32

end ApeScript
