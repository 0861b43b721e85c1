/-!
# Access flags

The flags of classes, fields and methods, and marks above them that are no flags of the class file
but ask for an attribute or tell that a method is a constructor.
-/

namespace ClassAssembler

abbrev Flags := UInt32

namespace Flags

def ofInt (n : Int) : Flags := UInt32.ofNat (n % 0x100000000).toNat

def has (f mask : Flags) : Bool := f &&& mask != 0

def without (f mask : Flags) : Flags := f &&& ~~~mask

end Flags

namespace Access

def static_ : Flags := 0x0008
def synthetic : Flags := 0x1000
def deprecated_ : Flags := 0x20000
def syntheticAttribute : Flags := 0x40000
def constructor : Flags := 0x80000

def wantsSyntheticAttribute (f : Flags) (major : Int) : Bool :=
  (f.has synthetic || f.has syntheticAttribute) && (major < 49 || f.has syntheticAttribute)

def written (f : Flags) : Nat :=
  let mask := deprecated_ ||| syntheticAttribute ||| constructor
    ||| (if f.has syntheticAttribute then synthetic else 0)
  (f.without mask).toNat % 65536

end Access

end ClassAssembler
