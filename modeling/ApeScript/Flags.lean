import ApeScript.Bytes

/-!
# Flag words

Window behaviour and image placement are bit sets whose known bits have script keywords. Listing
the names of a word loses no bit: bits without a keyword are named by their number or value.
-/

namespace ApeScript

namespace WindowFlags

def noBackground : UInt32 := 2

def named : List (UInt32 × Bytes) :=
  [(0x1, utf8 "persist"),
   (0x2, utf8 "nobackground"),
   (0x4, utf8 "noscroll"),
   (0x8, utf8 "nograb"),
   (0x10, utf8 "norelease"),
   (0x20, utf8 "subtitle"),
   (0x20000000, utf8 "passive2d"),
   (0x40000000, utf8 "passive")]

def ofName? (name : Bytes) : Option UInt32 :=
  (named.find? fun flag => flag.2 = name).map (·.1)

def unnamed (flags : UInt32) : UInt32 :=
  named.foldl (fun rest flag => rest &&& ~~~flag.1) flags

def names (flags : UInt32) : List Bytes :=
  (named.filter fun flag => flags &&& flag.1 ≠ 0).map (·.2) ++
  ((List.range 32).filter fun n => unnamed flags &&& (1 <<< UInt32.ofNat n) ≠ 0).map
    fun n => utf8 "UnknownFlag" ++ Bytes.ofNat n

end WindowFlags

namespace ImageFlags

def stretch : UInt32 := 1

def tile : UInt32 := 2

def solid : UInt32 := 4

def known : UInt32 := 7

def has (flags bit : UInt32) : Bool := flags &&& bit = bit

/-- The keywords of the known bits, then one entry for the value of all others. -/
def names (flags : UInt32) : List Bytes :=
  let more := flags &&& ~~~known
  (if has flags stretch then [utf8 "stretch"] else []) ++
  (if has flags tile then [utf8 "tile"] else []) ++
  (if has flags solid then [utf8 "solid"] else []) ++
  (if more ≠ 0 then [utf8 "Unknown(" ++ Bytes.ofNat more.toNat ++ utf8 ")"] else [])

end ImageFlags

/-- A colour as scripts spell it: four bytes, the lowest first, two digits each. -/
def colorText (c : UInt32) : Bytes :=
  let n := c.toNat
  Bytes.hex 2 (n % 256) ++ Bytes.hex 2 (n / 256 % 256) ++ Bytes.hex 2 (n / 65536 % 256) ++
    Bytes.hex 2 (n / 16777216)

end ApeScript
