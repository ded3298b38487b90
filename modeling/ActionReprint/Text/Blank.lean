/-!
Blank characters and the comparison of names that ignores them. Blank means the
Unicode property White_Space, which has 25 members. Only ASCII letters have a
lower case here: no name this library compares contains a letter to which a
character outside ASCII would fold.
-/

namespace ActionReprint.Text

/-- The code points with the property White_Space, in increasing order. -/
def blankCodes : List Nat :=
  [0x09, 0x0A, 0x0B, 0x0C, 0x0D, 0x20, 0x85, 0xA0, 0x1680,
   0x2000, 0x2001, 0x2002, 0x2003, 0x2004, 0x2005, 0x2006, 0x2007, 0x2008, 0x2009, 0x200A,
   0x2028, 0x2029, 0x202F, 0x205F, 0x3000]

def isBlank (c : Char) : Bool :=
  blankCodes.contains c.toNat

def trim (text : String) : String :=
  String.ofList ((text.toList.dropWhile isBlank).reverse.dropWhile isBlank).reverse

def fold (text : String) : String :=
  (trim text).map Char.toLower

end ActionReprint.Text
