/-! Access words: the modifier bits that classes, fields and methods carry. -/

namespace Lineage

inductive Modifier where
  | pub
  | priv
  | prot
  | static
  | final
  | super
  | bridge
  | varargs
  | native
  | interface
  | abstract
  | synthetic
  | annotationType
  | enum
  deriving DecidableEq, Repr

/-- The bit that stands for the modifier in an access word.  `super` and
`bridge` share their bits with method and field modifiers of other kinds of
declaration, so a bit is read in the light of what it is attached to. -/
def Modifier.bit : Modifier → UInt16
  | pub => 0x0001
  | priv => 0x0002
  | prot => 0x0004
  | static => 0x0008
  | final => 0x0010
  | super => 0x0020
  | bridge => 0x0040
  | varargs => 0x0080
  | native => 0x0100
  | interface => 0x0200
  | abstract => 0x0400
  | synthetic => 0x1000
  | annotationType => 0x2000
  | enum => 0x4000

structure Access where
  bits : UInt16
  deriving DecidableEq, Repr, Inhabited

namespace Access

def ofModifiers (ms : List Modifier) : Access :=
  ⟨ms.foldl (fun w m => w ||| m.bit) 0⟩

def contains (a : Access) (mask : UInt16) : Bool := a.bits &&& mask == mask

def intersects (a : Access) (mask : UInt16) : Bool := a.bits &&& mask != 0

def has (a : Access) (m : Modifier) : Bool := a.intersects m.bit

def isEmpty (a : Access) : Bool := a.bits == 0

def isPackagePrivate (a : Access) : Bool :=
  !(a.has .pub || a.has .priv || a.has .prot)

def withModifier (a : Access) (m : Modifier) : Access := ⟨a.bits ||| m.bit⟩

/-- The modifiers that the text of an access word names, in the order of the
text. -/
def shown : List (Modifier × String) :=
  [(.pub, "public"), (.priv, "private"), (.prot, "protected"), (.static, "static"),
    (.final, "final"), (.abstract, "abstract"), (.synthetic, "synthetic"),
    (.interface, "interface"), (.enum, "enum")]

def render (a : Access) : String :=
  " ".intercalate ((shown.filter fun s => a.has s.1).map Prod.snd)

end Access
end Lineage
