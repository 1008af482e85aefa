import Lineage.Assembly.Sketch
import Lineage.Classpath.Table

/-!
Stand-ins for the classes that every hierarchy is rooted in, so that one can be
resolved where no platform is installed.  They declare the members of the real
classes; their bodies return zero values.
-/

namespace Lineage
namespace Foundation

open Assembly

def object : String := "java/lang/Object"

def enum : String := "java/lang/Enum"

def record : String := "java/lang/Record"

/-- Opcodes that push the zero value of a type and return it. -/
def zeroReturn : Option FieldType → List UInt8
  | none => [0xB1]
  | some .long => [0x09, 0xAD]
  | some .float => [0x0B, 0xAE]
  | some .double => [0x0E, 0xAF]
  | some t => if t.isReference then [0x01, 0xB0] else [0x03, 0xAC]

/-- A body that returns the zero value of the descriptor's result. -/
def zeroBody (descriptor : String) : List CodeStep :=
  let result := match MethodType.parse descriptor with
    | .ok m => m.result
    | .error _ => none
  (zeroReturn result).map .op

def access (ms : List Modifier) : Access := .ofModifiers ms

def method (ms : List Modifier) (name descriptor : String) (body : List CodeStep) :
    Declaration :=
  .method { access := access ms, name, descriptor, signature := none, body := some body }

def stub (ms : List Modifier) (name descriptor : String) : Declaration :=
  method ms name descriptor (zeroBody descriptor)

def native (ms : List Modifier) (name descriptor : String) : Declaration :=
  .nativeMethod (access ms) name descriptor

def abstract (ms : List Modifier) (name descriptor : String) : Declaration :=
  .abstractMethod (access ms) name descriptor

def objectSketch : Sketch where
  name := object
  superName := none
  access := access [.pub, .super]
  declarations :=
    [stub [.pub] "<init>" "()V",
      native [.pub, .final] "getClass" "()Ljava/lang/Class;",
      native [.pub] "hashCode" "()I",
      stub [.pub] "equals" "(Ljava/lang/Object;)Z",
      native [.prot] "clone" "()Ljava/lang/Object;",
      stub [.pub] "toString" "()Ljava/lang/String;",
      native [.pub, .final] "notify" "()V",
      native [.pub, .final] "notifyAll" "()V",
      stub [.pub, .final] "wait" "()V",
      stub [.pub, .final] "wait" "(J)V",
      stub [.pub, .final] "wait" "(JI)V",
      stub [.prot] "finalize" "()V"]

def markerSketch (name : String) : Sketch where
  name
  superName := some object
  access := access [.pub, .interface, .abstract]
  declarations := []

def comparableSketch : Sketch where
  name := "java/lang/Comparable"
  superName := some object
  access := access [.pub, .interface, .abstract]
  declarations :=
    [.signature "<T:Ljava/lang/Object;>Ljava/lang/Object;",
      abstract [.pub] "compareTo" "(Ljava/lang/Object;)I"]

def enumCompareTo : MemberRef :=
  { owner := enum, name := "compareTo", descriptor := "(Ljava/lang/Enum;)I" }

def enumGetter (field descriptor : String) (leave : UInt8) : List CodeStep :=
  [.load .reference 0, .getField ⟨enum, field, descriptor⟩, .op leave]

def enumField (name descriptor : String) : Declaration :=
  .field { access := access [.priv, .final], name, descriptor, signature := none }

def enumSketch : Sketch where
  name := enum
  superName := some object
  access := access [.pub, .abstract, .super]
  declarations :=
    [.interface "java/lang/Comparable",
      .interface "java/io/Serializable",
      .signature ("<E:Ljava/lang/Enum<TE;>;>Ljava/lang/Object;" ++
        "Ljava/lang/Comparable<TE;>;Ljava/io/Serializable;"),
      enumField "name" "Ljava/lang/String;",
      enumField "ordinal" "I",
      stub [.prot] "<init>" "(Ljava/lang/String;I)V",
      method [.pub, .final] "name" "()Ljava/lang/String;"
        (enumGetter "name" "Ljava/lang/String;" 0xB0),
      method [.pub, .final] "ordinal" "()I" (enumGetter "ordinal" "I" 0xAC),
      stub [.pub] "toString" "()Ljava/lang/String;",
      stub [.pub, .final] "equals" "(Ljava/lang/Object;)Z",
      stub [.pub, .final] "hashCode" "()I",
      stub [.prot, .final] "clone" "()Ljava/lang/Object;",
      stub [.pub, .final] enumCompareTo.name enumCompareTo.descriptor,
      stub [.pub, .final] "getDeclaringClass" "()Ljava/lang/Class;",
      stub [.pub, .static] "valueOf" "(Ljava/lang/Class;Ljava/lang/String;)Ljava/lang/Enum;",
      stub [.prot, .final] "finalize" "()V",
      method [.pub, .synthetic, .bridge] "compareTo" "(Ljava/lang/Object;)I"
        [.load .reference 0, .load .reference 1, .checkCast enum,
          .invoke 0xB6 enumCompareTo, .op 0xAC]]

def recordSketch : Sketch where
  name := record
  superName := some object
  access := access [.pub, .abstract, .super]
  declarations :=
    [stub [.prot] "<init>" "()V",
      abstract [.pub] "equals" "(Ljava/lang/Object;)Z",
      abstract [.pub] "hashCode" "()I",
      abstract [.pub] "toString" "()Ljava/lang/String;"]

def sketches : List Sketch :=
  [markerSketch "java/io/Serializable", markerSketch "java/lang/Cloneable",
    comparableSketch, enumSketch, objectSketch, recordSketch]

def names : List String := sketches.map Sketch.name

def table : ClassTable := .ofList (sketches.map fun c => (c.name, c.assemble))

def find? (name : String) : Option Bytes := table.find? name

end Foundation
end Lineage
