/-!
# Link names

Lowered code calls a few routines that come with every program. Their names depend on what the
program is linked to.
-/

namespace Lowering

inductive Service where
  | println
  | new
  | newArray
  | arrayLength
  deriving DecidableEq, Repr, Inhabited

namespace Service

def all : List Service := [.println, .new, .newArray, .arrayLength]

def text : Service → String
  | .println => "Println"
  | .new => "New"
  | .newArray => "NewArray"
  | .arrayLength => "ArrayLength"

end Service

inductive Linkage where
  /-- The support library of MiniJava programs. -/
  | miniJava
  /-- The members and instructions of the virtual machine. -/
  | jvm
  deriving DecidableEq, Repr

instance : Inhabited Linkage := ⟨.miniJava⟩

namespace Linkage

def text : Linkage → String
  | .miniJava => "MiniJava"
  | .jvm => "Jvm"

/-- The spelling in option files. -/
def key : Linkage → String
  | .miniJava => "mini_java"
  | .jvm => "jvm"

def ofKey? (s : String) : Option Linkage := [.miniJava, .jvm].find? (·.key == s)

def linkName : Linkage → Service → String
  | .miniJava, .println => "_minijavalib_println"
  | .miniJava, .new => "_minijavalib_new"
  | .miniJava, .newArray => "_minijavalib_newarray"
  | .miniJava, .arrayLength => "_minijavalib_arraylength"
  | .jvm, .println => "java/io/PrintStream/println(I)V"
  | .jvm, .new => "new"
  | .jvm, .newArray => "newarray"
  | .jvm, .arrayLength => "arraylength"

end Linkage

end Lowering
