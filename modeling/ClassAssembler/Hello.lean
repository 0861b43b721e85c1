import ClassAssembler.ClassEvent

/-!
# A first class

A class with a constructor and a main method that prints a message.
-/

namespace ClassAssembler

namespace Hello

def message : Text := "Hello world!"

def object : Text := "java/lang/Object"

def step (i : Instruction Nat) : ClassEvent Nat := .code (.instruction i)

def constructor : List (ClassEvent Nat) :=
  let init : Text := "<init>"
  let desc : Text := "()V"
  [.method 1 init desc [] [], .beginCode, step (.var Opcode.aload.code 0),
    step (.invoke Opcode.invokespecial.code object init desc false),
    step (.plain Opcode.vreturn.code), .code (.maxs 1 1), .finishMethod]

def mainMethod (message : Text) : List (ClassEvent Nat) :=
  let printer : Text := "java/io/PrintStream"
  [.method 9 "main" "([Ljava/lang/String;)V" [] [], .beginCode,
    step (.field Opcode.getstatic.code "java/lang/System" "out" "Ljava/io/PrintStream;"),
    step (.constant (.string message)),
    step (.invoke Opcode.invokevirtual.code printer "println" "(Ljava/lang/String;)V" false),
    step (.plain Opcode.vreturn.code), .code (.maxs 2 2), .finishMethod]

def events (name message : Text) : List (ClassEvent Nat) :=
  .header 52 1 name [] object [] :: constructor ++ mainMethod message ++ [.finish]

def assemble (name : Text) (compute : Compute) (options : Options) :
    Checked (Except Failure Buffer) :=
  Assembler.assemble compute options (events name message)

end Hello

end ClassAssembler
