import AdventureMachine.Image
import AdventureMachine.Number.Reading
import AdventureMachine.Text.Units
import Std.Data.HashMap

/-! A small assembler. A program is a list of directives; operands are numbers or references to
labels, which may be placed before or after their use and are resolved when the words are built.
Mistakes are collected and reported together. -/
namespace AdventureMachine

/-- The name of a place in a program, as a sequence of text units. -/
abbrev Label := List UInt16

/-- An operand before labels are resolved. -/
inductive Argument where
  | number (value : Number)
  | label (name : Label)
deriving DecidableEq

/-- The argument that names a register. -/
def Argument.register (index : Nat) : Argument := .number (.ofNat (firstRegister + index))

/-- The operand that a register name stands for, a letter and the number of the register. -/
def Operand.ofName? (name : String) : Option Number :=
  match Numeral.read (.ofList (name.toList.drop 1)) with
  | .finite index => some (index.shift firstRegister)
  | _ => none

/-- The argument that is a literal word. -/
def Argument.literal (value : Nat) : Argument := .number (.ofNat value)

/-- One item of a program. -/
inductive Directive where
  /-- Names the next address. -/
  | label (name : Label)
  /-- An opcode with its operands. -/
  | instruction (opcode : Number) (arguments : List Argument)
  /-- Raw words. -/
  | data (words : List Number)
  /-- One `out` for each unit of a text. -/
  | print (text : List UInt16)
  /-- Takes input up to and including the next newline and leaves the first byte in `first`. -/
  | readLine (first scratch flag : Argument)

/-- An opcode of the machine with its operands. -/
def Directive.op (opcode : Opcode) (arguments : List Argument) : Directive :=
  .instruction (.ofNat opcode.code) arguments

/-- The byte that ends a line. -/
abbrev newline : Nat := 10

/-- A word of a program before labels are resolved. -/
inductive Cell where
  | word (value : UInt16)
  | label (name : Label)

/-- The word of an argument, or the label it waits for. -/
def Argument.cell : Argument → Cell
  | .number value => .word value.toWord
  | .label name => .label name

namespace Assembly

/-- A mistake in a single directive. -/
inductive Problem where
  | labelTwice (name : Label)
  | operandCount (opcode : Number) (address : Nat) (expected : Option Nat) (actual : Nat)

/-- What is told about a mistake. -/
def Problem.message : Problem → String
  | labelTwice name => "Label " ++ Text.ofUnits name ++ " is defined twice"
  | operandCount opcode address expected actual =>
    let wanted := match expected with
      | some count => decimal count
      | none => "undefined"
    "Opcode " ++ opcode.decimal ++ " at " ++ decimal address ++ " takes " ++ wanted ++
      " operands, got " ++ decimal actual

/-- Why no words can be built. -/
inductive Failure where
  | problems (list : List Problem)
  | undefinedLabel (name : Label)

/-- What is told about a failed build. -/
def Failure.message : Failure → String
  | problems list => "; ".intercalate (list.map Problem.message)
  | undefinedLabel name => "Undefined label " ++ Text.ofUnits name

end Assembly

/-- The words emitted so far, the labels placed among them, and the mistakes made. -/
structure Assembly where
  cells : Array Cell
  labels : Std.HashMap Label Nat
  problems : Array Assembly.Problem

namespace Assembly

/-- A program without any directive. -/
def empty : Assembly := ⟨#[], ∅, #[]⟩

/-- The address of the next word. -/
def address (assembly : Assembly) : Nat := assembly.cells.size

/-- Places a label; a second placement is a mistake and moves it. -/
def place (assembly : Assembly) (name : Label) : Assembly :=
  let ⟨cells, labels, problems⟩ := assembly
  let problems := if labels.contains name then problems.push (.labelTwice name) else problems
  ⟨cells, labels.insert name cells.size, problems⟩

/-- Operands that an opcode takes, if it is one. -/
def arity? (opcode : Number) : Option Nat :=
  match opcode with
  | .whole (.ofNat code) => (Opcode.ofCode? code).map Opcode.arity
  | _ => none

/-- Emits an opcode and its operands; a wrong number of them is a mistake. -/
def emit (assembly : Assembly) (opcode : Number) (arguments : List Argument) : Assembly :=
  let ⟨cells, labels, problems⟩ := assembly
  let problems :=
    if arity? opcode = some arguments.length then problems
    else problems.push (.operandCount opcode cells.size (arity? opcode) arguments.length)
  ⟨cells.push (.word opcode.toWord) ++ arguments.map Argument.cell, labels, problems⟩

/-- Emits an opcode of the machine. -/
def emitOp (assembly : Assembly) (opcode : Opcode) (arguments : List Argument) : Assembly :=
  assembly.emit (.ofNat opcode.code) arguments

/-- Emits one `out` for each unit. -/
def printUnits (assembly : Assembly) (text : List UInt16) : Assembly :=
  text.foldl (fun assembly unit => assembly.emitOp .output [.literal unit.toNat]) assembly

/-- Emits the loop that takes a line of input. -/
def readLine (assembly : Assembly) (first scratch flag : Argument) : Assembly :=
  let loop := Text.units ("__readline_" ++ decimal assembly.address)
  let done := loop ++ Text.units "_done"
  assembly
    |>.emitOp .input [first]
    |>.emitOp .set [scratch, first]
    |>.place loop
    |>.emitOp .eq [flag, scratch, .literal newline]
    |>.emitOp .jt [flag, .label done]
    |>.emitOp .input [scratch]
    |>.emitOp .jmp [.label loop]
    |>.place done

/-- Adds one directive. -/
def add (assembly : Assembly) : Directive → Assembly
  | .label name => assembly.place name
  | .instruction opcode arguments => assembly.emit opcode arguments
  | .data words =>
    { assembly with cells := assembly.cells ++ words.map fun word => Cell.word word.toWord }
  | .print text => assembly.printUnits text
  | .readLine first scratch flag => assembly.readLine first scratch flag

/-- The assembly of a program. -/
def ofProgram (program : List Directive) : Assembly := program.foldl add empty

/-- The word of a cell once all labels are placed. -/
def resolve (assembly : Assembly) : Cell → Except Failure UInt16
  | .word value => .ok value
  | .label name =>
    match assembly.labels[name]? with
    | some address => .ok (.ofNat address)
    | none => .error (.undefinedLabel name)

/-- The memory words of a program. -/
def words (assembly : Assembly) : Except Failure (List UInt16) :=
  if assembly.problems.isEmpty then assembly.cells.toList.mapM assembly.resolve
  else .error (.problems assembly.problems.toList)

/-- The loadable image of a program. -/
def image (assembly : Assembly) : Except Failure Bytes := assembly.words.map Image.encode

end Assembly

end AdventureMachine
