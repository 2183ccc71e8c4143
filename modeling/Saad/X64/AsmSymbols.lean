import Mathlib.Data.List.DropRight
import Saad.X64.EmitInst

/-! # The symbols that the assembler reads

The emitter writes names and labels into lines of text, and the assembler reads them back into
buffers of its own. A label that begins with a dot belongs to the last label that doesn't, which is
the scope. Texts are bytes without the NUL at the end.
-/

namespace Saad

open General

def dollar : BitVec 8 := 0x24
def dot : BitVec 8 := 0x2E
def colon : BitVec 8 := 0x3A

section Reading

/-- Blanks that `asm_skip_spaces` leaves out. -/
def isAsmBlank (byte : BitVec 8) : Bool := byte == 0x20 || byte == 0x09

/-- The line up to a `;` that is not in a string. -/
def asmStripComment : Bool → Text → Text
  | _, [] => []
  | inString, byte :: rest =>
    let inString := if byte == 0x22 || byte == 0x27 then !inString else inString
    if byte == 0x3B && !inString then [] else byte :: asmStripComment inString rest

def asmTrimEnd (line : Text) : Text :=
  line.rdropWhile fun byte => isAsmBlank byte || byte == 0x0D

/-- A symbol, without the `$` in front. A name with a dot in front gets the scope as its prefix. -/
def asmSymbolName (s : Text) (scope : Option Text) (size : ℕ) : Text :=
  let s := if s.head? = some dollar then s.tail else s
  match scope with
  | some scope => if s.head? = some dot then cut size (scope ++ s) else cut size s
  | none => cut size s

/-- The symbol of a line that is a label. -/
def asmLabel (scope line : Text) : Option Text :=
  let line := asmTrimEnd (asmStripComment false line)
  if line.head?.any (fun byte => !isAsmBlank byte) && line.getLast? = some colon then
    some (asmSymbolName line.dropLast (some scope) 160)
  else none

/-- The symbols that lines of labels define, one after the other. A label without a dot in front is
the scope of what comes behind it, in a buffer of its own. -/
def readLabels (scope : Text) : List Text → List Text
  | [] => []
  | line :: rest =>
    match asmLabel scope line with
    | some symbol => symbol :: readLabels (if line.head? ≠ some dot then cut 160 symbol else scope) rest
    | none => readLabels scope rest

/-- The symbol of `extern name` and `global name`. -/
def asmExtern (rest : Text) : Text := asmSymbolName rest none 160

/-- The symbol of an operand that is neither memory nor a register or number. -/
def asmLabelOperand (scope operand : Text) : Text := asmSymbolName operand (some scope) 160

/-- The symbol of the memory operand `[rel name+8]`, from the text inside of the brackets. -/
def asmRelOperand (scope inside : Text) : Text :=
  let text := (inside.filter fun byte => !isAsmBlank byte).take 255
  asmSymbolName ((text.drop 3).takeWhile fun byte => byte != 0x2B && byte != 0x2D) (some scope) 160

end Reading

/-- The labels of a function that begin with a dot. -/
inductive LocalLabel where
  | block (id : ℕ)
  | inner (n : ℕ)
  | debug (n : ℕ)
  | stackProbe
deriving DecidableEq, Repr

namespace LocalLabel

def text : LocalLabel → Text
  | .block id => asciiBytes ".L" ++ decimalText id
  | .inner n => asciiBytes ".Lx" ++ decimalText n
  | .debug n => asciiBytes ".Ldbg" ++ decimalText n
  | .stackProbe => asciiBytes ".Lstack_probe"

end LocalLabel

/-- What names of symbols are made of: letters, digits, `_`, `$` and `.`. -/
def isSymbolByte (byte : BitVec 8) : Bool :=
  (0x41 ≤ byte.toNat && byte.toNat ≤ 0x5A) || (0x61 ≤ byte.toNat && byte.toNat ≤ 0x7A) ||
    (0x30 ≤ byte.toNat && byte.toNat ≤ 0x39) || byte == 0x5F || byte == dollar || byte == dot

/-- A name as the typer mangles it, of any length. -/
structure SymbolName where
  bytes : Text
  valid : ∀ byte ∈ bytes, isSymbolByte byte = true
  no_dot : bytes.head? ≠ some dot

/-- The labels in the code of a function: the blocks, and counters that only go up. -/
structure FunctionLabels where
  blocks : List ℕ := []
  blocks_nodup : blocks.Nodup := by decide
  innerCount : ℕ := 0
  debugFirst : ℕ := 0
  debugCount : ℕ := 0
  stackProbe : Bool := false

namespace FunctionLabels

def all (labels : FunctionLabels) : List LocalLabel :=
  (if labels.stackProbe then [.stackProbe] else []) ++ labels.blocks.map .block ++
    (List.range labels.innerCount).map .inner ++
    (List.range' labels.debugFirst labels.debugCount).map .debug

end FunctionLabels

/-- A global with its name, and the labels of its code if it is a function. -/
structure NamedGlobal where
  name : SymbolName
  labels : FunctionLabels := {}

/-- The lines that define the global and its labels. -/
def NamedGlobal.lines (global : NamedGlobal) : List Text :=
  (x64SymbolText global.name.bytes ++ [colon]) :: global.labels.all.map fun label => label.text ++ [colon]

/-- The names of a module, as the emitter writes them: lines for the externs, the data, and the code. -/
structure SymbolModule where
  externs : List SymbolName
  data : List SymbolName
  functions : List NamedGlobal
  /-- The count of the globals is an `int`. -/
  count_lt : externs.length + data.length + functions.length < 2 ^ 31

namespace SymbolModule

variable (m : SymbolModule)

/-- All globals. Only functions have labels. -/
def globals : List NamedGlobal :=
  m.externs.map (NamedGlobal.mk · {}) ++ m.data.map (NamedGlobal.mk · {}) ++ m.functions

def names : List Text := m.globals.map fun global => global.name.bytes

/-- The symbols that the assembler reads from the lines of the module. -/
def symbols : List Text :=
  (m.externs.map fun name => asmExtern (x64SymbolText name.bytes)) ++
    readLabels [] (m.data.flatMap (fun name => (NamedGlobal.mk name {}).lines) ++
      m.functions.flatMap NamedGlobal.lines)

/-- A name that no global has: the name, or the name with `__2`, `__3` ... after it. `none` when the
first `fuel` of them are taken. -/
def irUniqueName (name : Text) (size fuel : ℕ) : Option Text :=
  loopUntil (fun (_, unique) => if unique ∈ m.names then none else some unique)
    (fun (n, _) => (n + 1, cut size (name ++ asciiBytes "__" ++ decimalText n))) fuel
    (2, cut size name)

/-- The symbol that `function_global` gives a function of that name. -/
def functionGlobalName (name : Text) (fuel : ℕ) : Option Text := m.irUniqueName name 256 fuel

/-- The symbol that `thunk_global` gives the `invoke()` of a function of that name. -/
def thunkGlobalName (name : Text) (fuel : ℕ) : Option Text :=
  m.irUniqueName (cut 300 (asciiBytes "invoke_" ++ name)) 320 fuel

end SymbolModule

end Saad
