import Mathlib.Data.Int.Notation

/-!
# Opcodes

`vm/opcodes.h`, and the table of stack changes in `compiler.c`.
-/

namespace PhantomShell

def opcodeIload : UInt8 := 0x32
def opcodeIsave : UInt8 := 0x33
def opcodeFload : UInt8 := 0x34
def opcodeFsave : UInt8 := 0x35
def opcodeIconst : UInt8 := 0x36
def opcodeFconst : UInt8 := 0x37
def opcodeIadd : UInt8 := 0x42
def opcodeIsub : UInt8 := 0x43
def opcodeImul : UInt8 := 0x44
def opcodeIdiv : UInt8 := 0x45
def opcodeIneg : UInt8 := 0x46
def opcodeI2f : UInt8 := 0x47
def opcodeIeq : UInt8 := 0x4a
def opcodeIneq : UInt8 := 0x4b
def opcodeIlt : UInt8 := 0x4c
def opcodeIngt : UInt8 := 0x4d
def opcodeIgt : UInt8 := 0x4e
def opcodeInlt : UInt8 := 0x4f
def opcodeFadd : UInt8 := 0x50
def opcodeFsub : UInt8 := 0x51
def opcodeFmul : UInt8 := 0x52
def opcodeFdiv : UInt8 := 0x53
def opcodeFneg : UInt8 := 0x54
def opcodeJmp : UInt8 := 0x60
def opcodeRjmp : UInt8 := 0x61
def opcodeJez : UInt8 := 0x62
def opcodeJnez : UInt8 := 0x63
def opcodeCall : UInt8 := 0x80
def opcodePanic : UInt8 := 0xff

/-- `opcode_to_stack_inc_map`; the rows before 0x30 and behind 0x6f are zero. -/
def opcodeToStackIncMap (opcode : UInt8) : ℤ :=
  if opcode < 0x30 then 0
  else
    [0, 0, 4, -4, 4, -4, 4, 4, 0, 0, 0, 0, 0, 0, 0, 0,
     0, 0, -4, -4, -4, -4, 0, 0, 0, 0, -4, -4, -4, -4, -4, -4,
     -4, -4, -4, -4, 0, 0, 0, 0, 0, 0, 0, 0, 0, 0, 0, 0,
     -2, -2, -4, -4, 0, 0, 0, 0, 0, 0, 0, 0, 0, 0, 0, 0].getD (opcode - 0x30).toNat 0

end PhantomShell
