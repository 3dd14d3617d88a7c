/-!
# The opcodes of the byte code

`opcode_info[]` for the final opcodes of `quickjs-opcode.h`: the size of each
instruction and the format of its operands. The temporary opcodes of the
compiler, which have numbers of short opcodes, do not occur in finished byte
code, and `short_opcode_info` leaves them out.
-/

namespace CkbJs.Impl.Bytecode

/-- `OPCodeFormat`. -/
inductive OPCodeFormat where
  | none | noneInt | noneLoc | noneArg | noneVarRef
  | u8 | i8 | loc8 | const8 | label8
  | u16 | i16 | label16 | npop | npopx | npopU16 | loc | arg | varRef
  | u32 | i32 | const | label
  | atom | atomU8 | atomU16 | atomLabelU8 | atomLabelU16 | labelU16
  deriving DecidableEq

structure JSOpCode where
  /-- In bytes, with the operands. -/
  size : Nat
  fmt : OPCodeFormat

/-- The formats whose first operand is an atom. -/
def OPCodeFormat.hasAtom : OPCodeFormat → Bool
  | .atom | .atomU8 | .atomU16 | .atomLabelU8 | .atomLabelU16 => true
  | _ => false

def opcodeInfo : List JSOpCode :=
  -- 0: invalid
  [⟨1, .none⟩, ⟨5, .i32⟩, ⟨5, .const⟩, ⟨5, .const⟩, ⟨5, .atom⟩, ⟨5, .atom⟩, ⟨1, .none⟩, ⟨1, .none⟩,
  -- 8: push_this
   ⟨1, .none⟩, ⟨1, .none⟩, ⟨1, .none⟩, ⟨1, .none⟩, ⟨2, .u8⟩, ⟨3, .u16⟩, ⟨1, .none⟩, ⟨1, .none⟩,
  -- 16: nip1
   ⟨1, .none⟩, ⟨1, .none⟩, ⟨1, .none⟩, ⟨1, .none⟩, ⟨1, .none⟩, ⟨1, .none⟩, ⟨1, .none⟩, ⟨1, .none⟩,
  -- 24: perm3
   ⟨1, .none⟩, ⟨1, .none⟩, ⟨1, .none⟩, ⟨1, .none⟩, ⟨1, .none⟩, ⟨1, .none⟩, ⟨1, .none⟩, ⟨1, .none⟩,
  -- 32: rot5l
   ⟨1, .none⟩, ⟨3, .npop⟩, ⟨3, .npop⟩, ⟨3, .npop⟩, ⟨3, .npop⟩, ⟨3, .npop⟩, ⟨3, .npop⟩, ⟨3, .u16⟩,
  -- 40: return
   ⟨1, .none⟩, ⟨1, .none⟩, ⟨1, .none⟩, ⟨1, .none⟩, ⟨1, .none⟩, ⟨1, .none⟩, ⟨1, .none⟩, ⟨1, .none⟩,
  -- 48: throw_error
   ⟨6, .atomU8⟩, ⟨5, .npopU16⟩, ⟨3, .u16⟩, ⟨1, .none⟩, ⟨1, .none⟩, ⟨1, .none⟩, ⟨5, .atom⟩,
  -- 55: get_var_undef
   ⟨5, .atom⟩, ⟨5, .atom⟩, ⟨5, .atom⟩, ⟨5, .atom⟩, ⟨5, .atom⟩, ⟨1, .none⟩, ⟨1, .none⟩,
  -- 62: define_var
   ⟨6, .atomU8⟩, ⟨6, .atomU8⟩, ⟨6, .atomU8⟩, ⟨5, .atom⟩, ⟨5, .atom⟩, ⟨5, .atom⟩, ⟨1, .none⟩,
  -- 69: put_private_field
   ⟨1, .none⟩, ⟨1, .none⟩, ⟨1, .none⟩, ⟨1, .none⟩, ⟨1, .none⟩, ⟨1, .none⟩, ⟨1, .none⟩, ⟨5, .atom⟩,
  -- 77: set_name
   ⟨5, .atom⟩, ⟨1, .none⟩, ⟨1, .none⟩, ⟨1, .none⟩, ⟨1, .none⟩, ⟨1, .none⟩, ⟨2, .u8⟩, ⟨6, .atomU8⟩,
  -- 85: define_method_computed
   ⟨2, .u8⟩, ⟨6, .atomU8⟩, ⟨6, .atomU8⟩, ⟨3, .loc⟩, ⟨3, .loc⟩, ⟨3, .loc⟩, ⟨3, .arg⟩, ⟨3, .arg⟩,
  -- 93: set_arg
   ⟨3, .arg⟩, ⟨3, .varRef⟩, ⟨3, .varRef⟩, ⟨3, .varRef⟩, ⟨3, .loc⟩, ⟨3, .loc⟩, ⟨3, .loc⟩, ⟨3, .loc⟩,
  -- 101: get_var_ref_check
   ⟨3, .varRef⟩, ⟨3, .varRef⟩, ⟨3, .varRef⟩, ⟨3, .loc⟩, ⟨5, .label⟩, ⟨5, .label⟩, ⟨5, .label⟩,
  -- 108: catch
   ⟨5, .label⟩, ⟨5, .label⟩, ⟨1, .none⟩, ⟨1, .none⟩, ⟨1, .none⟩, ⟨1, .none⟩, ⟨10, .atomLabelU8⟩,
  -- 115: with_put_var
   ⟨10, .atomLabelU8⟩, ⟨10, .atomLabelU8⟩, ⟨10, .atomLabelU8⟩, ⟨10, .atomLabelU8⟩,
  -- 119: with_get_ref_undef
   ⟨10, .atomLabelU8⟩, ⟨7, .atomU16⟩, ⟨7, .atomU16⟩, ⟨7, .atomU16⟩, ⟨5, .atom⟩, ⟨1, .none⟩,
  -- 125: for_of_start
   ⟨1, .none⟩, ⟨1, .none⟩, ⟨1, .none⟩, ⟨2, .u8⟩, ⟨1, .none⟩, ⟨1, .none⟩, ⟨1, .none⟩, ⟨1, .none⟩,
  -- 133: iterator_next
   ⟨1, .none⟩, ⟨2, .u8⟩, ⟨1, .none⟩, ⟨1, .none⟩, ⟨1, .none⟩, ⟨1, .none⟩, ⟨1, .none⟩, ⟨1, .none⟩,
  -- 141: plus
   ⟨1, .none⟩, ⟨1, .none⟩, ⟨1, .none⟩, ⟨1, .none⟩, ⟨1, .none⟩, ⟨2, .loc8⟩, ⟨2, .loc8⟩, ⟨2, .loc8⟩,
  -- 149: not
   ⟨1, .none⟩, ⟨1, .none⟩, ⟨1, .none⟩, ⟨1, .none⟩, ⟨5, .atom⟩, ⟨1, .none⟩, ⟨1, .none⟩, ⟨1, .none⟩,
  -- 157: add
   ⟨1, .none⟩, ⟨1, .none⟩, ⟨1, .none⟩, ⟨1, .none⟩, ⟨1, .none⟩, ⟨1, .none⟩, ⟨1, .none⟩, ⟨1, .none⟩,
  -- 165: gt
   ⟨1, .none⟩, ⟨1, .none⟩, ⟨1, .none⟩, ⟨1, .none⟩, ⟨1, .none⟩, ⟨1, .none⟩, ⟨1, .none⟩, ⟨1, .none⟩,
  -- 173: and
   ⟨1, .none⟩, ⟨1, .none⟩, ⟨1, .none⟩, ⟨1, .none⟩, ⟨1, .none⟩, ⟨1, .none⟩, ⟨1, .none⟩,
  -- 180: push_minus1
   ⟨1, .noneInt⟩, ⟨1, .noneInt⟩, ⟨1, .noneInt⟩, ⟨1, .noneInt⟩, ⟨1, .noneInt⟩, ⟨1, .noneInt⟩,
  -- 186: push_5
   ⟨1, .noneInt⟩, ⟨1, .noneInt⟩, ⟨1, .noneInt⟩, ⟨2, .i8⟩, ⟨3, .i16⟩, ⟨2, .const8⟩, ⟨2, .const8⟩,
  -- 193: push_empty_string
   ⟨1, .none⟩, ⟨2, .loc8⟩, ⟨2, .loc8⟩, ⟨2, .loc8⟩, ⟨1, .noneLoc⟩, ⟨1, .noneLoc⟩, ⟨1, .noneLoc⟩,
  -- 200: get_loc3
   ⟨1, .noneLoc⟩, ⟨1, .noneLoc⟩, ⟨1, .noneLoc⟩, ⟨1, .noneLoc⟩, ⟨1, .noneLoc⟩, ⟨1, .noneLoc⟩,
  -- 206: set_loc1
   ⟨1, .noneLoc⟩, ⟨1, .noneLoc⟩, ⟨1, .noneLoc⟩, ⟨1, .noneArg⟩, ⟨1, .noneArg⟩, ⟨1, .noneArg⟩,
  -- 212: get_arg3
   ⟨1, .noneArg⟩, ⟨1, .noneArg⟩, ⟨1, .noneArg⟩, ⟨1, .noneArg⟩, ⟨1, .noneArg⟩, ⟨1, .noneArg⟩,
  -- 218: set_arg1
   ⟨1, .noneArg⟩, ⟨1, .noneArg⟩, ⟨1, .noneArg⟩, ⟨1, .noneVarRef⟩, ⟨1, .noneVarRef⟩,
  -- 223: get_var_ref2
   ⟨1, .noneVarRef⟩, ⟨1, .noneVarRef⟩, ⟨1, .noneVarRef⟩, ⟨1, .noneVarRef⟩, ⟨1, .noneVarRef⟩,
  -- 228: put_var_ref3
   ⟨1, .noneVarRef⟩, ⟨1, .noneVarRef⟩, ⟨1, .noneVarRef⟩, ⟨1, .noneVarRef⟩, ⟨1, .noneVarRef⟩,
  -- 233: get_length
   ⟨1, .none⟩, ⟨2, .label8⟩, ⟨2, .label8⟩, ⟨2, .label8⟩, ⟨3, .label16⟩, ⟨1, .npopx⟩, ⟨1, .npopx⟩,
  -- 240: call2
   ⟨1, .npopx⟩, ⟨1, .npopx⟩, ⟨1, .none⟩, ⟨1, .none⟩, ⟨1, .none⟩, ⟨1, .none⟩]

/-- `short_opcode_info`; there are 246 opcodes. -/
def shortOpcodeInfo (op : UInt8) : Option JSOpCode := opcodeInfo[op.toNat]?

end CkbJs.Impl.Bytecode
