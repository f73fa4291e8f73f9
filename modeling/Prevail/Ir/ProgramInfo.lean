import Prevail.Isa.Syntax

/-!
# What the verifier knows about a program

The platform describes its maps by descriptors and its map types by properties. A program has a type,
which says whether it is privileged and how its context is laid out. `get_map_descriptor` returns a
reference and throws for a descriptor that it does not know; its `none` stands for that.
-/

namespace Prevail

/-- `ebpf_context_descriptor_t`. -/
structure ContextDescriptor where
  size : ℤ
  data : ℤ
  last : ℤ
  metaData : ℤ
  deriving DecidableEq

/-- `EbpfMapValueType`. -/
inductive MapValueType where
  | any
  | map
  | program
  deriving DecidableEq

/-- `EbpfMapType`, without the name, which is only printed. -/
structure MapType where
  isArray : Bool
  valueType : MapValueType

/-- `EbpfMapDescriptor`, without the file descriptor of the map itself. -/
structure MapDescriptor where
  type : BitVec 32
  keySize : ℕ
  valueSize : ℕ
  maxEntries : ℕ
  innerMapFd : BitVec 32

/-- `ebpf_platform_t` with its maps. -/
structure MapPlatform extends Platform where
  getMapDescriptor : ℤ → Option MapDescriptor
  getMapType : BitVec 32 → MapType

/-- `ProgramInfo`, with the two fields of the program type that are looked at. -/
structure ProgramInfo where
  platform : MapPlatform
  isPrivileged : Bool
  contextDescriptor : ContextDescriptor

/-- `ebpf_verifier_options_t`, as far as checks and transfer functions ask. -/
structure VerifierOptions where
  strict : Bool
  allowDivisionByZero : Bool
  bigEndian : Bool

/-- `EBPF_SUBPROGRAM_STACK_SIZE`. -/
def subprogramStackSize : ℕ := 512

/-- `MAX_PACKET_SIZE`. -/
def maxPacketSize : ℤ := 0xffff

/-- `PTR_MAX`. -/
def ptrMax : ℤ := 2 ^ 31 - 1 - maxPacketSize

end Prevail
