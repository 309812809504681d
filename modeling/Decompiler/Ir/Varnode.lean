import Mathlib.Data.Finset.Basic

/-! # Varnodes

A varnode is an address space, an offset and a size, with a debug name that plays
no part in equality. Maps and sets of varnodes are therefore keyed by the triple
alone, which is the varnode's location.
-/

namespace Decompiler

abbrev Address := UInt64

/-- The class of storage a varnode lives in, in the order the source derives. -/
inductive AddressSpace where
  | register
  | memory
  | constant
  | unique
  deriving DecidableEq, Repr, Ord

structure Location where
  space : AddressSpace
  offset : UInt64
  size : UInt8
  deriving DecidableEq, Repr

structure Varnode extends Location where
  name : Option String
  deriving DecidableEq, Repr

namespace Varnode

abbrev location (v : Varnode) : Location := v.toLocation

def new (space : AddressSpace) (offset : UInt64) (size : UInt8) : Varnode :=
  ⟨⟨space, offset, size⟩, none⟩

def named (space : AddressSpace) (offset : UInt64) (size : UInt8) (name : String) : Varnode :=
  ⟨⟨space, offset, size⟩, some name⟩

def constant (value : UInt64) (size : UInt8) : Varnode := new .constant value size

def register (id : UInt64) (size : UInt8) (name : String) : Varnode := named .register id size name

end Varnode

/-- Source of fresh `unique` varnodes, scoped to one function. -/
structure TempAllocator where
  next : UInt64
  deriving DecidableEq, Repr

def TempAllocator.new : TempAllocator := ⟨0⟩

end Decompiler
