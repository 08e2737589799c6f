import LateBridge.Symbols.DeclName

/-!
# Symbols/Special — the types the language knows by itself

Twenty types of the core library are recognised by their metadata names; most have a keyword.
-/

namespace LateBridge

/-- **The special types.** -/
inductive Special where
  | object
  | valueType
  | enum
  | array
  | string
  | boolean
  | char
  | sbyte
  | byte
  | int16
  | uint16
  | int32
  | uint32
  | int64
  | uint64
  | single
  | double
  | decimal
  | intPtr
  | uintPtr
  deriving DecidableEq, Repr

namespace Special

/-- Every special type. -/
def all : List Special :=
  [object, valueType, enum, array, string, boolean, char, sbyte, byte, int16, uint16, int32,
    uint32, int64, uint64, single, double, decimal, intPtr, uintPtr]

/-- The keyword that names a special type, if it has one. -/
def keyword? : Special → Option String
  | object => "object"
  | string => "string"
  | boolean => "bool"
  | char => "char"
  | sbyte => "sbyte"
  | byte => "byte"
  | int16 => "short"
  | uint16 => "ushort"
  | int32 => "int"
  | uint32 => "uint"
  | int64 => "long"
  | uint64 => "ulong"
  | single => "float"
  | double => "double"
  | decimal => "decimal"
  | intPtr => "nint"
  | uintPtr => "nuint"
  | valueType | enum | array => none

/-- The metadata name of a special type. -/
def metadata : Special → String
  | object => "System.Object"
  | valueType => "System.ValueType"
  | enum => "System.Enum"
  | array => "System.Array"
  | string => "System.String"
  | boolean => "System.Boolean"
  | char => "System.Char"
  | sbyte => "System.SByte"
  | byte => "System.Byte"
  | int16 => "System.Int16"
  | uint16 => "System.UInt16"
  | int32 => "System.Int32"
  | uint32 => "System.UInt32"
  | int64 => "System.Int64"
  | uint64 => "System.UInt64"
  | single => "System.Single"
  | double => "System.Double"
  | decimal => "System.Decimal"
  | intPtr => "System.IntPtr"
  | uintPtr => "System.UIntPtr"

/-- The special type with a metadata name. -/
def ofMetadata? (name : String) : Option Special := all.find? (·.metadata == name)

/-- The special type a keyword names. -/
def ofKeyword? (word : String) : Option Special := all.find? (·.keyword? == some word)

@[simp] theorem ofMetadata?_metadata (s : Special) : ofMetadata? s.metadata = some s := by
  cases s <;> decide

theorem metadata_of_ofMetadata? {name : String} {s : Special} (h : ofMetadata? name = some s) :
    s.metadata = name := by
  rw [ofMetadata?] at h
  simpa using List.find?_some h

end Special

/-- The special type a declared type is. -/
def DeclName.special? (n : DeclName) : Option Special := Special.ofMetadata? n.metadata

end LateBridge
