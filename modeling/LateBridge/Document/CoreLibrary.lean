import LateBridge.Document.Basic

/-!
# Document/CoreLibrary — the types every program builds on

The built-in document: the roots of the hierarchy, the keyword types, the collection interfaces, the
awaitable types and the few types that generated code refers to.
-/

namespace LateBridge.CoreLibrary

/-! ## Builders -/

/-- A type of a kind, with nothing inside. -/
def bare (kind : Kind) (space name : String) : TypeDoc :=
  { kind, name, space, typeParams := [], base? := none, interfaces := [], isPartial := false
    isStatic := false, methods := [], members := [], nested := [], location := none }

/-- A class. -/
def classType : String → String → TypeDoc := bare .classType

/-- A struct. -/
def structType : String → String → TypeDoc := bare .struct

/-- An interface. -/
def interfaceType : String → String → TypeDoc := bare .interface

/-- An enum. -/
def enumType : String → String → TypeDoc := bare .enum

/-- An unconstrained type parameter. -/
def param (name : String) : TypeParamDoc :=
  { name, variance := .none, constraints := [], attributes := [], location := none }

/-! ## The library -/

/-- The types of the core library. -/
def types : List TypeDoc :=
  [
    classType "System" "Object",
    classType "System" "ValueType",
    { classType "System" "Enum" with
      base? := "System.ValueType", interfaces := ["System.IComparable"] },
    { classType "System" "Array" with interfaces := ["System.Collections.IList"] },
    classType "System" "Delegate",
    { classType "System" "MulticastDelegate" with base? := "System.Delegate" },
    { classType "System" "String" with
      interfaces := ["System.Collections.Generic.IEnumerable<char>", "System.IComparable",
        "System.IEquatable<string>"] },
    { structType "System" "Boolean" with
      interfaces := ["System.IComparable", "System.IEquatable<bool>"] },
    { structType "System" "Char" with
      interfaces := ["System.IComparable", "System.IEquatable<char>"] },
    { structType "System" "SByte" with
      interfaces := ["System.IComparable", "System.IEquatable<sbyte>"] },
    { structType "System" "Byte" with
      interfaces := ["System.IComparable", "System.IEquatable<byte>"] },
    { structType "System" "Int16" with
      interfaces := ["System.IComparable", "System.IEquatable<short>"] },
    { structType "System" "UInt16" with
      interfaces := ["System.IComparable", "System.IEquatable<ushort>"] },
    { structType "System" "Int32" with
      interfaces := ["System.IComparable", "System.IEquatable<int>"] },
    { structType "System" "UInt32" with
      interfaces := ["System.IComparable", "System.IEquatable<uint>"] },
    { structType "System" "Int64" with
      interfaces := ["System.IComparable", "System.IEquatable<long>"] },
    { structType "System" "UInt64" with
      interfaces := ["System.IComparable", "System.IEquatable<ulong>"] },
    { structType "System" "Single" with
      interfaces := ["System.IComparable", "System.IEquatable<float>"] },
    { structType "System" "Double" with
      interfaces := ["System.IComparable", "System.IEquatable<double>"] },
    { structType "System" "Decimal" with
      interfaces := ["System.IComparable", "System.IEquatable<decimal>"] },
    { structType "System" "IntPtr" with interfaces := ["System.IEquatable<nint>"] },
    { structType "System" "UIntPtr" with interfaces := ["System.IEquatable<nuint>"] },
    { structType "System" "Nullable" with
      typeParams := [{ param "T" with constraints := ["struct"] }] },
    interfaceType "System" "IComparable",
    { interfaceType "System" "IComparable" with
      typeParams := [{ param "T" with variance := .in }] },
    { interfaceType "System" "IEquatable" with typeParams := [param "T"] },
    interfaceType "System" "IDisposable",
    classType "System" "Attribute",
    classType "System" "Exception",
    { classType "System" "SystemException" with base? := "System.Exception" },
    { classType "System" "ArgumentException" with base? := "System.SystemException" },
    classType "System" "Type",
    interfaceType "System.Collections" "IEnumerable",
    { interfaceType "System.Collections" "ICollection" with
      interfaces := ["System.Collections.IEnumerable"] },
    { interfaceType "System.Collections" "IList" with
      interfaces := ["System.Collections.ICollection"] },
    { interfaceType "System.Collections.Generic" "IEnumerable" with
      typeParams := [{ param "T" with variance := .out }]
      interfaces := ["System.Collections.IEnumerable"] },
    { interfaceType "System.Collections.Generic" "ICollection" with
      typeParams := [param "T"]
      interfaces := ["IEnumerable<T>"] },
    { interfaceType "System.Collections.Generic" "IList" with
      typeParams := [param "T"]
      interfaces := ["ICollection<T>"] },
    { interfaceType "System.Collections.Generic" "IReadOnlyCollection" with
      typeParams := [{ param "T" with variance := .out }]
      interfaces := ["IEnumerable<T>"] },
    { interfaceType "System.Collections.Generic" "IReadOnlyList" with
      typeParams := [{ param "T" with variance := .out }]
      interfaces := ["IReadOnlyCollection<T>"] },
    { classType "System.Collections.Generic" "List" with
      typeParams := [param "T"]
      interfaces := ["IList<T>", "IReadOnlyList<T>", "System.Collections.IList"] },
    { structType "System.Collections.Generic" "KeyValuePair" with
      typeParams := [param "TKey", param "TValue"] },
    { interfaceType "System.Collections.Generic" "IDictionary" with
      typeParams := [param "TKey", param "TValue"]
      interfaces := ["ICollection<KeyValuePair<TKey, TValue>>"] },
    { classType "System.Collections.Generic" "Dictionary" with
      typeParams := [{ param "TKey" with constraints := ["notnull"] }, param "TValue"]
      interfaces := ["IDictionary<TKey, TValue>"] },
    { classType "System.Threading.Tasks" "Task" with interfaces := ["System.IDisposable"] },
    { classType "System.Threading.Tasks" "Task" with
      typeParams := [param "TResult"], base? := "Task" },
    structType "System.Threading.Tasks" "ValueTask",
    { structType "System.Threading.Tasks" "ValueTask" with typeParams := [param "TResult"] },
    { classType "System.ComponentModel" "EditorBrowsableAttribute" with
      base? := "System.Attribute" },
    { enumType "System.ComponentModel" "EditorBrowsableState" with
      members := ["Always", "Never", "Advanced"] },
    { classType "System.Diagnostics" "DebuggerNonUserCodeAttribute" with
      base? := "System.Attribute" },
    { classType "Microsoft.CSharp.RuntimeBinder" "RuntimeBinderException" with
      base? := "System.Exception" }
  ]

/-- **The core library** as a document; it does not ask for itself. -/
def document : GraphDocument := { coreLibrary := false, usings := [], types }

end LateBridge.CoreLibrary
