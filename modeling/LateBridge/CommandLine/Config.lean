import LateBridge.Generation
import LateBridge.Json.Decode
import LateBridge.Json.Reader

/-!
# CommandLine/Config — the configuration file

A configuration is a record in which every member may be left out.  Switches may also be written as
words.
-/

namespace LateBridge

/-- **The configuration of a run.** -/
structure Config where
  markers : MarkerNames := {}
  emit : EmitOptions := {}
  parallel : Bool := true
  deriving DecidableEq, Repr, Inhabited

namespace Config

open Json

/-- The truth value a word stands for. -/
def switchWord? (text : String) : Option Bool :=
  match Text.lowerAscii (Text.trim text) with
  | "true" | "1" | "yes" | "on" => some true
  | "false" | "0" | "no" | "off" => some false
  | _ => none

/-- A truth value, or a word for one. -/
def switch? : Json → Option Bool
  | .bool b => some b
  | .string s => switchWord? s
  | _ => none

/-- The names of the members, in order. -/
def memberNames : List String :=
  ["markerAttribute", "methodMarkerAttribute", "indent", "hideTargets", "trimmingAttributes",
   "parallel", "nullableDirective"]

/-- **A configuration** from a JSON value; what is not given is as in the default. -/
def decode (j : Json) : Option Config := do
  let base : Config := {}
  let ms ← fields? memberNames j
  let ofParam ← defaulted? ms "markerAttribute" string? base.markers.ofParam
  let ofMethod ← defaulted? ms "methodMarkerAttribute" string? base.markers.ofMethod
  let indent ← defaulted? ms "indent" (natBelow? (Nat.pow 2 64)) base.emit.indent
  let hideTargets ← defaulted? ms "hideTargets" switch? base.emit.hideTargets
  let trimmingAttributes ← defaulted? ms "trimmingAttributes" switch? base.emit.trimmingAttributes
  let parallel ← defaulted? ms "parallel" switch? base.parallel
  let nullableDirective ← defaulted? ms "nullableDirective" switch? base.emit.nullableDirective
  return { markers := { ofParam, ofMethod }
           emit := { indent, hideTargets, trimmingAttributes, nullableDirective }, parallel }

/-- **Reading a configuration** from its text. -/
def read (text : String) : Option Config := (Json.read text).bind decode

/-- **A configuration** as a JSON value. -/
def encode (c : Config) : Json :=
  .object [("markerAttribute", c.markers.ofParam), ("methodMarkerAttribute", c.markers.ofMethod),
    ("indent", nat c.emit.indent), ("hideTargets", c.emit.hideTargets),
    ("trimmingAttributes", c.emit.trimmingAttributes), ("parallel", c.parallel),
    ("nullableDirective", c.emit.nullableDirective)]

/-- What a configuration means for a pass. -/
def generatorOptions (c : Config) : GeneratorOptions := ⟨c.markers, c.emit, c.parallel⟩

end Config

end LateBridge
