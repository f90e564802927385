import Inlining.Json.Decode

/-!
# Constants

A constant that a load was folded to: a number of one of four widths, a raw address, or a
known object. Two constants are the same when kind and bits agree, which is equality of the
type: it tells the two zeros of a float apart and a word that is no number equals itself.
`equalNumbers` compares floats as numbers instead.

A float is written in JSON as the JSON package that the inliner links writes it: with the
shortest digits that read back, with an exponent outside of the bounds in `jsonDouble` and
`jsonSingle`, and as null unless it is finite. These bounds are that package's; what is
proved of constants that are written and read again (`Constant.rereads`) rests on them.
-/

namespace Inlining

/-- A constant. -/
inductive Constant where
  | int (value : Int32)
  | long (value : Int64)
  | float (value : Single)
  | double (value : Double)
  | address (value : UInt64)
  | object (index : UInt32)
deriving DecidableEq

/-- Floats in texts: no exponent, whole numbers without a point. -/
def DecimalStyle.plain : DecimalStyle := ⟨.up, fun _ => true, false⟩

/-- 64-bit floats in JSON: an exponent below `1e-5` and from `1e16` on, whole numbers with a
point. -/
def DecimalStyle.jsonDouble : DecimalStyle := ⟨.toEven, fun e => -5 ≤ e && e ≤ 15, true⟩

/-- 32-bit floats in JSON: an exponent below `1e-6` and from `1e13` on. -/
def DecimalStyle.jsonSingle : DecimalStyle := ⟨.toEven, fun e => -6 ≤ e && e ≤ 12, true⟩

namespace Binary

variable {fmt : BinaryFormat}

/-- A float as it stands in a text. -/
def text (x : Binary fmt) : String :=
  if x.isNaN then "NaN"
  else if x.isInfinite then if x.negative then "-inf" else "inf"
  else (x.numeral .plain).text

/-- A float as a JSON value; null unless it is finite. -/
def toJson (style : DecimalStyle) (x : Binary fmt) : Json :=
  if x.isFinite then .number (x.numeral style) else .null

end Binary

/-- A 32-bit float as a JSON value. -/
def Single.toJson (x : Single) : Json := Binary.toJson .jsonSingle x

/-- A 64-bit float as a JSON value. -/
def Double.toJson (x : Double) : Json := Binary.toJson .jsonDouble x

namespace Constant

/-- The constant is an integer. -/
def isIntegral : Constant → Bool
  | int _ | long _ => true
  | _ => false

/-- The constant refers to memory. -/
def isReference : Constant → Bool
  | address _ | object _ => true
  | _ => false

/-- Same kind and same value, where floats are compared as numbers. -/
def equalNumbers : Constant → Constant → Bool
  | float x, float y => x.sameNumber y
  | double x, double y => x.sameNumber y
  | a, b => a = b

/-- The constant as reports and traces show it. -/
def text : Constant → String
  | int v => "int " ++ toString v.toInt
  | long v => "long " ++ toString v.toInt
  | float v => "float " ++ v.text
  | double v => "double " ++ v.text
  | address v => "address 0x" ++ String.ofList (Nat.toDigits 16 v.toNat)
  | object v => "object #" ++ toString v.toNat

/-- The name of the constant's kind. -/
def kindName : Constant → String
  | int _ => "int"
  | long _ => "long"
  | float _ => "float"
  | double _ => "double"
  | address _ => "address"
  | object _ => "object"

/-- The value of the constant without its kind. -/
def valueToJson : Constant → Json
  | int v => .int v.toInt
  | long v => .int v.toInt
  | float v => v.toJson
  | double v => v.toJson
  | address v => .nat v.toNat
  | object v => .nat v.toNat

def toJson (c : Constant) : Json :=
  .obj [("kind", .str c.kindName), ("value", c.valueToJson)]

/-- Reads the value of a constant whose kind has the given name. -/
def valueDecoder? : String → Option (Json.Decoder Constant)
  | "int" => some (Json.Decoder.int32.map fun v => int (Int32.ofInt v))
  | "long" =>
    some (Json.Decoder.int64.map fun v => long (Int64.ofInt v))
  | "float" => some (Json.Decoder.single.map float)
  | "double" => some (Json.Decoder.double.map double)
  | "address" => some (Json.Decoder.nat64.map fun v => address (UInt64.ofNat v))
  | "object" => some (Json.Decoder.nat32.map fun v => object (UInt32.ofNat v))
  | _ => none

/-- A constant is an object that holds its kind and its value, in either order. -/
def decoder : Json.Decoder Constant := .object fun f => do
  let kind ← f.required "kind" .string
  let value ← valueDecoder? kind
  f.required "value" value

end Constant

end Inlining
