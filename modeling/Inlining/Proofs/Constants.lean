import Mathlib
import Inlining.Constant
import Inlining.Proofs.JsonText
import Inlining.Proofs.Survival

/-!
# Constants in texts

A constant is written as its kind and its value, and what is read of the text is what the value is read as
(`Constant.ofText?_toJson`). Hence integers, references and finite 32-bit floats come back as they were, of the
64-bit floats those with a short numeral; a float that is not finite does not come back (`Constant.rereads`).
-/

namespace Inlining

namespace Constant

/-- The constant that a text describes. -/
def ofText? (text : String) : Option Constant := (Json.parse? text).bind (Json.decode? decoder)

/-- What the value of a constant is read as once it is written. -/
def reread? : Constant → Option Constant
  | float x => if x.isFinite then ((x.numeral .jsonSingle).single?).map float else none
  | double x => if x.isFinite then ((x.numeral .jsonDouble).double?).map double else none
  | c => some c

theorem written_toJson (c : Constant) : c.toJson.Written := by
  have value : c.valueToJson.Written := by
    cases c with
    | int | long => exact .number (Numeral.spelled_ofInt _)
    | address | object => exact .number (Numeral.spelled_ofNat _)
    | float x =>
      change (if x.isFinite then Json.number (x.numeral .jsonSingle) else Json.null).Written
      split
      · exact .number (DecimalStyle.writes _ _ _).spelled
      · exact .null
    | double x =>
      change (if x.isFinite then Json.number (x.numeral .jsonDouble) else Json.null).Written
      split
      · exact .number (DecimalStyle.writes _ _ _).spelled
      · exact .null
  refine .object (by simp) ?_
  intro m listed
  simp only [List.map_cons, List.map_nil, List.mem_cons, List.not_mem_nil, or_false] at listed
  rcases listed with rfl | rfl
  · exact .string _
  · exact value

/-- An object of a kind and a value is decoded by its kind. -/
theorem decode_tagged (kind : String) (value : Json) (levels : Nat) :
    decoder (levels + 1) (.obj [("kind", .str kind), ("value", value)]) =
      (valueDecoder? kind).bind fun decode => decode levels value := by
  simp [decoder, Json.Decoder.object, Json.Decoder.fields, Json.obj, Json.Fields.required, Json.Fields.values,
    Json.Decoder.string, Json.str]

theorem intBetween_int {low high n : Int} (levels : Nat) (least : low ≤ n) (greatest : n ≤ high) :
    Json.Decoder.intBetween low high levels (.int n) = some n := by
  simp [Json.Decoder.intBetween, Json.int, Numeral.int?_ofInt, least, greatest]

theorem natUpTo_nat {high n : Nat} (levels : Nat) (greatest : n ≤ high) :
    Json.Decoder.natUpTo high levels (.nat n) = some n := by
  simp [Json.Decoder.natUpTo, Json.Decoder.intBetween, Json.nat, Numeral.int?_ofNat, greatest]

/-- Decoding what a constant is written as. -/
theorem decode_toJson (c : Constant) : Json.decode? decoder c.toJson = c.reread? := by
  unfold Json.decode? Json.nestingLimit
  rw [toJson, decode_tagged]
  cases c with
  | int v =>
    have read : Json.Decoder.int32 126 (.int v.toInt) = some v.toInt :=
      intBetween_int 126 v.le_toInt (by have := v.toInt_lt; omega)
    simp [kindName, valueDecoder?, Json.Decoder.map, valueToJson, read, reread?]
  | long v =>
    have read : Json.Decoder.int64 126 (.int v.toInt) = some v.toInt :=
      intBetween_int 126 v.le_toInt (by have := v.toInt_lt; omega)
    simp [kindName, valueDecoder?, Json.Decoder.map, valueToJson, read, reread?]
  | address v =>
    have read : Json.Decoder.nat64 126 (.nat v.toNat) = some v.toNat :=
      natUpTo_nat 126 (by have := v.toNat_lt; omega)
    simp [kindName, valueDecoder?, Json.Decoder.map, valueToJson, read, reread?]
  | object v =>
    have read : Json.Decoder.nat32 126 (.nat v.toNat) = some v.toNat :=
      natUpTo_nat 126 (by have := v.toNat_lt; omega)
    simp [kindName, valueDecoder?, Json.Decoder.map, valueToJson, read, reread?]
  | float x =>
    simp only [kindName, valueDecoder?, Json.Decoder.map, valueToJson, reread?, Single.toJson, Binary.toJson,
      Option.bind_some]
    cases x.isFinite <;> rfl
  | double x =>
    simp only [kindName, valueDecoder?, Json.Decoder.map, valueToJson, reread?, Double.toJson, Binary.toJson,
      Option.bind_some]
    cases x.isFinite <;> rfl

/-- Reading what a constant is written as, on one line or on several. -/
theorem ofText?_toJson (c : Constant) :
    ofText? c.toJson.compactText = c.reread? ∧ ofText? c.toJson.prettyText = c.reread? := by
  obtain ⟨compact, pretty⟩ := c.written_toJson.parse?_eq
  rw [ofText?, ofText?, compact, pretty, Option.bind_some, decode_toJson]
  exact ⟨rfl, rfl⟩

/-- What becomes of a constant that is written and read again. Integers, references and finite 32-bit floats are
the same, and 64-bit floats that are written shortly; of another there is what its numeral is read as, and
nothing of a float that is not finite. -/
inductive Rereads : Constant → Option Constant → Prop where
  | int (v : Int32) : Rereads (int v) (some (int v))
  | long (v : Int64) : Rereads (long v) (some (long v))
  | address (v : UInt64) : Rereads (address v) (some (address v))
  | object (v : UInt32) : Rereads (object v) (some (object v))
  | float {x : Single} (finite : x.isFinite) : Rereads (float x) (some (float x))
  | double {x : Double} (finite : x.isFinite) (short : x.Short .jsonDouble) : Rereads (double x) (some (double x))
  | longDouble {x : Double} (finite : x.isFinite) (long : ¬ x.Short .jsonDouble) :
      Rereads (double x) ((x.numeral .jsonDouble).double?.map double)
  | infiniteFloat {x : Single} (infinite : x.isFinite = false) : Rereads (float x) none
  | infiniteDouble {x : Double} (infinite : x.isFinite = false) : Rereads (double x) none

theorem rereads_reread? (c : Constant) : c.Rereads c.reread? := by
  cases c with
  | int v => exact .int v
  | long v => exact .long v
  | address v => exact .address v
  | object v => exact .object v
  | float x =>
    change (float x).Rereads (if x.isFinite then _ else none)
    split
    next finite =>
      rw [Binary.single?_of_finite finite]
      exact .float finite
    next infinite => exact .infiniteFloat (Bool.eq_false_of_not_eq_true infinite)
  | double x =>
    change (double x).Rereads (if x.isFinite then _ else none)
    split
    next finite =>
      by_cases short : x.Short .jsonDouble
      · rw [Binary.double?_of_short finite short]
        exact .double finite short
      · exact .longDouble finite short
    next infinite => exact .infiniteDouble (Bool.eq_false_of_not_eq_true infinite)

/-- **Constants in texts.** -/
theorem rereads (c : Constant) :
    c.Rereads (ofText? c.toJson.compactText) ∧ c.Rereads (ofText? c.toJson.prettyText) := by
  rw [c.ofText?_toJson.1, c.ofText?_toJson.2]
  exact ⟨c.rereads_reread?, c.rereads_reread?⟩

/-- The reader takes the digits of a 64-bit float as one number, which is rounded before it is scaled. -/
theorem double_changed :
    ofText? "\x7b\"kind\":\"double\",\"value\":9007199254740991\x7d" =
        some (double (.ofBits 0x433fffffffffffff)) ∧
      (double (.ofBits 0x433fffffffffffff)).toJson.compactText =
        "\x7b\"kind\":\"double\",\"value\":9007199254740991.0\x7d" ∧
      ofText? "\x7b\"kind\":\"double\",\"value\":9007199254740991.0\x7d" =
        some (double (.ofBits 0x433ffffffffffffe)) := by
  decide +kernel

/-- A program may hold a number beyond the 32-bit floats, which a report shows as null. -/
theorem infinite_float_lost :
    ofText? "\x7b\"kind\":\"float\",\"value\":1e39\x7d" = some (float (.infinity false)) ∧
      (float (.infinity false)).toJson.compactText = "\x7b\"kind\":\"float\",\"value\":null\x7d" ∧
      ofText? "\x7b\"kind\":\"float\",\"value\":null\x7d" = none := by
  decide +kernel

end Constant

end Inlining
