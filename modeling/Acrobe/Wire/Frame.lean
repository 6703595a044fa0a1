import Mathlib

/-!
# Frames of the wire protocol

A frame is a CBOR array whose first element says its kind. What `cbor2` makes of the bytes is taken as it comes: an
error text, or a value. Decoding a frame raises `FrameError` where its shape is wrong, and something else where a
value inside it has no decoding in the session.
-/

namespace Acrobe.Wire

/-! ### Values -/

/-- A value of `cbor2`; a float is `none` where it is not a number or not finite. -/
inductive Cbor where
  | null
  | bool (value : Bool)
  | int (value : Int)
  | float (value : Option Rat)
  | text (value : String)
  | bytes (value : List UInt8)
  | list (items : List Cbor)
  | map (entries : List (Cbor × Cbor))
  | tag (tag : Nat) (value : Cbor)

namespace Cbor

def typeName : Cbor → String
  | .null => "NoneType"
  | .bool _ => "bool"
  | .int _ => "int"
  | .float _ => "float"
  | .text _ => "str"
  | .bytes _ => "bytes"
  | .list _ => "list"
  | .map _ => "dict"
  | .tag _ _ => "CBORTag"

/-- `value == n`; a truth value is an integer, and a float may be equal to one. -/
def isInt (value : Cbor) (n : Int) : Bool :=
  match value with
  | .bool flag => decide ((if flag then 1 else 0) = n)
  | .int m => decide (m = n)
  | .float (some q) => decide (q = n)
  | _ => false

def hashable : Cbor → Bool
  | .list _ | .map _ => false
  | _ => true

/-- What iterating over the value gives, where it can be iterated over. -/
def elements : Cbor → Option (List Cbor)
  | .list items => some items
  | .map entries => some (entries.map Prod.fst)
  | .text value => some (value.toList.map fun char => .text (String.singleton char))
  | .bytes value => some (value.map fun byte => .int byte.toNat)
  | _ => none

end Cbor

/-- What `decode_value` returns: objects in the place of tagged values. -/
inductive Value (Obj : Type) where
  | plain (value : Cbor)
  | list (items : List (Value Obj))
  | dict (entries : List (Cbor × Value Obj))
  | object (value : Obj)

/-- The decoders of the tags that a session knows; a decoder may raise. -/
abbrev Codecs (Obj : Type) := Nat → Option (Cbor → Option Obj)

mutual

/-- `Session.decode_value`; `none` where it raises. -/
def decodeValue {Obj : Type} (codecs : Codecs Obj) : Cbor → Option (Value Obj)
  | .tag tag value => (codecs tag).bind fun decode => (decode value).map .object
  | .list items => (decodeValues codecs items).map .list
  | .map entries => (decodeEntries codecs entries).map .dict
  | value => some (.plain value)

def decodeValues {Obj : Type} (codecs : Codecs Obj) : List Cbor → Option (List (Value Obj))
  | [] => some []
  | item :: items => (decodeValue codecs item).bind fun value => (decodeValues codecs items).map (value :: ·)

def decodeEntries {Obj : Type} (codecs : Codecs Obj) : List (Cbor × Cbor) → Option (List (Cbor × Value Obj))
  | [] => some []
  | (key, item) :: entries =>
    (decodeValue codecs item).bind fun value => (decodeEntries codecs entries).map ((key, value) :: ·)

end

/-! ### Frames -/

def kindCatalog : Int := 1

def kindRequest : Int := 2

def kindResponse : Int := 3

def kindProtocolError : Int := 4

inductive Frame (Obj : Type) where
  | catalog (nodeUuid nodeTag types : Cbor)
  | request (reqId : Cbor) (batch : List (Value Obj))
  | response (reqId : Cbor) (results errors : List (Cbor × Value Obj))
  | protocolError (reqId kind payload : Cbor)

def Frame.typeName {Obj : Type} : Frame Obj → String
  | .catalog _ _ _ => "Catalog"
  | .request _ _ => "Request"
  | .response _ _ _ => "Response"
  | .protocolError _ _ _ => "ProtocolError"

/-- `getattr(frame, "req_id", None)`. -/
def Frame.reqId {Obj : Type} : Frame Obj → Cbor
  | .catalog _ _ _ => .null
  | .request reqId _ | .response reqId _ _ | .protocolError reqId _ _ => reqId

def encodeRequest (reqId : Nat) (batch : List Cbor) : Cbor := .list [.int kindRequest, .int reqId, .list batch]

def encodeResponse (reqId : Cbor) (results errors : List (Nat × Cbor)) : Cbor :=
  .list [.int kindResponse, reqId, .map (results.map fun entry => (.int entry.1, entry.2)),
    .map (errors.map fun entry => (.int entry.1, entry.2))]

def encodeProtocolError (reqId : Cbor) (kind payload : String) : Cbor :=
  .list [.int kindProtocolError, reqId, .text kind, .text payload]

/-- The outcome of a decoder: `raised` stands for any exception that is not a `FrameError`. -/
inductive Decoded (α : Type) where
  | ok (value : α)
  | frameError (text : String)
  | raised

namespace Decoded

def isOk {α : Type} : Decoded α → Bool
  | .ok _ => true
  | _ => false

def raises {α : Type} : Decoded α → Bool
  | .raised => true
  | _ => false

def ofOption {α : Type} : Option α → Decoded α
  | some value => .ok value
  | none => .raised

end Decoded

/-- `UUID(bytes=value)`: a wrong length is a `ValueError`, sixteen of something else fail an assertion. -/
def decodeUuid : Cbor → Decoded Unit
  | .bytes value => if value.length = 16 then .ok () else .frameError "Catalog frame: bad payload"
  | .text value => if value.length = 16 then .raised else .frameError "Catalog frame: bad payload"
  | .list items => if items.length = 16 then .raised else .frameError "Catalog frame: bad payload"
  | .map entries => if entries.length = 16 then .raised else .frameError "Catalog frame: bad payload"
  | _ => .frameError "Catalog frame: bad payload"

def decodeUuids : List Cbor → Decoded Unit
  | [] => .ok ()
  | value :: values =>
    match decodeUuid value with
    | .ok () => decodeUuids values
    | failed => failed

def decodeCatalog {Obj : Type} (nodeUuid nodeTag types : Cbor) : Decoded (Frame Obj) :=
  match decodeUuid nodeUuid, types with
  | .ok (), .map entries =>
    match decodeUuids (entries.map Prod.fst) with
    | .ok () => .ok (.catalog nodeUuid nodeTag types)
    | .frameError text => .frameError text
    | .raised => .raised
  | .ok (), _ => .raised
  | .frameError text, _ => .frameError text
  | .raised, _ => .raised

def decodeResponse {Obj : Type} (codecs : Codecs Obj) (reqId : Cbor) : Cbor → Cbor → Option (Frame Obj)
  | .map results, .map errors =>
    (decodeEntries codecs results).bind fun results =>
      (decodeEntries codecs errors).map fun errors => .response reqId results errors
  | _, _ => none

def expected {Obj : Type} (name : String) (count got : Nat) : Decoded (Frame Obj) :=
  .frameError (name ++ " frame: expected " ++ toString count ++ " elements, got " ++ toString got)

/-- `decode_frame` with a session; `kind` and the rest of the array. -/
def decodeArray {Obj : Type} (codecs : Codecs Obj) (kind : Cbor) (rest : List Cbor) : Decoded (Frame Obj) :=
  if kind.isInt kindCatalog then
    match rest with
    | [nodeUuid, nodeTag, types] => decodeCatalog nodeUuid nodeTag types
    | _ => expected "Catalog" 4 (rest.length + 1)
  else if kind.isInt kindProtocolError then
    match rest with
    | [reqId, kind, payload] => .ok (.protocolError reqId kind payload)
    | _ => expected "ProtocolError" 4 (rest.length + 1)
  else if kind.isInt kindRequest then
    match rest with
    | [reqId, batch] =>
      .ofOption (batch.elements.bind fun ops => (decodeValues codecs ops).map fun ops => .request reqId ops)
    | _ => expected "Request" 3 (rest.length + 1)
  else if kind.isInt kindResponse then
    match rest with
    | [reqId, results, errors] => .ofOption (decodeResponse codecs reqId results errors)
    | _ => expected "Response" 4 (rest.length + 1)
  else .frameError "unknown frame kind"

/-- `decode_frame`, from what `cbor2.loads` makes of the bytes. -/
def decodeFrame {Obj : Type} (codecs : Codecs Obj) : Except String Cbor → Decoded (Frame Obj)
  | .error text => .frameError ("malformed CBOR: " ++ text)
  | .ok (.list (kind :: rest)) => decodeArray codecs kind rest
  | .ok raw => .frameError ("frame must be a non-empty array, got " ++ raw.typeName)

/-! ### What either side sends -/

variable {Obj : Type} (codecs : Codecs Obj)

theorem decodeFrame_request (reqId : Nat) (batch : List Cbor) :
    (∃ ops, decodeFrame codecs (.ok (encodeRequest reqId batch)) = .ok (.request (.int reqId) ops)) ∨
      decodeFrame codecs (.ok (encodeRequest reqId batch)) = .raised := by
  have shape : decodeFrame codecs (.ok (encodeRequest reqId batch)) =
      .ofOption ((decodeValues codecs batch).map fun ops => .request (.int reqId) ops) := rfl
  rw [shape]
  cases decodeValues codecs batch with
  | none => exact .inr rfl
  | some ops => exact .inl ⟨ops, rfl⟩

theorem decodeFrame_response (reqId : Cbor) (results errors : List (Nat × Cbor)) :
    (∃ values failures,
        decodeFrame codecs (.ok (encodeResponse reqId results errors)) = .ok (.response reqId values failures)) ∨
      decodeFrame codecs (.ok (encodeResponse reqId results errors)) = .raised := by
  have shape : decodeFrame codecs (.ok (encodeResponse reqId results errors)) =
      .ofOption ((decodeEntries codecs (results.map fun entry => (.int entry.1, entry.2))).bind fun results =>
        (decodeEntries codecs (errors.map fun entry => (.int entry.1, entry.2))).map fun errors =>
          .response reqId results errors) := rfl
  rw [shape]
  cases decodeEntries codecs (results.map fun entry => (.int entry.1, entry.2)) with
  | none => exact .inr rfl
  | some values =>
    cases decodeEntries codecs (errors.map fun entry => (.int entry.1, entry.2)) with
    | none => exact .inr rfl
    | some failures => exact .inl ⟨values, failures, rfl⟩

theorem decodeFrame_protocolError (reqId : Cbor) (kind payload : String) :
    decodeFrame codecs (.ok (encodeProtocolError reqId kind payload)) =
      .ok (.protocolError reqId (.text kind) (.text payload)) := rfl

end Acrobe.Wire
