import Mathlib.Algebra.Group.Int.Defs
import Mathlib.Data.Finset.Insert
import Raster.Lib.Reader
import Raster.Protocol.Binary

/-!
# Messages of the protobuf RPC

`raster/protocol/proto`: `Encoding.h`, `Message.cpp` and `RpcController.cpp`. A message is its type, a call
id and the parts that belong to the type; strings have their length in front, and a protobuf message, which
has not, comes last. A writer is given by the bytes that it puts into `out`. A reader that fails throws, so
the state of a stream is what is left of it: only `parseResponseFrom` goes on after `in.get()` at the end of
the stream, and then it reads nothing more.

What the code uses of protobuf is a parameter.
-/

namespace Raster.Proto

open Lib (Reader Reads)
open Binary (be32 ntohl)

/-! ### Protobuf -/

/-- The generated pool and factory, and messages up to equality. -/
structure Protobuf where
  Message : Type
  Descriptor : Type
  MethodDescriptor : Type
  getDescriptor : Message → Descriptor
  fullName : Descriptor → List UInt8
  methodFullName : MethodDescriptor → List UInt8
  findMessageTypeByName : List UInt8 → Option Descriptor
  findMethodByName : List UInt8 → Option MethodDescriptor
  /-- The bytes that `SerializeToOstream` writes. -/
  serialize : Message → List UInt8
  /-- `ParsePartialFromIstream` into a new message of the type. It reads to the end of the stream. -/
  parsePartial : Descriptor → List UInt8 → Option Message

/-- A message is parsed from what it was serialized to, and types and methods are found by their names. -/
structure Protobuf.Lawful (P : Protobuf) : Prop where
  parsePartial_serialize : ∀ msg, P.parsePartial (P.getDescriptor msg) (P.serialize msg) = some msg
  findMessageTypeByName_fullName : ∀ descriptor, P.findMessageTypeByName (P.fullName descriptor) = some descriptor
  findMethodByName_fullName : ∀ method, P.findMethodByName (P.methodFullName method) = some method

/-! ### Encoding -/

/-- `int`. -/
def int32 (n : Nat) : Int := if n % 2 ^ 32 < 2 ^ 31 then (n % 2 ^ 32 : Nat) else (n % 2 ^ 32 : Nat) - 2 ^ 32

def readChar : Reader String UInt8 UInt8 := do
  let buf ← Reader.take 1 "fail to read a char"
  return buf.headD 0

def writeChar (c : UInt8) : List UInt8 := [c]

def readInt : Reader String UInt8 Int := do
  let buf ← Reader.take 4 "fail to read int from stream"
  return int32 (ntohl buf)

def writeInt (i : Int) : List UInt8 := be32 (i % 2 ^ 32).toNat

def readString : Reader String UInt8 (List UInt8) := do
  let n ← readInt
  if n > 0 then Reader.take n.toNat "fail to read a string from input stream" else return []

/-- `s.length()` is converted to `int`. -/
def writeString (s : List UInt8) : List UInt8 := writeInt (int32 s.length) ++ if s.length > 0 then s else []

section Protobuf

variable (P : Protobuf)

/-- `none` is a null pointer. -/
def readMethodDescriptor : Reader String UInt8 (Option P.MethodDescriptor) := do
  return P.findMethodByName (← readString)

def writeMethodDescriptor (method : P.MethodDescriptor) : List UInt8 := writeString (P.methodFullName method)

def parsePartialFromIstream (descriptor : P.Descriptor) : Reader String UInt8 P.Message := fun input =>
  match P.parsePartial descriptor input with
  | some msg => .ok (msg, [])
  | none => .error "fail to read Message"

def readMessage : Reader String UInt8 P.Message := do
  match P.findMessageTypeByName (← readString) with
  | some descriptor => parsePartialFromIstream P descriptor
  | none => throw "fail to read Message"

def writeMessage (msg : P.Message) : List UInt8 := writeString (P.fullName (P.getDescriptor msg)) ++ P.serialize msg

end Protobuf

/-! ### Controllers -/

/-- `'Y'` and `'N'`. -/
def yes : UInt8 := 89

def no : UInt8 := 78

def flag (b : Bool) : UInt8 := if b then yes else no

/-- Closures are their addresses; `cancelFunc` is the call id that `startCancel` is bound to. -/
structure PBRpcController where
  canceled : Bool := false
  failed : Bool := false
  failedReason : List UInt8 := []
  closures : Finset Nat := ∅
  cancelFunc : Option (List UInt8) := none
deriving DecidableEq

namespace PBRpcController

def setFailed (c : PBRpcController) (reason : List UInt8) : PBRpcController :=
  { c with failed := true, failedReason := reason }

def setCanceled (c : PBRpcController) : PBRpcController := { c with canceled := true }

def setStartCancel (c : PBRpcController) (callId : List UInt8) : PBRpcController := { c with cancelFunc := some callId }

def serializeTo (c : PBRpcController) : List UInt8 :=
  writeChar (flag c.canceled) ++ writeChar (flag c.failed) ++ if c.failed then writeString c.failedReason else []

def parseFrom (c : PBRpcController) : Reader String UInt8 PBRpcController := do
  let canceled := (← readChar) == yes
  let failed := (← readChar) == yes
  if failed then
    let failedReason ← readString
    return { c with canceled, failed, failedReason }
  else return { c with canceled, failed }

def copyFrom (c o : PBRpcController) : PBRpcController :=
  let c := if o.failed then c.setFailed o.failedReason else c
  { c with canceled := o.canceled }

/-- The controller, and the closures that are run. -/
def complete (c : PBRpcController) : PBRpcController × Finset Nat := ({ c with closures := ∅ }, c.closures)

end PBRpcController

/-! ### Messages -/

def undefineMsg : Int := 0
def requestMsg : Int := 1
def responseMsg : Int := 2
def cancelMsg : Int := 3

section Messages

variable (P : Protobuf)

def serializeRequest (callId : List UInt8) (method : P.MethodDescriptor) (request : P.Message) : List UInt8 :=
  writeInt requestMsg ++ (writeString callId ++ (writeMethodDescriptor P method ++ writeMessage P request))

def parseRequestFrom : Reader String UInt8 (List UInt8 × Option P.MethodDescriptor × P.Message) := do
  let callId ← readString
  let method ← readMethodDescriptor P
  let request ← readMessage P
  return (callId, method, request)

/-- The end of a response. -/
def writeResponse : Option P.Message → List UInt8
  | some response => writeChar yes ++ writeMessage P response
  | none => writeChar no

def serializeResponse (callId : List UInt8) (controller : PBRpcController) (response : Option P.Message) : List UInt8 :=
  writeInt responseMsg ++ (writeString callId ++ (controller.serializeTo ++ writeResponse P response))

/-- The controller and the response are those of the caller, and the response stays unless there is one.
`in.get()` gives `(char)-1` at the end. -/
def parseResponseFrom (controller : PBRpcController) (response : Option P.Message) :
    Reader String UInt8 (List UInt8 × PBRpcController × Option P.Message) := do
  let callId ← readString
  let controller ← controller.parseFrom
  let c ← Reader.get 0xff
  if c == yes then
    let response ← readMessage P
    return (callId, controller, some response)
  else return (callId, controller, response)

def serializeCancel (callId : List UInt8) : List UInt8 := writeInt cancelMsg ++ writeString callId

def parseCancelFrom : Reader String UInt8 (List UInt8) := readString

end Messages

/-! ### Fields -/

theorem int32_of_lt {n : Nat} (hn : n < 2 ^ 31) : int32 n = n := by
  have hmod : n % 2 ^ 32 = n := Nat.mod_eq_of_lt (by omega)
  rw [int32, hmod, if_pos hn]

theorem reads_char (c : UInt8) (rest : List UInt8) : Reads readChar (writeChar c) c rest :=
  (Reads.take "fail to read a char" (rfl : [c].length = 1) rest).map fun buf => buf.headD 0

theorem reads_int {n : Nat} (hn : n < 2 ^ 31) (rest : List UInt8) : Reads readInt (writeInt n) n rest := by
  have hbytes : writeInt n = be32 n := by
    have hmod : ((n : Int) % 2 ^ 32).toNat = n := by omega
    rw [writeInt, hmod]
  have hread := (Reads.take "fail to read int from stream" (Binary.length_be32 n) rest).map fun buf => int32 (ntohl buf)
  rw [Binary.ntohl_be32 (by omega), int32_of_lt hn] at hread
  rw [hbytes]
  exact hread

theorem reads_string {s : List UInt8} (hs : s.length < 2 ^ 31) (rest : List UInt8) :
    Reads readString (writeString s) s rest := by
  rw [writeString, int32_of_lt hs]
  refine (reads_int hs _).bind ?_
  by_cases hpos : s.length > 0
  · rw [if_pos hpos, if_pos (by omega)]
    exact Reads.take _ (by omega) rest
  · have hnil : s = [] := List.length_eq_zero_iff.mp (by omega)
    subst hnil
    exact Reads.pure _ rest

theorem flag_beq_yes (b : Bool) : (flag b == yes) = b := by cases b <;> rfl

theorem PBRpcController.reads_parseFrom (c : PBRpcController) {o : PBRpcController} (ho : o.failedReason.length < 2 ^ 31)
    (rest : List UInt8) :
    Reads c.parseFrom o.serializeTo { c with
      canceled := o.canceled, failed := o.failed, failedReason := if o.failed then o.failedReason else c.failedReason } rest := by
  unfold parseFrom serializeTo
  rw [List.append_assoc]
  refine (reads_char _ _).bind ((reads_char _ _).bind ?_)
  simp only [flag_beq_yes]
  cases hfailed : o.failed with
  | true => exact (reads_string ho rest).map fun failedReason => { c with canceled := o.canceled, failed := true, failedReason }
  | false => exact Reads.pure _ rest

section RoundTrip

variable {P : Protobuf} (hP : P.Lawful)
include hP

theorem reads_methodDescriptor {method : P.MethodDescriptor} (hname : (P.methodFullName method).length < 2 ^ 31)
    (rest : List UInt8) : Reads (readMethodDescriptor P) (writeMethodDescriptor P method) (some method) rest := by
  rw [← hP.findMethodByName_fullName method]
  exact (reads_string hname rest).map fun name => P.findMethodByName name

theorem reads_message {msg : P.Message} (hname : (P.fullName (P.getDescriptor msg)).length < 2 ^ 31) :
    Reads (readMessage P) (writeMessage P msg) msg [] := by
  refine (reads_string hname _).bind ?_
  rw [hP.findMessageTypeByName_fullName]
  show parsePartialFromIstream P (P.getDescriptor msg) _ = _
  rw [parsePartialFromIstream, List.append_nil, hP.parsePartial_serialize]

end RoundTrip

/-! ### Round trips -/

/-- What a receiver gets. -/
inductive Received (P : Protobuf)
  | request (callId : List UInt8) (method : Option P.MethodDescriptor) (request : P.Message)
  | response (callId : List UInt8) (controller : PBRpcController) (response : Option P.Message)
  | cancel (callId : List UInt8)
  | other (type : Int)

/-- The type, and then the parser for it. -/
def receive (P : Protobuf) : Reader String UInt8 (Received P) := do
  let type ← readInt
  if type = requestMsg then
    let (callId, method, request) ← parseRequestFrom P
    return .request callId method request
  else if type = responseMsg then
    let (callId, controller, response) ← parseResponseFrom P {} none
    return .response callId controller response
  else if type = cancelMsg then
    let callId ← parseCancelFrom
    return .cancel callId
  else return .other type

section RoundTrip

variable {P : Protobuf} (hP : P.Lawful) {callId : List UInt8} (hid : callId.length < 2 ^ 31)
include hP hid

theorem reads_request {method : P.MethodDescriptor} {request : P.Message} (hmethod : (P.methodFullName method).length < 2 ^ 31)
    (hrequest : (P.fullName (P.getDescriptor request)).length < 2 ^ 31) :
    Reads (receive P) (serializeRequest P callId method request) (.request callId (some method) request) [] := by
  have hparse : Reads (parseRequestFrom P) (writeString callId ++ (writeMethodDescriptor P method ++ writeMessage P request))
      (callId, some method, request) [] :=
    (reads_string hid _).bind ((reads_methodDescriptor hP hmethod _).bind
      ((reads_message hP hrequest).map fun request => (callId, some method, request)))
  refine (reads_int (n := 1) (by omega) _).bind ?_
  rw [if_pos (by decide)]
  exact hparse.map fun r => Received.request r.1 r.2.1 r.2.2

theorem reads_parseResponseFrom {controller : PBRpcController} {response : Option P.Message}
    (hreason : controller.failedReason.length < 2 ^ 31)
    (hresponse : ∀ msg ∈ response, (P.fullName (P.getDescriptor msg)).length < 2 ^ 31) (c : PBRpcController) :
    Reads (parseResponseFrom P c none)
      (writeString callId ++ (controller.serializeTo ++ writeResponse P response))
      (callId,
        { c with
          canceled := controller.canceled
          failed := controller.failed
          failedReason := if controller.failed then controller.failedReason else c.failedReason },
        response) [] := by
  refine (reads_string hid _).bind ((c.reads_parseFrom hreason _).bind ?_)
  cases response with
  | some msg =>
    refine (Reads.get 0xff yes _).bind ?_
    rw [if_pos (by decide)]
    exact (reads_message hP (hresponse msg rfl)).map fun response => (callId, _, some response)
  | none =>
    show Reads _ ([no] ++ []) _ []
    exact (Reads.get 0xff no ([] ++ [])).bind (Reads.pure _ [])

theorem reads_response {controller : PBRpcController} {response : Option P.Message}
    (hreason : controller.failedReason.length < 2 ^ 31)
    (hresponse : ∀ msg ∈ response, (P.fullName (P.getDescriptor msg)).length < 2 ^ 31) :
    Reads (receive P) (serializeResponse P callId controller response)
      (.response callId
        { canceled := controller.canceled
          failed := controller.failed
          failedReason := if controller.failed then controller.failedReason else [] }
        response) [] := by
  refine (reads_int (n := 2) (by omega) _).bind ?_
  rw [if_neg (by decide), if_pos (by decide)]
  exact (reads_parseResponseFrom hP hid hreason hresponse {}).map fun r => Received.response r.1 r.2.1 r.2.2

omit hP in
theorem reads_cancel : Reads (receive P) (serializeCancel callId) (.cancel callId) [] := by
  refine (reads_int (n := 3) (by omega) _).bind ?_
  rw [if_neg (by decide), if_neg (by decide), if_pos (by decide)]
  exact (reads_string hid []).map fun callId => Received.cancel callId

end RoundTrip

/-- **What is received is what was sent.** Each of the three kinds of message is read, to its last byte, as
a message of that kind, with its own parts. -/
theorem receive_serialize (P : Protobuf) (hP : P.Lawful) (callId : List UInt8) (hid : callId.length < 2 ^ 31) :
    (∀ (method : P.MethodDescriptor) (request : P.Message), (P.methodFullName method).length < 2 ^ 31 →
      (P.fullName (P.getDescriptor request)).length < 2 ^ 31 →
      receive P (serializeRequest P callId method request) = .ok (.request callId (some method) request, [])) ∧
    (∀ (controller : PBRpcController) (response : Option P.Message), controller.failedReason.length < 2 ^ 31 →
      (∀ msg ∈ response, (P.fullName (P.getDescriptor msg)).length < 2 ^ 31) →
      receive P (serializeResponse P callId controller response) =
        .ok (.response callId
          { canceled := controller.canceled
            failed := controller.failed
            failedReason := if controller.failed then controller.failedReason else [] }
          response, [])) ∧
    receive P (serializeCancel callId) = .ok (.cancel callId, []) := by
  refine ⟨fun method request hmethod hrequest => ?_, fun controller response hreason hresponse => ?_, ?_⟩
  · exact (reads_request hP hid hmethod hrequest).at_end
  · exact (reads_response hP hid hreason hresponse).at_end
  · exact (reads_cancel hid).at_end

/-- `message Flag { optional bool value = 1; }` and a method `Switch.Set`; a value that is there has the key
`8` and one byte. -/
def flagProtobuf : Protobuf where
  Message := Option Bool
  Descriptor := Unit
  MethodDescriptor := Unit
  getDescriptor _ := ()
  fullName _ := [70, 108, 97, 103]
  methodFullName _ := [83, 119, 105, 116, 99, 104, 46, 83, 101, 116]
  findMessageTypeByName name := if name = [70, 108, 97, 103] then some () else none
  findMethodByName name := if name = [83, 119, 105, 116, 99, 104, 46, 83, 101, 116] then some () else none
  serialize
    | none => []
    | some value => [8, if value then 1 else 0]
  parsePartial _ bytes :=
    if bytes = [] then some none
    else if bytes = [8, 0] then some (some false)
    else if bytes = [8, 1] then some (some true)
    else none

theorem flagProtobuf_lawful : flagProtobuf.Lawful where
  parsePartial_serialize
    | none => rfl
    | some false => rfl
    | some true => rfl
  findMessageTypeByName_fullName _ := rfl
  findMethodByName_fullName _ := rfl

/-- The response of a call that failed, with a message and with a byte in the reason that is no character. -/
theorem receive_serialize_flag :
    receive flagProtobuf (serializeResponse flagProtobuf [0, 7] { failed := true, failedReason := [255] } (some (some true))) =
      .ok (.response [0, 7] { failed := true, failedReason := [255] } (some (some true)), []) :=
  (receive_serialize flagProtobuf flagProtobuf_lawful [0, 7] (by decide)).2.1 { failed := true, failedReason := [255] }
    (some (some true)) (by decide) fun _ _ => (by decide : 4 < 2 ^ 31)

end Raster.Proto
