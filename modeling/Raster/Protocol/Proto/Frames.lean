import Raster.Protocol.Proto.Processor

/-!
# Frames of any content

What `PBProcessor::run` does with a frame whose bytes a client has chosen. Strings and messages that cannot
be read throw, and so does a message of an unknown type; a method of an unknown name is a null pointer, which
`parseRequestFrom` hands on and `getService` dereferences.
-/

namespace Raster.Proto

open Lib (Reader)

variable {P : Protobuf}

/-- A request that can be read to its end, and whose method the pool does not know. -/
def NamesUnknownMethod (P : Protobuf) (ibuf : List UInt8) : Prop :=
  ∃ callId name typeName descriptor msg r₁ r₂ r₃ r₄,
    readInt ibuf = .ok (requestMsg, r₁) ∧ readString r₁ = .ok (callId, r₂) ∧
    readString r₂ = .ok (name, r₃) ∧ P.findMethodByName name = none ∧
    readString r₃ = .ok (typeName, r₄) ∧ P.findMessageTypeByName typeName = some descriptor ∧
    P.parsePartial descriptor r₄ = some msg

/-! ### Reading a request -/

theorem readMethodDescriptor_eq_ok {method : Option P.MethodDescriptor} {input rest : List UInt8} :
    readMethodDescriptor P input = .ok (method, rest) ↔
      ∃ name, readString input = .ok (name, rest) ∧ P.findMethodByName name = method := by
  unfold readMethodDescriptor
  simp only [Reader.bind_eq_ok, Reader.pure_eq_ok]
  constructor
  · rintro ⟨name, mid, hname, hmethod, rfl⟩
    exact ⟨name, hname, hmethod⟩
  · rintro ⟨name, hname, hmethod⟩
    exact ⟨name, rest, hname, hmethod, rfl⟩

theorem readMessage_eq_ok {msg : P.Message} {input rest : List UInt8} :
    readMessage P input = .ok (msg, rest) ↔
      ∃ typeName descriptor mid, readString input = .ok (typeName, mid) ∧
        P.findMessageTypeByName typeName = some descriptor ∧ P.parsePartial descriptor mid = some msg ∧ rest = [] := by
  unfold readMessage
  rw [Reader.bind_eq_ok]
  refine exists_congr fun typeName => ?_
  constructor
  · rintro ⟨mid, hname, hparse⟩
    cases htype : P.findMessageTypeByName typeName with
    | none =>
      rw [htype] at hparse
      cases hparse
    | some descriptor =>
      rw [htype] at hparse
      change parsePartialFromIstream P descriptor mid = _ at hparse
      unfold parsePartialFromIstream at hparse
      split at hparse
      · next m hm =>
        cases hparse
        exact ⟨descriptor, mid, hname, rfl, hm, rfl⟩
      · cases hparse
  · rintro ⟨descriptor, mid, hname, htype, hparse, rfl⟩
    refine ⟨mid, hname, ?_⟩
    rw [htype]
    show parsePartialFromIstream P descriptor mid = _
    rw [parsePartialFromIstream, hparse]

theorem readFrame_request_iff {callId : List UInt8} {method : Option P.MethodDescriptor} {request : P.Message}
    {ibuf rest : List UInt8} :
    readFrame P ibuf = .ok (.request callId method request, rest) ↔
      ∃ r₁, readInt ibuf = .ok (requestMsg, r₁) ∧ parseRequestFrom P r₁ = .ok ((callId, method, request), rest) := by
  unfold readFrame
  rw [Reader.bind_eq_ok]
  constructor
  · rintro ⟨type, mid, htype, hframe⟩
    split_ifs at hframe with hrequest hcancel
    · obtain ⟨⟨callId', method', request'⟩, mid', hparse, hpure⟩ := Reader.bind_eq_ok.mp hframe
      obtain ⟨heq, rfl⟩ := Reader.pure_eq_ok.mp hpure
      cases heq
      exact ⟨mid, hrequest ▸ htype, hparse⟩
    · obtain ⟨callId', mid', hparse, hpure⟩ := Reader.bind_eq_ok.mp hframe
      cases (Reader.pure_eq_ok.mp hpure).1
    · cases (Reader.pure_eq_ok.mp hframe).1
  · rintro ⟨mid, htype, hparse⟩
    refine ⟨requestMsg, mid, htype, ?_⟩
    rw [if_pos rfl]
    exact Reader.bind_eq_ok.mpr ⟨_, rest, hparse, rfl⟩

theorem readFrame_null_iff {ibuf : List UInt8} :
    (∃ callId request rest, readFrame P ibuf = .ok (.request callId none request, rest)) ↔ NamesUnknownMethod P ibuf := by
  simp only [readFrame_request_iff, parseRequestFrom, Reader.bind_eq_ok, Reader.pure_eq_ok, readMethodDescriptor_eq_ok,
    readMessage_eq_ok]
  constructor
  · rintro ⟨callId, request, rest, r₁, htype, _, r₂, hid, _, r₃, ⟨name, hname, hmethod⟩, _, _,
      ⟨typeName, descriptor, r₄, htypeName, hdescriptor, hmsg, rfl⟩, heq, rfl⟩
    cases heq
    exact ⟨callId, name, typeName, descriptor, request, r₁, r₂, r₃, r₄, htype, hid, hname, hmethod, htypeName, hdescriptor, hmsg⟩
  · rintro ⟨callId, name, typeName, descriptor, msg, r₁, r₂, r₃, r₄, htype, hid, hname, hmethod, htypeName, hdescriptor, hmsg⟩
    exact ⟨callId, msg, [], r₁, htype, callId, r₂, hid, none, r₃, ⟨name, hname, hmethod⟩, msg, [],
      ⟨typeName, descriptor, r₄, htypeName, hdescriptor, hmsg, rfl⟩, rfl, rfl⟩

/-! ### Handling a frame -/

/-- What the server may do with a frame. A request is given to a registered service, or it is answered
because there is none; nothing comes of a message of another type or of one that cannot be read. -/
inductive Handled (services : P.MethodDescriptor → Option P.Message) (s : ServerState P) (processor : Nat) (ibuf : List UInt8) :
    Option (Bool × ServerState P) → Prop
  | dispatch {callId rest : List UInt8} {method : P.MethodDescriptor} {request response : P.Message}
      (hframe : readFrame P ibuf = .ok (.request callId (some method) request, rest)) (hservice : services method = some response) :
      Handled services s processor ibuf (some (true, ServerState.addHandle
        { s with accepted := s.accepted ++ [{ callId, controller := {}, request, response, processor }] } callId s.accepted.length))
  | refuse {callId rest : List UInt8} {method : P.MethodDescriptor} {request : P.Message}
      (hframe : readFrame P ibuf = .ok (.request callId (some method) request, rest)) (hservice : services method = none) :
      Handled services s processor ibuf (some (true,
        s.sendResponse processor none callId { failed := true, failedReason := "failed to find service".toUTF8.toList } none))
  | cancel {callId rest : List UInt8} (hframe : readFrame P ibuf = .ok (.cancel callId, rest)) :
      Handled services s processor ibuf (some (true, s.cancel processor callId))
  | other {rest : List UInt8} (hframe : readFrame P ibuf = .ok (.other, rest)) : Handled services s processor ibuf (some (true, s))
  | error {e : String} (hframe : readFrame P ibuf = .error e) : Handled services s processor ibuf (some (false, s))

/-- **A frame is handled, unless it is a request for an unknown method**, and then a null pointer is
dereferenced. -/
theorem run_handled_iff (services : P.MethodDescriptor → Option P.Message) (s : ServerState P) (processor : Nat)
    (ibuf : List UInt8) :
    Handled services s processor ibuf (s.run services processor ibuf) ↔ ¬ NamesUnknownMethod P ibuf := by
  rw [← readFrame_null_iff]
  have hother : ∀ {r}, readFrame P ibuf = r → (∀ callId request rest, r ≠ .ok (.request callId none request, rest)) →
      ¬ ∃ callId request rest, readFrame P ibuf = .ok (.request callId none request, rest) := by
    rintro r hr hne ⟨callId, request, rest, hnull⟩
    exact hne callId request rest (hr.symm.trans hnull)
  unfold ServerState.run
  split
  · next callId method request rest hframe =>
    cases method with
    | none => exact ⟨by rintro ⟨⟩, fun h => (h ⟨callId, request, rest, hframe⟩).elim⟩
    | some method =>
      refine ⟨fun _ => hother hframe (by simp), fun _ => ?_⟩
      simp only [ServerState.process, Option.map_some]
      split
      · next response hservice => exact .dispatch hframe hservice
      · next hservice => exact .refuse hframe hservice
  · next hframe => exact ⟨fun _ => hother hframe (by simp), fun _ => .cancel hframe⟩
  · next hframe => exact ⟨fun _ => hother hframe (by simp), fun _ => .other hframe⟩
  · next hframe => exact ⟨fun _ => hother hframe (by simp), fun _ => .error hframe⟩

/-- A request for the method `X`, with a message of a known type. -/
theorem run_unknown_method :
    ¬ Handled (fun _ => some none) ({} : ServerState flagProtobuf) 0
      (writeInt requestMsg ++ (writeString [1] ++ (writeString [88] ++ writeMessage flagProtobuf none)))
      (ServerState.run (fun _ => some none) {} 0
        (writeInt requestMsg ++ (writeString [1] ++ (writeString [88] ++ writeMessage flagProtobuf none)))) := by
  have hnull : (ServerState.run (fun _ => some none) ({} : ServerState flagProtobuf) 0
      (writeInt requestMsg ++ (writeString [1] ++ (writeString [88] ++ writeMessage flagProtobuf none)))).isNone := by
    decide +kernel
  rw [Option.isNone_iff_eq_none.mp hnull]
  exact nofun

end Raster.Proto
