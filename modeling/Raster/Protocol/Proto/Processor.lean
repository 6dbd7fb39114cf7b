import Raster.Lib.Machine
import Raster.Protocol.Proto.Message
import Raster.Util.LockedMap

/-!
# `PBProcessor`

`raster/protocol/proto/Processor.h` and `AsyncServer.h`: the server. A frame has a processor of its own; all
of them share the table of handles of the server, by the call ids that the clients have chosen. A request
for a known service gets a handle, and the closure `finish` of the handle is given to the service, which runs
it when it is done. A cancel takes the handle out of the table.

`addHandle` keeps the entry that is there, and `finish` takes the entry out of the table before it looks
whether it is its own.
-/

namespace Raster.Proto

open Lib (Reader)

variable {P : Protobuf}

/-- `PBAsyncServer::Handle`, and the processor that `finish` is bound to. -/
structure ServerHandle (P : Protobuf) where
  callId : List UInt8
  controller : PBRpcController
  request : P.Message
  response : P.Message
  processor : Nat

/-- A call of `sendResponse`: the handle that it is for, if there is one, and the bytes. -/
structure SentResponse where
  handle : Option Nat
  bytes : List UInt8
deriving DecidableEq

/-- The server and its processors. A handle is its place in `accepted`; `finished` has the handles whose
closures were run, and `cancelled` those whose calls were cancelled. -/
structure ServerState (P : Protobuf) where
  handles : LockedMap (List UInt8) (Option Nat) := {}
  accepted : List (ServerHandle P) := []
  obuf : Nat → List UInt8 := fun _ => []
  sent : List SentResponse := []
  finished : List Nat := []
  cancelled : List Nat := []

/-- What `run` gets out of a frame; other types of messages are passed over. -/
inductive Frame (P : Protobuf)
  | request (callId : List UInt8) (method : Option P.MethodDescriptor) (request : P.Message)
  | cancel (callId : List UInt8)
  | other

def readFrame (P : Protobuf) : Reader String UInt8 (Frame P) := do
  let type ← readInt
  if type = requestMsg then
    let (callId, method, request) ← parseRequestFrom P
    return .request callId method request
  else if type = cancelMsg then
    let callId ← parseCancelFrom
    return .cancel callId
  else return .other

namespace ServerState

-- `getService` and `GetResponsePrototype`: the new response, for a method of a known service.
variable (services : P.MethodDescriptor → Option P.Message) (s : ServerState P)

def addHandle (callId : List UInt8) (handle : Nat) : ServerState P :=
  { s with handles := (s.handles.insert callId (some handle)).2 }

def removeHandle (callId : List UInt8) : Option Nat × ServerState P :=
  ((s.handles.erase callId).1, { s with handles := (s.handles.erase callId).2 })

def sendResponse (processor : Nat) (handle : Option Nat) (callId : List UInt8) (controller : PBRpcController)
    (response : Option P.Message) : ServerState P :=
  let bytes := serializeResponse P callId controller response
  { s with obuf := Function.update s.obuf processor bytes, sent := s.sent ++ [{ handle, bytes }] }

/-- `none` where a null pointer is dereferenced. -/
def process (processor : Nat) (callId : List UInt8) (method : Option P.MethodDescriptor) (request : P.Message) :
    Option (ServerState P) :=
  method.map fun method =>
    match services method with
    | some response =>
      let handle := { callId, controller := {}, request, response, processor }
      { s with accepted := s.accepted ++ [handle] }.addHandle callId s.accepted.length
    | none => s.sendResponse processor none callId (({} : PBRpcController).setFailed "failed to find service".toUTF8.toList) none

def cancel (processor : Nat) (callId : List UInt8) : ServerState P :=
  match (s.removeHandle callId).1 with
  | some handle =>
    (s.removeHandle callId).2.sendResponse processor (some handle) callId ({} : PBRpcController).setCanceled none
  | none => (s.removeHandle callId).2

def finish (handle : Nat) (h : ServerHandle P) : ServerState P :=
  if (s.removeHandle h.callId).1 = some handle then
    (s.removeHandle h.callId).2.sendResponse h.processor (some handle) h.callId h.controller (some h.response)
  else (s.removeHandle h.callId).2

/-- All exceptions are caught. -/
def run (processor : Nat) (ibuf : List UInt8) : Option (Bool × ServerState P) :=
  match readFrame P ibuf with
  | .ok (.request callId method request, _) => (s.process services processor callId method request).map (true, ·)
  | .ok (.cancel callId, _) => some (true, s.cancel processor callId)
  | .ok (.other, _) => some (true, s)
  | .error _ => some (false, s)

end ServerState

/-- `serve` is what a service does to the objects of a call; a closure is run once at most. -/
inductive ServerOp (P : Protobuf)
  | run (processor : Nat) (ibuf : List UInt8)
  | serve (handle : Nat) (controller : PBRpcController) (response : P.Message)
  | finish (handle : Nat)

/-- The call id of a request that is accepted. -/
def ServerOp.requests (services : P.MethodDescriptor → Option P.Message) : ServerOp P → Option (List UInt8)
  | .run _ ibuf =>
    match readFrame P ibuf with
    | .ok (.request callId (some method) _, _) => if (services method).isSome then some callId else none
    | _ => none
  | _ => none

/-- The call id of a call that is cancelled. -/
def ServerOp.cancels : ServerOp P → Option (List UInt8)
  | .run _ ibuf =>
    match readFrame P ibuf with
    | .ok (.cancel callId, _) => some callId
    | _ => none
  | _ => none

namespace ServerState

/-- The call ids of the requests that were accepted. -/
def callIds (s : ServerState P) : List (List UInt8) := s.accepted.map ServerHandle.callId

/-- The requests with the id. -/
def callsOf (s : ServerState P) (callId : List UInt8) : List Nat :=
  (List.range s.callIds.length).filter fun h => s.callIds[h]? = some callId

def step (services : P.MethodDescriptor → Option P.Message) (s : ServerState P) (l : ServerOp P) : Option (ServerState P) :=
  match l with
  | .run processor ibuf =>
    (s.run services processor ibuf).map fun r => { r.2 with cancelled := s.cancelled ++ (l.cancels.map s.callsOf).getD [] }
  | .serve handle controller response =>
    some { s with accepted := s.accepted.modify handle fun h => { h with controller, response } }
  | .finish handle =>
    match s.accepted[handle]? with
    | some h =>
      if handle ∈ s.finished then none else some { s.finish handle h with finished := s.finished ++ [handle] }
    | none => none

end ServerState

/-! ### Steps -/

namespace ServerState

/-- How many responses were sent for the request. -/
def answers (s : ServerState P) (h : Nat) : Nat := s.sent.countP fun r => r.handle = some h

/-- What a step does, as far as the table and the responses go. -/
inductive Moved (services : P.MethodDescriptor → Option P.Message) (s : ServerState P) : ServerOp P → ServerState P → Prop
  | accept {l s'} (callId : List UInt8) (hl : l.requests services = some callId) (hids : s'.callIds = s.callIds ++ [callId])
      (hhandles : s'.handles = (s.handles.insert callId (some s.callIds.length)).2)
      (hanswers : ∀ h, s'.answers h = s.answers h) (hfinished : s'.finished = s.finished)
      (hcancelled : s'.cancelled = s.cancelled) : Moved services s l s'
  | pass {l s'} (hids : s'.callIds = s.callIds) (hhandles : s'.handles = s.handles)
      (hanswers : ∀ h, s'.answers h = s.answers h) (hfinished : s'.finished = s.finished)
      (hcancelled : s'.cancelled = s.cancelled) : Moved services s l s'
  | cancel {l s'} (callId : List UInt8) (hl : l.cancels = some callId) (hids : s'.callIds = s.callIds)
      (hhandles : s'.handles = (s.handles.erase callId).2)
      (hanswers : ∀ h, s'.answers h = s.answers h + if s.handles.map callId = some (some h) then 1 else 0)
      (hfinished : s'.finished = s.finished) (hcancelled : s'.cancelled = s.cancelled ++ s.callsOf callId) : Moved services s l s'
  | finish {s'} (handle : Nat) (callId : List UInt8) (hhandle : s.callIds[handle]? = some callId) (hids : s'.callIds = s.callIds)
      (hhandles : s'.handles = (s.handles.erase callId).2)
      (hanswers : ∀ h, s'.answers h = s.answers h + if s.handles.map callId = some (some handle) ∧ h = handle then 1 else 0)
      (hnot : handle ∉ s.finished) (hfinished : s'.finished = s.finished ++ [handle]) (hcancelled : s'.cancelled = s.cancelled) :
      Moved services s (.finish handle) s'

variable {services : P.MethodDescriptor → Option P.Message} {s s' : ServerState P} {l : ServerOp P}

theorem answers_sendResponse (processor : Nat) (handle : Option Nat) (callId : List UInt8) (controller : PBRpcController)
    (response : Option P.Message) (h : Nat) :
    (s.sendResponse processor handle callId controller response).answers h = s.answers h + if handle = some h then 1 else 0 := by
  simp only [answers, sendResponse, List.countP_append, List.countP_singleton, decide_eq_true_eq]

theorem removeHandle_eq_some {callId : List UInt8} {h : Nat} :
    (s.removeHandle callId).1 = some h ↔ s.handles.map callId = some (some h) := by
  rw [removeHandle, LockedMap.erase_fst]
  cases s.handles.map callId with
  | none => simp
  | some entry => simp

theorem moved_cancel (processor : Nat) {callId : List UInt8} (hl : l.cancels = some callId) :
    Moved services s l { s.cancel processor callId with cancelled := s.cancelled ++ s.callsOf callId } := by
  refine .cancel callId hl ?_ ?_ (fun h => ?_) ?_ rfl
  · unfold cancel
    split <;> rfl
  · unfold cancel
    split <;> rfl
  · simp only [← removeHandle_eq_some]
    show (s.cancel processor callId).answers h = _
    unfold cancel
    split
    · next handle hremoved =>
      rw [answers_sendResponse, hremoved]
      rfl
    · next hremoved =>
      rw [hremoved, if_neg nofun]
      rfl
  · unfold cancel
    split <;> rfl

theorem moved_finish {handle : Nat} {h : ServerHandle P} (hh : s.accepted[handle]? = some h) (hnot : handle ∉ s.finished) :
    Moved services s (.finish handle) { s.finish handle h with finished := s.finished ++ [handle] } := by
  have hid : s.callIds[handle]? = some h.callId := by rw [callIds, List.getElem?_map, hh, Option.map_some]
  refine .finish handle h.callId hid ?_ ?_ (fun g => ?_) hnot rfl ?_
  · unfold finish
    split <;> rfl
  · unfold finish
    split <;> rfl
  · simp only [← removeHandle_eq_some]
    show (s.finish handle h).answers g = _
    unfold finish
    split
    · next hremoved =>
      rw [answers_sendResponse, hremoved]
      simp only [true_and, Option.some.injEq, eq_comm]
      rfl
    · next hremoved =>
      rw [if_neg fun h => hremoved h.1]
      rfl
  · unfold finish
    split <;> rfl

theorem moved_process {processor : Nat} {ibuf callId : List UInt8} {method : P.MethodDescriptor} {request : P.Message}
    {rest : List UInt8} (hframe : readFrame P ibuf = .ok (.request callId (some method) request, rest))
    (hs : s.process services processor callId (some method) request = some s') : Moved services s (.run processor ibuf) s' := by
  rw [process, Option.map_some, Option.some.injEq] at hs
  subst hs
  cases hservice : services method with
  | some response =>
    refine .accept callId ?_ ?_ ?_ (fun _ => rfl) rfl rfl
    · simp [ServerOp.requests, hframe, hservice]
    · simp [callIds, addHandle]
    · simp [callIds, addHandle]
  | none =>
    refine .pass rfl rfl (fun h => ?_) rfl rfl
    rw [answers_sendResponse, if_neg nofun, Nat.add_zero]

theorem step_cases (hs : s.step services l = some s') : Moved services s l s' := by
  cases l with
  | run processor ibuf =>
    simp only [step] at hs
    obtain ⟨⟨r, s₁⟩, hrun, rfl⟩ := Option.map_eq_some_iff.mp hs
    unfold run at hrun
    split at hrun
    · next callId method request rest hframe =>
      obtain ⟨s₂, hprocess, heq⟩ := Option.map_eq_some_iff.mp hrun
      cases heq
      cases method with
      | none => cases hprocess
      | some method =>
        have hcancels : (ServerOp.run processor ibuf : ServerOp P).cancels = none := by simp [ServerOp.cancels, hframe]
        have hmoved := moved_process hframe hprocess
        have hcancelled : s₁.cancelled = s.cancelled := by
          cases hmoved with
          | accept _ _ _ _ _ _ h => exact h
          | pass _ _ _ _ h => exact h
          | cancel callId hl => rw [hcancels] at hl; cases hl
        rw [hcancels, Option.map_none, Option.getD_none, List.append_nil, ← hcancelled]
        exact hmoved
    · next callId rest hframe =>
      have hcancels : (ServerOp.run processor ibuf : ServerOp P).cancels = some callId := by simp [ServerOp.cancels, hframe]
      cases hrun
      rw [hcancels]
      exact moved_cancel processor hcancels
    · next rest hframe =>
      cases hrun
      exact .pass rfl rfl (fun _ => rfl) rfl (by simp [ServerOp.cancels, hframe])
    · next hframe =>
      cases hrun
      exact .pass rfl rfl (fun _ => rfl) rfl (by simp [ServerOp.cancels, hframe])
  | serve handle controller response =>
    cases hs
    refine .pass ?_ rfl (fun _ => rfl) rfl rfl
    refine List.ext_getElem? fun i => ?_
    simp only [callIds, List.getElem?_map, List.getElem?_modify]
    split <;> cases s.accepted[i]? <;> rfl
  | finish handle =>
    simp only [step] at hs
    split at hs
    · next h hh =>
      split_ifs at hs with hnot
      cases hs
      exact moved_finish hh hnot
    · cases hs

/-! ### Answers -/

/-- A request is in the table and not answered, or it is answered. -/
def Standing (s : ServerState P) (h : Nat) (callId : List UInt8) : Prop :=
  s.handles.map callId = some (some h) ∧ s.answers h = 0 ∧ h ∉ s.finished ∧ h ∉ s.cancelled ∨
    s.handles.map callId ≠ some (some h) ∧ s.answers h = 1

structure Answering (s : ServerState P) : Prop where
  entry : ∀ callId e, s.handles.map callId = some e → ∃ h, e = some h ∧ s.callIds[h]? = some callId
  request : ∀ h callId, s.callIds[h]? = some callId → s.Standing h callId
  fresh : ∀ h, s.callIds[h]? = none → s.answers h = 0 ∧ h ∉ s.finished ∧ h ∉ s.cancelled

/-- The steps that keep the table in order: a request is accepted under an id that is not in the table, and
a closure is run while the entry under its id is its own, or there is none. -/
def Fits (services : P.MethodDescriptor → Option P.Message) (s : ServerState P) (l : ServerOp P) : Prop :=
  (∀ callId ∈ l.requests services, s.handles.map callId = none) ∧
    match l with
    | .finish handle =>
      ∀ callId ∈ s.callIds[handle]?, s.handles.map callId = some (some handle) ∨ s.handles.map callId = none
    | _ => True

instance decidableFits (services : P.MethodDescriptor → Option P.Message) (s : ServerState P) :
    ∀ l, Decidable (s.Fits services l)
  | .run .. => inferInstanceAs (Decidable (_ ∧ True))
  | .serve .. => inferInstanceAs (Decidable (_ ∧ True))
  | .finish _ => inferInstanceAs (Decidable (_ ∧ ∀ _ ∈ _, _ ∨ _))

theorem mem_callsOf {callId : List UInt8} {h : Nat} : h ∈ s.callsOf callId ↔ s.callIds[h]? = some callId := by
  rw [callsOf, List.mem_filter, decide_eq_true_eq, List.mem_range]
  exact ⟨fun h => h.2, fun h => ⟨(List.getElem?_eq_some_iff.mp h).1, h⟩⟩

theorem Answering.accept (hs : s.Answering) {callId : List UInt8} (hids : s'.callIds = s.callIds ++ [callId])
    (hhandles : s'.handles = (s.handles.insert callId (some s.callIds.length)).2) (hanswers : ∀ h, s'.answers h = s.answers h)
    (hfinished : s'.finished = s.finished) (hcancelled : s'.cancelled = s.cancelled) (hnone : s.handles.map callId = none) :
    s'.Answering := by
  rw [LockedMap.insert_of_none hnone] at hhandles
  have hold : ∀ h, h < s.callIds.length → s'.callIds[h]? = s.callIds[h]? := fun h hh => by
    rw [hids, List.getElem?_append_left hh]
  have hnew : s'.callIds[s.callIds.length]? = some callId := by rw [hids, List.getElem?_concat_length]
  have hlen : s'.callIds.length = s.callIds.length + 1 := by rw [hids, List.length_append, List.length_singleton]
  refine ⟨fun callId' e hmap => ?_, fun h callId' hh => ?_, fun h hh => ?_⟩
  · rw [hhandles] at hmap
    by_cases hself : callId' = callId
    · subst hself
      rw [LockedMap.map_set_self] at hmap
      exact ⟨_, (Option.some.inj hmap).symm, hnew⟩
    · rw [LockedMap.map_set_of_ne hself] at hmap
      obtain ⟨h, rfl, hh⟩ := hs.entry callId' e hmap
      exact ⟨h, rfl, (hold h (List.getElem?_eq_some_iff.mp hh).1).trans hh⟩
  · rw [Standing, hanswers, hfinished, hcancelled, hhandles]
    by_cases hlast : h = s.callIds.length
    · subst hlast
      rw [hnew] at hh
      cases hh
      obtain ⟨hzero, hnf, hnc⟩ := hs.fresh s.callIds.length (List.getElem?_eq_none (Nat.le_refl _))
      exact Or.inl ⟨LockedMap.map_set_self, hzero, hnf, hnc⟩
    · have hlt : h < s.callIds.length := by
        have := (List.getElem?_eq_some_iff.mp hh).1
        omega
      rw [hold h hlt] at hh
      have hstanding := hs.request h callId' hh
      by_cases hself : callId' = callId
      · subst hself
        rw [Standing, hnone] at hstanding
        refine Or.inr ⟨?_, hstanding.resolve_left (fun h => nomatch h.1) |>.2⟩
        rw [LockedMap.map_set_self]
        intro heq
        exact hlast (Option.some.inj (Option.some.inj heq)).symm
      · rw [LockedMap.map_set_of_ne hself]
        exact hstanding
  · rw [hanswers, hfinished, hcancelled]
    refine hs.fresh h (List.getElem?_eq_none ?_)
    have := List.getElem?_eq_none_iff.mp hh
    omega

theorem Answering.erase (hs : s.Answering) {callId : List UInt8} (hids : s'.callIds = s.callIds)
    (hhandles : s'.handles = (s.handles.erase callId).2)
    (hanswers : ∀ h, s'.answers h = s.answers h + if s.handles.map callId = some (some h) then 1 else 0)
    (hmarked : ∀ h, h ∈ s'.finished ∨ h ∈ s'.cancelled → h ∈ s.finished ∨ h ∈ s.cancelled ∨ s.callIds[h]? = some callId) :
    s'.Answering := by
  have hsame : ∀ h, s.callIds[h]? ≠ some callId → s'.answers h = s.answers h := fun h hh => by
    rw [hanswers, if_neg fun hmap => ?_, Nat.add_zero]
    obtain ⟨_, heq, hid⟩ := hs.entry callId _ hmap
    cases heq
    exact hh hid
  have hunmarked : ∀ h, s.callIds[h]? ≠ some callId → h ∉ s.finished → h ∉ s.cancelled → h ∉ s'.finished ∧ h ∉ s'.cancelled := by
    intro h hh hnf hnc
    have hnot : ¬ (h ∈ s'.finished ∨ h ∈ s'.cancelled) := fun hm =>
      (hmarked h hm).elim hnf fun hm => hm.elim hnc hh
    exact not_or.mp hnot
  refine ⟨fun callId' e hmap => ?_, fun h callId' hh => ?_, fun h hh => ?_⟩
  · rw [hhandles] at hmap
    by_cases hself : callId' = callId
    · rw [hself, LockedMap.map_erase_self] at hmap
      cases hmap
    · rw [LockedMap.map_erase_of_ne hself] at hmap
      rw [hids]
      exact hs.entry callId' e hmap
  · rw [hids] at hh
    by_cases hself : callId' = callId
    · subst hself
      refine Or.inr ⟨by rw [hhandles, LockedMap.map_erase_self]; exact nofun, ?_⟩
      rw [hanswers]
      obtain ⟨hmap, hzero, -⟩ | ⟨hmap, hone⟩ := hs.request h callId' hh
      · rw [if_pos hmap, hzero]
      · rw [if_neg hmap, hone]
    · have hne : s.callIds[h]? ≠ some callId := fun hc => hself (Option.some.inj (hh.symm.trans hc))
      rw [Standing, hhandles, LockedMap.map_erase_of_ne hself, hsame h hne]
      refine (hs.request h callId' hh).imp_left fun ⟨hmap, hzero, hnf, hnc⟩ => ?_
      obtain ⟨hnf', hnc'⟩ := hunmarked h hne hnf hnc
      exact ⟨hmap, hzero, hnf', hnc'⟩
  · rw [hids] at hh
    have hne : s.callIds[h]? ≠ some callId := by
      rw [hh]
      exact nofun
    obtain ⟨hzero, hnf, hnc⟩ := hs.fresh h hh
    obtain ⟨hnf', hnc'⟩ := hunmarked h hne hnf hnc
    exact ⟨(hsame h hne).trans hzero, hnf', hnc'⟩

theorem Fits.answers_finish {handle : Nat} {callId : List UInt8} (hfits : s.Fits services (.finish handle))
    (hhandle : s.callIds[handle]? = some callId) (h : Nat) :
    (if s.handles.map callId = some (some handle) ∧ h = handle then 1 else 0) =
      if s.handles.map callId = some (some h) then 1 else 0 := by
  obtain hmap | hmap := hfits.2 callId hhandle
  · simp [hmap, eq_comm]
  · simp [hmap]

theorem Answering.step (hs : s.Answering) (hfits : s.Fits services l) (hstep : s.step services l = some s') : s'.Answering := by
  obtain ⟨callId, hl, hids, hhandles, hanswers, hfinished, hcancelled⟩ | ⟨hids, hhandles, hanswers, hfinished, hcancelled⟩ |
    ⟨callId, hl, hids, hhandles, hanswers, hfinished, hcancelled⟩ |
    ⟨handle, callId, hhandle, hids, hhandles, hanswers, hnot, hfinished, hcancelled⟩ := step_cases hstep
  · exact hs.accept hids hhandles hanswers hfinished hcancelled (hfits.1 callId hl)
  · refine ⟨?_, ?_, ?_⟩
    · rw [hhandles, hids]
      exact hs.entry
    · simp only [Standing, hids, hhandles, hanswers, hfinished, hcancelled]
      exact hs.request
    · simp only [hids, hanswers, hfinished, hcancelled]
      exact hs.fresh
  · refine hs.erase hids hhandles hanswers fun h hh => ?_
    rw [hfinished, hcancelled, List.mem_append, mem_callsOf] at hh
    exact hh
  · refine hs.erase hids hhandles (fun h => ?_) fun h hh => ?_
    · rw [hanswers, hfits.answers_finish hhandle]
    · rw [hfinished, hcancelled, List.mem_append, List.mem_singleton] at hh
      rcases hh with (hh | rfl) | hh
      · exact Or.inl hh
      · exact Or.inr (Or.inr hhandle)
      · exact Or.inr (Or.inl hh)

theorem start_answering : ({} : ServerState P).Answering where
  entry _ _ h := nomatch h
  request h _ hh := by simp [callIds] at hh
  fresh _ _ := ⟨rfl, List.not_mem_nil, List.not_mem_nil⟩

/-- A request whose closure was run, or whose call was cancelled, has one response, and no request has two. -/
def AnsweredOnce (s : ServerState P) : Prop :=
  ∀ h < s.accepted.length, s.answers h ≤ 1 ∧ (h ∈ s.finished ∨ h ∈ s.cancelled → s.answers h = 1)

/-- The step does not take out or answer a request that it is not about. -/
def Undisturbed (s : ServerState P) (l : ServerOp P) (s' : ServerState P) : Prop :=
  ∀ g callId, s.callIds[g]? = some callId → l ≠ .finish g → l.cancels ≠ some callId →
    (s'.handles.map callId = some (some g) ↔ s.handles.map callId = some (some g)) ∧ s'.answers g = s.answers g

theorem Answering.answeredOnce (hs : s.Answering) : s.AnsweredOnce := by
  intro h hlt
  have hid : s.callIds[h]? = some (s.accepted[h].callId) := by
    rw [callIds, List.getElem?_map, List.getElem?_eq_getElem hlt, Option.map_some]
  obtain ⟨-, hzero, hnf, hnc⟩ | ⟨-, hone⟩ := hs.request h _ hid
  · exact ⟨by omega, fun hended => (hended.elim hnf hnc).elim⟩
  · exact ⟨by omega, fun _ => hone⟩

theorem Answering.undisturbed (hs : s.Answering) (hfits : s.Fits services l) (hstep : s.step services l = some s') :
    Undisturbed s l s' := by
  intro g callId hg hfinish hcancel
  obtain ⟨callId', hl, hids, hhandles, hanswers, -, -⟩ | ⟨-, hhandles, hanswers, -, -⟩ |
    ⟨callId', hl, -, hhandles, hanswers, -, -⟩ | ⟨handle, callId', hhandle, -, hhandles, hanswers, -, -, -⟩ := step_cases hstep
  · -- the new entry is under another id, or there was none under this id
    refine ⟨?_, hanswers g⟩
    have hnone := hfits.1 callId' hl
    rw [hhandles, LockedMap.insert_of_none hnone]
    by_cases hself : callId = callId'
    · subst hself
      have hlt := (List.getElem?_eq_some_iff.mp hg).1
      rw [LockedMap.map_set_self, hnone]
      exact ⟨fun h => absurd (Option.some.inj (Option.some.inj h)) (by omega), nofun⟩
    · rw [LockedMap.map_set_of_ne hself]
  · rw [hhandles]
    exact ⟨Iff.rfl, hanswers g⟩
  · have hne : callId ≠ callId' := fun h => hcancel (h ▸ hl)
    refine ⟨by rw [hhandles, LockedMap.map_erase_of_ne hne], ?_⟩
    rw [hanswers, if_neg fun hmap => ?_, Nat.add_zero]
    obtain ⟨_, heq, hid⟩ := hs.entry callId' _ hmap
    cases heq
    exact hne (Option.some.inj (hg.symm.trans hid))
  · have hneg : g ≠ handle := fun h => hfinish (h ▸ rfl)
    refine ⟨?_, by rw [hanswers, if_neg fun h => hneg h.2, Nat.add_zero]⟩
    rw [hhandles]
    by_cases hself : callId = callId'
    · subst hself
      rw [LockedMap.map_erase_self]
      refine ⟨nofun, fun h => ?_⟩
      obtain hmap | hmap := hfits.2 callId hhandle
      · exact absurd (Option.some.inj (Option.some.inj (h.symm.trans hmap))) hneg
      · rw [hmap] at h
        cases h
    · rw [LockedMap.map_erase_of_ne hself]

/-- **Every request is answered once**, from `finish` or from `cancel`, and no other request is touched, as
long as requests are accepted under ids that are not in the table and a closure does not find the entry of
another request under its id. -/
theorem answered_once {services : P.MethodDescriptor → Option P.Message} {ls : List (ServerOp P)} {t : ServerState P}
    (hok : Lib.StepsMeet (step services) (Fits services) {} ls) (hrun : Lib.run (step services) {} ls = some t) :
    t.AnsweredOnce ∧ ∀ l t', t.Fits services l → t.step services l = some t' → Undisturbed t l t' := by
  have ht : t.Answering := Lib.run_invariant_where (fun _ _ _ h hfits hstep => h.step hfits hstep) start_answering hok hrun
  exact ⟨ht.answeredOnce, fun l t' hfits hstep => ht.undisturbed hfits hstep⟩

/-- A request for `Switch.Set` under the id. -/
def flagRequest (callId : List UInt8) : List UInt8 := serializeRequest flagProtobuf callId () none

/-- Two requests under one id. -/
def duplicateLabels : List (ServerOp flagProtobuf) := [.run 0 (flagRequest [1]), .run 1 (flagRequest [1])]

/-- The closure of the second takes out the entry of the first, and neither is answered. -/
theorem duplicate_unanswered :
    ∃ (services : flagProtobuf.MethodDescriptor → Option flagProtobuf.Message) (s s' t : ServerState flagProtobuf),
      Lib.run (step services) {} duplicateLabels = some s ∧
      s.step services (.finish 1) = some s' ∧ ¬ Undisturbed s (.finish 1) s' ∧
      s'.step services (.finish 0) = some t ∧ ¬ t.AnsweredOnce := by
  let services : flagProtobuf.MethodDescriptor → Option flagProtobuf.Message := fun _ => some none
  have hs : (Lib.run (step services) {} duplicateLabels).map (fun s => (s.callIds, s.handles.map [1])) =
      some ([[1], [1]], some (some 0)) := by decide +kernel
  have hs' : (Lib.run (step services) {} (duplicateLabels ++ [.finish 1])).map (fun s => s.handles.map [1]) = some none := by
    decide +kernel
  have ht : (Lib.run (step services) {} (duplicateLabels ++ [.finish 1, .finish 0])).map
      (fun t => (t.accepted.length, t.answers 0, t.finished)) = some (2, 0, [1, 0]) := by decide +kernel
  obtain ⟨t, hrunt, hviewt⟩ := Option.map_eq_some_iff.mp ht
  obtain ⟨s, hrun, hrest⟩ := Lib.run_append_eq_some.mp hrunt
  obtain ⟨s', hstep', hrest'⟩ := Lib.run_cons_eq_some.mp hrest
  obtain ⟨_, hstept, hlast⟩ := Lib.run_cons_eq_some.mp hrest'
  cases hlast
  rw [Lib.run_append, hrun, Option.bind_some, Lib.run_cons, hstep', Option.bind_some, Lib.run_nil, Option.map_some,
    Option.some.injEq] at hs'
  simp only [hrun, Option.map_some, Option.some.injEq, Prod.mk.injEq] at hs hviewt
  refine ⟨services, s, s', t, hrun, hstep', fun h => ?_, hstept, fun h => ?_⟩
  · have hentry := (h 0 [1] (by rw [hs.1]; rfl) nofun nofun).1.mpr hs.2
    rw [hs'] at hentry
    cases hentry
  · have hone := (h 0 (by rw [hviewt.1]; decide)).2 (Or.inl (by rw [hviewt.2.2]; decide))
    rw [hviewt.2.1] at hone
    cases hone

/-- Two requests under different ids; the first is cancelled, and then its closure is run. -/
def cancelLabels : List (ServerOp flagProtobuf) :=
  [.run 0 (flagRequest [1]), .run 1 (flagRequest [2]), .run 2 (serializeCancel [1]), .finish 0, .finish 1]

theorem answered_once_cancel :
    ∃ t : ServerState flagProtobuf, Lib.run (step fun _ => some none) {} cancelLabels = some t ∧
      t.answers 0 = 1 ∧ t.answers 1 = 1 ∧ t.AnsweredOnce := by
  have ht : (Lib.run (step fun _ => some none) ({} : ServerState flagProtobuf) cancelLabels).map
      (fun t => (t.answers 0, t.answers 1)) = some (1, 1) := by decide +kernel
  obtain ⟨t, hrun, hview⟩ := Option.map_eq_some_iff.mp ht
  simp only [Prod.mk.injEq] at hview
  exact ⟨t, hrun, hview.1, hview.2, (answered_once (by decide +kernel) hrun).1⟩

end ServerState

end Raster.Proto
