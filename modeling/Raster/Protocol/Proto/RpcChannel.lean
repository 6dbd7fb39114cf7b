import Raster.Protocol.Proto.Message
import Raster.Util.LockedMap

/-!
# `PBRpcChannel`

`raster/protocol/proto/RpcChannel.cpp`: the client. `handles_` has the calls that wait for their reply.
Controllers, responses and closures are objects of the caller, given by their addresses; a controller may
be of another class, and then `dynamic_cast` gives a null pointer. `send` is virtual. What it does to the
channel (`PBSyncRpcChannel` calls `messageSent` and `process`) comes after everything else in its caller, and
is modelled by the operations that follow.
-/

namespace Raster.Proto

open Lib (Reader)

/-- `PBRpcChannel::Handle`. -/
structure Handle where
  controller : Option Nat
  response : Option Nat
  done : Option Nat
deriving DecidableEq

/-- What the channel does to the outside: `done->Run()`, and `complete()`, which runs closures. -/
inductive Effect
  | done (closure : Nat)
  | complete (controller : Nat) (closures : Finset Nat)
deriving DecidableEq

variable {P : Protobuf}

structure ChannelState (P : Protobuf) where
  handles : LockedMap (List UInt8) (Option Handle) := {}
  /-- `none`: no `PBRpcController`. -/
  controllers : Nat → Option PBRpcController
  responses : Nat → P.Message
  sent : List (List UInt8) := []
  trace : List Effect := []

namespace ChannelState

variable (s : ChannelState P)

/-- A method of `c`, if `dynamic_cast` gives one. -/
def modifyController (controller : Option Nat) (f : PBRpcController → PBRpcController) : ChannelState P :=
  match controller with
  | some a => { s with controllers := Function.update s.controllers a ((s.controllers a).map f) }
  | none => s

def send (msg : List UInt8) : ChannelState P := { s with sent := s.sent ++ [msg] }

def callMethod (callId : List UInt8) (method : P.MethodDescriptor) (controller : Option Nat) (request : P.Message)
    (response done : Option Nat) : ChannelState P :=
  let s := s.modifyController controller fun c => c.setStartCancel callId
  let s := { s with handles := s.handles.set callId (some { controller, response, done }) }
  s.send (serializeRequest P callId method request)

/-- `handle->done->Run()`. -/
def runDone (handle : Handle) : ChannelState P :=
  match handle.done with
  | some closure => { s with trace := s.trace ++ [.done closure] }
  | none => s

/-- `c->complete()`. -/
def complete (handle : Handle) : ChannelState P :=
  match handle.controller with
  | some a =>
    match s.controllers a with
    | some c =>
      { s with controllers := Function.update s.controllers a (some c.complete.1), trace := s.trace ++ [.complete a c.complete.2] }
    | none => s
  | none => s

/-- The end of a call; `complete` is left out when `done` throws. -/
def finishCall (handle : Handle) (throws : Bool) : ChannelState P :=
  if handle.done.isSome && throws then s.runDone handle else (s.runDone handle).complete handle

/-- What `messageSent` and `process` do to a call: its handle leaves the table and, if there was one,
`prepare` is done to its objects and the call ends. -/
def answer (callId : List UInt8) (prepare : Handle → ChannelState P → ChannelState P) (throws : Bool) : ChannelState P :=
  match s.handles.erase callId with
  | (some handle, handles) => (prepare handle { s with handles }).finishCall handle throws
  | (none, handles) => { s with handles }

def messageSent (success : Bool) (reason callId : List UInt8) (throws : Bool) : ChannelState P :=
  if success then s
  else s.answer callId (fun handle s => s.modifyController handle.controller fun c => c.setFailed reason) throws

def startCancel (callId : List UInt8) : ChannelState P :=
  if s.handles.contains callId then s.send (serializeCancel callId) else s

/-- A message that is a response and can be parsed: its call id, controller and message. -/
def parseReply (P : Protobuf) (msg : List UInt8) : Option (List UInt8 × PBRpcController × Option P.Message) :=
  match readInt msg with
  | .error _ => none
  | .ok (type, rest) =>
    if type = responseMsg then
      match parseResponseFrom P {} none rest with
      | .ok (reply, _) => some reply
      | .error _ => none
    else none

variable [DecidableEq P.Descriptor]

/-- `handle->response->CopyFrom(*response)`, for a response of the right type. -/
def copyResponse (handle : Handle) (response : Option P.Message) : ChannelState P :=
  match handle.response, response with
  | some a, some response =>
    if P.getDescriptor (s.responses a) = P.getDescriptor response then
      { s with responses := Function.update s.responses a response }
    else s
  | _, _ => s

/-- All exceptions are caught. -/
def process (msg : List UInt8) (throws : Bool) : ChannelState P :=
  match parseReply P msg with
  | none => s
  | some (callId, controller, response) =>
    s.answer callId (fun handle s =>
      (s.modifyController handle.controller fun c => c.copyFrom controller).copyResponse handle response) throws

end ChannelState

/-! ### Operations -/

inductive Op (P : Protobuf)
  | callMethod (callId : List UInt8) (method : P.MethodDescriptor) (controller : Option Nat) (request : P.Message)
      (response done : Option Nat)
  | messageSent (success : Bool) (reason callId : List UInt8) (throws : Bool)
  | startCancel (callId : List UInt8)
  | process (msg : List UInt8) (throws : Bool)

structure Call where
  callId : List UInt8
  handle : Handle
deriving DecidableEq

def Op.call? : Op P → Option Call
  | .callMethod callId _ controller _ response done => some { callId, handle := { controller, response, done } }
  | _ => none

def calls (ops : List (Op P)) : List Call := ops.filterMap Op.call?

/-- A response for the call id that can be parsed, or the failure of a send for it. -/
def Op.Answers (op : Op P) (callId : List UInt8) : Prop :=
  match op with
  | .process msg _ => ∃ controller response, ChannelState.parseReply P msg = some (callId, controller, response)
  | .messageSent success _ callId' _ => success = false ∧ callId' = callId
  | _ => False

namespace ChannelState

variable [DecidableEq P.Descriptor]

def step (s : ChannelState P) : Op P → ChannelState P
  | .callMethod callId method controller request response done => s.callMethod callId method controller request response done
  | .messageSent success reason callId throws => s.messageSent success reason callId throws
  | .startCancel callId => s.startCancel callId
  | .process msg throws => s.process msg throws

def exec (s : ChannelState P) (ops : List (Op P)) : ChannelState P := ops.foldl step s

end ChannelState

/-! ### Objects of a call -/

/-- No object of the caller is in both. -/
structure Handle.Apart (h h' : Handle) : Prop where
  controller : ∀ a ∈ h.controller, a ∉ h'.controller
  response : ∀ a ∈ h.response, a ∉ h'.response
  done : ∀ a ∈ h.done, a ∉ h'.done

structure Call.Apart (k k' : Call) : Prop where
  callId : k.callId ≠ k'.callId
  handle : k.handle.Apart k'.handle

theorem Handle.Apart.symm {h h' : Handle} (happart : h.Apart h') : h'.Apart h where
  controller a ha ha' := happart.controller a ha' ha
  response a ha ha' := happart.response a ha' ha
  done a ha ha' := happart.done a ha' ha

theorem Call.Apart.symm {k k' : Call} (h : k.Apart k') : k'.Apart k := ⟨h.callId.symm, h.handle.symm⟩

namespace ChannelState

/-- How often the closure and `complete` of a call were run. -/
def ranDone (s : ChannelState P) (h : Handle) : Nat :=
  s.trace.countP fun
    | .done closure => h.done = some closure
    | .complete .. => false

def completed (s : ChannelState P) (h : Handle) : Nat :=
  s.trace.countP fun
    | .done _ => false
    | .complete a _ => h.controller = some a

/-- Nothing was done to the objects of the handle. -/
structure Keeps (h : Handle) (s s' : ChannelState P) : Prop where
  controllers : ∀ a ∈ h.controller, s'.controllers a = s.controllers a
  responses : ∀ a ∈ h.response, s'.responses a = s.responses a
  ranDone : s'.ranDone h = s.ranDone h
  completed : s'.completed h = s.completed h

variable {s s' s'' : ChannelState P} {h h' : Handle}

theorem Keeps.refl : Keeps h s s := ⟨fun _ _ => rfl, fun _ _ => rfl, rfl, rfl⟩

theorem Keeps.trans (h₁ : Keeps h s s') (h₂ : Keeps h s' s'') : Keeps h s s'' where
  controllers a ha := (h₂.controllers a ha).trans (h₁.controllers a ha)
  responses a ha := (h₂.responses a ha).trans (h₁.responses a ha)
  ranDone := h₂.ranDone.trans h₁.ranDone
  completed := h₂.completed.trans h₁.completed

theorem keeps_modifyController (f : PBRpcController → PBRpcController) (happart : h.Apart h') :
    Keeps h s (s.modifyController h'.controller f) := by
  unfold modifyController
  split
  · next b hb =>
    refine ⟨fun a ha => Function.update_of_ne (fun hab => happart.controller a ha ?_) _ _, fun _ _ => rfl, rfl, rfl⟩
    rw [hab]
    exact hb
  · exact Keeps.refl

theorem keeps_runDone (happart : h.Apart h') : Keeps h s (s.runDone h') := by
  unfold runDone
  split
  · next b hb =>
    have hne : h.done ≠ some b := fun hh => happart.done b hh hb
    exact ⟨fun _ _ => rfl, fun _ _ => rfl, by simp [ranDone, hne], by simp [completed]⟩
  · exact Keeps.refl

theorem keeps_complete (happart : h.Apart h') : Keeps h s (s.complete h') := by
  unfold complete
  split
  · next b hb =>
    have hne : h.controller ≠ some b := fun hh => happart.controller b hh hb
    split
    · refine ⟨fun a ha => Function.update_of_ne (fun hab => hne (by rw [← hab]; exact ha)) _ _, fun _ _ => rfl, ?_, ?_⟩
      · simp [ranDone]
      · simp [completed, hne]
    · exact Keeps.refl
  · exact Keeps.refl

theorem keeps_finishCall (throws : Bool) (happart : h.Apart h') : Keeps h s (s.finishCall h' throws) := by
  unfold finishCall
  split
  · exact keeps_runDone happart
  · exact (keeps_runDone happart).trans (keeps_complete happart)

theorem keeps_copyResponse [DecidableEq P.Descriptor] (response : Option P.Message) (happart : h.Apart h') :
    Keeps h s (s.copyResponse h' response) := by
  unfold copyResponse
  split
  · next b _ hb =>
    split
    · refine ⟨fun _ _ => rfl, fun a ha => Function.update_of_ne (fun hab => happart.response a ha ?_) _ _, rfl, rfl⟩
      rw [hab]
      exact hb
    · exact Keeps.refl
  · exact Keeps.refl

/-! ### Answers -/

/-- What is done to the objects of a handle before `done` is run. -/
structure Prepares (prepare : Handle → ChannelState P → ChannelState P) : Prop where
  handles : ∀ h s, (prepare h s).handles = s.handles
  trace : ∀ h s, (prepare h s).trace = s.trace
  keeps : ∀ {h h'}, h.Apart h' → ∀ s, Keeps h s (prepare h' s)

theorem handles_modifyController (controller : Option Nat) (f : PBRpcController → PBRpcController) :
    (s.modifyController controller f).handles = s.handles := by
  unfold modifyController
  split <;> rfl

theorem trace_modifyController (controller : Option Nat) (f : PBRpcController → PBRpcController) :
    (s.modifyController controller f).trace = s.trace := by
  unfold modifyController
  split <;> rfl

theorem handles_finishCall (handle : Handle) (throws : Bool) : (s.finishCall handle throws).handles = s.handles := by
  have hdone : (s.runDone handle).handles = s.handles := by
    unfold runDone
    split <;> rfl
  unfold finishCall complete
  repeat' split
  all_goals exact hdone

theorem count_runDone (handle : Handle) :
    (s.runDone handle).ranDone h ≤ s.ranDone h + 1 ∧ (s.runDone handle).completed h = s.completed h := by
  unfold runDone
  split
  · simp only [ranDone, completed, List.countP_append, List.countP_singleton]
    split <;> simp
  · exact ⟨Nat.le_succ _, rfl⟩

theorem count_complete (handle : Handle) :
    (s.complete handle).ranDone h = s.ranDone h ∧ (s.complete handle).completed h ≤ s.completed h + 1 := by
  unfold complete
  repeat' split
  · refine ⟨by simp [ranDone], ?_⟩
    simp only [completed, List.countP_append, List.countP_singleton]
    split <;> omega
  · exact ⟨rfl, Nat.le_succ _⟩
  · exact ⟨rfl, Nat.le_succ _⟩

theorem count_finishCall (handle : Handle) (throws : Bool) :
    (s.finishCall handle throws).ranDone h ≤ s.ranDone h + 1 ∧ (s.finishCall handle throws).completed h ≤ s.completed h + 1 := by
  obtain ⟨hran, hcompleted⟩ := s.count_runDone (h := h) handle
  obtain ⟨hran', hcompleted'⟩ := (s.runDone handle).count_complete (h := h) handle
  unfold finishCall
  split <;> omega

theorem prepares_setFailed (reason : List UInt8) :
    Prepares fun handle (s : ChannelState P) => s.modifyController handle.controller fun c => c.setFailed reason where
  handles _ _ := handles_modifyController _ _
  trace _ _ := trace_modifyController _ _
  keeps happart _ := keeps_modifyController _ happart

theorem prepares_reply [DecidableEq P.Descriptor] (controller : PBRpcController) (response : Option P.Message) :
    Prepares fun handle (s : ChannelState P) =>
      (s.modifyController handle.controller fun c => c.copyFrom controller).copyResponse handle response where
  handles h s := by
    unfold copyResponse
    repeat' split
    all_goals exact handles_modifyController _ _
  trace h s := by
    unfold copyResponse
    repeat' split
    all_goals exact trace_modifyController _ _
  keeps happart s := (keeps_modifyController _ happart).trans (keeps_copyResponse _ happart)

section Answer

variable (prepare : Handle → ChannelState P → ChannelState P) (callId : List UInt8) (throws : Bool)

theorem answer_eq : (∃ h, s.handles.map callId = some (some h) ∧
      s.answer callId prepare throws = (prepare h { s with handles := (s.handles.erase callId).2 }).finishCall h throws) ∨
    (∀ h, s.handles.map callId ≠ some (some h)) ∧
      s.answer callId prepare throws = { s with handles := (s.handles.erase callId).2 } := by
  have hfst := LockedMap.erase_fst (m := s.handles) (k := callId)
  unfold answer
  split
  · next h handles herase =>
    refine Or.inl ⟨h, ?_, by rw [herase]⟩
    rw [herase] at hfst
    cases hmap : s.handles.map callId with
    | none => simp [hmap] at hfst
    | some entry => rw [hmap, Option.getD_some] at hfst; rw [← hfst]
  · next handles herase =>
    refine Or.inr ⟨fun h hmap => ?_, by rw [herase]⟩
    rw [herase, hmap] at hfst
    simp at hfst

variable {prepare} (hprepare : Prepares prepare)
include hprepare

theorem handles_answer : (s.answer callId prepare throws).handles = (s.handles.erase callId).2 := by
  obtain ⟨h, -, heq⟩ | ⟨-, heq⟩ := s.answer_eq prepare callId throws
  · rw [heq, handles_finishCall, hprepare.handles]
  · rw [heq]

theorem keeps_answer (happart : ∀ h', s.handles.map callId = some (some h') → h.Apart h') :
    Keeps h s (s.answer callId prepare throws) := by
  obtain ⟨h', hmap, heq⟩ | ⟨-, heq⟩ := s.answer_eq prepare callId throws
  · rw [heq]
    have hkeeps : Keeps h s { s with handles := (s.handles.erase callId).2 } := ⟨fun _ _ => rfl, fun _ _ => rfl, rfl, rfl⟩
    exact hkeeps.trans ((hprepare.keeps (happart h' hmap) _).trans (keeps_finishCall throws (happart h' hmap)))
  · rw [heq]
    exact ⟨fun _ _ => rfl, fun _ _ => rfl, rfl, rfl⟩

theorem count_answer : (s.answer callId prepare throws).ranDone h ≤ s.ranDone h + 1 ∧
    (s.answer callId prepare throws).completed h ≤ s.completed h + 1 := by
  obtain ⟨h', -, heq⟩ | ⟨-, heq⟩ := s.answer_eq prepare callId throws
  · have htrace := hprepare.trace h' { s with handles := (s.handles.erase callId).2 }
    have hran : (prepare h' { s with handles := (s.handles.erase callId).2 }).ranDone h = s.ranDone h := by
      rw [ranDone, htrace, ranDone]
    have hcompleted : (prepare h' { s with handles := (s.handles.erase callId).2 }).completed h = s.completed h := by
      rw [completed, htrace, completed]
    rw [heq, ← hran, ← hcompleted]
    exact count_finishCall h' throws
  · rw [heq]
    exact ⟨Nat.le_succ _, Nat.le_succ _⟩

end Answer

/-! ### One call -/

/-- The other calls in the table have objects of their own. -/
def Clear (k : Call) (s : ChannelState P) : Prop :=
  ∀ callId h, callId ≠ k.callId → s.handles.map callId = some (some h) → k.handle.Apart h

/-- What an operation that is not the call itself does to the call. -/
structure Elsewhere (k : Call) (s s' : ChannelState P) : Prop where
  handle : s'.handles.map k.callId = s.handles.map k.callId
  keeps : Keeps k.handle s s'

structure Answered (k : Call) (s s' : ChannelState P) : Prop where
  handle : s'.handles.map k.callId = none
  ranDone : s'.ranDone k.handle ≤ s.ranDone k.handle + 1
  completed : s'.completed k.handle ≤ s.completed k.handle + 1
  keeps : s.handles.map k.callId = none → Keeps k.handle s s'

variable {k : Call}

theorem answer_self {prepare : Handle → ChannelState P → ChannelState P} (hprepare : Prepares prepare) (throws : Bool)
    (hclear : Clear k s) : Answered k s (s.answer k.callId prepare throws) ∧ Clear k (s.answer k.callId prepare throws) := by
  obtain ⟨hran, hcompleted⟩ := s.count_answer (h := k.handle) k.callId throws hprepare
  have hhandles := s.handles_answer k.callId throws hprepare
  refine ⟨⟨?_, hran, hcompleted, fun hnone => keeps_answer _ _ hprepare fun h' hmap => ?_⟩, fun callId h hne hmap => ?_⟩
  · rw [hhandles, LockedMap.map_erase_self]
  · rw [hnone] at hmap
    cases hmap
  · rw [hhandles, LockedMap.map_erase_of_ne hne] at hmap
    exact hclear callId h hne hmap

theorem answer_other {prepare : Handle → ChannelState P → ChannelState P} (hprepare : Prepares prepare) (throws : Bool)
    {callId : List UInt8} (hne : callId ≠ k.callId) (hclear : Clear k s) :
    Elsewhere k s (s.answer callId prepare throws) ∧ Clear k (s.answer callId prepare throws) := by
  have hhandles := s.handles_answer callId throws hprepare
  refine ⟨⟨?_, keeps_answer _ _ hprepare fun h' hmap => hclear callId h' hne hmap⟩, fun callId' h hne' hmap => ?_⟩
  · rw [hhandles, LockedMap.map_erase_of_ne hne.symm]
  · rw [hhandles] at hmap
    by_cases hself : callId' = callId
    · rw [hself, LockedMap.map_erase_self] at hmap
      cases hmap
    · rw [LockedMap.map_erase_of_ne hself] at hmap
      exact hclear callId' h hne' hmap

section Step

variable [DecidableEq P.Descriptor] {op : Op P}

omit [DecidableEq P.Descriptor] in
theorem handles_callMethod (callId : List UInt8) (method : P.MethodDescriptor) (controller : Option Nat) (request : P.Message)
    (response done : Option Nat) : (s.callMethod callId method controller request response done).handles =
      s.handles.set callId (some { controller, response, done }) := by
  show (s.modifyController controller fun c => c.setStartCancel callId).handles.set callId _ = _
  rw [handles_modifyController]

theorem step_cases (hclear : Clear k s) (hother : ∀ k' ∈ op.call?, k.Apart k') :
    (op.Answers k.callId ∧ Answered k s (s.step op) ∨ ¬ op.Answers k.callId ∧ Elsewhere k s (s.step op)) ∧
      Clear k (s.step op) := by
  cases op with
  | callMethod callId method controller request response done =>
    have happart := hother _ rfl
    have hhandles := s.handles_callMethod callId method controller request response done
    refine ⟨Or.inr ⟨id, ?_, ?_⟩, fun callId' h hne hmap => ?_⟩
    · show (s.callMethod callId method controller request response done).handles.map k.callId = _
      rw [hhandles, LockedMap.map_set_of_ne happart.callId]
    · have hkeeps := keeps_modifyController (s := s) (fun c => c.setStartCancel callId) happart.handle
      exact ⟨hkeeps.controllers, hkeeps.responses, hkeeps.ranDone, hkeeps.completed⟩
    · simp only [step] at hmap
      rw [hhandles] at hmap
      by_cases hself : callId' = callId
      · rw [hself, LockedMap.map_set_self] at hmap
        rw [← Option.some.inj (Option.some.inj hmap)]
        exact happart.handle
      · rw [LockedMap.map_set_of_ne hself] at hmap
        exact hclear callId' h hne hmap
  | messageSent success reason callId throws =>
    cases success with
    | true => exact ⟨Or.inr ⟨fun h => Bool.noConfusion h.1, rfl, Keeps.refl⟩, hclear⟩
    | false =>
      by_cases hself : callId = k.callId
      · subst hself
        obtain ⟨hanswered, hclear'⟩ := answer_self (prepares_setFailed reason) throws hclear
        exact ⟨Or.inl ⟨⟨rfl, rfl⟩, hanswered⟩, hclear'⟩
      · obtain ⟨helsewhere, hclear'⟩ := answer_other (prepares_setFailed reason) throws hself hclear
        exact ⟨Or.inr ⟨fun h => hself h.2, helsewhere⟩, hclear'⟩
  | startCancel callId =>
    have hkeeps : Elsewhere k s (s.startCancel callId) ∧ Clear k (s.startCancel callId) := by
      unfold startCancel
      split
      · exact ⟨⟨rfl, ⟨fun _ _ => rfl, fun _ _ => rfl, rfl, rfl⟩⟩, hclear⟩
      · exact ⟨⟨rfl, Keeps.refl⟩, hclear⟩
    exact ⟨Or.inr ⟨id, hkeeps.1⟩, hkeeps.2⟩
  | process msg throws =>
    simp only [step, process]
    cases hmsg : parseReply P msg with
    | none =>
      refine ⟨Or.inr ⟨fun ⟨_, _, h⟩ => ?_, rfl, Keeps.refl⟩, hclear⟩
      rw [hmsg] at h
      cases h
    | some reply =>
      obtain ⟨callId, controller, response⟩ := reply
      by_cases hself : callId = k.callId
      · subst hself
        obtain ⟨hanswered, hclear'⟩ := answer_self (prepares_reply controller response) throws hclear
        exact ⟨Or.inl ⟨⟨controller, response, hmsg⟩, hanswered⟩, hclear'⟩
      · obtain ⟨helsewhere, hclear'⟩ := answer_other (prepares_reply controller response) throws hself hclear
        refine ⟨Or.inr ⟨fun ⟨_, _, h⟩ => hself ?_, helsewhere⟩, hclear'⟩
        rw [hmsg] at h
        exact congrArg Prod.fst (Option.some.inj h)

theorem step_call (hclear : Clear k s) (hop : op.call? = some k) :
    (s.step op).handles.map k.callId = some (some k.handle) ∧ (s.step op).ranDone k.handle = s.ranDone k.handle ∧
      (s.step op).completed k.handle = s.completed k.handle ∧ Clear k (s.step op) := by
  cases op with
  | callMethod callId method controller request response done =>
    cases hop
    have hhandles := s.handles_callMethod callId method controller request response done
    have htrace : (s.callMethod callId method controller request response done).trace = s.trace := trace_modifyController _ _
    refine ⟨?_, ?_, ?_, fun callId' h hne hmap => ?_⟩
    · simp only [step]
      rw [hhandles, LockedMap.map_set_self]
    · simp only [step, ranDone, htrace]
    · simp only [step, completed, htrace]
    · simp only [step] at hmap
      rw [hhandles, LockedMap.map_set_of_ne hne] at hmap
      exact hclear callId' h hne hmap
  | messageSent success reason callId throws => cases hop
  | startCancel callId => cases hop
  | process msg throws => cases hop

/-! ### Runs -/

/-- The call ids are distinct, and each call has objects of its own. -/
def Own (ops : List (Op P)) : Prop := (calls ops).Pairwise Call.Apart

/-- A channel without calls; the objects of the callers may have any state. -/
structure Fresh (s : ChannelState P) : Prop where
  handles : ∀ callId, s.handles.map callId = none
  trace : s.trace = []

variable {ops pre rest : List (Op P)}

omit [DecidableEq P.Descriptor] in
theorem calls_append : calls (pre ++ rest) = calls pre ++ calls rest := List.filterMap_append

omit [DecidableEq P.Descriptor] in
theorem mem_calls : k ∈ calls ops ↔ ∃ op ∈ ops, op.call? = some k := List.mem_filterMap

omit [DecidableEq P.Descriptor] in
theorem Own.apart_after (hown : Own (pre ++ rest)) (hk : k ∈ calls pre) : ∀ op ∈ rest, ∀ k' ∈ op.call?, k.Apart k' := by
  rw [Own, calls_append, List.pairwise_append] at hown
  exact fun op hop k' hk' => hown.2.2 k hk k' (mem_calls.mpr ⟨op, hop, hk'⟩)

omit [DecidableEq P.Descriptor] in
theorem Own.apart_before (hown : Own (pre ++ rest)) (hk : k ∈ calls rest) : ∀ op ∈ pre, ∀ k' ∈ op.call?, k.Apart k' := by
  rw [Own, calls_append, List.pairwise_append] at hown
  exact fun op hop k' hk' => (hown.2.2 k' (mem_calls.mpr ⟨op, hop, hk'⟩) k hk).symm

theorem exec_cons : s.exec (op :: ops) = (s.step op).exec ops := rfl

theorem exec_append : s.exec (pre ++ rest) = (s.exec pre).exec rest := List.foldl_append

theorem exec_absent (ops : List (Op P)) (hother : ∀ op ∈ ops, ∀ k' ∈ op.call?, k.Apart k') (hclear : Clear k s)
    (habsent : s.handles.map k.callId = none) :
    (s.exec ops).handles.map k.callId = none ∧ Keeps k.handle s (s.exec ops) ∧ Clear k (s.exec ops) := by
  induction ops generalizing s with
  | nil => exact ⟨habsent, Keeps.refl, hclear⟩
  | cons op ops ih =>
    obtain ⟨hcases, hclear'⟩ := step_cases hclear (hother op List.mem_cons_self)
    have hrest := fun op hop => hother op (List.mem_cons_of_mem _ hop)
    obtain ⟨-, hanswered⟩ | ⟨-, helsewhere⟩ := hcases
    · obtain ⟨hnone, hkeeps, hclear''⟩ := ih hrest hclear' hanswered.handle
      exact ⟨hnone, (hanswered.keeps habsent).trans hkeeps, hclear''⟩
    · obtain ⟨hnone, hkeeps, hclear''⟩ := ih hrest hclear' (helsewhere.handle.trans habsent)
      exact ⟨hnone, helsewhere.keeps.trans hkeeps, hclear''⟩

/-- After the call: it waits, or it has ended. -/
def Waiting (k : Call) (s : ChannelState P) : Prop :=
  s.handles.map k.callId = some (some k.handle) ∧ s.ranDone k.handle = 0 ∧ s.completed k.handle = 0

def Ended (k : Call) (s : ChannelState P) : Prop :=
  s.handles.map k.callId = none ∧ s.ranDone k.handle ≤ 1 ∧ s.completed k.handle ≤ 1

theorem exec_waiting (hother : ∀ op ∈ ops, ∀ k' ∈ op.call?, k.Apart k') (hclear : Clear k s) (hwaiting : Waiting k s) :
    (Waiting k (s.exec ops) ∨ Ended k (s.exec ops)) ∧ Clear k (s.exec ops) := by
  induction ops generalizing s with
  | nil => exact ⟨Or.inl hwaiting, hclear⟩
  | cons op ops ih =>
    obtain ⟨hhandle, hran, hcompleted⟩ := hwaiting
    obtain ⟨hcases, hclear'⟩ := step_cases hclear (hother op List.mem_cons_self)
    have hrest := fun op hop => hother op (List.mem_cons_of_mem _ hop)
    obtain ⟨-, hanswered⟩ | ⟨-, helsewhere⟩ := hcases
    · obtain ⟨hnone, hkeeps, hclear''⟩ := exec_absent _ hrest hclear' hanswered.handle
      have hran' := hanswered.ranDone
      have hcompleted' := hanswered.completed
      refine ⟨Or.inr ⟨hnone, ?_, ?_⟩, hclear''⟩
      · rw [exec_cons, hkeeps.ranDone]
        omega
      · rw [exec_cons, hkeeps.completed]
        omega
    · exact ih hrest hclear' ⟨helsewhere.handle.trans hhandle, helsewhere.keeps.ranDone.trans hran,
        helsewhere.keeps.completed.trans hcompleted⟩

omit [DecidableEq P.Descriptor] in
theorem Fresh.clear (hs : s.Fresh) : Clear k s := by
  intro callId h _ hmap
  rw [hs.handles] at hmap
  cases hmap

theorem exec_unissued (hs : s.Fresh) (hother : ∀ op ∈ ops, ∀ k' ∈ op.call?, k.Apart k') :
    (s.exec ops).handles.map k.callId = none ∧ (s.exec ops).ranDone k.handle = 0 ∧ (s.exec ops).completed k.handle = 0 ∧
      Clear k (s.exec ops) := by
  obtain ⟨hnone, hkeeps, hclear⟩ := exec_absent _ hother hs.clear (hs.handles k.callId)
  refine ⟨hnone, hkeeps.ranDone.trans ?_, hkeeps.completed.trans ?_, hclear⟩
  · rw [ranDone, hs.trace, List.countP_nil]
  · rw [completed, hs.trace, List.countP_nil]

theorem exec_issued (hs : s.Fresh) (hown : Own ops) (hk : k ∈ calls ops) :
    (Waiting k (s.exec ops) ∨ Ended k (s.exec ops)) ∧ Clear k (s.exec ops) := by
  obtain ⟨op, hop, hcall⟩ := mem_calls.mp hk
  obtain ⟨pre, post, rfl⟩ := List.append_of_mem hop
  have hmem : k ∈ calls (op :: post) := mem_calls.mpr ⟨op, List.mem_cons_self, hcall⟩
  obtain ⟨-, hran, hcompleted, hclear⟩ := exec_unissued hs (hown.apart_before hmem)
  obtain ⟨hhandle, hran', hcompleted', hclear'⟩ := step_call hclear hcall
  have hown' : Own ((pre ++ [op]) ++ post) := by
    rw [List.append_assoc]
    exact hown
  have hafter := hown'.apart_after (mem_calls.mpr ⟨op, List.mem_append_right _ (List.mem_singleton_self op), hcall⟩)
  rw [exec_append, exec_cons]
  exact exec_waiting hafter hclear' ⟨hhandle, hran'.trans hran, hcompleted'.trans hcompleted⟩

/-- **A call ends once at most, and only by its own reply or the failure of a send for it.** Then it is not
in the table any more and nothing is done to its objects; any other operation leaves its handle, and its
objects, as they are. -/
theorem ends_at_most_once (s : ChannelState P) (hs : s.Fresh) (ops : List (Op P)) (hown : Own ops) (k : Call)
    (hk : k ∈ calls ops) :
    ((s.exec ops).ranDone k.handle ≤ 1 ∧ (s.exec ops).completed k.handle ≤ 1) ∧
    ∀ pre op post, ops = pre ++ op :: post →
      ((s.exec pre).ranDone k.handle ≠ ((s.exec pre).step op).ranDone k.handle ∨
          (s.exec pre).completed k.handle ≠ ((s.exec pre).step op).completed k.handle →
        k ∈ calls pre ∧ op.Answers k.callId) ∧
      (k ∈ calls pre → op.Answers k.callId → ∀ mid rest, post = mid ++ rest →
        (((s.exec pre).step op).exec mid).handles.map k.callId = none ∧
          Keeps k.handle ((s.exec pre).step op) (((s.exec pre).step op).exec mid)) ∧
      (k ∈ calls pre → ¬ op.Answers k.callId → Elsewhere k (s.exec pre) ((s.exec pre).step op)) := by
  refine ⟨?_, fun pre op post hops => ?_⟩
  · obtain ⟨⟨-, hran, hcompleted⟩ | ⟨-, hran, hcompleted⟩, -⟩ := exec_issued hs hown hk
    · omega
    · exact ⟨hran, hcompleted⟩
  subst hops
  by_cases hissued : k ∈ calls pre
  · -- the call comes before the operation: what follows is about other calls, or an answer
    have hafter := hown.apart_after hissued
    have hown' : Own pre := (List.pairwise_append.mp (calls_append ▸ hown : (calls pre ++ calls (op :: post)).Pairwise _)).1
    obtain ⟨hcases, hclear⟩ := step_cases (exec_issued hs hown' hissued).2 (hafter op List.mem_cons_self)
    refine ⟨fun hchange => ⟨hissued, ?_⟩, fun _ hanswers mid rest hpost => ?_, fun _ hanswers => ?_⟩
    · obtain ⟨hanswers, -⟩ | ⟨-, helsewhere⟩ := hcases
      · exact hanswers
      · exact absurd hchange (by simp [helsewhere.keeps.ranDone, helsewhere.keeps.completed])
    · obtain ⟨-, hanswered⟩ | ⟨hnot, -⟩ := hcases
      · obtain ⟨hnone, hkeeps, -⟩ := exec_absent mid (fun op' hop' => hafter op' (by simp [hpost, hop'])) hclear
          hanswered.handle
        exact ⟨hnone, hkeeps⟩
      · exact absurd hanswers hnot
    · obtain ⟨hyes, -⟩ | ⟨-, helsewhere⟩ := hcases
      · exact absurd hyes hanswers
      · exact helsewhere
  · -- it comes later: until then its id is not in the table
    refine ⟨fun hchange => ?_, fun h => absurd h hissued, fun h => absurd h hissued⟩
    have hmem : k ∈ calls (op :: post) := by
      rw [calls_append, List.mem_append] at hk
      exact hk.resolve_left hissued
    obtain ⟨hnone, -, -, hclear⟩ := exec_unissued hs (hown.apart_before hmem)
    exfalso
    by_cases hself : op.call? = some k
    · obtain ⟨-, hran, hcompleted, -⟩ := step_call hclear hself
      simp [hran, hcompleted] at hchange
    · have hmem' : k ∈ calls post := by
        obtain ⟨op', hop', hcall⟩ := mem_calls.mp hmem
        rcases List.mem_cons.mp hop' with rfl | hop'
        · exact absurd hcall hself
        · exact mem_calls.mpr ⟨op', hop', hcall⟩
      have hown' : Own ((pre ++ [op]) ++ post) := by
        rw [List.append_assoc]
        exact hown
      have hother := hown'.apart_before hmem' op (by simp)
      obtain ⟨-, hkeeps, -⟩ := exec_absent [op] (by simpa using hother) hclear hnone
      have hran : ((s.exec pre).step op).ranDone k.handle = _ := hkeeps.ranDone
      have hcompleted : ((s.exec pre).step op).completed k.handle = _ := hkeeps.completed
      simp [hran, hcompleted] at hchange

/-- Two calls. The reply to the first comes twice, and the send for the second fails. -/
theorem ends_at_most_once_duplicate :
    let _ : DecidableEq flagProtobuf.Descriptor := inferInstanceAs (DecidableEq Unit)
    let s : ChannelState flagProtobuf := { controllers := fun _ => some {}, responses := fun _ => none }
    let reply := serializeResponse flagProtobuf [1] {} (some (some true))
    let ops : List (Op flagProtobuf) := [.callMethod [1] () (some 10) none (some 11) (some 12),
      .callMethod [2] () (some 20) none (some 21) (some 22), .process reply false, .process reply false,
      .messageSent false [7] [2] false]
    (s.exec ops).ranDone ⟨some 10, some 11, some 12⟩ = 1 ∧ (s.exec ops).ranDone ⟨some 10, some 11, some 12⟩ ≤ 1 := by
  intro _ s reply ops
  refine ⟨by decide +kernel, ?_⟩
  have hown : Own ops := by
    refine List.pairwise_pair.mpr ⟨by decide, ?_, ?_, ?_⟩ <;> simp
  exact (ends_at_most_once s ⟨fun _ => rfl, rfl⟩ ops hown ⟨[1], ⟨some 10, some 11, some 12⟩⟩ List.mem_cons_self).1.1

end Step

end ChannelState

end Raster.Proto
