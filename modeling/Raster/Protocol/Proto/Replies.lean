import Raster.Protocol.Proto.RpcChannel

/-!
# Successive calls with one controller

`PBSyncClient` and `PBAsyncClient` make all their calls with one controller, and do not reset it. The reply
of a call is copied into it: whether the call was cancelled always, but that it failed only if it did.
-/

namespace Raster.Proto

variable {P : Protobuf}

/-- A call and the reply to it: the controller and the response are those of the server. -/
structure Exchange (P : Protobuf) where
  callId : List UInt8
  method : P.MethodDescriptor
  request : P.Message
  response : Option Nat
  done : Option Nat
  throws : Bool
  controller : PBRpcController
  reply : Option P.Message

/-- The strings are of a length that the format has room for. -/
structure Exchange.Short (e : Exchange P) : Prop where
  callId : e.callId.length < 2 ^ 31
  reason : e.controller.failedReason.length < 2 ^ 31
  reply : ∀ msg ∈ e.reply, (P.fullName (P.getDescriptor msg)).length < 2 ^ 31

/-- What `Failed`, `IsCanceled` and `ErrorText` say is what they say of the other controller. -/
structure PBRpcController.Reflects (c o : PBRpcController) : Prop where
  failed : c.failed = o.failed
  canceled : c.canceled = o.canceled
  reason : o.failed = true → c.failedReason = o.failedReason

namespace ChannelState

section Reply

variable (hP : P.Lawful) {e : Exchange P} (he : e.Short)
include hP he

theorem parseReply_serializeResponse :
    parseReply P (serializeResponse P e.callId e.controller e.reply) =
      some (e.callId,
        { canceled := e.controller.canceled
          failed := e.controller.failed
          failedReason := if e.controller.failed then e.controller.failedReason else [] },
        e.reply) := by
  have htype : readInt (serializeResponse P e.callId e.controller e.reply) = .ok (responseMsg, _) :=
    reads_int (n := 2) (by omega) _
  have hparse := (reads_parseResponseFrom hP he.callId he.reason he.reply {}).at_end
  rw [parseReply, htype]
  simp only [if_true]
  rw [hparse]

end Reply

/-! ### One exchange -/

section Exchange

variable [DecidableEq P.Descriptor]

/-- The call with the controller at `a`, the success of the send, and the reply. -/
def exchange (a : Nat) (s : ChannelState P) (e : Exchange P) : ChannelState P :=
  s.exec [.callMethod e.callId e.method (some a) e.request e.response e.done, .messageSent true [] e.callId false,
    .process (serializeResponse P e.callId e.controller e.reply) e.throws]

variable {s : ChannelState P} {a : Nat}

omit [DecidableEq P.Descriptor] in
theorem controllers_modifyController (f : PBRpcController → PBRpcController) :
    (s.modifyController (some a) f).controllers a = (s.controllers a).map f := Function.update_self ..

omit [DecidableEq P.Descriptor] in
theorem controllers_finishCall {c : PBRpcController} (response done : Option Nat) (throws : Bool) (hc : s.controllers a = some c) :
    ∃ closures, (s.finishCall { controller := some a, response, done } throws).controllers a = some { c with closures } := by
  have hdone : (s.runDone { controller := some a, response, done }).controllers a = some c := by
    unfold runDone
    split <;> exact hc
  unfold finishCall
  split
  · exact ⟨c.closures, hdone⟩
  · refine ⟨∅, ?_⟩
    simp only [complete, hdone]
    exact Function.update_self ..

theorem controllers_copyResponse (handle : Handle) (response : Option P.Message) :
    (s.copyResponse handle response).controllers = s.controllers := by
  unfold copyResponse
  repeat' split
  all_goals rfl

theorem process_reply {msg callId : List UInt8} {controller : PBRpcController} {response : Option P.Message}
    (hmsg : parseReply P msg = some (callId, controller, response)) (throws : Bool) :
    s.process msg throws = s.answer callId (fun handle s =>
      (s.modifyController handle.controller fun c => c.copyFrom controller).copyResponse handle response) throws := by
  rw [process, hmsg]

theorem controllers_exchange (hP : P.Lawful) {e : Exchange P} (he : e.Short) {c : PBRpcController}
    (hc : s.controllers a = some c) :
    ∃ c', (exchange a s e).controllers a = some c' ∧ c'.failed = (c.failed || e.controller.failed) ∧
      c'.canceled = e.controller.canceled ∧ (e.controller.failed = true → c'.failedReason = e.controller.failedReason) := by
  obtain ⟨t, ht⟩ : ∃ t, t = s.callMethod e.callId e.method (some a) e.request e.response e.done := ⟨_, rfl⟩
  have hhandle : t.handles.map e.callId = some (some { controller := some a, response := e.response, done := e.done }) := by
    rw [ht, handles_callMethod, LockedMap.map_set_self]
  have hct : t.controllers a = some (c.setStartCancel e.callId) := by
    rw [ht]
    show (s.modifyController (some a) fun c => c.setStartCancel e.callId).controllers a = _
    rw [controllers_modifyController, hc, Option.map_some]
  have hexchange : exchange a s e = t.process (serializeResponse P e.callId e.controller e.reply) e.throws := by
    simp only [exchange, exec, List.foldl_cons, List.foldl_nil, step, messageSent, if_true, ht]
  rw [hexchange, process_reply (parseReply_serializeResponse hP he)]
  obtain ⟨h, hmap, heq⟩ | ⟨hnone, -⟩ := t.answer_eq _ e.callId e.throws
  · obtain rfl := Option.some.inj (Option.some.inj (hmap.symm.trans hhandle))
    rw [heq]
    have hcopied : ∀ o, ((modifyController { t with handles := (t.handles.erase e.callId).2 } (some a) fun c => c.copyFrom o).copyResponse
        { controller := some a, response := e.response, done := e.done } e.reply).controllers a =
        some ((c.setStartCancel e.callId).copyFrom o) := by
      intro o
      rw [controllers_copyResponse, controllers_modifyController, hct, Option.map_some]
    obtain ⟨closures, hend⟩ := controllers_finishCall e.response e.done e.throws (hcopied _)
    refine ⟨_, hend, ?_⟩
    simp only [PBRpcController.copyFrom, PBRpcController.setFailed, PBRpcController.setStartCancel]
    cases e.controller.failed with
    | true => simp
    | false => simp
  · exact absurd hhandle (hnone _)

/-! ### Sequences -/

def exchanges (a : Nat) (s : ChannelState P) (es : List (Exchange P)) : ChannelState P := es.foldl (exchange a) s

theorem exchanges_nil : exchanges a s [] = s := by rw [exchanges, List.foldl_nil]

theorem exchanges_cons (e : Exchange P) (es : List (Exchange P)) :
    exchanges a s (e :: es) = exchanges a (exchange a s e) es := by rw [exchanges, List.foldl_cons, exchanges]

theorem exchanges_append (es fs : List (Exchange P)) : exchanges a s (es ++ fs) = exchanges a (exchanges a s es) fs :=
  List.foldl_append

theorem failed_exchanges (hP : P.Lawful) {es : List (Exchange P)} (hes : ∀ e ∈ es, e.Short) {c : PBRpcController}
    (hc : s.controllers a = some c) :
    ∃ c', (exchanges a s es).controllers a = some c' ∧ c'.failed = (c.failed || es.any fun e => e.controller.failed) := by
  induction es generalizing s c with
  | nil => exact ⟨c, by rw [exchanges_nil, hc], by simp⟩
  | cons e es ih =>
    obtain ⟨c₁, hc₁, hfailed₁, -, -⟩ := controllers_exchange hP (hes e List.mem_cons_self) hc
    obtain ⟨c', hc', hfailed'⟩ := ih (fun e he => hes e (List.mem_cons_of_mem _ he)) hc₁
    refine ⟨c', ?_, ?_⟩
    · rw [exchanges_cons, hc']
    · rw [hfailed', hfailed₁, List.any_cons, Bool.or_assoc]

theorem reflects_last_iff (hP : P.Lawful) {es : List (Exchange P)} (hes : ∀ e ∈ es, e.Short) {e : Exchange P} (he : e.Short)
    {c : PBRpcController} (hc : s.controllers a = some c) (hfresh : c.failed = false) :
    (∃ c', (exchanges a s (es ++ [e])).controllers a = some c' ∧ c'.Reflects e.controller) ↔
      ∀ x ∈ es, x.controller.failed = true → e.controller.failed = true := by
  obtain ⟨c₁, hc₁, hfailed₁⟩ := failed_exchanges hP hes hc
  obtain ⟨c₂, hc₂, hfailed₂, hcanceled₂, hreason₂⟩ := controllers_exchange hP he hc₁
  have hlast : (exchanges a s (es ++ [e])).controllers a = some c₂ := by
    rw [exchanges_append, exchanges_cons, exchanges_nil, hc₂]
  rw [hfailed₁, hfresh, Bool.false_or] at hfailed₂
  constructor
  · rintro ⟨c', hc', hreflects⟩ x hx hxfailed
    obtain rfl := Option.some.inj (hlast.symm.trans hc')
    rw [← hreflects.failed, hfailed₂, List.any_eq_true.mpr ⟨x, hx, hxfailed⟩, Bool.true_or]
  · intro hearlier
    refine ⟨c₂, hlast, ?_, hcanceled₂, hreason₂⟩
    rw [hfailed₂]
    cases hany : es.any fun e => e.controller.failed with
    | false => exact Bool.false_or _
    | true =>
      obtain ⟨x, hx, hxfailed⟩ := List.any_eq_true.mp hany
      rw [hearlier x hx hxfailed, Bool.true_or]

/-- **The controller reflects the latest reply after each of the calls**, if and only if no call that
succeeds comes after one that failed. -/
theorem reflects_iff (hP : P.Lawful) (s : ChannelState P) (a : Nat) (es : List (Exchange P)) (hes : ∀ e ∈ es, e.Short)
    (c : PBRpcController) (hc : s.controllers a = some c) (hfresh : c.failed = false) :
    (∀ pre e post, es = pre ++ e :: post →
        ∃ c', (exchanges a s (pre ++ [e])).controllers a = some c' ∧ c'.Reflects e.controller) ↔
      es.Pairwise fun x y => x.controller.failed = true → y.controller.failed = true := by
  have hlast : ∀ pre e post, es = pre ++ e :: post →
      ((∃ c', (exchanges a s (pre ++ [e])).controllers a = some c' ∧ c'.Reflects e.controller) ↔
        ∀ x ∈ pre, x.controller.failed = true → e.controller.failed = true) := by
    rintro pre e post rfl
    exact reflects_last_iff hP (fun x hx => hes x (List.mem_append_left _ hx))
      (hes e (List.mem_append_right _ List.mem_cons_self)) hc hfresh
  constructor
  · intro hall
    rw [List.pairwise_iff_getElem]
    intro i j hi hj hij hfailed
    have hsplit : es = es.take j ++ es[j] :: es.drop (j + 1) := by
      rw [List.getElem_cons_drop, List.take_append_drop]
    refine (hlast _ _ _ hsplit).mp (hall _ _ _ hsplit) es[i] ?_ hfailed
    exact List.mem_take_iff_getElem.mpr ⟨i, by omega, rfl⟩
  · intro hpairwise pre e post hsplit
    refine (hlast pre e post hsplit).mpr fun x hx => ?_
    rw [hsplit, List.pairwise_append] at hpairwise
    exact hpairwise.2.2 x hx e List.mem_cons_self

/-- A call of `Switch.Set` with a reply. -/
def flagExchange (callId : List UInt8) (controller : PBRpcController) : Exchange flagProtobuf :=
  { callId, method := (), request := none, response := none, done := none, throws := false, controller, reply := none }

instance : DecidableEq flagProtobuf.Descriptor := inferInstanceAs (DecidableEq Unit)

/-- A channel of a client that has made no calls. -/
def flagChannel : ChannelState flagProtobuf := { controllers := fun _ => some {}, responses := fun _ => none }

/-- A call that fails, after one that did not. -/
theorem reflects_iff_failed :
    ∃ c, (exchanges 0 flagChannel [flagExchange [1] {}, flagExchange [2] { failed := true, failedReason := [7] }]).controllers 0 =
      some c ∧ c.Reflects { failed := true, failedReason := [7] } := by
  refine (reflects_iff flagProtobuf_lawful flagChannel 0
    [flagExchange [1] {}, flagExchange [2] { failed := true, failedReason := [7] }] ?_ {} rfl rfl).mpr ?_
    [flagExchange [1] {}] (flagExchange [2] { failed := true, failedReason := [7] }) [] rfl
  · intro e he
    simp only [List.mem_cons, List.not_mem_nil, or_false] at he
    rcases he with rfl | rfl <;> exact ⟨by decide, by decide, nofun⟩
  · exact List.pairwise_pair.mpr fun _ => rfl

/-- A call that succeeds, after one that failed: the controller still says that it has failed. -/
theorem failed_after_success :
    ∃ pre e, [flagExchange [1] { failed := true, failedReason := [7] }, flagExchange [2] {}] = pre ++ [e] ∧
      ¬ ∃ c, (exchanges 0 flagChannel (pre ++ [e])).controllers 0 = some c ∧ c.Reflects e.controller := by
  refine ⟨[flagExchange [1] { failed := true, failedReason := [7] }], flagExchange [2] {}, rfl, ?_⟩
  rintro ⟨c, hc, hreflects⟩
  have hfailed : ((exchanges 0 flagChannel ([flagExchange [1] { failed := true, failedReason := [7] }] ++
      [flagExchange [2] {}])).controllers 0).map PBRpcController.failed = some true := by decide +kernel
  rw [hc, Option.map_some, hreflects.failed] at hfailed
  cases hfailed

end Exchange

end ChannelState

end Raster.Proto
