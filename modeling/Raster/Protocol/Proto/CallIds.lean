import Raster.Protocol.Proto.RpcChannel
import Raster.Util.Uuid

/-!
# The ids of calls

`PBRpcChannel::CallMethod` keeps the handle of a call under an id of `uuidGenerateTime`. With the ids of one thread, in
the order in which they were made, the handle of a call that waits is replaced only when two of the ids are the same.
-/

namespace Raster.Proto

variable {P : Protobuf} [DecidableEq P.Descriptor] {s : ChannelState P} {callId : List UInt8}

namespace ChannelState

omit [DecidableEq P.Descriptor] in
theorem map_answer_none {prepare : Handle → ChannelState P → ChannelState P} (hprepare : Prepares prepare)
    (answered : List UInt8) (throws : Bool) (h : s.handles.map callId = none) :
    (s.answer answered prepare throws).handles.map callId = none := by
  rw [handles_answer answered throws hprepare]
  by_cases hid : callId = answered
  · subst hid
    exact LockedMap.map_erase_self
  · rw [LockedMap.map_erase_of_ne hid, h]

theorem map_step_none (op : Op P) (hother : ∀ k ∈ op.call?, k.callId ≠ callId) (h : s.handles.map callId = none) :
    (s.step op).handles.map callId = none := by
  cases op with
  | callMethod id method controller request response done =>
    have hne : callId ≠ id := Ne.symm (hother { callId := id, handle := { controller, response, done } } rfl)
    show (s.callMethod id method controller request response done).handles.map callId = none
    rw [handles_callMethod, LockedMap.map_set_of_ne hne, h]
  | messageSent success reason id throws =>
    show (s.messageSent success reason id throws).handles.map callId = none
    unfold messageSent
    split
    · exact h
    · exact map_answer_none (prepares_setFailed reason) id throws h
  | startCancel id =>
    show (s.startCancel id).handles.map callId = none
    unfold startCancel
    split <;> exact h
  | process msg throws =>
    show (s.process msg throws).handles.map callId = none
    unfold process
    split
    · exact h
    · exact map_answer_none (prepares_reply _ _) _ throws h

theorem map_exec_none (ops : List (Op P)) (hother : callId ∉ (calls ops).map Call.callId)
    (h : s.handles.map callId = none) : (s.exec ops).handles.map callId = none := by
  induction ops generalizing s with
  | nil => exact h
  | cons op ops ih =>
    have hmem : ∀ k ∈ op.call?, k.callId ≠ callId := fun k hk heq =>
      hother (heq ▸ List.mem_map_of_mem (mem_calls.mpr ⟨op, List.mem_cons_self, hk⟩))
    have hrest : callId ∉ (calls ops).map Call.callId := by
      intro hin
      obtain ⟨k, hk, rfl⟩ := List.mem_map.mp hin
      obtain ⟨op', hop', hcall⟩ := mem_calls.mp hk
      exact hother (List.mem_map_of_mem (mem_calls.mpr ⟨op', List.mem_cons_of_mem _ hop', hcall⟩))
    exact ih hrest (map_step_none op hmem h)

end ChannelState

/-- No call on a new channel finds a handle under its id, when the ids of the calls are among `ids`, in their order. -/
def NeverOverwrites (P : Protobuf) [DecidableEq P.Descriptor] (ids : List (List UInt8)) : Prop :=
  ∀ (s : ChannelState P) (before : List (Op P)) (op : Op P) (k : Call), s.Fresh → op.call? = some k →
    ((calls (before ++ [op])).map Call.callId).Sublist ids → (s.exec before).handles.map k.callId = none

theorem neverOverwrites_of_nodup {ids : List (List UInt8)} (hnodup : ids.Nodup) : NeverOverwrites P ids := by
  intro s before op k hfresh hop hids
  refine ChannelState.map_exec_none before (fun hmem => ?_) (hfresh.handles k.callId)
  have hcalls : (calls (before ++ [op])).map Call.callId = (calls before).map Call.callId ++ [k.callId] := by
    rw [ChannelState.calls_append, List.map_append]
    congr 1
    simp [calls, hop]
  rw [hcalls] at hids
  have hdistinct := hnodup.sublist hids
  rw [List.nodup_append] at hdistinct
  exact hdistinct.2.2 k.callId hmem k.callId (List.mem_singleton_self _) rfl

/-- **The ids of the calls of a thread are pairwise different, so that no handle of a call that waits is overwritten,
exactly when the readings of the clock do not clash.** -/
theorem callIds_distinct_iff (P : Protobuf) [DecidableEq P.Descriptor] (node : List UInt8) (random : Nat → Nat) (t : Nat)
    (readings : List Nat) (hsorted : (t :: readings).Pairwise (· ≤ ·)) (hpos : 0 < t) :
    (∀ n, (generated node random n {} (t :: readings)).Nodup ∧
      NeverOverwrites P (generated node random n {} (t :: readings))) ↔ NoClash readings := by
  rw [← generated_nodup_iff node random t readings hsorted hpos]
  exact ⟨fun h n => (h n).1, fun h n => ⟨h n, neverOverwrites_of_nodup (h n)⟩⟩

/-- Two ids in one microsecond and one in the next. -/
theorem callIds_distinct_iff_three :
    let _ : DecidableEq flagProtobuf.Descriptor := inferInstanceAs (DecidableEq Unit)
    (∀ n, (generated [1, 2, 3, 4, 5, 6] (fun _ => 9) n {} [7, 7, 7, 8]).Nodup ∧
      NeverOverwrites flagProtobuf (generated [1, 2, 3, 4, 5, 6] (fun _ => 9) n {} [7, 7, 7, 8])) ↔ NoClash [7, 7, 8] := by
  intro _
  exact callIds_distinct_iff flagProtobuf _ _ 7 [7, 7, 8] (by decide) (by decide)

/-- Eleven ids in one microsecond and one in the next: the last two are the same. -/
theorem callIds_distinct_false :
    let _ : DecidableEq flagProtobuf.Descriptor := inferInstanceAs (DecidableEq Unit)
    let readings := List.replicate 12 1500000000000000 ++ [1500000000000001]
    ¬ ∀ n, (generated [1, 2, 3, 4, 5, 6] (fun _ => 9) n {} readings).Nodup ∧
      NeverOverwrites flagProtobuf (generated [1, 2, 3, 4, 5, 6] (fun _ => 9) n {} readings) := by
  intro _ readings h
  have hnodup := (h 12).1
  revert hnodup
  decide +kernel

end Raster.Proto
