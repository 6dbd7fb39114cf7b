import Raster.Buffer.Cursor

/-!
# Reading and writing the data of an event

`raster/net/Protocol.h` and `Protocol.cpp`. A call of `readData` or `writeData` makes a number of
calls of `recv` or `send`; the list of their outcomes is an argument, and when it is used up the next
call reports `EAGAIN`. Both can be called again after `EAGAIN` and go on where they stopped, from
`rbuf`, `rlen`, `wbuf` and `wlen` alone.
-/

namespace Raster

/-- How a call of `recv` or `send` ends. -/
inductive Outcome
  /-- At most `n` bytes are transferred, but one if there is one. -/
  | bytes (n : Nat)
  /-- `EAGAIN`, and whether the test for a timeout after it holds. -/
  | again (timedOut : Bool)
  /-- `recv` returns 0. -/
  | closed
  /-- `ECONNRESET`. -/
  | reset
  /-- Another error. -/
  | failed
  deriving DecidableEq, Repr

/-- What `readData` and `writeData` return; a `timeout` is the error that also sets the type. -/
inductive IOResult
  | error
  | timeout
  | complete
  | again
  | closed
  deriving DecidableEq, Repr

/-- The receiving side of an event, with the bytes its socket has to deliver. -/
structure Inbound where
  rbuf : IOBuf
  /-- Left to read. -/
  rlen : Nat
  input : List UInt8
  deriving DecidableEq, Repr

/-- The sending side of an event, with the bytes its socket has taken. -/
structure Outbound where
  wbuf : IOBuf
  /-- Already written. -/
  wlen : Nat
  output : List UInt8
  deriving DecidableEq, Repr

namespace Protocol

/-- `CHUNK_SIZE`. -/
def chunkSize : Nat := 4096

/-- The loop of `readData`; `none` where the assertion in `IOBuf::append` fails. -/
def readLoop : List Outcome → Inbound → Option (IOResult × Inbound × List Outcome)
  | [], i => if 0 < i.rlen then some (.again, i, []) else some (.complete, i, [])
  | o :: os, i =>
    if 0 < i.rlen then
      match o with
      | .bytes n =>
        let bytes := i.input.take (min (max n 1) i.rlen)
        if bytes = [] then some (.again, i, os)
        else if bytes.length ≤ i.rbuf.last.tailroom then
          readLoop os { rbuf := i.rbuf.append bytes, rlen := i.rlen - bytes.length, input := i.input.drop bytes.length }
        else none
      | .again true => some (.timeout, i, os)
      | .again false => some (.again, i, os)
      | .reset => some (.closed, i, os)
      | .failed => some (.error, i, os)
      | .closed => some (.closed, i, os)
    else some (.complete, i, o :: os)

def readData (os : List Outcome) (i : Inbound) : Option (IOResult × Inbound × List Outcome) :=
  readLoop os { i with rbuf := i.rbuf.ensure chunkSize i.rlen }

/-- The loop of `writeData`; `none` where the cursor throws. -/
def writeLoop : List Outcome → Cursor → Outbound → Option (IOResult × Outbound)
  | [], cursor, w => if cursor.isAtEnd then some (.complete, w) else some (.again, w)
  | o :: os, cursor, w =>
    if cursor.isAtEnd then some (.complete, w)
    else
      let (p, cursor) := cursor.peek
      match o with
      | .bytes n =>
        let sent := p.take (max n 1)
        match cursor.add sent.length with
        | none => none
        | some cursor => writeLoop os cursor { w with wlen := w.wlen + sent.length, output := w.output ++ sent }
      | .again true => some (.timeout, w)
      | .again false => some (.again, w)
      | _ => some (.error, w)

def writeData (os : List Outcome) (w : Outbound) : Option (IOResult × Outbound) :=
  match (Cursor.make w.wbuf).add w.wlen with
  | none => none
  | some cursor => writeLoop os cursor w

end Protocol

namespace HBinaryProtocol

/-- `readData` for a header of `headerSize` bytes; `bodyLength` reads the header. -/
def readData (headerSize : Nat) (bodyLength : List UInt8 → Nat) (os : List Outcome) (i : Inbound) :
    Option (IOResult × Inbound × List Outcome) :=
  let i := if i.rbuf.empty then { i with rlen := headerSize } else i
  match Protocol.readData os i with
  | none => none
  | some (r, i, os) =>
    if i.rbuf.computeChainDataLength = headerSize ∧ r = .complete then
      Protocol.readData os { i with rlen := bodyLength (i.rbuf.head.data.take headerSize) }
    else some (r, i, os)

end HBinaryProtocol

/-! ### Sockets that only split and delay -/

/-- Bytes are transferred, or there are none yet and no timeout has passed. -/
def Outcome.Calm : Outcome → Prop
  | .bytes _ => True
  | .again timedOut => timedOut = false
  | _ => False

namespace Protocol

/-- What the loop of `readData` did: `k` bytes were moved from the input to the end of the chain. -/
structure Moved (i : Inbound) (k : Nat) (r : IOResult) (i' : Inbound) : Prop where
  le_rlen : k ≤ i.rlen
  le_input : k ≤ i.input.length
  data_eq : i'.rbuf.data = i.rbuf.data ++ i.input.take k
  rlen_eq : i'.rlen = i.rlen - k
  input_eq : i'.input = i.input.drop k
  chain_eq : i'.rbuf.rest.length = i.rbuf.rest.length
  room : i'.rlen ≤ i'.rbuf.last.tailroom
  result : r = .complete ∧ k = i.rlen ∨ r = .again ∧ k < i.rlen

theorem length_rest_append (c : IOBuf) (bytes : List UInt8) : (c.append bytes).rest.length = c.rest.length := by
  obtain ⟨head, rest⟩ := c
  cases rest <;> simp [IOBuf.append, IOBuf.setLast]

theorem readLoop_spec {os : List Outcome} (hcalm : ∀ o ∈ os, o.Calm) (i : Inbound)
    (hroom : i.rlen ≤ i.rbuf.last.tailroom) :
    ∃ k r i' os', readLoop os i = some (r, i', os') ∧ (∀ o ∈ os', o.Calm) ∧ Moved i k r i' := by
  induction os generalizing i with
  | nil =>
    by_cases hlen : 0 < i.rlen
    · exact ⟨0, .again, i, [], by rw [readLoop, if_pos hlen], by simp,
        ⟨by omega, by omega, by simp, by omega, by simp, rfl, hroom, Or.inr ⟨rfl, hlen⟩⟩⟩
    · exact ⟨0, .complete, i, [], by rw [readLoop, if_neg hlen], by simp,
        ⟨by omega, by omega, by simp, by omega, by simp, rfl, hroom, Or.inl ⟨rfl, by omega⟩⟩⟩
  | cons o os ih =>
    have hrest : ∀ o ∈ os, o.Calm := fun o ho => hcalm o (List.mem_cons_of_mem _ ho)
    by_cases hlen : 0 < i.rlen
    swap
    · exact ⟨0, .complete, i, o :: os, by rw [readLoop.eq_def]; simp only [if_neg hlen], hcalm,
        ⟨by omega, by omega, by simp, by omega, by simp, rfl, hroom, Or.inl ⟨rfl, by omega⟩⟩⟩
    have hagain : Moved i 0 .again i :=
      ⟨by omega, by omega, by simp, by omega, by simp, rfl, hroom, Or.inr ⟨rfl, hlen⟩⟩
    have ho := hcalm o List.mem_cons_self
    cases o with
    | again timedOut =>
      cases timedOut with
      | true => exact absurd ho (by simp [Outcome.Calm])
      | false => exact ⟨0, .again, i, os, by simp only [readLoop, if_pos hlen], hrest, hagain⟩
    | bytes n =>
      by_cases hnil : i.input.take (min (max n 1) i.rlen) = []
      · exact ⟨0, .again, i, os, by simp only [readLoop, if_pos hlen, if_pos hnil], hrest, hagain⟩
      -- one `recv` of `m` bytes, and the rest of the loop by induction
      · obtain ⟨m, hm⟩ : ∃ m, (i.input.take (min (max n 1) i.rlen)).length = m := ⟨_, rfl⟩
        have htake : i.input.take (min (max n 1) i.rlen) = i.input.take m := by
          rw [← hm, List.length_take, List.take_eq_take_iff]
          omega
        have hmle : m ≤ i.rlen ∧ m ≤ i.input.length := by
          rw [← hm, List.length_take]
          omega
        have hfit : m ≤ i.rbuf.last.tailroom := by omega
        obtain ⟨k, r, i', os', hloop, hos', hmoved⟩ := ih hrest
          { rbuf := i.rbuf.append (i.input.take m), rlen := i.rlen - m, input := i.input.drop m } (by
            rw [IOBuf.last_append, Buf.tailroom_append, List.length_take]
            simp only
            omega)
        obtain ⟨h1, h2, h3, h4, h5, h6, h7, h8⟩ := hmoved
        simp only [List.length_drop] at h1 h2 h3 h4 h5 h6 h8
        refine ⟨m + k, r, i', os', ?_, hos', ⟨by omega, by omega, ?_, by omega, ?_, ?_, h7, ?_⟩⟩
        · simp only [readLoop, if_pos hlen, if_neg hnil, hm]
          rw [if_pos hfit, htake]
          exact hloop
        · rw [h3, IOBuf.data_append, List.append_assoc, List.take_add]
        · rw [h5, List.drop_drop]
        · rw [h6, length_rest_append]
        · rcases h8 with ⟨hr, hk⟩ | ⟨hr, hk⟩
          · exact Or.inl ⟨hr, by omega⟩
          · exact Or.inr ⟨hr, by omega⟩
    | closed => exact absurd ho (by simp [Outcome.Calm])
    | reset => exact absurd ho (by simp [Outcome.Calm])
    | failed => exact absurd ho (by simp [Outcome.Calm])

theorem readData_spec {os : List Outcome} (hcalm : ∀ o ∈ os, o.Calm) (i : Inbound) :
    ∃ k r i' os', readData os i = some (r, i', os') ∧ (∀ o ∈ os', o.Calm) ∧
      Moved { i with rbuf := i.rbuf.ensure chunkSize i.rlen } k r i' :=
  readLoop_spec hcalm _ (IOBuf.le_tailroom_ensure ..)

/-- What `writeData` did: the next `k` bytes of the chain were sent. -/
structure Sent (w : Outbound) (k : Nat) (r : IOResult) (w' : Outbound) : Prop where
  wbuf_eq : w'.wbuf = w.wbuf
  wlen_eq : w'.wlen = w.wlen + k
  le_length : w'.wlen ≤ w.wbuf.data.length
  output_eq : w'.output = w.output ++ (w.wbuf.data.drop w.wlen).take k
  result : r = .complete ∧ w'.wlen = w.wbuf.data.length ∨ r = .again ∧ w'.wlen < w.wbuf.data.length

theorem writeLoop_spec {os : List Outcome} (hcalm : ∀ o ∈ os, o.Calm) (cursor : Cursor) (hc : cursor.Valid)
    (w : Outbound) (hw : w.wlen ≤ w.wbuf.data.length) (hrest : cursor.rest = w.wbuf.data.drop w.wlen) :
    ∃ k r w', writeLoop os cursor w = some (r, w') ∧ Sent w k r w' := by
  induction os generalizing cursor w with
  | nil =>
    by_cases hend : cursor.isAtEnd
    · have hnil := (Cursor.isAtEnd_iff hc).mp hend
      rw [hrest, List.drop_eq_nil_iff] at hnil
      exact ⟨0, .complete, w, by rw [writeLoop, if_pos hend],
        ⟨rfl, rfl, hw, by simp, Or.inl ⟨rfl, by omega⟩⟩⟩
    · have hne := mt (Cursor.isAtEnd_iff hc).mpr hend
      rw [hrest, List.drop_eq_nil_iff] at hne
      exact ⟨0, .again, w, by rw [writeLoop, if_neg hend],
        ⟨rfl, rfl, hw, by simp, Or.inr ⟨rfl, by omega⟩⟩⟩
  | cons o os ih =>
    by_cases hend : cursor.isAtEnd
    · have hnil := (Cursor.isAtEnd_iff hc).mp hend
      rw [hrest, List.drop_eq_nil_iff] at hnil
      exact ⟨0, .complete, w, by rw [writeLoop.eq_def]; simp only [if_pos hend],
        ⟨rfl, rfl, hw, by simp, Or.inl ⟨rfl, by omega⟩⟩⟩
    have hne := mt (Cursor.isAtEnd_iff hc).mpr hend
    have hlt : w.wlen < w.wbuf.data.length := by
      rw [hrest, List.drop_eq_nil_iff] at hne
      omega
    obtain ⟨c, hpeek, hvalid, hcrest, hpos⟩ := Cursor.peek_spec hc
    replace hpos := hpos hne
    have ho := hcalm o List.mem_cons_self
    cases o with
    | again timedOut =>
      cases timedOut with
      | true => exact absurd ho (by simp [Outcome.Calm])
      | false =>
        exact ⟨0, .again, w, by simp only [writeLoop, if_neg hend],
          ⟨rfl, rfl, hw, by simp, Or.inr ⟨rfl, hlt⟩⟩⟩
    | bytes n =>
      -- the piece is the start of what is left, and the cursor stays inside
      obtain ⟨m, hm⟩ : ∃ m, ((c.crtBuf.data.drop c.offset).take (max n 1)).length = m := ⟨_, rfl⟩
      have hmle : m ≤ (c.crtBuf.data.drop c.offset).length := by
        rw [← hm]
        exact List.length_take_le' _ _
      have htake : (c.crtBuf.data.drop c.offset).take (max n 1) = (w.wbuf.data.drop w.wlen).take m := by
        rw [← hrest, ← hcrest, Cursor.rest, List.take_append_of_le_length hmle, List.take_eq_take_iff, ← hm,
          List.length_take]
        omega
      have hmrest : m ≤ c.rest.length := by
        rw [Cursor.rest, List.length_append]
        omega
      have hlen : c.rest.length = w.wbuf.data.length - w.wlen := by
        rw [hcrest, hrest, List.length_drop]
      obtain ⟨c', hadd, hvalid', hc'⟩ := Cursor.add_spec hvalid hmrest
      obtain ⟨k, r, w', hloop, h1, h2, h3, h4, h5⟩ := ih (fun o ho => hcalm o (List.mem_cons_of_mem _ ho)) c' hvalid'
        { w with wlen := w.wlen + m, output := w.output ++ (w.wbuf.data.drop w.wlen).take m }
        (by simp only; omega) (by rw [hc', hcrest, hrest, List.drop_drop])
      simp only at h1 h2 h3 h4 h5
      refine ⟨m + k, r, w', ?_, ⟨h1, by omega, h3, ?_, h5⟩⟩
      · simp only [writeLoop, if_neg hend, hpeek, hm, hadd]
        rw [htake]
        exact hloop
      · rw [h4, List.append_assoc, List.take_add, List.drop_drop]
    | closed => exact absurd ho (by simp [Outcome.Calm])
    | reset => exact absurd ho (by simp [Outcome.Calm])
    | failed => exact absurd ho (by simp [Outcome.Calm])

theorem writeData_spec {os : List Outcome} (hcalm : ∀ o ∈ os, o.Calm) (w : Outbound)
    (hw : w.wlen ≤ w.wbuf.data.length) :
    ∃ k r w', writeData os w = some (r, w') ∧ Sent w k r w' := by
  obtain ⟨c, hadd, hvalid, hrest⟩ := Cursor.add_spec (Cursor.valid_make w.wbuf) (show w.wlen ≤ _ from hw)
  rw [writeData, hadd]
  exact writeLoop_spec hcalm c hvalid w hw hrest

end Protocol

end Raster
