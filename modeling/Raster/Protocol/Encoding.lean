import Raster.Protocol.Binary

/-!
# Frames at the end of a chain

`binary::encodeData` and `proto::encodeData`, which have the same body, on any chain of buffers. The header
is pushed through a `TypedIOBuf` on the head of the chain, and the payload through an `Appender` on its
last buffer: what the buffers after the head hold comes between the two.
-/

namespace Raster

open Raster.Protocol (chunkSize)

namespace Proto

def encodeData (buf : IOBuf) (obuf : List UInt8) : Option IOBuf := Binary.encodeData buf obuf

def decodeData (buf : IOBuf) : List UInt8 × IOBuf := Binary.decodeData buf

end Proto

namespace Binary

/-- What the other buffers hold can change places with the header: there is nothing, in particular when the
chain has one buffer, or it repeats the header. -/
def InOrder (buf : IOBuf) (p : List UInt8) : Prop := be32 p.length ++ buf.dataBehind = buf.dataBehind ++ be32 p.length

theorem encodeData_appends_iff (buf : IOBuf) {p : List UInt8} (hp : p.length < 2 ^ 32) :
    (∃ c, encodeData buf p = some c ∧ c.data = buf.data ++ frame p) ↔ InOrder buf p := by
  obtain ⟨c, hencode, hdata⟩ := encodeData_data buf hp
  have hframe : c.data = buf.data ++ frame p ↔ InOrder buf p := by
    rw [hdata, IOBuf.data_eq_head, frame, InOrder]
    simp only [← List.append_assoc, List.append_cancel_right_eq]
    rw [List.append_assoc, List.append_assoc, List.append_cancel_left_eq]
  rw [← hframe]
  constructor
  · rintro ⟨c', hencode', hdata'⟩
    obtain rfl := Option.some.inj (hencode.symm.trans hencode')
    exact hdata'
  · intro hdata'
    exact ⟨c, hencode, hdata'⟩

end Binary

end Raster
