import Raster.Lib.Sorted
import Raster.Protocol.Binary

/-!
# `Serializer`

`raster/serializer/Serializer.h`. A type has a pair of overloads, `serialize` and `unserialize`; the
overloads of a container or a struct call those of its parts. Here a pair of overloads is a `Codec`, and
each of the templates is a function from the codecs of the parts to the codec of the whole.

`serialize` writes to any sink with `append`. `unserialize` reads at a position of 32 bits, writes to a
variable that holds something already, and returns the number of bytes it has read. It does not look at
the end of its input: `none` stands for a read behind it. Loops read each element into one variable, which
is moved into the container.
-/

namespace Raster.Serializer

open Lib (Sorted)

/-! ### Sinks -/

/-- What `Out` must have. -/
class Sink (Out : Type) where
  append : Out → List UInt8 → Out

/-- `std::string`. -/
instance : Sink (List UInt8) where
  append out bytes := out ++ bytes

/-- `class IOBufOuter`. -/
structure IOBufOuter where
  buf : IOBuf
  growth : Nat

/-- The loop of `pushAtMost` ends: see `IOBuf.pushAtMost_spec`. -/
def IOBufOuter.append (out : IOBufOuter) (bytes : List UInt8) : IOBufOuter :=
  match IOBuf.pushAtMost out.growth (bytes.length + 2) out.buf bytes with
  | some (_, buf) => { out with buf }
  | none => out

instance : Sink IOBufOuter where
  append := IOBufOuter.append

/-! ### Memory -/

/-- The `n` bytes at `in.data() + pos`. -/
def readBytes (input : List UInt8) (pos n : Nat) : Option (List UInt8) :=
  if pos + n ≤ input.length then some ((input.drop pos).take n) else none

/-- The bytes of a `uint32_t` in memory, least significant first. -/
def bytes32 (n : Nat) : List UInt8 := (Binary.be32 n).reverse

def value32 (bytes : List UInt8) : Nat := Binary.ntohl bytes.reverse

/-- The operators of `uint32_t`. -/
def add32 (a b : Nat) : Nat := (a + b) % 2 ^ 32

def sub32 (a b : Nat) : Nat := (a + 2 ^ 32 - b) % 2 ^ 32

/-! ### Codecs -/

/-- The overloads of a type. -/
structure Codec (α : Type) where
  /-- What a variable holds after `T v;`, and what an object holds after it was moved from. -/
  declared : α
  moved : α → α
  serialize : {Out : Type} → [Sink Out] → α → Out → Out
  unserialize : (input : List UInt8) → (pos : Nat) → (value : α) → Option (α × Nat)

/-- The values of an arithmetic type of `n` bytes. -/
def Arith (n : Nat) : Type := { bytes : List UInt8 // bytes.length = n }

/-- `serialize` of a size. -/
def serializeSize {Out : Type} [Sink Out] (n : Nat) (out : Out) : Out := Sink.append out (bytes32 (n % 2 ^ 32))

/-- `unserialize` of a size; it returns `sizeof(uint32_t)`. -/
def unserializeSize (input : List UInt8) (pos : Nat) : Option Nat := (readBytes input pos 4).map value32

/-- The loops `for (uint32_t i = 0; i < n; i++)`: the position and the variables after `n` turns. -/
def unserializeN {σ : Type} (turn : Nat → σ → Option (σ × Nat)) : (n p : Nat) → σ → Option (σ × Nat)
  | 0, p, s => some (s, p)
  | n + 1, p, s => (turn p s).bind fun r => unserializeN turn n r.2 r.1

namespace Codec

variable {α β : Type}

def arith (n : Nat) (declared : Arith n) (moved : Arith n → Arith n) : Codec (Arith n) where
  declared
  moved
  serialize value out := Sink.append out value.1
  unserialize input pos _ :=
    if h : pos + n ≤ input.length then
      some (⟨(input.drop pos).take n, by rw [List.length_take, List.length_drop]; omega⟩, n)
    else none

def string (declared : List UInt8) (moved : List UInt8 → List UInt8) : Codec (List UInt8) where
  declared
  moved
  serialize value out := Sink.append (serializeSize value.length out) value
  unserialize input pos _ :=
    (unserializeSize input pos).bind fun n =>
      (readBytes input (add32 pos 4) n).map fun value => (value, add32 n 4)

/-- The elements of a container, after their number. -/
def serializeElements (c : Codec α) {Out : Type} [Sink Out] (elements : List α) (out : Out) : Out :=
  elements.foldl (fun out i => c.serialize i out) (serializeSize elements.length out)

/-- The variables of the loop: the element, and the container. -/
def vector (c : Codec α) (declared : List α) (moved : List α → List α) : Codec (List α) where
  declared
  moved
  serialize value out := c.serializeElements value out
  unserialize input pos _ :=
    (unserializeSize input pos).bind fun n =>
      (unserializeN (fun p (s : α × List α) =>
          (c.unserialize input p s.1).map fun r => ((c.moved r.1, s.2 ++ [r.1]), add32 p r.2))
        n (add32 pos 4) (c.declared, [])).map fun r => (r.1.2, sub32 r.2 pos)

def set [LinearOrder α] (c : Codec α) (declared : Sorted (id : α → α)) (moved : Sorted (id : α → α) → Sorted (id : α → α)) :
    Codec (Sorted (id : α → α)) where
  declared
  moved
  serialize value out := c.serializeElements value.1 out
  unserialize input pos _ :=
    (unserializeSize input pos).bind fun n =>
      (unserializeN (fun p (s : α × Sorted (id : α → α)) =>
          (c.unserialize input p s.1).map fun r => ((c.moved r.1, s.2.insert r.1), add32 p r.2))
        n (add32 pos 4) (c.declared, .empty)).map fun r => (r.1.2, sub32 r.2 pos)

/-- The loop copies the key and the value, and goes on with them. -/
def map [LinearOrder α] (k : Codec α) (v : Codec β) (declared : Sorted (Prod.fst : α × β → α))
    (moved : Sorted (Prod.fst : α × β → α) → Sorted (Prod.fst : α × β → α)) : Codec (Sorted (Prod.fst : α × β → α)) where
  declared
  moved
  serialize value out :=
    value.1.foldl (fun out p => v.serialize p.2 (k.serialize p.1 out)) (serializeSize value.1.length out)
  unserialize input pos _ :=
    (unserializeSize input pos).bind fun n =>
      (unserializeN (fun p (s : (α × β) × Sorted (Prod.fst : α × β → α)) =>
          (k.unserialize input p s.1.1).bind fun rk =>
            (v.unserialize input (add32 p rk.2) s.1.2).map fun rv =>
              (((rk.1, rv.1), s.2.insert (rk.1, rv.1)), add32 (add32 p rk.2) rv.2))
        n (add32 pos 4) ((k.declared, v.declared), .empty)).map fun r => (r.1.2, sub32 r.2 pos)

def pair (k : Codec α) (v : Codec β) (declared : α × β) (moved : α × β → α × β) : Codec (α × β) where
  declared
  moved
  serialize value out := v.serialize value.2 (k.serialize value.1 out)
  unserialize input pos value :=
    (k.unserialize input pos value.1).bind fun rk =>
      (v.unserialize input (add32 pos rk.2) value.2).map fun rv =>
        ((rk.1, rv.1), sub32 (add32 (add32 pos rk.2) rv.2) pos)

section Struct

variable {n : Nat} {τ : Fin (n + 1) → Type}

/-- `p += unserialize(in, p, value._a);` for the fields in turn. -/
def unserializeFields (c : ∀ i, Codec (τ i)) (input : List UInt8) :
    List (Fin (n + 1)) → Nat → (∀ i, τ i) → Option ((∀ i, τ i) × Nat)
  | [], p, value => some (value, p)
  | i :: is, p, value =>
    ((c i).unserialize input p (value i)).bind fun r =>
      unserializeFields c input is (add32 p r.2) (Function.update value i r.1)

/-- `RDD_SERIALIZER` over all fields of a struct: there is at least one. -/
def struct (c : ∀ i, Codec (τ i)) (declared : ∀ i, τ i) (moved : (∀ i, τ i) → ∀ i, τ i) : Codec (∀ i, τ i) where
  declared
  moved
  serialize value out := (List.finRange (n + 1)).foldl (fun out i => (c i).serialize (value i) out) out
  unserialize input pos value :=
    (unserializeFields c input (List.finRange (n + 1)) pos value).map fun r => (r.1, sub32 r.2 pos)

end Struct

/-- The bytes that are appended to a string. -/
def encode (c : Codec α) (value : α) : List UInt8 := c.serialize value ([] : List UInt8)

end Codec

/-- The types of the format, by their overloads. -/
inductive Built : {α : Type} → Codec α → Prop
  | arith {n : Nat} (hn : 0 < n) (declared : Arith n) (moved : Arith n → Arith n) : Built (.arith n declared moved)
  | string (declared : List UInt8) (moved : List UInt8 → List UInt8) : Built (.string declared moved)
  | vector {α : Type} {c : Codec α} (h : Built c) (declared : List α) (moved : List α → List α) :
      Built (.vector c declared moved)
  | set {α : Type} [LinearOrder α] {c : Codec α} (h : Built c) (declared : Sorted (id : α → α))
      (moved : Sorted (id : α → α) → Sorted (id : α → α)) : Built (.set c declared moved)
  | map {α β : Type} [LinearOrder α] {k : Codec α} {v : Codec β} (hk : Built k) (hv : Built v)
      (declared : Sorted (Prod.fst : α × β → α)) (moved : Sorted (Prod.fst : α × β → α) → Sorted (Prod.fst : α × β → α)) :
      Built (.map k v declared moved)
  | pair {α β : Type} {k : Codec α} {v : Codec β} (hk : Built k) (hv : Built v) (declared : α × β) (moved : α × β → α × β) :
      Built (.pair k v declared moved)
  | struct {n : Nat} {τ : Fin (n + 1) → Type} {c : ∀ i, Codec (τ i)} (h : ∀ i, Built (c i)) (declared : ∀ i, τ i)
      (moved : (∀ i, τ i) → ∀ i, τ i) : Built (.struct c declared moved)

end Raster.Serializer
