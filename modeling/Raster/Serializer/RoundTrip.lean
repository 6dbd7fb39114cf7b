import Raster.Serializer.Serializer
import Mathlib.Tactic.Ring

/-!
# Round trips of the serializer

For each of the templates: if the overloads of the parts write what they read, at any position and into any
variable, then so do those of the whole. The loops are read off one lemma, in which the container holds,
after some turns, the elements that were written first. An ordered container is written in its order, so
that each element is inserted at the end.

A position never overflows: each value takes at least one byte, and so a container does not have more
elements than its encoding has bytes.
-/

namespace Raster.Serializer

open Lib (Sorted)

/-! ### Sinks -/

/-- Appending to the sink appends to its contents. -/
structure Faithful {Out : Type} [Sink Out] (ok : Out → Prop) (contents : Out → List UInt8) : Prop where
  append : ∀ out bytes, ok out → ok (Sink.append out bytes) ∧ contents (Sink.append out bytes) = contents out ++ bytes

theorem faithful_string : Faithful (fun _ : List UInt8 => True) id := ⟨fun _ _ _ => ⟨trivial, rfl⟩⟩

theorem faithful_iobuf (growth : Nat) (hgrowth : 0 < growth) :
    Faithful (fun out : IOBufOuter => out.growth = growth) fun out => out.buf.data := by
  refine ⟨fun out bytes hout => ?_⟩
  have hpos : 0 < out.growth := hout ▸ hgrowth
  obtain ⟨buf, hpush, hdata⟩ := IOBuf.pushAtMost_spec hpos (bytes.length + 2) out.buf bytes (by split_ifs <;> omega)
  have happend : Sink.append out bytes = { out with buf } := by
    show out.append bytes = _
    rw [IOBufOuter.append, hpush]
  rw [happend]
  exact ⟨hout, hdata⟩

section Sinks

variable {Out : Type} {ok : Out → Prop} {contents : Out → List UInt8}

theorem foldl_spec {ι : Type} {f : Out → ι → Out} {enc : ι → List UInt8}
    (hf : ∀ out i, ok out → ok (f out i) ∧ contents (f out i) = contents out ++ enc i) (l : List ι) (out : Out) (hout : ok out) :
    ok (l.foldl f out) ∧ contents (l.foldl f out) = contents out ++ l.flatMap enc := by
  induction l generalizing out with
  | nil => exact ⟨hout, by simp⟩
  | cons i l ih =>
    obtain ⟨hok, hcontents⟩ := hf out i hout
    obtain ⟨hok', hcontents'⟩ := ih (f out i) hok
    refine ⟨hok', ?_⟩
    rw [List.foldl_cons, hcontents', hcontents, List.flatMap_cons, List.append_assoc]

theorem serializeSize_spec [Sink Out] (h : Faithful ok contents) (n : Nat) (out : Out) (hout : ok out) :
    ok (serializeSize n out) ∧ contents (serializeSize n out) = contents out ++ bytes32 (n % 2 ^ 32) :=
  h.append out _ hout

end Sinks

/-! ### Memory -/

@[simp] theorem length_bytes32 (n : Nat) : (bytes32 n).length = 4 := rfl

theorem readBytes_spec (pre bytes post : List UInt8) :
    readBytes (pre ++ bytes ++ post) pre.length bytes.length = some bytes := by
  rw [readBytes, if_pos (by simp), List.append_assoc, List.drop_left, List.take_left]

theorem unserializeSize_spec {n : Nat} (hn : n < 2 ^ 32) (pre post : List UInt8) :
    unserializeSize (pre ++ bytes32 n ++ post) pre.length = some n := by
  have hread := readBytes_spec pre (bytes32 n) post
  rw [length_bytes32] at hread
  rw [unserializeSize, hread, Option.map_some, value32, bytes32, List.reverse_reverse, Binary.ntohl_be32 hn]

theorem add32_of_lt {a b : Nat} (h : a + b < 2 ^ 32) : add32 a b = a + b := Nat.mod_eq_of_lt h

theorem sub32_add {a b : Nat} (h : b < 2 ^ 32) : sub32 (a + b) a = b := by
  unfold sub32
  omega

/-! ### Codecs -/

/-- The overloads write `enc`, to every sink, and read it back. -/
structure Codec.Lawful {α : Type} (c : Codec α) (enc : α → List UInt8) : Prop where
  sink : ∀ {Out : Type} [Sink Out] {ok : Out → Prop} {contents : Out → List UInt8}, Faithful ok contents →
    ∀ value out, ok out → ok (c.serialize value out) ∧ contents (c.serialize value out) = contents out ++ enc value
  pos : ∀ value, 0 < (enc value).length
  roundTrip : ∀ (pre post : List UInt8) (value old : α), pre.length + (enc value).length < 2 ^ 32 →
    c.unserialize (pre ++ enc value ++ post) pre.length old = some (value, (enc value).length)

namespace Codec

variable {α β : Type} {c : Codec α} {enc : α → List UInt8}

theorem Lawful.encode_eq (h : c.Lawful enc) (value : α) : c.encode value = enc value := by
  exact (h.sink faithful_string value ([] : List UInt8) trivial).2

theorem lawful_arith {n : Nat} (hn : 0 < n) (declared : Arith n) (moved : Arith n → Arith n) :
    (arith n declared moved).Lawful Subtype.val where
  sink h value out hout := h.append out _ hout
  pos value := by
    rw [value.2]
    exact hn
  roundTrip pre post value old hlen := by
    obtain ⟨bytes, rfl⟩ := value
    have hdrop : ((pre ++ bytes ++ post).drop pre.length).take bytes.length = bytes := by
      rw [List.append_assoc, List.drop_left, List.take_left]
    simp only [arith]
    rw [dif_pos (by simp)]
    simp only [hdrop]

theorem lawful_string (declared : List UInt8) (moved : List UInt8 → List UInt8) :
    (string declared moved).Lawful fun value => bytes32 (value.length % 2 ^ 32) ++ value where
  sink h value out hout := by
    obtain ⟨hok, hcontents⟩ := serializeSize_spec h value.length out hout
    obtain ⟨hok', hcontents'⟩ := h.append _ value hok
    exact ⟨hok', by rw [← List.append_assoc, ← hcontents]; exact hcontents'⟩
  pos value := by simp
  roundTrip pre post value old hlen := by
    simp only [List.length_append, length_bytes32] at hlen
    have hsize : value.length % 2 ^ 32 = value.length := Nat.mod_eq_of_lt (by omega)
    have hn := unserializeSize_spec (n := value.length) (by omega) pre (value ++ post)
    have hread := readBytes_spec (pre ++ bytes32 value.length) value post
    simp only [List.append_assoc, List.length_append, length_bytes32] at hn hread
    have hpos : add32 pre.length 4 = pre.length + 4 := add32_of_lt (by omega)
    have hreturn : add32 value.length 4 = value.length + 4 := add32_of_lt (by omega)
    simp only [string, hsize, List.append_assoc, hn, Option.bind_some, hpos, hread, Option.map_some, hreturn,
      List.length_append, length_bytes32, Nat.add_comm]

/-! ### Containers -/

/-- The bytes of a container. -/
def elements {ι : Type} (enc : ι → List UInt8) (xs : List ι) : List UInt8 := bytes32 (xs.length % 2 ^ 32) ++ xs.flatMap enc

theorem length_le_flatMap {ι : Type} {enc : ι → List UInt8} (hpos : ∀ x, 0 < (enc x).length) (xs : List ι) :
    xs.length ≤ (xs.flatMap enc).length := by
  induction xs with
  | nil => exact Nat.le_refl 0
  | cons x xs ih =>
    have := hpos x
    rw [List.length_cons, List.flatMap_cons, List.length_append]
    omega

/-- The loop of a container. `R before s` says that the variables are `s` after the elements `before` were
read; the turn that reads `x` may use that the elements before it come first. -/
theorem unserializeN_spec {σ ι : Type} {enc : ι → List UInt8} {turn : Nat → σ → Option (σ × Nat)} {R : List ι → σ → Prop}
    {input : List UInt8} {xs : List ι}
    (hturn : ∀ before x after pre post s, xs = before ++ x :: after → input = pre ++ enc x ++ post →
      pre.length + (enc x).length < 2 ^ 32 → R before s →
      ∃ s', turn pre.length s = some (s', pre.length + (enc x).length) ∧ R (before ++ [x]) s')
    (todo before : List ι) (pre post : List UInt8) (s : σ) (hxs : xs = before ++ todo)
    (hinput : input = pre ++ todo.flatMap enc ++ post) (hlen : pre.length + (todo.flatMap enc).length < 2 ^ 32) (hR : R before s) :
    ∃ s', unserializeN turn todo.length pre.length s = some (s', pre.length + (todo.flatMap enc).length) ∧ R xs s' := by
  induction todo generalizing before pre s with
  | nil => exact ⟨s, rfl, by rw [hxs, List.append_nil]; exact hR⟩
  | cons x todo ih =>
    rw [List.flatMap_cons, List.length_append] at hlen
    obtain ⟨s₁, hstep, hR₁⟩ := hturn before x todo pre (todo.flatMap enc ++ post) s hxs
      (by rw [hinput, List.flatMap_cons]; simp only [List.append_assoc]) (by omega) hR
    obtain ⟨s', hrest, hR'⟩ := ih (before ++ [x]) (pre ++ enc x) s₁ (by rw [hxs]; simp)
      (by rw [hinput, List.flatMap_cons]; simp only [List.append_assoc]) (by rw [List.length_append]; omega) hR₁
    refine ⟨s', ?_, hR'⟩
    rw [List.length_append] at hrest
    rw [List.length_cons, unserializeN, hstep, Option.bind_some, hrest, List.flatMap_cons, List.length_append, Nat.add_assoc]

theorem unserialize_elements {σ γ ι : Type} {enc : ι → List UInt8} (hpos : ∀ x, 0 < (enc x).length)
    {turn : Nat → σ → Option (σ × Nat)} (R : List ι → σ → Prop) {result : σ → γ} {xs : List ι} {value : γ}
    {pre post : List UInt8} {s : σ} (hlen : pre.length + (elements enc xs).length < 2 ^ 32) (hR : R [] s)
    (hturn : ∀ before x after pre' post' s, xs = before ++ x :: after → pre ++ elements enc xs ++ post = pre' ++ enc x ++ post' →
      pre'.length + (enc x).length < 2 ^ 32 → R before s →
      ∃ s', turn pre'.length s = some (s', pre'.length + (enc x).length) ∧ R (before ++ [x]) s')
    (hresult : ∀ s', R xs s' → result s' = value) :
    ((unserializeSize (pre ++ elements enc xs ++ post) pre.length).bind fun n =>
      (unserializeN turn n (add32 pre.length 4) s).map fun r => (result r.1, sub32 r.2 pre.length)) =
        some (value, (elements enc xs).length) := by
  have hle := length_le_flatMap hpos xs
  rw [elements, List.length_append, length_bytes32] at hlen
  have hsize : xs.length % 2 ^ 32 = xs.length := Nat.mod_eq_of_lt (by omega)
  have hinput : pre ++ elements enc xs ++ post = (pre ++ bytes32 xs.length) ++ xs.flatMap enc ++ post := by
    rw [elements, hsize]
    simp only [List.append_assoc]
  obtain ⟨s', hloop, hR'⟩ := unserializeN_spec hturn xs [] (pre ++ bytes32 xs.length) post s rfl hinput
    (by rw [List.length_append, length_bytes32]; omega) hR
  have hn := unserializeSize_spec (n := xs.length) (by omega) pre (xs.flatMap enc ++ post)
  rw [← List.append_assoc, ← hinput] at hn
  rw [List.length_append, length_bytes32] at hloop
  rw [hn, Option.bind_some, add32_of_lt (by omega), hloop, Option.map_some, hresult s' hR', Nat.add_assoc,
    sub32_add (by omega), elements, List.length_append, length_bytes32]

theorem Lawful.serializeElements (h : c.Lawful enc) {Out : Type} [Sink Out] {ok : Out → Prop} {contents : Out → List UInt8}
    (hf : Faithful ok contents) (xs : List α) (out : Out) (hout : ok out) :
    ok (c.serializeElements xs out) ∧ contents (c.serializeElements xs out) = contents out ++ elements enc xs := by
  obtain ⟨hok, hcontents⟩ := serializeSize_spec hf xs.length out hout
  obtain ⟨hok', hcontents'⟩ := foldl_spec (f := fun out i => c.serialize i out) (fun out i hi => h.sink hf i out hi) xs _ hok
  refine ⟨hok', ?_⟩
  rw [elements, ← List.append_assoc, ← hcontents]
  exact hcontents'

theorem pos_elements {ι : Type} (enc : ι → List UInt8) (xs : List ι) : 0 < (elements enc xs).length := by
  rw [elements, List.length_append, length_bytes32]
  omega

theorem Lawful.vector (h : c.Lawful enc) (declared : List α) (moved : List α → List α) :
    (vector c declared moved).Lawful (elements enc) where
  sink hf value out hout := h.serializeElements hf value out hout
  pos value := pos_elements enc value
  roundTrip pre post value old hlen := by
    refine unserialize_elements h.pos (fun before s => s.2 = before) hlen rfl ?_ fun s' hs => hs
    intro before x after pre' post' s hxs hinput hlen' hs
    refine ⟨(c.moved x, before ++ [x]), ?_, rfl⟩
    rw [hinput, h.roundTrip pre' post' x s.1 hlen', Option.map_some, add32_of_lt hlen', hs]

theorem insert_at_end {κ : Type} [LinearOrder κ] {key : α → κ} {xs before after : List α} {x : α} {s : Sorted key}
    (hsorted : xs.Pairwise fun a b => key a < key b) (hxs : xs = before ++ x :: after) (hs : s.1 = before) :
    (s.insert x).1 = before ++ [x] := by
  subst hs
  rw [hxs, List.pairwise_append] at hsorted
  exact Lib.insertByKey_of_forall_lt fun y hy => hsorted.2.2 y hy x List.mem_cons_self

theorem Lawful.set [LinearOrder α] (h : c.Lawful enc) (declared : Sorted (id : α → α))
    (moved : Sorted (id : α → α) → Sorted (id : α → α)) : (set c declared moved).Lawful fun value => elements enc value.1 where
  sink hf value out hout := h.serializeElements hf value.1 out hout
  pos value := pos_elements enc value.1
  roundTrip pre post value old hlen := by
    refine unserialize_elements h.pos (fun before s => s.2.1 = before) hlen rfl ?_ fun s' hs => Subtype.ext hs
    intro before x after pre' post' s hxs hinput hlen' hs
    refine ⟨(c.moved x, s.2.insert x), ?_, insert_at_end value.2 hxs hs⟩
    rw [hinput, h.roundTrip pre' post' x s.1 hlen', Option.map_some, add32_of_lt hlen']

variable {k : Codec α} {v : Codec β} {enck : α → List UInt8} {encv : β → List UInt8}

/-- The bytes of a key and its value. -/
def both (enck : α → List UInt8) (encv : β → List UInt8) (p : α × β) : List UInt8 := enck p.1 ++ encv p.2

theorem length_both (p : α × β) : (both enck encv p).length = (enck p.1).length + (encv p.2).length := List.length_append

theorem Lawful.serializeBoth (hk : k.Lawful enck) (hv : v.Lawful encv) {Out : Type} [Sink Out] {ok : Out → Prop}
    {contents : Out → List UInt8} (hf : Faithful ok contents) (p : α × β) (out : Out) (hout : ok out) :
    ok (v.serialize p.2 (k.serialize p.1 out)) ∧
      contents (v.serialize p.2 (k.serialize p.1 out)) = contents out ++ both enck encv p := by
  obtain ⟨hok, hcontents⟩ := hk.sink hf p.1 out hout
  obtain ⟨hok', hcontents'⟩ := hv.sink hf p.2 _ hok
  exact ⟨hok', by rw [hcontents', hcontents, both, List.append_assoc]⟩

theorem Lawful.unserializeBoth (hk : k.Lawful enck) (hv : v.Lawful encv) (p old : α × β) (pre post : List UInt8)
    (hlen : pre.length + (both enck encv p).length < 2 ^ 32) :
    k.unserialize (pre ++ both enck encv p ++ post) pre.length old.1 = some (p.1, (enck p.1).length) ∧
      v.unserialize (pre ++ both enck encv p ++ post) (add32 pre.length (enck p.1).length) old.2 =
        some (p.2, (encv p.2).length) := by
  rw [length_both] at hlen
  have hkey := hk.roundTrip pre (encv p.2 ++ post) p.1 old.1 (by omega)
  have hvalue := hv.roundTrip (pre ++ enck p.1) post p.2 old.2 (by rw [List.length_append]; omega)
  simp only [List.append_assoc, List.length_append] at hkey hvalue
  refine ⟨?_, ?_⟩
  · rw [both, List.append_assoc, List.append_assoc, hkey]
  · rw [both, List.append_assoc, List.append_assoc, add32_of_lt (by omega), hvalue]

theorem Lawful.map [LinearOrder α] (hk : k.Lawful enck) (hv : v.Lawful encv) (declared : Sorted (Prod.fst : α × β → α))
    (moved : Sorted (Prod.fst : α × β → α) → Sorted (Prod.fst : α × β → α)) :
    (map k v declared moved).Lawful fun value => elements (both enck encv) value.1 where
  sink hf value out hout := by
    obtain ⟨hok, hcontents⟩ := serializeSize_spec hf value.1.length out hout
    obtain ⟨hok', hcontents'⟩ := foldl_spec (f := fun out p => v.serialize p.2 (k.serialize p.1 out))
      (fun out p hp => hk.serializeBoth hv hf p out hp) value.1 _ hok
    refine ⟨hok', ?_⟩
    rw [elements, ← List.append_assoc, ← hcontents]
    exact hcontents'
  pos value := pos_elements _ value.1
  roundTrip pre post value old hlen := by
    have hpos : ∀ p, 0 < (both enck encv p).length := fun p => by
      rw [length_both]
      exact Nat.add_pos_left (hk.pos p.1) _
    refine unserialize_elements hpos (fun before s => s.2.1 = before) hlen rfl ?_ fun s' hs => Subtype.ext hs
    intro before p after pre' post' s hxs hinput hlen' hs
    refine ⟨(p, s.2.insert p), ?_, insert_at_end value.2 hxs hs⟩
    obtain ⟨hkey, hvalue⟩ := hk.unserializeBoth hv p s.1 pre' post' hlen'
    rw [hinput, hkey, Option.bind_some, hvalue, Option.map_some]
    rw [length_both] at hlen' ⊢
    rw [add32_of_lt (a := pre'.length) (by omega), add32_of_lt (by omega), Nat.add_assoc]

theorem Lawful.pair (hk : k.Lawful enck) (hv : v.Lawful encv) (declared : α × β) (moved : α × β → α × β) :
    (pair k v declared moved).Lawful (both enck encv) where
  sink hf value out hout := hk.serializeBoth hv hf value out hout
  pos value := by
    rw [length_both]
    exact Nat.add_pos_left (hk.pos value.1) _
  roundTrip pre post value old hlen := by
    obtain ⟨hkey, hvalue⟩ := hk.unserializeBoth hv value old pre post hlen
    simp only [Codec.pair]
    rw [hkey, Option.bind_some, hvalue, Option.map_some]
    rw [length_both] at hlen ⊢
    rw [add32_of_lt (a := pre.length) (by omega), add32_of_lt (by omega), Nat.add_assoc, sub32_add (by omega)]

/-! ### Structs -/

section Struct

variable {n : Nat} {τ : Fin (n + 1) → Type} {c : ∀ i, Codec (τ i)} {enc : ∀ i, τ i → List UInt8}

theorem unserializeFields_spec (h : ∀ i, (c i).Lawful (enc i)) (value : ∀ i, τ i) (is : List (Fin (n + 1)))
    (pre post : List UInt8) (old : ∀ i, τ i) (hlen : pre.length + (is.flatMap fun i => enc i (value i)).length < 2 ^ 32) :
    ∃ new, unserializeFields c (pre ++ (is.flatMap fun i => enc i (value i)) ++ post) is pre.length old =
        some (new, pre.length + (is.flatMap fun i => enc i (value i)).length) ∧
      ∀ i, i ∈ is ∨ old i = value i → new i = value i := by
  induction is generalizing pre old with
  | nil => exact ⟨old, rfl, fun i hi => hi.resolve_left List.not_mem_nil⟩
  | cons i is ih =>
    rw [List.flatMap_cons, List.length_append] at hlen
    have hfield := (h i).roundTrip pre ((is.flatMap fun i => enc i (value i)) ++ post) (value i) (old i) (by omega)
    obtain ⟨new, hrest, hnew⟩ := ih (pre ++ enc i (value i)) (Function.update old i (value i))
      (by rw [List.length_append]; omega)
    simp only [List.append_assoc, List.length_append] at hfield hrest
    refine ⟨new, ?_, fun j hj => hnew j ?_⟩
    · simp only [List.flatMap_cons, List.append_assoc, List.length_append, unserializeFields]
      rw [hfield, Option.bind_some, add32_of_lt (by omega), hrest, Nat.add_assoc]
    · by_cases hji : j = i
      · subst hji
        exact Or.inr (Function.update_self ..)
      · rw [List.mem_cons, Function.update_of_ne hji] at *
        exact hj.imp_left fun hj => hj.resolve_left hji

theorem Lawful.struct (h : ∀ i, (c i).Lawful (enc i)) (declared : ∀ i, τ i) (moved : (∀ i, τ i) → ∀ i, τ i) :
    (struct c declared moved).Lawful fun value => (List.finRange (n + 1)).flatMap fun i => enc i (value i) where
  sink hf value out hout :=
    foldl_spec (f := fun out i => (c i).serialize (value i) out) (fun out i hi => (h i).sink hf (value i) out hi) _ out hout
  pos value := by
    rw [List.finRange_succ, List.flatMap_cons, List.length_append]
    exact Nat.add_pos_left ((h 0).pos (value 0)) _
  roundTrip pre post value old hlen := by
    obtain ⟨new, hread, hnew⟩ := unserializeFields_spec h value (List.finRange (n + 1)) pre post old hlen
    have hvalue : new = value := funext fun i => hnew i (Or.inl (List.mem_finRange i))
    simp only [Codec.struct]
    rw [hread, Option.map_some, hvalue, sub32_add (by omega)]

end Struct

end Codec

/-! ### Round trips -/

theorem Built.lawful {α : Type} {c : Codec α} (h : Built c) : ∃ enc, c.Lawful enc := by
  induction h with
  | arith hn declared moved => exact ⟨_, Codec.lawful_arith hn declared moved⟩
  | string declared moved => exact ⟨_, Codec.lawful_string declared moved⟩
  | vector _ declared moved ih =>
    obtain ⟨enc, henc⟩ := ih
    exact ⟨_, henc.vector declared moved⟩
  | set _ declared moved ih =>
    obtain ⟨enc, henc⟩ := ih
    exact ⟨_, henc.set declared moved⟩
  | map _ _ declared moved ihk ihv =>
    obtain ⟨enck, hk⟩ := ihk
    obtain ⟨encv, hv⟩ := ihv
    exact ⟨_, hk.map hv declared moved⟩
  | pair _ _ declared moved ihk ihv =>
    obtain ⟨enck, hk⟩ := ihk
    obtain ⟨encv, hv⟩ := ihv
    exact ⟨_, hk.pair hv declared moved⟩
  | struct _ declared moved ih =>
    choose enc henc using ih
    exact ⟨_, Codec.Lawful.struct henc declared moved⟩

end Raster.Serializer
