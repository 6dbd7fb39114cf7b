import Raster.Net.Actor
import Mathlib.Data.List.Dedup

/-!
# Yielding for several clients

`MultiAsyncClient::yield` and `yieldMultiTask` of `raster/net/AsyncClient.h`. Both collect the events of the connected
clients, put them into one group with `Actor::waitGroup` and yield. The size of the group is the number of clients that
are connected, while each event counts down once; the two differ when a client is in the list twice, and there is no
group of no events, which the list of clients being empty is the only guard against.
-/

namespace Raster

/-- `AsyncClient::event_`, `none` for a client that is not connected. -/
abbrev ClientSlot := Option Nat

namespace ClientSlot

def connected (client : ClientSlot) : Bool := client.isSome

/-- The events of the connected clients, in the order of the clients. -/
def events (clients : List ClientSlot) : List Nat := (clients.filter connected).filterMap id

end ClientSlot

/-- What a yield returns, and whether the fiber has blocked in it. -/
structure Yielded where
  returned : Bool
  blocked : Bool
  deriving DecidableEq, Repr

/-- `FiberManager::yield`, in a fiber or not. -/
def FiberManager.yield (inFiber : Bool) : Yielded := if inFiber then ⟨true, true⟩ else ⟨false, false⟩

namespace Actor

/-- The body of the two functions; `none` where the assertion in `Group::create` fails. -/
def yieldClients (a : Actor) (inFiber : Bool) (clients : List ClientSlot) : Option (Yielded × Actor) :=
  if !clients.isEmpty then
    match a.waitGroup (ClientSlot.events clients) with
    | none => none
    | some (false, a) => some (⟨false, false⟩, a)
    | some (true, a) => some (FiberManager.yield inFiber, a)
  else some (⟨false, false⟩, a)

end Actor

/-- `MultiAsyncClient::yield`. -/
def MultiAsyncClient.yield (a : Actor) (inFiber : Bool) (clients : List ClientSlot) : Option (Yielded × Actor) :=
  a.yieldClients inFiber clients

def yieldMultiTask (a : Actor) (inFiber : Bool) (clients : List ClientSlot) : Option (Yielded × Actor) :=
  a.yieldClients inFiber clients

namespace Actor

/-- The key is of a group that was made between the two states. -/
def Makes (a a' : Actor) (key : Nat) : Prop := a.group.countAt key = 0 ∧ 0 < a'.group.countAt key

/-- A yield that waits for exactly the events of the clients: each group it makes has as many members as there are
events, and is the group of all of them; without a connected client there is neither a group nor a wait. -/
def WaitsExactly (a : Actor) (clients : List ClientSlot) (result : Option (Yielded × Actor)) : Prop :=
  ∃ y a', result = some (y, a') ∧
    (∀ key, a.Makes a' key → a'.group.countAt key = (ClientSlot.events clients).dedup.length ∧
      1 ≤ a'.group.countAt key ∧ ∀ e ∈ ClientSlot.events clients, (a'.events e).group = key) ∧
    (y.blocked = true → ∃ key, a.Makes a' key) ∧
    (ClientSlot.events clients = [] → y = ⟨false, false⟩ ∧ a' = a)

/-- The list is empty, or some client is connected and either no two have the same event or one has an event that is
in a group already. -/
def Suits (a : Actor) (clients : List ClientSlot) : Prop :=
  clients = [] ∨ ClientSlot.events clients ≠ [] ∧
    ((ClientSlot.events clients).Nodup ∨ ∃ e ∈ ClientSlot.events clients, (a.events e).group ≠ 0)

instance (a : Actor) (clients : List ClientSlot) : Decidable (a.Suits clients) := by
  unfold Suits
  infer_instance

theorem not_makes_self (a : Actor) (key : Nat) : ¬ a.Makes a key := fun h => by
  have hzero := h.1
  have hpos := h.2
  omega

theorem waitsExactly_giveup (a : Actor) (clients : List ClientSlot) :
    a.WaitsExactly clients (some (⟨false, false⟩, a)) :=
  ⟨_, a, rfl, fun key hmakes => absurd hmakes (a.not_makes_self key), nofun, fun _ => ⟨rfl, rfl⟩⟩

theorem waitGroup_of_free {a : Actor} (hinv : a.group.Inv) {events : List Nat} (hne : events ≠ [])
    (hfree : ∀ e ∈ events, (a.events e).group = 0) :
    ∃ key group, a.waitGroup events = some (true, { a with group, events := setGroups a.events key events }) ∧
      Group.Created a.group events.length key group := by
  obtain ⟨key, group, hcreate, hspec⟩ := Group.create_spec hinv (List.length_pos_iff.mpr hne)
  refine ⟨key, group, ?_, hspec⟩
  have hany : (events.any fun e => (a.events e).group ≠ 0) = false := by
    rw [List.any_eq_false]
    intro e he
    simp [hfree e he]
  rw [waitGroup, hany, hcreate]
  rfl

theorem waitsExactly_of_free {a : Actor} (hinv : a.group.Inv) (inFiber : Bool) {clients : List ClientSlot}
    (hne : ClientSlot.events clients ≠ []) (hfree : ∀ e ∈ ClientSlot.events clients, (a.events e).group = 0) :
    a.WaitsExactly clients (a.yieldClients inFiber clients) ↔ (ClientSlot.events clients).Nodup := by
  obtain ⟨key, group, hwait, hspec⟩ := waitGroup_of_free hinv hne hfree
  have hclients : clients.isEmpty = false := by
    rw [List.isEmpty_eq_false_iff]
    rintro rfl
    exact hne rfl
  have hyield : a.yieldClients inFiber clients =
      some (FiberManager.yield inFiber,
        { a with group, events := setGroups a.events key (ClientSlot.events clients) }) := by
    simp only [yieldClients, hclients, hwait]
    rfl
  have hmakes : ∀ k, a.Makes { a with group, events := setGroups a.events key (ClientSlot.events clients) } k ↔ k = key := by
    intro k
    have hcount := hspec.countAt_eq k
    constructor
    · rintro ⟨hzero, hpos⟩
      by_contra hk
      rw [if_neg hk] at hcount
      have hpos : 0 < group.countAt k := hpos
      omega
    · rintro rfl
      refine ⟨hspec.unused, ?_⟩
      show 0 < group.countAt k
      rw [hcount, if_pos rfl]
      exact List.length_pos_iff.mpr hne
  have hsize : group.countAt key = (ClientSlot.events clients).length := by
    rw [hspec.countAt_eq, if_pos rfl]
  constructor
  · rintro ⟨y, a', hresult, hgroups, -, -⟩
    rw [hyield] at hresult
    cases hresult
    have hlength : group.countAt key = _ := (hgroups key ((hmakes key).mpr rfl)).1
    rw [hsize] at hlength
    rw [← List.dedup_eq_self]
    exact (List.dedup_sublist _).eq_of_length hlength.symm
  · intro hnodup
    refine ⟨_, _, hyield, fun k hk => ?_, fun _ => ⟨key, (hmakes key).mpr rfl⟩, fun hnil => absurd hnil hne⟩
    obtain rfl := (hmakes k).mp hk
    refine ⟨?_, hk.2, fun e he => ?_⟩
    · rw [hnodup.dedup]
      exact hsize
    · show (setGroups a.events k (ClientSlot.events clients) e).group = k
      rw [setGroups_apply, if_pos he]
      rfl

end Actor

end Raster
