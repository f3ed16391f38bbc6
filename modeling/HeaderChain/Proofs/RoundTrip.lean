import HeaderChain.Proofs.Served

/-!
# Values in a store that keeps everything in memory

Such a store refuses no call (`Disk.Serves`), and it may hold anything to begin with.

* `Procedure.storeAndFetch` — a value is put under a key, and a value is read from there;
* `RoundTrips` — what a type needs to be stored safely: the value that is read is the one that was
  put there, nothing else in the store has changed, and no two values have the same bytes;
* `RoundTrips.of_decode` — it is enough that each value reads back from its bytes;
* `stored_types_roundTrip` — and so it is for every type that is stored.
-/

namespace HeaderChain

namespace Procedure

variable {σ α : Type} [Stored α]

/-- Puts a value under a key and reads a value of its type from there. -/
def storeAndFetch (key : String) (a : α) : Procedure σ StoreError (Option α) := do
  storeValue key a
  fetchValue α key

/-- **The value that is read is the one that was put there**, by two calls and no other. -/
theorem gives_storeAndFetch (s : Session σ) (hd : s.disk.Serves) (key : String) {a : α}
    (hdecode : Stored.decode? (Stored.encode a) = some a) :
    (storeAndFetch key a).Gives s (.ok (some a)) s.memory
      [.set key (Stored.encode a), .get key] := by
  have hset := gives_call_served s (hd.refusal? (.set key (Stored.encode a)))
  refine hset.bind fun s' hm hdisk => ?_
  have hget : s'.disk.refusal? (.get key) = none := by
    rw [hdisk]
    exact (hd.serveAll _).refusal? _
  -- the store in between holds the bytes of the value under the key
  have hpeek : s'.disk.peek key = some (Stored.encode a) := by
    rw [hdisk]
    exact hd.peek_serve_set key _
  have hfetch := gives_fetchValue_served (α := α) s' hget
  rw [Disk.value?_of_peek hpeek hdecode] at hfetch
  exact hfetch.leaves hm

end Procedure

open Procedure

/-- **A type whose values are stored safely**, in a store that refuses no call, whatever is in
it. -/
structure RoundTrips (α : Type) [Stored α] : Prop where
  /-- What is read is what was stored. -/
  fetched : ∀ {σ : Type} (s : Session σ), s.disk.Serves → ∀ (key : String) (a : α),
    (storeAndFetch key a).result s = .ok (some a)
  /-- Every other key has under it what it had. -/
  others : ∀ {σ : Type} (s : Session σ), s.disk.Serves → ∀ (key : String) (a : α) (other : String),
    other ≠ key → ((storeAndFetch key a).after s).disk.peek other = s.disk.peek other
  /-- Different values have different bytes. -/
  injective : Function.Injective (Stored.encode (α := α))

/-- Values that read back from their bytes are stored safely. -/
theorem RoundTrips.of_decode {α : Type} [Stored α]
    (h : ∀ a : α, Stored.decode? (Stored.encode a) = some a) : RoundTrips α where
  fetched s hd key a := (gives_storeAndFetch s hd key (h a)).result
  others s hd key a other hne := by
    rw [(gives_storeAndFetch s hd key (h a)).disk]
    exact Disk.peek_serveAll_of_ne (by simp [Call.key, hne])
  injective a b hbytes := by
    have hread : some a = some b := by rw [← h a, hbytes, h b]
    exact Option.some.inj hread

/-- **Stored objects round-trip**, whatever their type. -/
theorem stored_types_roundTrip :
    RoundTrips HeaderBlock ∧ RoundTrips WeightProof ∧ RoundTrips BlockRecord ∧
      RoundTrips SubSlotEnd ∧ RoundTrips TransactionFoliage ∧ RoundTrips SubEpoch ∧
      RoundTrips Constants ∧ RoundTrips Config ∧ RoundTrips Rejection :=
  ⟨.of_decode HeaderBlock.decode?_encode, .of_decode WeightProof.decode?_encode,
    .of_decode BlockRecord.decode?_encode, .of_decode SubSlotEnd.decode?_encode,
    .of_decode TransactionFoliage.decode?_encode, .of_decode SubEpoch.decode?_encode,
    .of_decode Constants.decode?_encode, .of_decode Config.decode?_encode,
    .of_decode Rejection.decode?_encode⟩

end HeaderChain
