import HeaderChain.Proofs.Enclosed
import HeaderChain.Proofs.Failure

/-!
# Damaged values in the store

A value whose bytes lack their end, or go on with something other than blanks, is never taken for a
value: neither for the one that was stored nor for another, and not for one that was never stored.

* `Damaged` — the two kinds of damage;
* `Stored.Marked` — a type whose values are written between two marks, as all stored ones are; the
  rest follows from it once for every type;
* `DetectsDamage` — what reading such a value comes to (`Stored.Marked.detectsDamage`);
* `Chain.Loading.malformed` — opening a chain on a damaged slot: both slots are read before anything
  is made of them, so that the failure comes before the first write.
-/

namespace HeaderChain

/-- **What damage makes of bytes**: their end is missing, as after a write that was torn, or
something has been added to them that is not only blanks. -/
inductive Damaged (whole : Bytes) : Bytes → Prop
  | cut {text rest : Bytes} (h : whole = text ++ rest) (hrest : rest ≠ []) : Damaged whole text
  | extended {rest : Bytes} (h : rest.all Json.isBlank = false) : Damaged whole (whole ++ rest)

/-- Under a key there is a value of this type, damaged. -/
def Disk.HoldsDamaged (α : Type) [Stored α] (d : Disk) (key : String) : Prop :=
  ∃ (a : α) (raw : Bytes), d.peek key = some raw ∧ Damaged (Stored.encode a) raw

open Procedure

/-- **A stored type whose damaged values are known for what they are.** -/
structure DetectsDamage (α : Type) [Stored α] : Prop where
  /-- Blanks behind a value do it no harm. -/
  intact : ∀ (a : α) (blanks : Bytes), blanks.all Json.isBlank = true →
    Stored.decode? (Stored.encode a ++ blanks) = some a
  /-- Reading a damaged value fails, if the store answers at all. -/
  refused : ∀ {σ : Type} (s : Session σ) (key : String), s.disk.HoldsDamaged α key →
    s.disk.refusal? (.get key) = none → (fetchValue α key).result s = .error .malformed

/-- **A type whose values are written between two marks**, and read back. -/
structure Stored.Marked (α : Type) [Stored α] : Prop where
  reads : ∀ a : α, Json.Reads (Stored.shape α) (Stored.toDatum a)
  parts : ∀ a : α, Stored.ofDatum? (Stored.toDatum a) = some a
  enclosed : ∀ a : α, (Stored.toDatum a).isEnclosed = true

section Marked

variable {α : Type} [Stored α] {a : α} {raw : Bytes} {d : Disk} {key : String}

/-- **Behind a whole value only blanks may follow.** -/
theorem Stored.Marked.decode?_append (h : Stored.Marked α) (a : α) (rest : Bytes) :
    Stored.decode? (Stored.encode a ++ rest) = if rest.all Json.isBlank then some a else none := by
  rw [Stored.decode?, Stored.encode, Json.read_write_append (h.reads a) (h.enclosed a)]
  split_ifs
  · rw [Option.bind_some, h.parts a]
  · rfl

/-- **Damaged bytes are those of no value.** -/
theorem Stored.Marked.decode?_damaged (h : Stored.Marked α) (hraw : Damaged (Stored.encode a) raw) :
    (Stored.decode? raw : Option α) = none := by
  cases hraw with
  | cut hcut hrest =>
    rw [Stored.decode?, Json.read_eq_none_of_cut (h.reads a) (h.enclosed a) hcut hrest]
    rfl
  | extended hrest =>
    rw [h.decode?_append a, if_neg (by simp [hrest])]

/-- A damaged value is malformed, whoever asks for it. -/
theorem Stored.Marked.value?_damaged (h : Stored.Marked α) (hd : d.HoldsDamaged α key) :
    d.value? α key = .error .malformed := by
  obtain ⟨a, raw, hpeek, hraw⟩ := hd
  simp [Disk.value?, hpeek, h.decode?_damaged hraw]

/-- **Damage is detected** for every type whose text is enclosed. -/
theorem Stored.Marked.detectsDamage (h : Stored.Marked α) : DetectsDamage α where
  intact a blanks hblank := by rw [h.decode?_append a, if_pos hblank]
  refused s key hd hserved := by
    rw [(gives_fetchValue_served s hserved).result, h.value?_damaged hd]

end Marked

theorem HeaderBlock.marked : Stored.Marked HeaderBlock :=
  ⟨reads_toDatum, ofDatum?_toDatum, fun _ => rfl⟩

theorem WeightProof.marked : Stored.Marked WeightProof :=
  ⟨reads_toDatum, ofDatum?_toDatum, fun _ => rfl⟩

theorem BlockRecord.marked : Stored.Marked BlockRecord :=
  ⟨reads_toDatum, ofDatum?_toDatum, fun _ => rfl⟩

theorem Constants.marked : Stored.Marked Constants :=
  ⟨reads_toDatum, ofDatum?_toDatum .refused, fun _ => rfl⟩

theorem Config.marked : Stored.Marked Config :=
  ⟨reads_toDatum, ofDatum?_toDatum .refused, fun _ => rfl⟩

theorem Rejection.marked : Stored.Marked Rejection :=
  ⟨fun _ => .text, ofDatum?_toDatum, fun _ => rfl⟩

/-! ### Opening a chain -/

/-- Bytes that are there are malformed, or they are those of a value. -/
theorem Disk.eq_malformed_of_value? {α : Type} [Stored α] {d : Disk} {key : String}
    {cause : StoreError} (h : d.value? α key = .error cause) : cause = .malformed := by
  unfold Disk.value? at h
  split at h
  · cases h
  · split at h
    · cases h
    · exact (Except.error.inj h).symm

namespace Chain

variable {k : Consensus} {v : Verifier} {c m : Chain} {d : Disk} {cs : List Call}
  {a : Except ChainError Unit}

/-- **Opening a chain on a damaged slot** does no more than read, and fails with the store. -/
theorem Loading.malformed (h : Loading k v c d a m cs)
    (hd : d.HoldsDamaged WeightProof proofKey ∨ d.HoldsDamaged HeaderBlock peakKey) :
    (∀ call ∈ cs, ∃ key, call = .get key) ∧
      ∃ cause, a = .error (.store cause) ∧ (d.Accepts cs → cause = .malformed) := by
  have hproof : ∀ call ∈ [Call.get proofKey], ∃ key, call = .get key := by simp
  have hboth : ∀ call ∈ readCalls, ∃ key, call = .get key := by simp [readCalls]
  cases h with
  | proofRefused hrefused =>
    refine ⟨hproof, _, rfl, fun haccepts => ?_⟩
    cases hrefused.symm.trans (Disk.accepts_cons.mp haccepts).1
  | proofMalformed _ hw => exact ⟨hproof, _, rfl, fun _ => Disk.eq_malformed_of_value? hw⟩
  | peakRefused _ hrefused =>
    refine ⟨hboth, _, rfl, fun haccepts => ?_⟩
    cases hrefused.symm.trans (haccepts [.get proofKey] (.get peakKey) [] rfl)
  | peakMalformed _ _ hp => exact ⟨hboth, _, rfl, fun _ => Disk.eq_malformed_of_value? hp⟩
  | unseeded hw hp | rejected hw _ hp | unseedable hw _ _ hp | seeded hw hp =>
    -- both slots would have been read
    rcases hd with hd | hd
    · cases hw.symm.trans (WeightProof.marked.value?_damaged hd)
    · cases hp.symm.trans (HeaderBlock.marked.value?_damaged hd)

theorem load_malformed (v : Verifier) (k : Consensus) (config : Config) (disk : Disk)
    (hd : disk.HoldsDamaged WeightProof proofKey ∨ disk.HoldsDamaged HeaderBlock peakKey) :
    (∀ call ∈ (opened v k config disk).calls, ∃ key, call = .get key) ∧
      (opened v k config disk).disk.entries = disk.entries ∧
      ∃ cause, (load v k).result ⟨fresh config, disk, []⟩ = .error (.store cause) ∧
        (disk.Accepts (opened v k config disk).calls → cause = .malformed) := by
  obtain ⟨hreads, cause, hresult, hcause⟩ := (loading_opened v k config disk).malformed hd
  have hentries := Disk.entries_serveAll_of_reads (d := disk) hreads
  rw [disk_opened]
  exact ⟨hreads, hentries, cause, hresult, hcause⟩

end Chain

/-- **Damaged values are never mistaken for data**, whatever their type. A chain is not opened on
one, and the store keeps what it holds. -/
theorem damage_detected :
    (DetectsDamage HeaderBlock ∧ DetectsDamage WeightProof ∧ DetectsDamage BlockRecord ∧
      DetectsDamage Constants ∧ DetectsDamage Config ∧ DetectsDamage Rejection) ∧
      ∀ (v : Verifier) (k : Consensus) (config : Config) (disk : Disk),
        disk.HoldsDamaged WeightProof proofKey ∨ disk.HoldsDamaged HeaderBlock peakKey →
        (∀ call ∈ (Chain.opened v k config disk).calls, ∃ key, call = .get key) ∧
        (Chain.opened v k config disk).disk.entries = disk.entries ∧
        ∃ cause, (Chain.load v k).result ⟨Chain.fresh config, disk, []⟩ = .error (.store cause) ∧
          (disk.Accepts (Chain.opened v k config disk).calls → cause = .malformed) :=
  ⟨⟨HeaderBlock.marked.detectsDamage, WeightProof.marked.detectsDamage,
    BlockRecord.marked.detectsDamage, Constants.marked.detectsDamage, Config.marked.detectsDamage,
    Rejection.marked.detectsDamage⟩, Chain.load_malformed⟩

namespace Sample

/-- A store in which the last byte of the stored peak is missing. -/
def torn : Disk := ({} : Disk).write peakKey (Stored.encode rival).dropLast

theorem holdsDamaged_torn : torn.HoldsDamaged HeaderBlock peakKey := by
  have hne : Stored.encode rival ≠ [] := by
    obtain ⟨first, body, last, hmarks, -⟩ := Json.exists_marks (HeaderBlock.marked.enclosed rival)
    rw [Stored.encode, hmarks]
    exact List.cons_ne_nil _ _
  refine ⟨rival, _, ?_, .cut (List.dropLast_concat_getLast hne).symm (List.cons_ne_nil _ _)⟩
  rw [torn, Disk.peek_write, if_pos rfl]

end Sample

/-- A torn peak. -/
theorem damage_detected_torn : Sample.torn.HoldsDamaged HeaderBlock peakKey ∧
    (fetchValue HeaderBlock peakKey).result (⟨(), Sample.torn, []⟩ : Session Unit) =
      .error .malformed ∧
    (Chain.load Sample.verifier Sample.accepting).result ⟨Chain.fresh {}, Sample.torn, []⟩ =
      .error (.store .malformed) := by
  obtain ⟨⟨hblock, -⟩, hload⟩ := damage_detected
  have hserves : Sample.torn.Serves := fun _ _ => rfl
  refine ⟨Sample.holdsDamaged_torn, ?_, ?_⟩
  · exact hblock.refused ⟨(), Sample.torn, []⟩ peakKey Sample.holdsDamaged_torn (hserves.refusal? _)
  · obtain ⟨-, -, cause, hresult, hcause⟩ :=
      hload Sample.verifier Sample.accepting {} Sample.torn (.inr Sample.holdsDamaged_torn)
    rw [hresult, hcause (hserves.accepts _)]

end HeaderChain
