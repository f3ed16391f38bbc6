import Mathlib.Data.List.Forall2
import HeaderChain.Proofs.Json
import HeaderChain.Stored

/-!
# Stored values read back

* `Schema.parts?_toMap` — the parts of a map with all names of a schema are found again;
* `Schema.reads_toMap` — and its text reads back, if the text of each part does;
* `HeaderBlock.decode?_encode`, `WeightProof.decode?_encode`, … — a value of each stored type reads
  back. Those of `HeaderBlock` and `WeightProof` are the two that outlive a run.
-/

namespace HeaderChain

/-- Different texts have different bytes. -/
theorem Bytes.ofString_inj {s t : String} : Bytes.ofString s = Bytes.ofString t ↔ s = t := by
  refine ⟨fun h => ?_, fun h => h ▸ rfl⟩
  have hdata : s.toUTF8.data = t.toUTF8.data := Array.toList_inj.mp h
  exact String.toByteArray_inj.mp (ByteArray.ext hdata)

/-- The text of the bytes of a text. -/
theorem Bytes.text?_ofString (s : String) : (Bytes.ofString s).text? = some s := by
  show String.fromUTF8? s.toByteArray = some s
  exact dif_pos s.isValidUTF8

/-- Reading each item succeeds. -/
theorem mapM_eq_some {α β : Type} {f : α → Option β} {g : α → β} {l : List α}
    (h : ∀ x ∈ l, f x = some (g x)) : l.mapM f = some (l.map g) := by
  induction l with
  | nil => rfl
  | cons x l ih =>
    obtain ⟨hx, hl⟩ := List.forall_mem_cons.mp h
    simp [List.mapM_cons, hx, ih hl]

/-! ### Schemas -/

namespace Schema

variable {s : Schema} {parts : List Datum}

/-- Names and parts, side by side. -/
theorem toMap_eq (s : Schema) (parts : List Datum) : s.toMap parts =
    .map ((s.names.zip parts).map fun p => (Bytes.ofString p.1, p.2)) := by
  rw [toMap, List.zip_map_left]
  rfl

/-- One of the parts with different names is all that there is under its name. -/
theorem filter_name {α : Type} {named : List (String × α)} (hnodup : (named.map (·.1)).Nodup)
    {p : String × α} (hp : p ∈ named) :
    (named.filter fun q => Bytes.ofString q.1 == Bytes.ofString p.1) = [p] := by
  induction named with
  | nil => simp at hp
  | cons q named ih =>
    rw [List.map_cons, List.nodup_cons] at hnodup
    -- the part is the first one, and no other has its name, or it is further on
    rcases List.mem_cons.mp hp with rfl | hp
    · have hrest : (named.filter fun q => Bytes.ofString q.1 == Bytes.ofString p.1) = [] := by
        refine List.filter_eq_nil_iff.mpr fun q hq heq => ?_
        have hname := Bytes.ofString_inj.mp (beq_iff_eq.mp heq)
        exact hnodup.1 (hname ▸ List.mem_map_of_mem hq)
      simp [hrest]
    · have hne : Bytes.ofString q.1 ≠ Bytes.ofString p.1 := by
        intro heq
        exact hnodup.1 (Bytes.ofString_inj.mp heq ▸ List.mem_map_of_mem hp)
      rw [List.filter_cons_of_neg (by simpa using hne)]
      exact ih hnodup.2 hp

/-- A part with a name of its own is found again under it. -/
theorem part?_of_mem {named : List (String × Datum)} (hnodup : (named.map (·.1)).Nodup)
    {p : String × Datum} (hp : p ∈ named) :
    part? (named.map fun p => (Bytes.ofString p.1, p.2)) p.1 = some (some p.2) := by
  have hfilter : (named.map fun q => (Bytes.ofString q.1, q.2)).filter
      (fun e => e.1 == Bytes.ofString p.1) = [(Bytes.ofString p.1, p.2)] := by
    rw [List.filter_map]
    exact congrArg _ (filter_name hnodup hp)
  simp [part?, hfilter]

theorem map_fst_zip (hlen : parts.length = s.parts.length) :
    (s.names.zip parts).map (·.1) = s.names :=
  List.map_fst_zip (by simp [names, hlen])

theorem map_snd_zip (hlen : parts.length = s.parts.length) :
    (s.names.zip parts).map (·.2) = parts :=
  List.map_snd_zip (by simp [names, hlen])

/-- **The parts of a map are found again.** -/
theorem parts?_toMap (surplus : Surplus) (hnodup : s.names.Nodup)
    (hlen : parts.length = s.parts.length) :
    s.parts? surplus (s.toMap parts) = some (parts.map some) := by
  have hadmits : ((s.names.zip parts).map fun p => (Bytes.ofString p.1, p.2)).all
      (fun e => s.admits e.1) = true := by
    simp only [List.all_map, List.all_eq_true, Function.comp_apply, admits, Bool.or_eq_true,
      List.any_eq_true, beq_iff_eq]
    exact fun p hp => .inl ⟨p.1, (List.of_mem_zip hp).1, rfl⟩
  rw [toMap_eq, parts?, if_pos hadmits]
  -- names are looked for in the order in which they were written
  have hpairs : ((s.names.zip parts).map (·.1)).Nodup := by rwa [map_fst_zip hlen]
  have hfound : ((s.names.zip parts).map (·.1)).mapM
      (part? ((s.names.zip parts).map fun p => (Bytes.ofString p.1, p.2))) =
        some ((s.names.zip parts).map fun p => some p.2) := by
    rw [List.mapM_map]
    exact mapM_eq_some fun p hp => part?_of_mem hpairs hp
  rw [map_fst_zip hlen] at hfound
  have hparts : (s.names.zip parts).map (fun p => some p.2) = parts.map some := by
    rw [← map_snd_zip hlen, List.map_map, map_snd_zip hlen]
    rfl
  rw [hfound, hparts]

/-- A part is looked for under its own name. -/
theorem part_shape (hnodup : s.names.Nodup) {p : String × Shape} (hp : p ∈ s.parts) :
    s.shape.part (Bytes.ofString p.1) = p.2 := by
  have hfind : s.parts.find? (fun q => Bytes.ofString q.1 == Bytes.ofString p.1) = some p := by
    rw [← List.head?_filter, filter_name hnodup hp]
    rfl
  simp [shape, Shape.part, hfind]

/-- **The text of a map reads back** if that of each part does where the part is looked for. -/
theorem reads_toMap (hnodup : s.names.Nodup)
    (hparts : List.Forall₂ (fun (p : String × Shape) d => Json.Reads p.2 d) s.parts parts) :
    Json.Reads s.shape (s.toMap parts) := by
  rw [toMap_eq]
  refine .map fun e he => ?_
  obtain ⟨⟨name, d⟩, hpair, rfl⟩ := List.mem_map.mp he
  rw [names, List.zip_map_left] at hpair
  obtain ⟨⟨p, d'⟩, hp, heq⟩ := List.mem_map.mp hpair
  cases heq
  have hmem := (List.of_mem_zip hp).1
  exact part_shape hnodup hmem ▸ (List.forall₂_iff_zip.mp hparts).2 hp

end Schema

/-! ### Single values -/

namespace Datum

/-- A number below the bound is read. -/
theorem natBelow?_of_lt {bound n : Nat} (h : n < bound) : natBelow? bound (.nat n) = some n :=
  if_pos h

@[simp] theorem byte?_ofUInt8 (x : UInt8) : byte? (ofUInt8 x) = some x := by
  simp [byte?, ofUInt8, natBelow?_of_lt x.toNat_lt]

@[simp] theorem uint32?_ofUInt32 (x : UInt32) : uint32? (ofUInt32 x) = some x := by
  simp [uint32?, ofUInt32, natBelow?_of_lt x.toNat_lt]

@[simp] theorem uint64?_ofUInt64 (x : UInt64) : uint64? (ofUInt64 x) = some x := by
  simp [uint64?, ofUInt64, natBelow?_of_lt x.toNat_lt]

@[simp] theorem weight?_ofWeight (x : Weight) : weight? (ofWeight x) = some x := by
  have hlt : x.toNat < Weight.size := x.isLt
  simp [weight?, ofWeight, natBelow?_of_lt hlt]

@[simp] theorem flag?_flag (x : Bool) : flag? (flag x) = some x := rfl

@[simp] theorem bytes?_ofBytes (x : Bytes) : bytes? (ofBytes x) = some x :=
  Hex.read?_marked x

@[simp] theorem hash?_ofHash (surplus : Surplus) (x : Hash) :
    hash? surplus (ofHash x) = some x := by
  simp [hash?, ofHash, ofBytes, Hex.read?_marked]

/-- A part that may be absent reads back, if what it is written as is not null. -/
theorem option?_ofOption {α : Type} {read : Datum → Option α} {write : α → Datum}
    (hread : ∀ a, read (write a) = some a) (hnull : ∀ a, write a ≠ .null) (a : Option α) :
    option? read (ofOption write a) = some a := by
  cases a with
  | none => rfl
  | some a =>
    rw [ofOption, option?]
    · simp [hread]
    · exact hnull a

/-- A list reads back if each of its items does. -/
theorem listOf?_list {α : Type} {read : Datum → Option α} {write : α → Datum}
    (hread : ∀ a, read (write a) = some a) (items : List α) :
    listOf? read (.list (items.map write)) = some items := by
  have hmap : (items.map write).mapM read = some items := by
    rw [List.mapM_map]
    simpa [Function.comp_def, hread] using mapM_eq_some (g := id) fun a (_ : a ∈ items) => hread a
  exact hmap

/-- The text of a list reads back if that of each item does. -/
theorem reads_list {α : Type} {shape : Shape} {write : α → Datum}
    (h : ∀ a, Json.Reads shape (write a)) (items : List α) :
    Json.Reads (.listOf shape) (.list (items.map write)) := by
  refine .list (fun _ => rfl) (fun _ => rfl) fun d hd => ?_
  obtain ⟨a, -, rfl⟩ := List.mem_map.mp hd
  exact h a

/-- The text of an optional value reads back, if there is one; an absent one is null. -/
theorem reads_ofOption {α : Type} {shape : Shape} {write : α → Datum}
    (h : ∀ a, Json.Reads shape (write a)) (a : Option α) : Json.Reads shape (ofOption write a) := by
  cases a with
  | none => exact .null
  | some a => exact h a

end Datum

/-- A stored value reads back if its text and its parts do. -/
theorem Stored.decode?_of_reads {α : Type} [Stored α] {a : α}
    (hreads : Json.Reads (Stored.shape α) (Stored.toDatum a))
    (hparts : Stored.ofDatum? (Stored.toDatum a) = some a) :
    Stored.decode? (Stored.encode a) = some a := by
  rw [decode?, encode, Json.read_write hreads, Option.bind_some, hparts]

/-! ### Blocks -/

namespace SubSlotEnd

/-- The end of a sub slot is put together again from its parts. -/
@[simp] theorem ofDatum?_toDatum (x : SubSlotEnd) : ofDatum? x.toDatum = some x := by
  have hparts : schema.parts? .refused x.toDatum = some _ :=
    Schema.parts?_toMap .refused (by decide) rfl
  have hoption := Datum.option?_ofOption Datum.uint64?_ofUInt64 nofun
  simp [ofDatum?, hparts, Part.required, Part.optional, hoption]

/-- Its text reads back. -/
theorem reads_toDatum (x : SubSlotEnd) : Json.Reads schema.shape x.toDatum := by
  have hnumber : ∀ n, Json.Reads .anything (.ofOption .ofUInt64 n) :=
    Datum.reads_ofOption fun _ => .nat
  exact Schema.reads_toMap (by decide) (.cons .text (.cons (hnumber _) (.cons (hnumber _) .nil)))

/-- A stored end of a sub slot reads back. -/
theorem decode?_encode (x : SubSlotEnd) : Stored.decode? (Stored.encode x) = some x :=
  Stored.decode?_of_reads x.reads_toDatum x.ofDatum?_toDatum

end SubSlotEnd

namespace TransactionFoliage

/-- A foliage is put together again from its parts. -/
@[simp] theorem ofDatum?_toDatum (x : TransactionFoliage) : ofDatum? x.toDatum = some x := by
  have hparts : schema.parts? .refused x.toDatum = some _ :=
    Schema.parts?_toMap .refused (by decide) rfl
  simp [ofDatum?, hparts, Part.required]

/-- Its text reads back. -/
theorem reads_toDatum (x : TransactionFoliage) : Json.Reads schema.shape x.toDatum :=
  Schema.reads_toMap (by decide) (.cons .text (.cons .nat (.cons .text .nil)))

/-- Stored foliage reads back. -/
theorem decode?_encode (x : TransactionFoliage) : Stored.decode? (Stored.encode x) = some x :=
  Stored.decode?_of_reads x.reads_toDatum x.ofDatum?_toDatum

end TransactionFoliage

namespace HeaderBlock

/-- A block is put together again from its parts. -/
@[simp] theorem ofDatum?_toDatum (b : HeaderBlock) : ofDatum? b.toDatum = some b := by
  have hparts : schema.parts? .refused b.toDatum = some _ :=
    Schema.parts?_toMap .refused (by decide) rfl
  have hslots := Datum.listOf?_list SubSlotEnd.ofDatum?_toDatum
  have hfoliage := Datum.option?_ofOption TransactionFoliage.ofDatum?_toDatum nofun
  simp [ofDatum?, hparts, Part.required, Part.optional, hslots, hfoliage]

/-- Its text reads back. -/
theorem reads_toDatum (b : HeaderBlock) : Json.Reads schema.shape b.toDatum := by
  have hslots := Datum.reads_list SubSlotEnd.reads_toDatum b.finishedSubSlots
  have hfoliage := Datum.reads_ofOption TransactionFoliage.reads_toDatum b.foliage
  exact Schema.reads_toMap (by decide) (.cons .text (.cons .text (.cons .nat (.cons .nat (.cons .nat
    (.cons .nat (.cons hslots (.cons hfoliage (.cons .text .nil)))))))))

/-- **A stored block reads back.** -/
theorem decode?_encode (b : HeaderBlock) : Stored.decode? (Stored.encode b) = some b :=
  Stored.decode?_of_reads b.reads_toDatum b.ofDatum?_toDatum

end HeaderBlock

namespace BlockRecord

/-- A record is put together again from its parts. -/
@[simp] theorem ofDatum?_toDatum (r : BlockRecord) : ofDatum? r.toDatum = some r := by
  have hparts : schema.parts? .refused r.toDatum = some _ :=
    Schema.parts?_toMap .refused (by decide) rfl
  have htimestamp := Datum.option?_ofOption Datum.uint64?_ofUInt64 nofun
  have hprevious := Datum.option?_ofOption (Datum.hash?_ofHash .refused) nofun
  simp [ofDatum?, hparts, Part.required, Part.optional, htimestamp, hprevious]

/-- Its text reads back. -/
theorem reads_toDatum (r : BlockRecord) : Json.Reads schema.shape r.toDatum := by
  have hnumber : ∀ n, Json.Reads .anything (.ofOption .ofUInt64 n) :=
    Datum.reads_ofOption fun _ => .nat
  have hhash : ∀ h, Json.Reads .hash (.ofOption .ofHash h) := Datum.reads_ofOption fun _ => .text
  exact Schema.reads_toMap (by decide) (.cons .text (.cons .text (.cons .nat (.cons .nat (.cons .nat
    (.cons .nat (.cons .nat (.cons .nat (.cons .nat (.cons .flag (.cons .flag (.cons (hnumber _)
      (.cons (hhash _) .nil)))))))))))))

/-- **A stored record reads back.** -/
theorem decode?_encode (r : BlockRecord) : Stored.decode? (Stored.encode r) = some r :=
  Stored.decode?_of_reads r.reads_toDatum r.ofDatum?_toDatum

end BlockRecord

/-! ### Weight proofs -/

namespace SubEpoch

/-- A sub-epoch is put together again from its parts. -/
@[simp] theorem ofDatum?_toDatum (x : SubEpoch) : ofDatum? x.toDatum = some x := by
  have hparts : schema.parts? .refused x.toDatum = some _ :=
    Schema.parts?_toMap .refused (by decide) rfl
  have hoption := Datum.option?_ofOption Datum.uint64?_ofUInt64 nofun
  simp [ofDatum?, hparts, Part.required, Part.optional, hoption]

/-- Its text reads back. -/
theorem reads_toDatum (x : SubEpoch) : Json.Reads schema.shape x.toDatum := by
  have hnumber : ∀ n, Json.Reads .anything (.ofOption .ofUInt64 n) :=
    Datum.reads_ofOption fun _ => .nat
  exact Schema.reads_toMap (by decide)
    (.cons .text (.cons .nat (.cons (hnumber _) (.cons (hnumber _) .nil))))

/-- A stored sub epoch reads back. -/
theorem decode?_encode (x : SubEpoch) : Stored.decode? (Stored.encode x) = some x :=
  Stored.decode?_of_reads x.reads_toDatum x.ofDatum?_toDatum

end SubEpoch

namespace WeightProof

/-- A proof is put together again from its parts. -/
@[simp] theorem ofDatum?_toDatum (w : WeightProof) : ofDatum? w.toDatum = some w := by
  have hparts : schema.parts? .refused w.toDatum = some _ :=
    Schema.parts?_toMap .refused (by decide) rfl
  have hsubEpochs := Datum.listOf?_list SubEpoch.ofDatum?_toDatum
  have hsegments := Datum.listOf?_list Datum.bytes?_ofBytes
  have hrecent := Datum.listOf?_list HeaderBlock.ofDatum?_toDatum
  simp [ofDatum?, hparts, Part.required, hsubEpochs, hsegments, hrecent]

/-- Its text reads back, with those of its sub-epochs and its blocks. -/
theorem reads_toDatum (w : WeightProof) : Json.Reads schema.shape w.toDatum := by
  have hsubEpochs := Datum.reads_list SubEpoch.reads_toDatum w.subEpochs
  have hrecent := Datum.reads_list HeaderBlock.reads_toDatum w.recent
  have hsegments : Json.Reads .anything (.list (w.segments.map .ofBytes)) := by
    refine .list (fun _ => rfl) (fun _ => rfl) fun d hd => ?_
    obtain ⟨segment, -, rfl⟩ := List.mem_map.mp hd
    exact .text
  exact Schema.reads_toMap (by decide) (.cons hsubEpochs (.cons hsegments (.cons hrecent .nil)))

/-- **A stored weight proof reads back.** -/
theorem decode?_encode (w : WeightProof) : Stored.decode? (Stored.encode w) = some w :=
  Stored.decode?_of_reads w.reads_toDatum w.ofDatum?_toDatum

end WeightProof

/-! ### Rejections -/

namespace Rejection

/-- Different rejections have different names. -/
theorem ofName?_name (r : Rejection) : ofName? r.name = some r := by
  cases r <;> decide

/-- A rejection is told apart from the others by its name. -/
theorem ofDatum?_toDatum (r : Rejection) : ofDatum? r.toDatum = some r := by
  show (Bytes.ofString r.name).text?.bind ofName? = some r
  rw [Bytes.text?_ofString, Option.bind_some, ofName?_name]

/-- **A stored rejection reads back.** -/
theorem decode?_encode (r : Rejection) : Stored.decode? (Stored.encode r) = some r :=
  Stored.decode?_of_reads .text r.ofDatum?_toDatum

end Rejection

/-! ### Configuration -/

namespace Constants

/-- The constants are found again wherever they were written, for a map has no surplus items. -/
@[simp] theorem ofDatum?_toDatum (surplus : Surplus) (c : Constants) :
    ofDatum? surplus c.toDatum = some c := by
  have hparts : schema.parts? surplus c.toDatum = some _ :=
    Schema.parts?_toMap surplus (by decide) rfl
  simp [ofDatum?, hparts, Part.required]

theorem reads_toDatum (c : Constants) : Json.Reads schema.shape c.toDatum :=
  Schema.reads_toMap (by decide)
    (.cons .nat (.cons .nat (.cons .nat (.cons .nat (.cons .nat (.cons .text .nil))))))

/-- **Stored constants read back.** -/
theorem decode?_encode (c : Constants) : Stored.decode? (Stored.encode c) = some c :=
  Stored.decode?_of_reads c.reads_toDatum (c.ofDatum?_toDatum .refused)

end Constants

namespace Config

/-- No part is left to its default, as all of them are written. -/
theorem ofDatum?_toDatum (surplus : Surplus) (c : Config) :
    ofDatum? surplus c.toDatum = some c := by
  have hparts : schema.parts? surplus c.toDatum = some _ :=
    Schema.parts?_toMap surplus (by decide) rfl
  simp [ofDatum?, hparts, Part.orElse]

theorem reads_toDatum (c : Config) : Json.Reads schema.shape c.toDatum :=
  Schema.reads_toMap (by decide) (.cons c.constants.reads_toDatum (.cons .nat (.cons .flag .nil)))

/-- **A stored configuration reads back.** -/
theorem decode?_encode (c : Config) : Stored.decode? (Stored.encode c) = some c :=
  Stored.decode?_of_reads c.reads_toDatum (c.ofDatum?_toDatum .refused)

end Config

end HeaderChain
