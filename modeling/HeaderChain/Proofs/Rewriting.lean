import HeaderChain.Proofs.Leeway

/-!
# Stored values rewritten

A stored value may be spelt in ways in which it is never written: its fields in another order, with
others between them, without those that are null. What each type allows is told by the leeway of its
parts, and from this and the general lemmas follows what is read.

* `HeaderBlock.leeway`, `Config.leeway`, … — the leeway of each type; its reader goes by it;
* `ReadsRewritten` — what is read from the store under a key that holds a text of a rewritten value,
  and of a flawed one (`Stored.Allows.readsRewritten`);
* `Config.rewrites_given` — any fields of a configuration are one that has the default for the rest;
* `rewritings_read` — all of it for all types that are stored as maps. An option is taken for null
  where it is left out, even if it was not (`absent_option_fetched`).
-/

namespace HeaderChain

namespace SubSlotEnd

/-- What may be done to the parts of the end of a sub slot. -/
def parts : List PartLeeway := [.required .fixed, .option .fixed, .option .fixed]

/-- What may be done to the end of a sub slot. -/
def leeway : Leeway := .named schema parts

/-- The reader of sub-slot ends goes by their leeway. -/
theorem conforms : leeway.Conforms ofDatum? :=
  .named (by decide) rfl
    (.cons (.required .fixed) fun _ => .cons (.option .fixed) fun _ => .cons (.option .fixed)
      fun _ => .nil _)
    (fun d h => by rw [ofDatum?, h]) (fun d f h => by rw [ofDatum?, h]; rfl)

theorem keeps : leeway.Keeps schema.shape :=
  .named (by decide) (.cons .fixed (.cons (.orNull .fixed) (.cons (.orNull .fixed) .nil)))

theorem rewrites_toDatum (x : SubSlotEnd) : leeway.rewrites x.toDatum x.toDatum := by
  have hiters := Leeway.rewrites_ofOption_fixed Datum.ofUInt64_ne_null x.newSubSlotIters
  have hdifficulty := Leeway.rewrites_ofOption_fixed Datum.ofUInt64_ne_null x.newDifficulty
  exact Leeway.rewrites_toMap (by decide) rfl (.cons rfl (.cons hiters (.cons hdifficulty .nil)))

/-- **Sub-slot ends** are read from every rewriting that the leeway allows. -/
theorem allows : Stored.Allows SubSlotEnd leeway :=
  ⟨conforms, keeps, rewrites_toDatum, reads_toDatum, ofDatum?_toDatum⟩

end SubSlotEnd

namespace TransactionFoliage

/-- What may be done to what a transaction block adds. -/
def leeway : Leeway := .named schema [.required .fixed, .required .fixed, .required .fixed]

/-- The reader of foliages goes by their leeway. -/
theorem conforms : leeway.Conforms ofDatum? :=
  .named (by decide) rfl
    (.cons (.required .fixed) fun _ => .cons (.required .fixed) fun _ => .cons (.required .fixed)
      fun _ => .nil _)
    (fun d h => by rw [ofDatum?, h]) (fun d f h => by rw [ofDatum?, h]; rfl)

theorem keeps : leeway.Keeps schema.shape :=
  .named (by decide) (.cons .fixed (.cons .fixed (.cons .fixed .nil)))

theorem rewrites_toDatum (x : TransactionFoliage) : leeway.rewrites x.toDatum x.toDatum :=
  Leeway.rewrites_toMap (by decide) rfl (.cons rfl (.cons rfl (.cons rfl .nil)))

/-- **Foliages** are read from every rewriting that the leeway allows. -/
theorem allows : Stored.Allows TransactionFoliage leeway :=
  ⟨conforms, keeps, rewrites_toDatum, reads_toDatum, ofDatum?_toDatum⟩

end TransactionFoliage

namespace HeaderBlock

/-- What may be done to a block: its parts are fixed, or have a leeway of their own. -/
def leeway : Leeway := .named schema [.required .fixed, .required .fixed, .required .fixed,
  .required .fixed, .required .fixed, .required .fixed, .required SubSlotEnd.leeway.items,
  .option TransactionFoliage.leeway, .required .fixed]

/-- The reader of blocks goes by their leeway, that of their foliage and of their sub-slot ends
within. -/
theorem conforms : leeway.Conforms ofDatum? :=
  .named (by decide) rfl
    (.cons (.required .fixed) fun _ => .cons (.required .fixed) fun _ => .cons (.required .fixed)
      fun _ => .cons (.required .fixed) fun _ => .cons (.required .fixed) fun _ =>
      .cons (.required .fixed) fun _ => .cons (.required SubSlotEnd.conforms.items) fun _ =>
      .cons (.option TransactionFoliage.conforms) fun _ => .cons (.required .fixed) fun _ => .nil _)
    (fun d h => by rw [ofDatum?, h]) (fun d f h => by rw [ofDatum?, h]; rfl)

theorem keeps : leeway.Keeps schema.shape :=
  .named (by decide) (.cons .fixed (.cons .fixed (.cons .fixed (.cons .fixed (.cons .fixed
    (.cons .fixed (.cons SubSlotEnd.keeps.items (.cons TransactionFoliage.keeps.orNull
    (.cons .fixed .nil)))))))))

theorem rewrites_toDatum (b : HeaderBlock) : leeway.rewrites b.toDatum b.toDatum := by
  have hslots := Leeway.rewrites_items SubSlotEnd.rewrites_toDatum b.finishedSubSlots
  have hfoliage := Leeway.rewrites_ofOption TransactionFoliage.rewrites_toDatum nofun b.foliage
  exact Leeway.rewrites_toMap (by decide) rfl (.cons rfl (.cons rfl (.cons rfl (.cons rfl
    (.cons rfl (.cons rfl (.cons hslots (.cons hfoliage (.cons rfl .nil)))))))))

/-- **Blocks** are read from every rewriting that the leeway allows. -/
theorem allows : Stored.Allows HeaderBlock leeway :=
  ⟨conforms, keeps, rewrites_toDatum, reads_toDatum, ofDatum?_toDatum⟩

end HeaderBlock

namespace BlockRecord

/-- What may be done to a record: only its last two parts may be left out. -/
def leeway : Leeway := .named schema (List.replicate 11 (.required .fixed) ++
  [.option .fixed, .option .fixed])

/-- The reader of records goes by their leeway. -/
theorem conforms : leeway.Conforms ofDatum? :=
  .named (by decide) rfl
    (.cons (.required .fixed) fun _ => .cons (.required .fixed) fun _ => .cons (.required .fixed)
      fun _ => .cons (.required .fixed) fun _ => .cons (.required .fixed) fun _ =>
      .cons (.required .fixed) fun _ => .cons (.required .fixed) fun _ => .cons (.required .fixed)
      fun _ => .cons (.required .fixed) fun _ => .cons (.required .fixed) fun _ =>
      .cons (.required .fixed) fun _ => .cons (.option .fixed) fun _ => .cons (.option .fixed)
      fun _ => .nil _)
    (fun d h => by rw [ofDatum?, h]) (fun d f h => by rw [ofDatum?, h]; rfl)

theorem keeps : leeway.Keeps schema.shape :=
  .named (by decide) (.cons .fixed (.cons .fixed (.cons .fixed (.cons .fixed (.cons .fixed
    (.cons .fixed (.cons .fixed (.cons .fixed (.cons .fixed (.cons .fixed (.cons .fixed
    (.cons (.orNull .fixed) (.cons (.orNull .fixed) .nil)))))))))))))

theorem rewrites_toDatum (r : BlockRecord) : leeway.rewrites r.toDatum r.toDatum := by
  have htimestamp := Leeway.rewrites_ofOption_fixed Datum.ofUInt64_ne_null r.timestamp
  have hprevious := Leeway.rewrites_ofOption_fixed Datum.ofHash_ne_null r.previousTransaction
  exact Leeway.rewrites_toMap (by decide) rfl (.cons rfl (.cons rfl (.cons rfl (.cons rfl
    (.cons rfl (.cons rfl (.cons rfl (.cons rfl (.cons rfl (.cons rfl (.cons rfl
    (.cons htimestamp (.cons hprevious .nil)))))))))))))

/-- **Records** are read from every rewriting that the leeway allows. -/
theorem allows : Stored.Allows BlockRecord leeway :=
  ⟨conforms, keeps, rewrites_toDatum, reads_toDatum, ofDatum?_toDatum⟩

end BlockRecord

namespace SubEpoch

/-- What may be done to the summary of a sub epoch. -/
def leeway : Leeway :=
  .named schema [.required .fixed, .required .fixed, .option .fixed, .option .fixed]

/-- The reader of sub-epochs goes by their leeway. -/
theorem conforms : leeway.Conforms ofDatum? :=
  .named (by decide) rfl
    (.cons (.required .fixed) fun _ => .cons (.required .fixed) fun _ => .cons (.option .fixed)
      fun _ => .cons (.option .fixed) fun _ => .nil _)
    (fun d h => by rw [ofDatum?, h]) (fun d f h => by rw [ofDatum?, h]; rfl)

theorem keeps : leeway.Keeps schema.shape :=
  .named (by decide) (.cons .fixed (.cons .fixed (.cons (.orNull .fixed)
    (.cons (.orNull .fixed) .nil))))

theorem rewrites_toDatum (x : SubEpoch) : leeway.rewrites x.toDatum x.toDatum := by
  have hdifficulty := Leeway.rewrites_ofOption_fixed Datum.ofUInt64_ne_null x.newDifficulty
  have hiters := Leeway.rewrites_ofOption_fixed Datum.ofUInt64_ne_null x.newSubSlotIters
  exact Leeway.rewrites_toMap (by decide) rfl
    (.cons rfl (.cons rfl (.cons hiters (.cons hdifficulty .nil))))

/-- **Sub-epochs** are read from every rewriting that the leeway allows. -/
theorem allows : Stored.Allows SubEpoch leeway :=
  ⟨conforms, keeps, rewrites_toDatum, reads_toDatum, ofDatum?_toDatum⟩

end SubEpoch

namespace WeightProof

/-- What may be done to a weight proof. -/
def leeway : Leeway := .named schema [.required SubEpoch.leeway.items, .required .fixed,
  .required HeaderBlock.leeway.items]

/-- The reader of proofs goes by their leeway, that of each of their blocks and sub-epochs
within. -/
theorem conforms : leeway.Conforms ofDatum? :=
  .named (by decide) rfl
    (.cons (.required SubEpoch.conforms.items) fun _ => .cons (.required .fixed) fun _ =>
      .cons (.required HeaderBlock.conforms.items) fun _ => .nil _)
    (fun d h => by rw [ofDatum?, h]) (fun d f h => by rw [ofDatum?, h]; rfl)

theorem keeps : leeway.Keeps schema.shape :=
  .named (by decide)
    (.cons SubEpoch.keeps.items (.cons .fixed (.cons HeaderBlock.keeps.items .nil)))

theorem rewrites_toDatum (w : WeightProof) : leeway.rewrites w.toDatum w.toDatum :=
  Leeway.rewrites_toMap (by decide) rfl
    (.cons (Leeway.rewrites_items SubEpoch.rewrites_toDatum w.subEpochs) (.cons rfl
    (.cons (Leeway.rewrites_items HeaderBlock.rewrites_toDatum w.recent) .nil)))

/-- **Weight proofs** are read from every rewriting that the leeway allows. -/
theorem allows : Stored.Allows WeightProof leeway :=
  ⟨conforms, keeps, rewrites_toDatum, reads_toDatum, ofDatum?_toDatum⟩

end WeightProof

namespace Constants

/-- What may be done to the constants. -/
def leeway : Leeway := .named schema (List.replicate 6 (.required .fixed))

/-- The reader of constants goes by their leeway, however surplus bytes of a hash are treated. -/
theorem conforms (surplus : Surplus) : leeway.Conforms (ofDatum? surplus) :=
  .named (by decide) rfl
    (.cons (.required .fixed) fun _ => .cons (.required .fixed) fun _ => .cons (.required .fixed)
      fun _ => .cons (.required .fixed) fun _ => .cons (.required .fixed) fun _ =>
      .cons (.required .fixed) fun _ => .nil _)
    (fun d h => by rw [ofDatum?, h]) (fun d f h => by rw [ofDatum?, h]; rfl)

theorem keeps : leeway.Keeps schema.shape :=
  .named (by decide) (.cons .fixed (.cons .fixed (.cons .fixed (.cons .fixed (.cons .fixed
    (.cons .fixed .nil))))))

theorem rewrites_toDatum (c : Constants) : leeway.rewrites c.toDatum c.toDatum :=
  Leeway.rewrites_toMap (by decide) rfl
    (.cons rfl (.cons rfl (.cons rfl (.cons rfl (.cons rfl (.cons rfl .nil))))))

/-- **Constants** are read from every rewriting that the leeway allows. -/
theorem allows : Stored.Allows Constants leeway :=
  ⟨conforms .refused, keeps, rewrites_toDatum, reads_toDatum, ofDatum?_toDatum .refused⟩

end Constants

namespace Config

/-- What may be done to the parts of a configuration: each of them may be left out where it is the
default. -/
def parts : List PartLeeway := [.default (Constants.toDatum {}) Constants.leeway,
  .default (.ofUInt32 defaultRetention) .fixed, .default (.flag true) .fixed]

/-- What may be done to a configuration. -/
def leeway : Leeway := .named schema parts

/-- The reader of configurations goes by their leeway, that of the constants within. -/
theorem conforms : leeway.Conforms (ofDatum? .refused) :=
  .named (by decide) rfl
    (.cons (.default (Constants.conforms .refused) (Constants.ofDatum?_toDatum _ _)) fun _ =>
      .cons (.default .fixed (Datum.uint32?_ofUInt32 _)) fun _ =>
      .cons (.default .fixed (Datum.flag?_flag _)) fun _ => .nil _)
    (fun d h => by rw [ofDatum?, h]) (fun d f h => by rw [ofDatum?, h]; rfl)

theorem keeps : leeway.Keeps schema.shape :=
  .named (by decide) (.cons Constants.keeps (.cons .fixed (.cons .fixed .nil)))

theorem rewrites_toDatum (c : Config) : leeway.rewrites c.toDatum c.toDatum :=
  Leeway.rewrites_toMap (by decide) rfl
    (.cons c.constants.rewrites_toDatum (.cons rfl (.cons rfl .nil)))

/-- **Configurations** are read from every rewriting that the leeway allows. -/
theorem allows : Stored.Allows Config leeway :=
  ⟨conforms, keeps, rewrites_toDatum, reads_toDatum, ofDatum?_toDatum .refused⟩

/-- The entries of a configuration of which some fields are given. -/
def given (constants? retention? skip? : Option Datum) : List (Bytes × Datum) :=
  (constants?.map fun d => (Bytes.ofString "constants", d)).toList ++
    (retention?.map fun d => (Bytes.ofString "block_retention", d)).toList ++
    (skip?.map fun d => (Bytes.ofString "skip_weight_proof_segments", d)).toList

end Config

/-- A part that is given is rewritten, and one that is not is left at its default. -/
theorem KeptFields.getD {α : Type} {named : List (String × PartLeeway)} {p : String × PartLeeway}
    {entries known : List (Bytes × Datum)} {write : α → Datum} {a : α} {o : Option α}
    {d? : Option Datum} (hp : p ∈ named) (habsent : p.2.absent = some (write a))
    (hd : Option.Rel (fun a d => p.2.leeway.rewrites (write a) d) o d?)
    (h : KeptFields named entries known) :
    KeptFields named ((Bytes.ofString p.1, write (o.getD a)) :: entries)
      ((d?.map fun d => (Bytes.ofString p.1, d)).toList ++ known) := by
  cases hd with
  | none => exact .leave hp habsent h
  | some hd => exact .keep hp hd h

/-- **A configuration of which some fields are given**, in any order, is the default with these
fields instead of its own. -/
theorem Config.rewrites_given {constants? : Option Constants} {written? : Option Datum}
    (hwritten : Option.Rel (fun c d => Constants.leeway.rewrites c.toDatum d) constants? written?)
    (retention? : Option UInt32) (skip? : Option Bool) {entries : List (Bytes × Datum)}
    (hperm : entries.Perm (given written? (retention?.map .ofUInt32) (skip?.map .flag))) :
    leeway.rewrites (Config.toDatum ⟨constants?.getD {}, retention?.getD defaultRetention,
      skip?.getD true⟩) (.map entries) := by
  have hscalar : ∀ {β : Type} (write : β → Datum) (o : Option β),
      Option.Rel (fun b d => Leeway.fixed.rewrites (write b) d) o (o.map write) := by
    intro β write o
    cases o with
    | none => exact .none
    | some b => exact .some rfl
  -- from the last field to the first, each is kept as it is given or left out
  have hskip : KeptFields (schema.names.zip parts) _ _ :=
    KeptFields.getD (.tail _ (.tail _ (.head _))) rfl (hscalar Datum.flag skip?) .nil
  have hretention :=
    KeptFields.getD (.tail _ (.head _)) rfl (hscalar Datum.ofUInt32 retention?) hskip
  have hkept := KeptFields.getD (.head _) rfl hwritten hretention
  have hnodup : (schema.names.map Bytes.ofString).Nodup := Bytes.nodup_map_ofString (by decide)
  refine ⟨_, entries, rfl, rfl, hnodup, _, [], hkept, nofun, ?_⟩
  rw [given, List.append_assoc] at hperm
  rw [List.append_nil, List.append_nil]
  exact hperm

/-! ### Reading from the store -/

open Procedure

/-- What is read from under a key that holds these bytes, if the store answers. -/
def FetchedAs (α : Type) [Stored α] (raw : Bytes) (a : Except StoreError (Option α)) : Prop :=
  ∀ (σ : Type) (s : Session σ) (key : String), s.disk.peek key = some raw →
    s.disk.refusal? (.get key) = none → (fetchValue α key).result s = a

/-- **A stored type whose values are read in every spelling** that the leeway allows. -/
structure ReadsRewritten (α : Type) [Stored α] (l : Leeway) : Prop where
  /-- The bytes of a value are one of its spellings. -/
  encoded : ∀ a : α, l.rewrites (Stored.toDatum a) (Stored.toDatum a) ∧
    Json.Spells false (Stored.toDatum a) (Stored.encode a)
  /-- A value is read from every text of what it may be rewritten as. -/
  fetched : ∀ (a : α) {lone : Bool} {d : Datum} {raw : Bytes},
    l.rewrites (Stored.toDatum a) d → Json.Spells lone d raw → FetchedAs α raw (.ok (some a))
  /-- No value is read from a text of what is flawed. -/
  refused : ∀ {lone : Bool} {d : Datum} {raw : Bytes}, l.flawed d → Json.Spells lone d raw →
    lone = false ∨ Json.Whole (Stored.shape α) d → FetchedAs α raw (.error .malformed)

section Allows

variable {α : Type} [Stored α] {l : Leeway}

/-- Bytes that stand for a value are fetched as that value. -/
theorem fetchedAs_of_some {raw : Bytes} {a : α} (h : Stored.decode? raw = some a) :
    FetchedAs α raw (.ok (some a)) := by
  intro σ s key hpeek hserved
  rw [(gives_fetchValue_served s hserved).result]
  simp [Disk.value?, hpeek, h]

/-- Bytes that stand for none are fetched as malformed. -/
theorem fetchedAs_of_none {raw : Bytes} (h : (Stored.decode? raw : Option α) = none) :
    FetchedAs α raw (.error .malformed) := by
  intro σ s key hpeek hserved
  rw [(gives_fetchValue_served s hserved).result]
  simp [Disk.value?, hpeek, h]

/-- All that is needed of a type is enough: its values are read from every spelling of a rewriting,
and nothing is read from one of what is flawed. -/
theorem Stored.Allows.readsRewritten (h : Stored.Allows α l) : ReadsRewritten α l where
  encoded a := ⟨h.rewrites a, Json.spells_write (h.reads a)⟩
  fetched a lone d raw hrewrites hspells := by
    have hwhole := h.keeps.whole hrewrites (h.reads a).whole
    have hread : Json.read (Stored.shape α) raw = some d := by
      rcases Json.read_of_spells hspells (Stored.shape α) with hread | ⟨hpart, -⟩
      · rw [hread, hwhole]
      · -- nothing of a value is ever passed over
        exact absurd hwhole hpart
    refine fetchedAs_of_some ?_
    rw [Stored.decode?, hread, Option.bind_some, h.conforms.same hrewrites, h.parts a]
  refused {lone d raw} hflawed hspells hwhole := by
    have hread : (Stored.decode? raw : Option α) = none := by
      rw [Stored.decode?]
      rcases Json.read_of_spells hspells (Stored.shape α) with hread | ⟨hpart, hnone⟩
      · -- a flaw is not among what is passed over
        rw [hread, Option.bind_some, h.conforms.refused (h.keeps.seen hflawed)]
      · rw [hnone (hwhole.resolve_right hpart), Option.bind_none]
    exact fetchedAs_of_none hread

end Allows

/-- **Stored values are read however they are rewritten**, and never from what is flawed. A
configuration is read from any of its fields. -/
theorem rewritings_read :
    (ReadsRewritten HeaderBlock HeaderBlock.leeway ∧ ReadsRewritten BlockRecord BlockRecord.leeway ∧
      ReadsRewritten WeightProof WeightProof.leeway ∧ ReadsRewritten SubSlotEnd SubSlotEnd.leeway ∧
      ReadsRewritten TransactionFoliage TransactionFoliage.leeway ∧
      ReadsRewritten SubEpoch SubEpoch.leeway ∧ ReadsRewritten Constants Constants.leeway ∧
      ReadsRewritten Config Config.leeway) ∧
    ∀ (constants? : Option Constants) (written? : Option Datum) (retention? : Option UInt32)
      (skip? : Option Bool) (entries : List (Bytes × Datum)) (lone : Bool) (raw : Bytes),
      Option.Rel (fun c d => Constants.leeway.rewrites c.toDatum d) constants? written? →
      entries.Perm (Config.given written? (retention?.map .ofUInt32) (skip?.map .flag)) →
      Json.Spells lone (.map entries) raw →
      FetchedAs Config raw (.ok (some ⟨constants?.getD {}, retention?.getD defaultRetention,
        skip?.getD true⟩)) := by
  refine ⟨⟨HeaderBlock.allows.readsRewritten, BlockRecord.allows.readsRewritten,
    WeightProof.allows.readsRewritten, SubSlotEnd.allows.readsRewritten,
    TransactionFoliage.allows.readsRewritten, SubEpoch.allows.readsRewritten,
    Constants.allows.readsRewritten, Config.allows.readsRewritten⟩, ?_⟩
  intro constants? written? retention? skip? entries lone raw hwritten hperm hspells
  have hrewrites := Config.rewrites_given hwritten retention? skip? hperm
  exact Config.allows.readsRewritten.fetched _ hrewrites hspells

namespace Sample

/-- An end of a sub slot where the difficulty changes, and the iterations do not. -/
def slotEnd : SubSlotEnd := { newDifficulty := some 7 }

/-- The entry of the challenge. -/
def challenge : Bytes × Datum := (Bytes.ofString "challenge_hash", .ofHash Hash.zero)

/-- An entry that says that the iterations do not change. -/
def newIters : Bytes × Datum := (Bytes.ofString "new_sub_slot_iters", .null)

/-- An entry that says what the difficulty becomes. -/
def newDifficulty : Bytes × Datum := (Bytes.ofString "new_difficulty", .nat 7)

/-- An entry under a name that nobody knows. -/
def note : Bytes × Datum := (Bytes.ofString "note", .list [.null, .flag true])

/-- No part of a sub-slot end goes by the name of the note. -/
theorem unknown_note : SubSlotEnd.schema.Unknown note.1 := by
  intro name hname heq
  have hnote : "note" ∈ SubSlotEnd.schema.names := Bytes.ofString_inj.mp heq ▸ hname
  exact absurd hnote (by decide)

/-- What is kept of the end of a sub slot may stand in any order, and notes with it. -/
theorem rewrites_subSlotEnd {x : SubSlotEnd} {known notes entries : List (Bytes × Datum)}
    (hkept : KeptFields (SubSlotEnd.schema.names.zip SubSlotEnd.parts)
      [(Bytes.ofString "challenge_hash", .ofHash x.challenge),
        (Bytes.ofString "new_sub_slot_iters", .ofOption .ofUInt64 x.newSubSlotIters),
        (Bytes.ofString "new_difficulty", .ofOption .ofUInt64 x.newDifficulty)] known)
    (hnotes : ∀ e ∈ notes, e = note) (hperm : entries.Perm (known ++ notes)) :
    SubSlotEnd.leeway.rewrites x.toDatum (.map entries) := by
  have hnodup : (SubSlotEnd.schema.names.map Bytes.ofString).Nodup :=
    Bytes.nodup_map_ofString (by decide)
  refine ⟨_, _, rfl, rfl, hnodup, known, notes, hkept, fun e he => ?_, hperm⟩
  obtain rfl := hnotes e he
  exact ⟨rfl, by decide, unknown_note⟩

/-- Entries drawn from these four may be spelt as the writer spells them. -/
theorem spells_entries {entries : List (Bytes × Datum)}
    (h : ∀ e ∈ entries, e = challenge ∨ e = newIters ∨ e = newDifficulty ∨ e = note) :
    Json.Spells false (.map entries) (Json.write (.map entries)) := by
  have hreads : Json.Reads SubSlotEnd.schema.shape (.map entries) := by
    refine .map fun e he => ?_
    rcases h e he with rfl | rfl | rfl | rfl
    · exact .text
    · exact .null
    · exact .nat
    · rw [Schema.part_of_unknown unknown_note]
      exact .list (fun _ => rfl) (fun _ => rfl) (by simp [Json.Reads.null, Json.Reads.flag])
  exact Json.spells_write hreads

end Sample

/-- The end of a sub slot is read from a text with a note in front and a line end behind, and
without what is null. It is not read where its challenge is missing. -/
theorem rewritings_read_noted :
    FetchedAs SubSlotEnd
        (Json.write (.map [Sample.note, Sample.newDifficulty, Sample.challenge]) ++
          [Ascii.newline])
        (.ok (some Sample.slotEnd)) ∧
      FetchedAs SubSlotEnd (Json.write (.map [Sample.note, Sample.newDifficulty]))
        (.error .malformed) := by
  obtain ⟨⟨-, -, -, hslotEnd, -⟩, -⟩ := rewritings_read
  -- the field in the middle is null, and it is the one that is left out
  have hkept : KeptFields (SubSlotEnd.schema.names.zip SubSlotEnd.parts)
      [Sample.challenge, Sample.newIters, Sample.newDifficulty]
      [Sample.challenge, Sample.newDifficulty] :=
    .keep (.head _) rfl (.leave (.tail _ (.head _)) rfl
      (.keep (.tail _ (.tail _ (.head _))) (.inr ⟨nofun, nofun, rfl⟩) .nil))
  have hperm : [Sample.note, Sample.newDifficulty, Sample.challenge].Perm
      ([Sample.challenge, Sample.newDifficulty] ++ [Sample.note]) :=
    List.reverse_perm [Sample.challenge, Sample.newDifficulty, Sample.note]
  have hnote : ∀ e ∈ [Sample.note], e = Sample.note := by simp
  have hmissing : SubSlotEnd.leeway.flawed (.map [Sample.note, Sample.newDifficulty]) := by
    refine ⟨_, rfl, .missing (.head _) rfl ?_⟩
    refine List.forall_mem_cons.mpr ⟨by decide, List.forall_mem_singleton.mpr (by decide)⟩
  have hblanks : Json.Blanks [] ∧ Json.Blanks [Ascii.newline] := ⟨rfl, rfl⟩
  exact ⟨hslotEnd.fetched Sample.slotEnd (Sample.rewrites_subSlotEnd hkept hnote hperm)
      (.padded hblanks.1 (Sample.spells_entries (by simp)) hblanks.2),
    hslotEnd.refused hmissing (Sample.spells_entries (by simp)) (.inl rfl)⟩

/-- Bytes are fetched as one answer only. -/
theorem FetchedAs.unique {α : Type} [Stored α] {raw : Bytes} {a b : Except StoreError (Option α)}
    (ha : FetchedAs α raw a) (hb : FetchedAs α raw b) : a = b := by
  have hpeek : (({} : Disk).write "key" raw).peek "key" = some raw := by
    rw [Disk.peek_write, if_pos rfl]
  let s : Session Unit := ⟨(), ({} : Disk).write "key" raw, []⟩
  exact (ha Unit s "key" hpeek rfl).symm.trans (hb Unit s "key" hpeek rfl)

/-- **An option that is left out is taken for null**, whatever it was. The text of an end of a sub
slot without its last field, which is not null, is no error; it is read as another value. -/
theorem absent_option_fetched :
    Sample.slotEnd.toDatum = .map [Sample.challenge, Sample.newIters, Sample.newDifficulty] ∧
      Json.Spells false (.map [Sample.challenge, Sample.newIters])
        (Json.write (.map [Sample.challenge, Sample.newIters])) ∧
      FetchedAs SubSlotEnd (Json.write (.map [Sample.challenge, Sample.newIters]))
        (.ok (some { Sample.slotEnd with newDifficulty := none })) ∧
      ¬FetchedAs SubSlotEnd (Json.write (.map [Sample.challenge, Sample.newIters]))
        (.error .malformed) := by
  -- the difficulty is left out of a text that would have it null
  have hkept : KeptFields (SubSlotEnd.schema.names.zip SubSlotEnd.parts)
      [Sample.challenge, Sample.newIters, (Bytes.ofString "new_difficulty", .null)]
      [Sample.challenge, Sample.newIters] :=
    .keep (.head _) rfl (.keep (.tail _ (.head _)) (.inl ⟨rfl, rfl⟩)
      (.leave (.tail _ (.tail _ (.head _))) rfl .nil))
  have hspells : Json.Spells false (.map [Sample.challenge, Sample.newIters]) _ :=
    Sample.spells_entries (by simp)
  have hfetched := SubSlotEnd.allows.readsRewritten.fetched
    { Sample.slotEnd with newDifficulty := none }
    (Sample.rewrites_subSlotEnd hkept (List.forall_mem_nil _) (.refl _)) hspells
  exact ⟨rfl, hspells, hfetched, fun hmalformed => nomatch hfetched.unique hmalformed⟩

end HeaderChain
