import HeaderChain.Proofs.Damage
import HeaderChain.Proofs.Reading

/-!
# Leeway

How far a writer may go where a value of some type is expected, and what is refused there. A map may
have its entries in any order, with others between them, and without those that are what they would
be if they were absent; `Leeway` says so for every part at every depth.

* `Leeway.named`, `Leeway.items`, `Leeway.orNull` — the leeway of a map, a list and an option, from
  that of their parts;
* `Rewritten.parts?`, `Flawed.parts?` — what is found of the parts of a map that has been rewritten,
  and of one that is flawed;
* `Leeway.Conforms` — a reader goes by a leeway: it makes the same of what is rewritten, and nothing
  of what is flawed. For maps this is proved once (`Leeway.Conforms.named`), for any value that is
  put together from its parts (`Assembles`);
* `Leeway.Keeps` — nothing of what is rewritten is passed over (`Json.seen`), and a flaw is seen;
* `Stored.Allows` — all that is needed of a stored type.
-/

namespace HeaderChain

/-! ### Leeway -/

/-- **How far a writer may go** where some value is expected. -/
structure Leeway where
  /-- A datum may be written as another. -/
  rewrites : Datum → Datum → Prop
  /-- A datum is refused. -/
  flawed : Datum → Prop

namespace Leeway

/-- A datum that is written in one way only. -/
def fixed : Leeway := ⟨fun d d' => d' = d, fun _ => False⟩

/-- A list, its items in the same order. -/
def items (l : Leeway) : Leeway where
  rewrites d d' := ∃ items items', d = .list items ∧ d' = .list items' ∧
    List.Forall₂ l.rewrites items items'
  flawed d := ∃ items, d = .list items ∧ ∃ e ∈ items, l.flawed e

/-- Null, which stays null, or something else, which does not become null. -/
def orNull (l : Leeway) : Leeway where
  rewrites d d' := d = .null ∧ d' = .null ∨ d ≠ .null ∧ d' ≠ .null ∧ l.rewrites d d'
  flawed d := d ≠ .null ∧ l.flawed d

end Leeway

/-- How far a writer may go with a part of a map. -/
structure PartLeeway where
  /-- What the part is if it is absent. A part of which this is not said must be there. -/
  absent : Option Datum
  leeway : Leeway

namespace PartLeeway

/-- A part that must be there. -/
def required (l : Leeway) : PartLeeway := ⟨none, l⟩

/-- A part that may be null, and is so if it is absent. -/
def option (l : Leeway) : PartLeeway := ⟨some .null, l.orNull⟩

/-- A part that has a default. -/
def default (d : Datum) (l : Leeway) : PartLeeway := ⟨some d, l⟩

end PartLeeway

/-- **The entries of a map, kept or left out**: a part may be rewritten, and it may be left out
where it is what it would be if it were absent. -/
inductive KeptFields (named : List (String × PartLeeway)) :
    List (Bytes × Datum) → List (Bytes × Datum) → Prop
  | nil : KeptFields named [] []
  | keep {p : String × PartLeeway} {d d' : Datum} {entries entries' : List (Bytes × Datum)}
    (hp : p ∈ named) (hd : p.2.leeway.rewrites d d') (h : KeptFields named entries entries') :
    KeptFields named ((Bytes.ofString p.1, d) :: entries) ((Bytes.ofString p.1, d') :: entries')
  | leave {p : String × PartLeeway} {d : Datum} {entries entries' : List (Bytes × Datum)}
    (hp : p ∈ named) (hd : p.2.absent = some d) (h : KeptFields named entries entries') :
    KeptFields named ((Bytes.ofString p.1, d) :: entries) entries'

/-- A name that the schema does not have. -/
def Schema.Unknown (s : Schema) (name : Bytes) : Prop := ∀ n ∈ s.names, Bytes.ofString n ≠ name

/-- **The entries of a map rewritten**: some are left out, others with unknown names are added if
the schema is not strict, and their order is any. -/
structure Rewritten (s : Schema) (parts : List PartLeeway)
    (entries entries' : List (Bytes × Datum)) : Prop where
  nodup : (entries.map (·.1)).Nodup
  exists_perm : ∃ known unknown, KeptFields (s.names.zip parts) entries known ∧
    (∀ e ∈ unknown, s.strict = false ∧ Bytes.isText e.1 = true ∧ s.Unknown e.1) ∧
    entries'.Perm (known ++ unknown)

/-- **What is wrong with the entries of a map.** -/
inductive Flawed (s : Schema) (parts : List PartLeeway) (entries : List (Bytes × Datum)) : Prop
  | missing {p : String × PartLeeway} (hp : p ∈ s.names.zip parts)
    (hrequired : p.2.absent = none) (h : ∀ e ∈ entries, e.1 ≠ Bytes.ofString p.1)
  | repeated {name : String} (hname : name ∈ s.names)
    (h : 2 ≤ entries.countP fun e => e.1 == Bytes.ofString name)
  | unknown {e : Bytes × Datum} (hstrict : s.strict = true) (he : e ∈ entries) (h : s.Unknown e.1)
  | inside {p : String × PartLeeway} {d : Datum} (hp : p ∈ s.names.zip parts)
    (he : (Bytes.ofString p.1, d) ∈ entries) (h : p.2.leeway.flawed d)

/-- A map with the parts of a schema. -/
def Leeway.named (s : Schema) (parts : List PartLeeway) : Leeway where
  rewrites d d' := ∃ entries entries', d = .map entries ∧ d' = .map entries' ∧
    Rewritten s parts entries entries'
  flawed d := ∃ entries, d = .map entries ∧ Flawed s parts entries

/-! ### Parts, found in a map -/

/-- A part of a map, and what it is found as where the map is rewritten. -/
inductive PartLeeway.Rewrites (part : PartLeeway) : Option Datum → Option Datum → Prop
  | kept {d d' : Datum} (h : part.leeway.rewrites d d') : part.Rewrites (some d) (some d')
  | left {d : Datum} (h : part.absent = some d) : part.Rewrites (some d) none
  | absent : part.Rewrites none none

/-- A part with which a map is flawed. -/
inductive PartLeeway.Flawed (part : PartLeeway) : Option Datum → Prop
  | missing (h : part.absent = none) : part.Flawed none
  | inside {d : Datum} (h : part.leeway.flawed d) : part.Flawed (some d)

namespace Schema

variable {s : Schema} {parts : List PartLeeway} {surplus : Surplus}
  {entries entries' known unknown : List (Bytes × Datum)} {name : String}

/-- The part of a name, as far as there is only one. -/
def found (entries : List (Bytes × Datum)) (name : String) : Option Datum :=
  (part? entries name).getD none

/-- The order of entries makes no difference to what is found under a name. -/
theorem part?_perm (h : entries.Perm entries') (name : String) :
    part? entries name = part? entries' name := by
  have hperm := h.filter fun e => e.1 == Bytes.ofString name
  unfold part?
  generalize entries.filter (fun e => e.1 == Bytes.ofString name) = l at hperm
  generalize entries'.filter (fun e => e.1 == Bytes.ofString name) = l' at hperm
  -- of several entries there is no part, in whatever order they stand
  match l, l', hperm.length_eq, hperm with
  | [], [], _, _ => rfl
  | [e], [e'], _, hperm => rw [List.singleton_perm_singleton.mp hperm]
  | _ :: _ :: _, _ :: _ :: _, _, _ => rfl

/-- Nor do entries under other names. -/
theorem part?_append_of_ne (h : ∀ e ∈ unknown, Bytes.ofString name ≠ e.1) :
    part? (known ++ unknown) name = part? known name := by
  have hnone : unknown.filter (fun e => e.1 == Bytes.ofString name) = [] := by
    refine List.filter_eq_nil_iff.mpr fun e he => ?_
    simpa using (h e he).symm
  rw [part?, part?, List.filter_append, hnone, List.append_nil]

/-- **The parts of a map**, if all its names are admitted and none is repeated. -/
theorem parts?_map (hadmits : ∀ e ∈ entries, s.admits e.1 = true)
    (hparts : ∀ name ∈ s.names, part? entries name = some (found entries name)) :
    s.parts? surplus (.map entries) = some (s.names.map (found entries)) := by
  rw [parts?, if_pos (List.all_eq_true.mpr hadmits)]
  exact mapM_eq_some hparts

/-- A part that cannot be found makes the whole fail. -/
theorem mapM_eq_none {α β : Type} {f : α → Option β} {l : List α} {x : α} (hx : x ∈ l)
    (h : f x = none) : l.mapM f = none := by
  induction l with
  | nil => cases hx
  | cons y l ih =>
    rw [List.mapM_cons]
    rcases List.mem_cons.mp hx with rfl | hx
    · rw [h]
      rfl
    · rw [ih hx]
      cases f y <;> rfl

/-- If parts are found in a map, all its names are admitted and none is repeated. -/
theorem of_parts?_map (h : s.parts? surplus (.map entries) ≠ none) :
    (∀ e ∈ entries, s.admits e.1 = true) ∧
      ∀ name ∈ s.names, part? entries name = some (found entries name) := by
  rw [parts?] at h
  split_ifs at h with hadmits
  · refine ⟨List.all_eq_true.mp hadmits, fun name hname => ?_⟩
    cases hpart : part? entries name with
    | none => exact absurd (mapM_eq_none hname hpart) h
    | some o => rw [found, hpart, Option.getD_some]
  · exact absurd rfl h

end Schema

namespace KeptFields

variable {named : List (String × PartLeeway)} {entries known : List (Bytes × Datum)}

/-- Entries of one name are kept as they are among all. -/
theorem filter (h : KeptFields named entries known) (name : Bytes) :
    KeptFields named (entries.filter fun e => e.1 == name) (known.filter fun e => e.1 == name) := by
  -- a field and what is kept of it go by one name, so the filter takes both or neither
  induction h with
  | nil => exact .nil
  | @keep p d d' _ _ hp hd _ ih =>
    cases hname : Bytes.ofString p.1 == name with
    | true =>
      simp only [List.filter_cons, hname, if_true]
      exact .keep hp hd ih
    | false =>
      simp only [List.filter_cons, hname]
      exact ih
  | @leave p d _ _ hp hd _ ih =>
    cases hname : Bytes.ofString p.1 == name with
    | true =>
      simp only [List.filter_cons, hname, if_true]
      exact .leave hp hd ih
    | false =>
      simp only [List.filter_cons, hname]
      exact ih

/-- Entries that are kept, and those they are kept of, go by the names of the parts. -/
theorem exists_named (h : KeptFields named entries known) :
    (∀ e ∈ entries, ∃ p ∈ named, e.1 = Bytes.ofString p.1) ∧
      ∀ e ∈ known, ∃ p ∈ named, e.1 = Bytes.ofString p.1 := by
  induction h with
  | nil => exact ⟨nofun, nofun⟩
  | keep hp _ _ ih =>
    exact ⟨List.forall_mem_cons.mpr ⟨⟨_, hp, rfl⟩, ih.1⟩,
      List.forall_mem_cons.mpr ⟨⟨_, hp, rfl⟩, ih.2⟩⟩
  | leave hp _ _ ih => exact ⟨List.forall_mem_cons.mpr ⟨⟨_, hp, rfl⟩, ih.1⟩, ih.2⟩

/-- **A part is found** in the entries and in what is kept of them. -/
theorem part (hnamed : (named.map (·.1)).Nodup) (h : KeptFields named entries known)
    (hentries : (entries.map (·.1)).Nodup) {p : String × PartLeeway} (hp : p ∈ named) :
    ∃ o o', Schema.part? entries p.1 = some o ∧ Schema.part? known p.1 = some o' ∧
      p.2.Rewrites o o' := by
  have hkept := h.filter (Bytes.ofString p.1)
  have hnodup := (List.filter_sublist (l := entries)
    (p := fun e => e.1 == Bytes.ofString p.1)).map (·.1) |>.nodup hentries
  have hall : ∀ e ∈ entries.filter (fun e => e.1 == Bytes.ofString p.1),
      e.1 = Bytes.ofString p.1 := fun e he => by simpa using (List.mem_filter.mp he).2
  unfold Schema.part?
  generalize entries.filter (fun e => e.1 == Bytes.ofString p.1) = l at hkept hnodup hall
  generalize known.filter (fun e => e.1 == Bytes.ofString p.1) = l' at hkept
  -- no more than one entry has the name
  have hone : ∀ e tail, l = e :: tail → e.1 = Bytes.ofString p.1 ∧ tail = [] := by
    rintro e tail rfl
    obtain ⟨he, htail⟩ := List.forall_mem_cons.mp hall
    refine ⟨he, List.eq_nil_iff_forall_not_mem.mpr fun e' he' => ?_⟩
    rw [List.map_cons, List.nodup_cons] at hnodup
    exact hnodup.1 (List.mem_map.mpr ⟨e', he', (htail e' he').trans he.symm⟩)
  have hpart : ∀ q ∈ named, Bytes.ofString q.1 = Bytes.ofString p.1 → q = p := fun q hq hname =>
    List.inj_on_of_nodup_map hnamed hq hp (Bytes.ofString_inj.mp hname)
  -- so the part is absent on both sides, kept, or left out
  cases hkept with
  | nil => exact ⟨none, none, rfl, rfl, .absent⟩
  | @keep q d d' _ _ hq hd htail =>
    obtain ⟨hname, rfl⟩ := hone _ _ rfl
    obtain rfl := hpart q hq hname
    cases htail
    exact ⟨some d, some d', rfl, rfl, .kept hd⟩
  | @leave q d _ _ hq hd htail =>
    obtain ⟨hname, rfl⟩ := hone _ _ rfl
    obtain rfl := hpart q hq hname
    cases htail
    exact ⟨some d, none, rfl, rfl, .left hd⟩

end KeptFields

section Maps

variable {s : Schema} {parts : List PartLeeway} {surplus : Surplus}
  {entries entries' : List (Bytes × Datum)}

open Schema

theorem nodup_named (hnodup : s.names.Nodup) (hlength : parts.length = s.names.length) :
    ((s.names.zip parts).map (·.1)).Nodup := by
  rwa [List.map_fst_zip (Nat.le_of_eq hlength.symm)]

/-- Every name of the schema has its part. -/
theorem exists_part (hlength : parts.length = s.names.length) {name : String}
    (hname : name ∈ s.names) : ∃ p ∈ s.names.zip parts, p.1 = name := by
  rw [← List.map_fst_zip (Nat.le_of_eq hlength.symm)] at hname
  exact List.mem_map.mp hname

/-- **The parts of a map and of a rewritten one.** -/
theorem Rewritten.parts? (hnodup : s.names.Nodup) (hlength : parts.length = s.names.length)
    (h : Rewritten s parts entries entries') :
    s.parts? surplus (.map entries) = some (s.names.map (found entries)) ∧
      s.parts? surplus (.map entries') = some (s.names.map (found entries')) ∧
      ∀ p ∈ s.names.zip parts, p.2.Rewrites (found entries p.1) (found entries' p.1) := by
  obtain ⟨hentries, known, unknown, hkept, hunknown, hperm⟩ := h
  have hnames := hkept.exists_named
  have hadmits : ∀ {e : Bytes × Datum}, (∃ p ∈ s.names.zip parts, e.1 = Bytes.ofString p.1) →
      s.admits e.1 = true := by
    rintro e ⟨p, hp, hname⟩
    simp only [admits, Bool.or_eq_true, List.any_eq_true, beq_iff_eq]
    exact .inl ⟨p.1, (List.of_mem_zip hp).1, hname.symm⟩
  -- what has been added stands under no name of the schema
  have hpart : ∀ p ∈ s.names.zip parts, ∃ o o', part? entries p.1 = some o ∧
      part? entries' p.1 = some o' ∧ p.2.Rewrites o o' := by
    intro p hp
    have hname := (List.of_mem_zip hp).1
    rw [part?_perm hperm, part?_append_of_ne fun e he => (hunknown e he).2.2 p.1 hname]
    exact hkept.part (nodup_named hnodup hlength) hentries hp
  -- both maps are admitted, and no name is repeated in either
  refine ⟨parts?_map (fun e he => hadmits (hnames.1 e he)) fun name hname => ?_,
    parts?_map (fun e he => ?_) fun name hname => ?_, fun p hp => ?_⟩
  · obtain ⟨p, hp, rfl⟩ := exists_part hlength hname
    obtain ⟨o, o', ho, -, -⟩ := hpart p hp
    rw [found, ho, Option.getD_some]
  · rcases List.mem_append.mp (hperm.mem_iff.mp he) with he | he
    · exact hadmits (hnames.2 e he)
    · obtain ⟨hstrict, htext, -⟩ := hunknown e he
      simp [admits, hstrict, htext]
  · obtain ⟨p, hp, rfl⟩ := exists_part hlength hname
    obtain ⟨o, o', -, ho', -⟩ := hpart p hp
    rw [found, ho', Option.getD_some]
  · obtain ⟨o, o', ho, ho', hrewrites⟩ := hpart p hp
    rwa [found, ho, found, ho']

/-- **A flaw of a map** is found in one of its parts, unless there are no parts to be found. -/
theorem Flawed.parts? (h : Flawed s parts entries)
    (hparts : s.parts? surplus (.map entries) ≠ none) :
    ∃ p ∈ s.names.zip parts, p.2.Flawed (found entries p.1) := by
  obtain ⟨hadmits, hfound⟩ := of_parts?_map hparts
  -- the map has parts, so no name is repeated and none is unknown to a strict schema
  cases h with
  | @missing p hp hrequired hmissing =>
    have hnone : part? entries p.1 = some none := by
      have hfilter : entries.filter (fun e => e.1 == Bytes.ofString p.1) = [] :=
        List.filter_eq_nil_iff.mpr fun e he => by simpa using hmissing e he
      rw [part?, hfilter]
    refine ⟨p, hp, ?_⟩
    rw [found, hnone]
    exact .missing hrequired
  | @repeated name hname htwice =>
    -- a name that occurs twice is no part at all
    rw [List.countP_eq_length_filter] at htwice
    have hpart := hfound name hname
    unfold part? at hpart
    generalize entries.filter (fun e => e.1 == Bytes.ofString name) = l at htwice hpart
    rcases l with _ | ⟨_, _ | _⟩
    · simp at htwice
    · simp at htwice
    · cases hpart
  | @unknown e hstrict he hunknown =>
    have hadmit := hadmits e he
    simp only [admits, hstrict, Bool.not_true, Bool.false_and, Bool.or_false, List.any_eq_true,
      beq_iff_eq] at hadmit
    obtain ⟨name, hname, heq⟩ := hadmit
    exact absurd heq (hunknown name hname)
  -- a flaw inside a part is a flaw of what is found under its name
  | @inside p d hp he hflawed =>
    have hpart := hfound p.1 (List.of_mem_zip hp).1
    have hmem : (Bytes.ofString p.1, d) ∈
        entries.filter fun e => e.1 == Bytes.ofString p.1 := List.mem_filter.mpr ⟨he, by simp⟩
    have hd : found entries p.1 = some d := by
      unfold part? at hpart
      generalize entries.filter (fun e => e.1 == Bytes.ofString p.1) = l at hmem hpart
      rcases l with _ | ⟨e, _ | _⟩
      · cases hmem
      · obtain rfl := List.mem_singleton.mp hmem
        exact (Option.some.inj hpart).symm
      · cases hpart
    refine ⟨p, hp, ?_⟩
    rw [hd]
    exact .inside hflawed

end Maps

/-! ### Readers that go by a leeway -/

/-- **A reader goes by a leeway**: rewriting makes no difference to it, and it refuses what is
flawed. -/
structure Leeway.Conforms {α : Type} (l : Leeway) (read : Datum → Option α) : Prop where
  same : ∀ {d d' : Datum}, l.rewrites d d' → read d' = read d
  refused : ∀ {d : Datum}, l.flawed d → read d = none

/-- The same of a reader of a part. -/
structure PartLeeway.Conforms {α : Type} (part : PartLeeway) (read : Option Datum → Option α) :
    Prop where
  same : ∀ {o o' : Option Datum}, part.Rewrites o o' → read o' = read o
  refused : ∀ {o : Option Datum}, part.Flawed o → read o = none

section Readers

variable {α β : Type} {read : Datum → Option α} {l : Leeway}

namespace Leeway

theorem Conforms.fixed : Leeway.fixed.Conforms read := ⟨fun h => h ▸ rfl, False.elim⟩

/-- A reader of lists goes by the leeway of their items. -/
theorem Conforms.items (h : l.Conforms read) : l.items.Conforms (Datum.listOf? read) where
  same := by
    rintro _ _ ⟨items, items', rfl, rfl, hitems⟩
    change items'.mapM read = items.mapM read
    induction hitems with
    | nil => rfl
    | cons hd _ ih => rw [List.mapM_cons, List.mapM_cons, h.same hd, ih]
  refused := by
    rintro _ ⟨items, rfl, e, he, hflawed⟩
    exact Schema.mapM_eq_none he (h.refused hflawed)

/-- An optional value that is not null is read as a value. -/
theorem option?_of_ne_null {d : Datum} (h : d ≠ .null) : d.option? read = (read d).map some := by
  rw [Datum.option?]
  exact h

/-- A reader of optional values goes by the leeway of the value, and null is kept. -/
theorem Conforms.orNull (h : l.Conforms read) : l.orNull.Conforms (Datum.option? read) where
  same := by
    rintro d d' (⟨rfl, rfl⟩ | ⟨hd, hd', hrewrites⟩)
    · rfl
    · rw [option?_of_ne_null hd, option?_of_ne_null hd', h.same hrewrites]
  refused := by
    rintro d ⟨hd, hflawed⟩
    rw [option?_of_ne_null hd, h.refused hflawed, Option.map_none]

end Leeway

namespace PartLeeway

/-- A reader of a required part goes by its leeway: the part may not be left out. -/
theorem Conforms.required (h : l.Conforms read) :
    (PartLeeway.required l).Conforms (Part.required read) where
  same := by
    rintro _ _ (hd | habsent | -)
    · exact h.same hd
    · cases habsent
    · rfl
  refused := by
    rintro _ (- | hd)
    · rfl
    · exact h.refused hd

/-- A reader of an optional part goes by its leeway: where there is no value, the part may be left
out or null. -/
theorem Conforms.option (h : l.Conforms read) :
    (PartLeeway.option l).Conforms (Part.optional read) where
  same := by
    rintro _ _ (hd | habsent | -)
    · exact h.orNull.same hd
    · cases habsent
      rfl
    · rfl
  refused := by
    rintro _ (hmissing | hd)
    · cases hmissing
    · exact h.orNull.refused hd

/-- A reader of a part with a default goes by its leeway: where the value is the default, the part
may be left out. -/
theorem Conforms.default {a : α} {d : Datum} (h : l.Conforms read) (hd : read d = some a) :
    (PartLeeway.default d l).Conforms (Part.orElse a read) where
  same := by
    rintro _ _ (hd' | habsent | -)
    · exact h.same hd'
    · cases habsent
      exact hd.symm
    · rfl
  refused := by
    rintro _ (hmissing | hd')
    · cases hmissing
    · exact h.refused hd'

end PartLeeway

/-- **A value put together** from the parts of these names, each read by itself. -/
structure Assembles (named : List (String × PartLeeway))
    (make : (String → Option Datum) → Option α) : Prop where
  same : ∀ {f f' : String → Option Datum}, (∀ p ∈ named, p.2.Rewrites (f p.1) (f' p.1)) →
    make f' = make f
  refused : ∀ {f : String → Option Datum}, (∃ p ∈ named, p.2.Flawed (f p.1)) → make f = none

namespace Assembles

theorem nil (a : Option α) : Assembles [] fun _ => a := ⟨fun _ => rfl, nofun⟩

/-- One part more. -/
theorem cons {name : String} {part : PartLeeway} {named : List (String × PartLeeway)}
    {readPart : Option Datum → Option β} {make : β → (String → Option Datum) → Option α}
    (hpart : part.Conforms readPart) (h : ∀ b, Assembles named (make b)) :
    Assembles ((name, part) :: named) fun f => readPart (f name) >>= fun b => make b f where
  same := by
    intro f f' hparts
    obtain ⟨hname, hnamed⟩ := List.forall_mem_cons.mp hparts
    have hrest : ∀ b, make b f' = make b f := fun b => (h b).same hnamed
    simp only [hpart.same hname, hrest]
  refused := by
    rintro f ⟨p, hp, hflawed⟩
    rcases List.mem_cons.mp hp with rfl | hp
    · rw [hpart.refused hflawed]
      rfl
    · have hrest : ∀ b, make b f = none := fun b => (h b).refused ⟨p, hp, hflawed⟩
      simp [hrest]

end Assembles

/-- **A reader of maps** that looks for the parts of a schema and puts them together. -/
theorem Leeway.Conforms.named {s : Schema} {surplus : Surplus} {parts : List PartLeeway}
    {make : (String → Option Datum) → Option α} (hnodup : s.names.Nodup)
    (hlength : parts.length = s.names.length) (hmake : Assembles (s.names.zip parts) make)
    (hnone : ∀ d, s.parts? surplus d = none → read d = none)
    (hread : ∀ d f, s.parts? surplus d = some (s.names.map f) → read d = make f) :
    (Leeway.named s parts).Conforms read where
  same := by
    rintro _ _ ⟨entries, entries', rfl, rfl, h⟩
    obtain ⟨hfound, hfound', hrewrites⟩ := h.parts? hnodup hlength
    rw [hread _ _ hfound, hread _ _ hfound', hmake.same hrewrites]
  refused := by
    rintro _ ⟨entries, rfl, h⟩
    -- a name that is repeated or not admitted leaves no parts at all
    by_cases hparts : s.parts? surplus (.map entries) = none
    · exact hnone _ hparts
    · obtain ⟨hadmits, hfound⟩ := Schema.of_parts?_map hparts
      rw [hread _ _ (Schema.parts?_map hadmits hfound), hmake.refused (h.parts? hparts)]

end Readers

/-! ### What is seen of what is rewritten -/

/-- **Rewriting stays within what is seen**, where something of a shape is looked for, and what is
flawed is seen to be so. -/
structure Leeway.Keeps (shape : Shape) (l : Leeway) : Prop where
  whole : ∀ {d d' : Datum}, l.rewrites d d' → Json.Whole shape d → Json.Whole shape d'
  seen : ∀ {d : Datum}, l.flawed d → l.flawed (Json.seen shape d)

section Keeps

variable {shape : Shape} {l : Leeway}

namespace Leeway

theorem Keeps.fixed : Leeway.fixed.Keeps shape := ⟨fun h hd => h ▸ hd, False.elim⟩

/-- A list keeps what each of its items keeps. -/
theorem Keeps.items (h : l.Keeps shape) : l.items.Keeps (.listOf shape) where
  whole := by
    rintro _ _ ⟨items, items', rfl, rfl, hitems⟩ hwhole
    rw [Json.whole_listOf_iff] at hwhole ⊢
    induction hitems with
    | nil => exact nofun
    | cons hd _ ih =>
      obtain ⟨hfirst, hrest⟩ := List.forall_mem_cons.mp hwhole
      exact List.forall_mem_cons.mpr ⟨h.whole hd hfirst, ih hrest⟩
  seen := by
    rintro _ ⟨items, rfl, e, he, hflawed⟩
    rw [Json.seen_listOf]
    exact ⟨_, rfl, _, List.mem_map_of_mem he, h.seen hflawed⟩

/-- An optional value keeps what the value keeps, and there is nothing in a null to be passed
over. -/
theorem Keeps.orNull (h : l.Keeps shape) : l.orNull.Keeps shape where
  whole := by
    rintro _ _ (⟨rfl, rfl⟩ | ⟨-, -, hrewrites⟩) hwhole
    · exact hwhole
    · exact h.whole hrewrites hwhole
  seen := by
    rintro d ⟨hd, hflawed⟩
    refine ⟨?_, h.seen hflawed⟩
    cases d <;> simp_all [Json.seen]

end Leeway

/-- No hash is looked for under a name that the schema does not have. -/
theorem Schema.part_of_unknown {s : Schema} {name : Bytes} (h : s.Unknown name) :
    s.shape.part name = .anything := by
  have hfind : s.parts.find? (fun p => Bytes.ofString p.1 == name) = none := by
    refine List.find?_eq_none.mpr fun p hp heq => ?_
    exact h p.1 (List.mem_map_of_mem hp) (beq_iff_eq.mp heq)
  simp [Schema.shape, Shape.part, hfind]

/-- Of fields that are kept, nothing is passed over. -/
theorem KeptFields.whole {s : Shape} {named : List (String × PartLeeway)}
    {entries known : List (Bytes × Datum)}
    (hparts : ∀ p ∈ named, p.2.leeway.Keeps (s.part (Bytes.ofString p.1)))
    (h : KeptFields named entries known) (hentries : ∀ e ∈ entries, Json.Whole (s.part e.1) e.2) :
    ∀ e ∈ known, Json.Whole (s.part e.1) e.2 := by
  induction h with
  | nil => exact hentries
  | keep hp hd _ ih =>
    obtain ⟨hfirst, hrest⟩ := List.forall_mem_cons.mp hentries
    exact List.forall_mem_cons.mpr ⟨(hparts _ hp).whole hd hfirst, ih hrest⟩
  | leave _ _ _ ih => exact ih (List.forall_mem_cons.mp hentries).2

/-- **A map keeps what its parts keep**, each looked at with the shape of its name. -/
theorem Leeway.Keeps.named {s : Schema} {parts : List PartLeeway} (hnodup : s.names.Nodup)
    (hparts : List.Forall₂ (fun (p : String × Shape) (part : PartLeeway) =>
      part.leeway.Keeps p.2) s.parts parts) :
    (Leeway.named s parts).Keeps s.shape := by
  have hnamed : ∀ p ∈ s.names.zip parts,
      p.2.leeway.Keeps (s.shape.part (Bytes.ofString p.1)) := by
    rintro ⟨name, part⟩ hp
    rw [Schema.names, List.zip_map_left] at hp
    obtain ⟨⟨q, part'⟩, hq, heq⟩ := List.mem_map.mp hp
    cases heq
    have hmem := (List.of_mem_zip hq).1
    exact Schema.part_shape hnodup hmem ▸ (List.forall₂_iff_zip.mp hparts).2 hq
  refine ⟨?_, ?_⟩
  · rintro _ _ ⟨entries, entries', rfl, rfl, -, known, unknown, hkept, hunknown, hperm⟩ hwhole
    rw [Json.whole_map_iff] at hwhole ⊢
    intro e he
    rcases List.mem_append.mp (hperm.mem_iff.mp he) with he | he
    · exact hkept.whole hnamed hwhole e he
    · -- whatever has been added, no hash is looked for in it
      rw [Schema.part_of_unknown (hunknown e he).2.2]
      exact Json.whole_anything e.2
  · rintro _ ⟨entries, rfl, hflawed⟩
    rw [Json.seen_map]
    refine ⟨_, rfl, ?_⟩
    -- all names stay what they are
    cases hflawed with
    | missing hp hrequired h => exact .missing hp hrequired (List.forall_mem_map.mpr h)
    | repeated hname h =>
      refine .repeated hname ?_
      rwa [List.countP_map]
    | unknown hstrict he h => exact .unknown hstrict (List.mem_map_of_mem he) h
    | inside hp he h => exact .inside hp (List.mem_map_of_mem he) ((hnamed _ hp).seen h)

end Keeps

/-! ### The types -/

/-- Different names are different bytes. -/
theorem Bytes.nodup_map_ofString {names : List String} (h : names.Nodup) :
    (names.map Bytes.ofString).Nodup :=
  h.map fun _ _ heq => Bytes.ofString_inj.mp heq

theorem Datum.ofUInt64_ne_null (x : UInt64) : ofUInt64 x ≠ .null := nofun

theorem Datum.ofHash_ne_null (h : Hash) : ofHash h ≠ .null := nofun

section Unchanged

variable {α : Type} {l : Leeway} {write : α → Datum}

/-- Fields may be kept as they are. -/
theorem KeptFields.refl {named : List (String × PartLeeway)} {entries : List (Bytes × Datum)}
    (h : ∀ e ∈ entries, ∃ p ∈ named, Bytes.ofString p.1 = e.1 ∧ p.2.leeway.rewrites e.2 e.2) :
    KeptFields named entries entries := by
  induction entries with
  | nil => exact .nil
  | cons e entries ih =>
    obtain ⟨⟨p, hp, hname, hd⟩, hrest⟩ := List.forall_mem_cons.mp h
    obtain ⟨_, d⟩ := e
    cases hname
    exact .keep hp hd (ih hrest)

/-- Parts stand beside the data they belong to. -/
theorem exists_zip {β γ : Type} {r : α → β → Prop} {as : List α} {bs : List β}
    (h : List.Forall₂ r as bs) (names : List γ) :
    ∀ p ∈ names.zip bs, ∃ q ∈ names.zip as, q.1 = p.1 ∧ r q.2 p.2 := by
  induction h generalizing names with
  | nil => simp
  | @cons a b as bs hab _ ih =>
    cases names with
    | nil => simp
    | cons name names =>
      rw [List.zip_cons_cons, List.zip_cons_cons]
      refine List.forall_mem_cons.mpr ⟨⟨_, List.mem_cons_self, rfl, hab⟩, fun p hp => ?_⟩
      obtain ⟨q, hq, hname, hr⟩ := ih names p hp
      exact ⟨q, List.mem_cons_of_mem _ hq, hname, hr⟩

/-- **A value may be written as it is**, if its parts may. -/
theorem Leeway.rewrites_toMap {s : Schema} {parts : List PartLeeway} {data : List Datum}
    (hnodup : s.names.Nodup) (hlength : parts.length = s.names.length)
    (h : List.Forall₂ (fun (part : PartLeeway) d => part.leeway.rewrites d d) parts data) :
    (Leeway.named s parts).rewrites (s.toMap data) (s.toMap data) := by
  have hdata : s.names.length ≤ data.length := by rw [← hlength, h.length_eq]
  refine ⟨_, _, rfl, rfl, ?_, _, [], .refl fun e he => ?_, nofun, by rw [List.append_nil]⟩
  · rw [List.map_fst_zip (by simpa using hdata)]
    exact Bytes.nodup_map_ofString hnodup
  · rw [List.zip_map_left] at he
    obtain ⟨p, hp, rfl⟩ := List.mem_map.mp he
    obtain ⟨q, hq, hname, hd⟩ := exists_zip h s.names p hp
    exact ⟨q, hq, congrArg _ hname, hd⟩

/-- A list may stay as it is if each of its items may. -/
theorem Leeway.rewrites_items (h : ∀ a, l.rewrites (write a) (write a)) (as : List α) :
    l.items.rewrites (.list (as.map write)) (.list (as.map write)) :=
  ⟨_, _, rfl, rfl, List.forall₂_same.mpr (List.forall_mem_map.mpr fun a _ => h a)⟩

/-- An optional value may stay as it is, if no value is written as null. -/
theorem Leeway.rewrites_ofOption (h : ∀ a, l.rewrites (write a) (write a))
    (hnull : ∀ a, write a ≠ .null) (a : Option α) :
    l.orNull.rewrites (.ofOption write a) (.ofOption write a) := by
  cases a with
  | none => exact .inl ⟨rfl, rfl⟩
  | some a => exact .inr ⟨hnull a, hnull a, h a⟩

/-- An option of something that is written in one way only. -/
theorem Leeway.rewrites_ofOption_fixed (hnull : ∀ a, write a ≠ .null) (a : Option α) :
    Leeway.fixed.orNull.rewrites (.ofOption write a) (.ofOption write a) :=
  rewrites_ofOption (fun _ => rfl) hnull a

end Unchanged

/-- **A stored type that allows some leeway**: its values read back, its reader goes by the leeway,
and the leeway goes by the shape that is looked for. -/
structure Stored.Allows (α : Type) [Stored α] (l : Leeway) : Prop where
  conforms : l.Conforms (Stored.ofDatum? (α := α))
  keeps : l.Keeps (Stored.shape α)
  rewrites : ∀ a : α, l.rewrites (Stored.toDatum a) (Stored.toDatum a)
  reads : ∀ a : α, Json.Reads (Stored.shape α) (Stored.toDatum a)
  parts : ∀ a : α, Stored.ofDatum? (Stored.toDatum a) = some a

end HeaderChain
