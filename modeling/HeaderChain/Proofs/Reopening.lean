import HeaderChain.Proofs.Sync

/-!
# Opening again, and offering the same blocks again

A chain that stands on a proof forgets all blocks it was offered when it is closed: only its peak is
stored, and as a rule the proof does not make that peak known. Offered the same blocks again, it is
where it was.

* `Chain.exists_gives_adopted` — what the adoption of a proof comes to;
* `Chain.exists_calls_offerAll` — offered blocks write to no slot but that of the peak, so the proof
  is still stored when the chain is closed;
* `Chain.Adopted.alike_reopened` — the chain that is opened on what is stored then is, for every
  operation, the chain as it was right after the adoption: the stored peak is either unknown to the
  index that was built from the proof, or an orphan to its tip, and the tip takes its place in the
  store;
* `Chain.reopened_offerAll` — from there on the two runs go in step.
-/

namespace HeaderChain

namespace Chain

open Procedure

variable {tree : BlockTree} {v : Verifier} {k : Consensus} {config : Config} {disk : Disk}
  {w : WeightProof} {rs : List BlockRecord} {records : Option (List BlockRecord)}
  {tip : HeaderBlock} {s : Session Chain}

/-- **What the adoption of a proof comes to**, with records that are those of the verifier. -/
theorem exists_gives_adopted (hv : v w s.memory.config.skipSegments = .ok rs)
    (hr : records = none ∨ records = some rs)
    (hadopted : (offerProof v w records).result s = .ok true) :
    ∃ tip, w.tip? = some tip ∧ (offerProof v w records).Gives s (.ok true)
      ((s.memory.withProof w true).reseeded rs tip) [storesProof w, storesPeak tip] := by
  obtain ⟨a, m, cs, hgives, hoffered⟩ := offerProof_cases (v := v) (w := w) s records
  have ha : a = .ok true := hgives.result.symm.trans hadopted
  cases hoffered with
  | empty | tooLight | rejected => cases ha
  | @seeding tip rs' a m cs ht hw hr' hs =>
    -- the records are those of the verifier, whether it was asked or they came with the proof
    obtain rfl : rs' = rs := by
      obtain rfl | rfl := hr <;> obtain hsome | ⟨hnone, hv'⟩ := hr'
      · cases hsome
      · exact Except.ok.inj (hv'.symm.trans hv)
      · exact (Option.some.inj hsome).symm
      · cases hnone
    cases hs with
    | empty | tipMissing | proofRefused | peakRefused => cases ha
    | seeded ht' =>
      cases ht.symm.trans ht'
      exact ⟨_, ht, ha ▸ hgives⟩

/-- **Offered blocks write to the slot of the peak**, if at all. -/
theorem exists_calls_offerAll (blocks : List HeaderBlock) (s : Session Chain) :
    ∃ cs, (offerAll k blocks s).disk = s.disk.serveAll cs ∧ ∀ c ∈ cs, ∃ b, c = storesPeak b := by
  induction blocks generalizing s with
  | nil => exact ⟨[], rfl, List.forall_mem_nil _⟩
  | cons b blocks ih =>
    obtain ⟨a, m, cs, hgives, hoffered⟩ := offer_cases k b s
    obtain ⟨cs', hdisk, hcs'⟩ := ih ((offer k b).after s)
    have hcs : ∀ c ∈ cs, ∃ b, c = storesPeak b := fun c hc => ⟨b, (hoffered.calls c hc).1⟩
    refine ⟨cs ++ cs', ?_, List.forall_mem_append.mpr ⟨hcs, hcs'⟩⟩
    rw [Disk.serveAll_append, ← hgives.disk]
    exact hdisk

/-- What is stored under other keys is not touched. -/
theorem peek_offerAll_of_ne {key : String} (hkey : key ≠ peakKey) (blocks : List HeaderBlock)
    (s : Session Chain) : (offerAll k blocks s).disk.peek key = s.disk.peek key := by
  obtain ⟨cs, hdisk, hcs⟩ := exists_calls_offerAll (k := k) blocks s
  rw [hdisk]
  refine Disk.peek_serveAll_of_ne fun c hc => ?_
  obtain ⟨b, rfl⟩ := hcs c hc
  exact hkey

theorem legible_offerAll (hd : s.disk.Legible tree) (blocks : List HeaderBlock) :
    (offerAll k blocks s).disk.Legible tree := by
  obtain ⟨cs, hdisk, hcs⟩ := exists_calls_offerAll (k := k) blocks s
  rw [hdisk]
  refine hd.serveAll fun c hc => ?_
  obtain ⟨b, rfl⟩ := hcs c hc
  exact .setPeak

theorem serves_offerAll (hd : s.disk.Serves) (blocks : List HeaderBlock) :
    (offerAll k blocks s).disk.Serves := by
  obtain ⟨cs, hdisk, -⟩ := exists_calls_offerAll (k := k) blocks s
  rw [hdisk]
  exact hd.serveAll cs

/-- **A session right after the adoption of a proof** by a fresh chain. -/
structure Adopted (tree : BlockTree) (config : Config) (w : WeightProof) (rs : List BlockRecord)
    (tip : HeaderBlock) (s : Session Chain) : Prop where
  attests : tree.attests w rs
  last : w.tip? = some tip
  memory : s.memory = ((fresh config).withProof w true).reseeded rs tip
  serves : s.disk.Serves
  legible : s.disk.Legible tree
  peak : s.disk.peek peakKey = some (Stored.encode tip)
  proof : s.disk.peek proofKey = some (Stored.encode w)

/-- A fresh chain that adopts a proof has both slots in the store. -/
theorem exists_adopted (hd : disk.entries = ∅) (hserves : disk.Serves) (hw : tree.attests w rs)
    (hv : v w config.skipSegments = .ok rs) (hr : records = none ∨ records = some rs)
    (hadopted : offerProof v w records (opened v k config disk) = .ok true s) :
    ∃ tip, Adopted tree config w rs tip s := by
  -- an empty store is opened with the two reads alone
  have hfresh := load_of_empty (v := v) (k := k) ⟨fresh config, disk, []⟩ rfl hd hserves
  have hmemory : (opened v k config disk).memory = fresh config := hfresh.memory
  have hopened : (opened v k config disk).disk = disk.serveAll readCalls := hfresh.disk
  obtain rfl : (offerProof v w records).after (opened v k config disk) = s := by
    simp [Procedure.after, hadopted]
  obtain ⟨tip, ht, hgives⟩ := exists_gives_adopted (by rw [hmemory]; exact hv) hr
    (by simp [Procedure.result, hadopted])
  refine ⟨tip, hw, ht, ?_, ?_, ?_, ?_, ?_⟩
  · rw [hgives.memory, hmemory]
  · rw [hgives.disk, hopened]
    exact (hserves.serveAll _).serveAll _
  · rw [hgives.disk, hopened]
    have hcalls : ∀ c ∈ [storesProof w, storesPeak tip], c.Proper tree :=
      List.forall_mem_cons.mpr ⟨.setProof hw ht, List.forall_mem_singleton.mpr .setPeak⟩
    exact ((Disk.legible_of_empty hd).congr (entries_readCalls disk)).serveAll hcalls
  · -- the peak is stored last, and the proof before it under another key
    rw [hgives.disk]
    show (((opened v k config disk).disk.serveAll [storesProof w]).serve _).2.peek peakKey = _
    rw [hopened]
    exact ((hserves.serveAll _).serveAll _).peek_serve_set peakKey _
  · rw [hgives.disk]
    show ((((opened v k config disk).disk).serve (storesProof w)).2.serve _).2.peek proofKey = _
    rw [Disk.peek_serve_of_ne (show proofKey ≠ peakKey by decide), hopened]
    exact (hserves.serveAll _).peek_serve_set proofKey _

/-- **The chain is opened as it was after the adoption**, whatever blocks it was offered since. -/
theorem Adopted.alike_reopened (h : Adopted tree config w rs tip s)
    (hv : v w config.skipSegments = .ok rs) (blocks : List HeaderBlock) :
    (load v k).result ⟨fresh config, (offerAll k blocks s).disk, []⟩ = .ok () ∧
      (opened v k config (offerAll k blocks s).disk).Alike s := by
  -- the blocks have changed neither the stored proof nor that the store is legible
  have hserves := serves_offerAll (k := k) h.serves blocks
  have hlegible := legible_offerAll (k := k) h.legible blocks
  have hstored : (offerAll k blocks s).disk.peek proofKey = some (Stored.encode w) :=
    (peek_offerAll_of_ne (by decide) blocks s).trans h.proof
  have hloading := loading_opened v k config (offerAll k blocks s).disk
  obtain ⟨hresult, hmemory, hcalls⟩ :=
    hloading.eq_reseeded hlegible hstored h.attests h.last hv (hserves.accepts _)
  refine ⟨hresult, hmemory.trans h.memory.symm, ?_, ?_, h.serves⟩
  · -- the tip takes the place of the stored peak, and nothing else is written
    refine Disk.entries_eq_of_peek fun key => ?_
    rw [disk_opened, hcalls, Disk.serveAll_append]
    show ((_ : Disk).serve (storesPeak tip)).2.peek key = _
    by_cases hkey : key = peakKey
    · subst hkey
      rw [h.peak]
      exact (hserves.serveAll readCalls).peek_serve_set peakKey _
    · calc ((_ : Disk).serve (storesPeak tip)).2.peek key
          = ((offerAll k blocks s).disk.serveAll readCalls).peek key :=
            Disk.peek_serve_of_ne hkey
        _ = (offerAll k blocks s).disk.peek key := Disk.peek_congr (entries_readCalls _) key
        _ = s.disk.peek key := peek_offerAll_of_ne hkey blocks s
  · rw [disk_opened]
    exact hserves.serveAll _

/-- **Opening again and offering the same blocks again leads to the same.** A chain over an empty
store adopts a proof, and is offered blocks, whatever becomes of them. On what it has stored then it
opens again, every block has the outcome or the failure it had before, and memory and store end up
as they were. -/
theorem reopened_offerAll (hd : disk.entries = ∅) (hserves : disk.Serves)
    (hw : tree.attests w rs) (hv : v w config.skipSegments = .ok rs)
    (hr : records = none ∨ records = some rs)
    (hadopted : offerProof v w records (opened v k config disk) = .ok true s)
    (blocks : List HeaderBlock) :
    (load v k).result ⟨fresh config, (offerAll k blocks s).disk, []⟩ = .ok () ∧
      outcomes k blocks (opened v k config (offerAll k blocks s).disk) = outcomes k blocks s ∧
      (offerAll k blocks (opened v k config (offerAll k blocks s).disk)).memory =
        (offerAll k blocks s).memory ∧
      (offerAll k blocks (opened v k config (offerAll k blocks s).disk)).disk.entries =
        (offerAll k blocks s).disk.entries := by
  obtain ⟨tip, h⟩ := exists_adopted hd hserves hw hv hr hadopted
  obtain ⟨hresult, halike⟩ := h.alike_reopened (k := k) hv blocks
  obtain ⟨houtcomes, hend⟩ := alike_offerAll k halike blocks
  exact ⟨hresult, houtcomes, hend.memory, hend.entries⟩

end Chain

namespace Sample

/-- A proof that ends at the lighter branch. -/
def lighter : WeightProof := { recent := [root, child] }

/-- A chain that has adopted it. -/
def seeded : Session Chain :=
  (Chain.offerProof (.only forked) lighter none).after
    (Chain.opened (.only forked) (.only forked) {} {})

theorem attests_lighter : forkedTree.attests lighter (lighter.recent.map record) :=
  fun _ => if_pos (by decide +kernel)

end Sample

namespace Chain

open Procedure

set_option maxRecDepth 8000 in
/-- The heavier branch takes the place of the one that the proof ends at, and is what is stored as
the peak. Opening again makes it unknown, and offering it again makes it the peak again. -/
theorem reopened_forked :
    outcomes (.only Sample.forked) [Sample.rival] Sample.seeded = [.ok .newPeak] ∧
      outcomes (.only Sample.forked) [Sample.rival]
          (opened (.only Sample.forked) (.only Sample.forked) {}
            (offerAll (.only Sample.forked) [Sample.rival] Sample.seeded).disk) =
        [.ok .newPeak] := by
  have hadopted : offerProof (.only Sample.forked) Sample.lighter none
      (opened (.only Sample.forked) (.only Sample.forked) {} {}) = .ok true Sample.seeded :=
    result_eq_ok.mp (by cbv)
  have houtcomes : outcomes (.only Sample.forked) [Sample.rival] Sample.seeded =
      [.ok .newPeak] := by cbv
  obtain ⟨-, hagain, -⟩ := reopened_offerAll rfl (fun _ _ => rfl) Sample.attests_lighter
    (Sample.attests_lighter _) (.inl rfl) hadopted [Sample.rival]
  exact ⟨houtcomes, hagain.trans houtcomes⟩

end Chain

end HeaderChain
