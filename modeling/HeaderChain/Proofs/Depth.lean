import HeaderChain.Proofs.Metrics
import HeaderChain.Proofs.Reorganisation

/-!
# The depth of a reorganisation

A new peak may take canonical heights from the old one, and a recorder is told how many. That number
is not counted: it is the distance from the old peak down to the lowest height that changes.

* `Index.Loses`, `Index.discarded` — the heights of one index that are not canonical for the same
  block in another one, and how many there are;
* `Session.TellsDepth` — what a recorder is told of reorganisations between two sessions, and
  `Chain.tellsDepth_offer` — what it is told of an offered block;
* `Chain.Sound.loses_iff` — a new peak takes the heights of the old canonical chain above the fork;
* `Chain.Reached.depth_told` — so a depth is told exactly if a height is discarded, and it is their
  number exactly if the old canonical chain reaches down to the fork;
* `Chain.depth_overcounts` — which it need not if it starts at a weight proof.
-/

namespace HeaderChain

/-! ### Heights that are discarded -/

namespace Index

variable {i j : Index}

/-- A canonical height of an index has lost its block in another one. -/
def Loses (i j : Index) (h : Height) : Prop := ∃ x, i.hashAt? h = some x ∧ j.hashAt? h ≠ some x

/-- **The number of canonical heights** of an index that have lost their block in another one. -/
def discarded (i j : Index) : Nat := (i.canonical.filter fun h x => j.hashAt? h ≠ some x).size

/-- **Heights that lie in a row are counted by their ends.** -/
theorem discarded_eq_sub {low high : Nat} (hhigh : high ≤ UInt32.size)
    (hlost : ∀ h, i.Loses j h ↔ low ≤ h.toNat ∧ h.toNat < high) :
    i.discarded j = high - low := by
  -- the keys that are counted are the heights of the row
  have hperm : (i.canonical.filter fun h x => j.hashAt? h ≠ some x).keys.Perm
      ((List.range' low (high - low)).map UInt32.ofNat) := by
    refine (List.perm_ext_iff_of_nodup Std.ExtTreeMap.nodup_keys ?_).mpr fun h => ?_
    · refine List.Nodup.map_on (fun a ha b hb hab => ?_) List.nodup_range'
      have heq := congrArg UInt32.toNat hab
      rw [List.mem_range'_1] at ha hb
      rwa [UInt32.toNat_ofNat_of_lt' (by omega), UInt32.toNat_ofNat_of_lt' (by omega)] at heq
    · have hkey : h ∈ (i.canonical.filter fun h x => j.hashAt? h ≠ some x).keys ↔
          i.Loses j h := by
        rw [Std.ExtTreeMap.mem_keys, Std.ExtTreeMap.mem_iff_isSome_getElem?,
          Std.ExtTreeMap.getElem?_filter', Option.isSome_iff_exists]
        simp only [Option.filter_eq_some_iff, decide_eq_true_eq]
        rfl
      rw [hkey, hlost, List.mem_map]
      constructor
      · intro hrange
        exact ⟨h.toNat, List.mem_range'_1.mpr (by omega), UInt32.ofNat_toNat⟩
      · rintro ⟨n, hn, rfl⟩
        rw [List.mem_range'_1] at hn
        rw [UInt32.toNat_ofNat_of_lt' (by omega)]
        omega
  have hlength := hperm.length_eq
  rwa [Std.ExtTreeMap.length_keys, List.length_map, List.length_range'] at hlength

/-- Where no height is lost, none is discarded. -/
theorem discarded_eq_zero (h : ∀ h, ¬i.Loses j h) : i.discarded j = 0 := by
  have hrow : ∀ h, i.Loses j h ↔ 0 ≤ h.toNat ∧ h.toNat < 0 := fun k =>
    iff_of_false (h k) fun hk => Nat.not_lt_zero _ hk.2
  exact discarded_eq_sub (Nat.zero_le _) hrow

end Index

/-! ### What a recorder is told -/

/-- **What a recorder is told of reorganisations** between two sessions: of one, with its depth, or
of none. -/
structure Session.TellsDepth (depth : Option UInt32) (s t : Session Chain) : Prop where
  depths : t.readings.depths = s.readings.depths ++ depth.toList
  reorganisations : t.readings.reorganisations = depth.elim s.readings.reorganisations fun _ =>
    Readings.increase s.readings.reorganisations 1

open Procedure Session

section Telling

variable {s t u : Session Chain} {depth : Option UInt32}

/-- With the same readings a recorder is told of no reorganisation. -/
theorem tellsDepth_of_readings (h : t.readings = s.readings) : s.TellsDepth none t := by
  constructor
  · rw [h, Option.toList_none, List.append_nil]
  · rw [h, Option.elim_none]

/-- So it is where nothing was measured. -/
theorem Session.SameFor.tellsDepth {τ : Type} {part : Chain → τ} (h : s.SameFor part t) :
    s.TellsDepth none t :=
  tellsDepth_of_readings h.readings

/-- Before a step that tells of a depth, others may tell of none. -/
theorem Session.TellsDepth.after_none (h : s.TellsDepth none t) (h' : t.TellsDepth depth u) :
    s.TellsDepth depth u := by
  have hdepths : t.readings.depths = s.readings.depths := by simpa using h.depths
  have hcount : t.readings.reorganisations = s.readings.reorganisations := h.reorganisations
  constructor
  · rw [h'.depths, hdepths]
  · rw [h'.reorganisations, hcount]

/-- And so they may after it. -/
theorem Session.TellsDepth.then_none (h : s.TellsDepth depth t) (h' : t.TellsDepth none u) :
    s.TellsDepth depth u := by
  constructor
  · rw [h'.depths, h.depths, Option.toList_none, List.append_nil]
  · rw [h'.reorganisations, h.reorganisations, Option.elim_none]

/-- Other metrics than the two of reorganisations tell nothing of them. -/
theorem tellsDepth_measure (s : Session Chain) {v : Measurement}
    (hdepths : ∀ r : Readings, (r.record v).depths = r.depths)
    (hcount : ∀ r : Readings, (r.record v).reorganisations = r.reorganisations) :
    s.TellsDepth none ((measure v : Chain.Operation Unit).after s) := by
  constructor
  · rw [readings_measure, hdepths, Option.toList_none, List.append_nil]
  · rw [readings_measure, hcount, Option.elim_none]

/-- A reorganisation is told of with its depth. -/
theorem tellsDepth_depth (s : Session Chain) (depth : UInt32) :
    s.TellsDepth (some depth) ((measure (.depth depth) : Chain.Operation Unit).after
      ((measure (.reorganised 1) : Chain.Operation Unit).after s)) := by
  constructor <;> rw [readings_measure, readings_measure]
  · rfl
  · rfl

theorem tellsDepth_log (s : Session Chain) (event : Event) :
    s.TellsDepth none ((log event : Chain.Operation Unit).after s) := by
  have hstill : (log event : Chain.Operation Unit).Still Chain.index := still_log event
  exact (hstill s).tellsDepth

end Telling

namespace Chain

variable {tree : BlockTree} {rooted : Prop} {k : Consensus} {b peak : HeaderBlock}
  {r : BlockRecord} {s : Session Chain} {c m : Chain} {d : Disk} {cs : List Call}
  {choice : Choice} {changedFrom h : Height} {path : List BlockRecord}
  {a : Except ChainError Outcome} {e : ChainError}

/-- The depth that is told of if the heights from one on are changed. -/
def depthFrom (old : Option HeaderBlock) (changedFrom : Height) : Option UInt32 :=
  old.bind fun peak =>
    if changedFrom ≤ peak.height then some (peak.height + 1 - changedFrom) else none

/-- **The depth that is told of an offered block**, by what became of it. -/
def depthOf (k : Consensus) (b : HeaderBlock) (c : Chain) (a : Except ChainError Outcome) :
    Option UInt32 :=
  match a, c.recordOf? k b with
  | .ok .newPeak, some r =>
    (c.standing? k r).toOption.bind fun choice =>
      (choice.changedFrom? r.height).bind (depthFrom c.peak?)
  | _, _ => none

/-- A new peak is told of with the depth from where the heights change. -/
theorem depthOf_newPeak (hr : Validated k b c r) (hs : c.standing? k r = .ok choice)
    (hc : choice.changedFrom? r.height = some changedFrom) :
    c.depthOf k b (.ok .newPeak) = depthFrom c.peak? changedFrom := by
  simp [depthOf, recordOf?_eq_some.mpr hr, hs, hc, Except.toOption]

/-- No other outcome is told of with a depth. -/
theorem depthOf_of_ne (h : a ≠ .ok .newPeak) : c.depthOf k b a = none := by
  unfold depthOf
  split
  next => exact absurd rfl h
  next => rfl

theorem depthOf_of_none (h : c.recordOf? k b = none) : c.depthOf k b a = none := by
  unfold depthOf
  split
  next hr => cases h.symm.trans hr
  next => rfl

/-! ### Each step of an offer -/

/-- An eviction tells of no reorganisation. -/
theorem tellsDepth_evict (s : Session Chain) (height : Height) :
    s.TellsDepth none ((evict height).after s) := by
  have hsame : (memory : Operation Chain).after s = s := rfl
  unfold evict
  rw [after_bind_of_ok (gives_memory s).result, hsame]
  cases s.memory.config.floor? height with
  | none => exact tellsDepth_of_readings rfl
  | some floor =>
    dsimp only
    have hset : s.TellsDepth none ((setIndex (s.memory.index.pruneBelow floor).1).after s) :=
      tellsDepth_of_readings rfl
    rw [after_bind_of_ok (gives_setIndex s _).result]
    -- an eviction that takes nothing is not even logged
    by_cases hcount : 0 < (s.memory.index.pruneBelow floor).2
    · rw [if_pos hcount, after_bind_of_ok (gives_log _ _).result]
      have hlog := hset.after_none
        (tellsDepth_log _ (.evicted floor (s.memory.index.pruneBelow floor).2))
      exact hlog.then_none (tellsDepth_measure _ (fun _ => rfl) fun _ => rfl)
    · rw [if_neg hcount]
      exact hset

/-- **A new peak is told of with the depth** of what it changes. -/
theorem tellsDepth_announce (s : Session Chain) (old : Option HeaderBlock) (changedFrom : Height)
    (timestamp : UInt64) :
    s.TellsDepth (depthFrom old changedFrom) ((announce r old changedFrom timestamp).after s) := by
  unfold announce
  cases old with
  | none => exact tellsDepth_log s _
  | some old =>
    -- a depth is told only where heights of the old chain change
    by_cases hdepth : changedFrom ≤ old.height
    · have hfrom : depthFrom (some old) changedFrom = some (old.height + 1 - changedFrom) :=
        if_pos hdepth
      simp only [hdepth, if_true, hfrom]
      rw [after_bind_of_ok (gives_log s _).result, after_bind_of_ok (gives_measure _ _).result]
      exact (tellsDepth_log s _).after_none (tellsDepth_depth _ _)
    · have hfrom : depthFrom (some old) changedFrom = none := if_neg hdepth
      simp only [hdepth, if_false, hfrom]
      exact tellsDepth_log s _

/-- A record that is made the peak tells of the depth; a failure tells of nothing. -/
theorem tellsDepth_adopt (s : Session Chain) (changedFrom : Height) :
    (adopt r b changedFrom).EndsIn s fun a s' =>
      match a with
      | .ok _ => s.TellsDepth (depthFrom s.memory.peak? changedFrom) s'
      | .error _ => s.TellsDepth none s' := by
  unfold adopt
  refine endsIn_memory_bind ?_
  have hexpect : (expect (s.memory.index.pathDown changedFrom r) : Operation _).Still Chain.index :=
    still_expect _
  refine (hexpect.endsIn s).bind (fun e s₁ h₁ => h₁.tellsDepth) fun path s₁ h₁ => ?_
  refine ((still_onSlots (Slots.still_setPeak b _)).endsIn s₁).bind
    (fun e s₂ h₂ => (h₁.trans h₂).tellsDepth) fun _ s₂ h₂ => ?_
  -- from here on nothing fails
  refine endsIn_bind_of_ok (gives_setIndex s₂ _).result ?_
  refine endsIn_bind_of_ok (gives_evict _ _).result ?_
  refine endsIn_bind_of_ok (gives_measure _ _).result ?_
  refine endsIn_of_result (gives_announce r _ _ _ _).result ?_
  have hset : s.TellsDepth none
      ((setIndex (replaceFrom (s.memory.index.add r) changedFrom path)).after s₂) :=
    (h₁.trans h₂).tellsDepth.after_none (tellsDepth_of_readings rfl)
  have hpeak := (hset.after_none (tellsDepth_evict _ r.height)).then_none
    (tellsDepth_measure _ (v := .peakAt r.height) (fun _ => rfl) fun _ => rfl)
  exact hpeak.after_none (tellsDepth_announce _ _ _ _)

/-- The place of a record is found, or is not. -/
theorem tellsDepth_place (hr : Validated k b s.memory r) :
    (place k r b).EndsIn s fun a s' => s.TellsDepth (s.memory.depthOf k b a) s' := by
  -- weighing the block measures nothing, so all that counts comes after it
  have hstanding : ((standing k r).attempt : Operation (Except ChainError Choice)).Gives s _ _ _ :=
    (gives_standing k r s).attempt
  have hsame : s.SameFor Chain.index (((standing k r).attempt : Operation _).after s) :=
    still_standing.attempt s
  have hmemory := hstanding.memory
  refine endsIn_bind_of_ok hstanding.result ?_
  generalize ((standing k r).attempt : Operation _).after s = s₁ at hsame hmemory ⊢
  have hlog : ∀ event, s.TellsDepth none ((log event : Operation Unit).after s₁) := fun event =>
    hsame.tellsDepth.after_none (tellsDepth_log s₁ event)
  cases hs : s.memory.standing? k r with
  -- a block that cannot be compared is only indexed
  | error e =>
    refine endsIn_bind_of_ok (gives_log _ _).result ?_
    refine endsIn_memory_bind ?_
    refine endsIn_bind_of_ok (gives_setIndex _ _).result ?_
    refine endsIn_of_result (gives_throw _ e).result ?_
    rw [depthOf_of_ne (by simp)]
    exact (hlog _).then_none (tellsDepth_of_readings rfl)
  | ok choice =>
    dsimp only
    cases hc : choice.changedFrom? r.height with
    -- so is one that changes no height
    | none =>
      refine endsIn_memory_bind ?_
      refine endsIn_bind_of_ok (gives_log _ _).result ?_
      refine endsIn_bind_of_ok (gives_setIndex _ _).result ?_
      refine endsIn_of_result (gives_pure _ _).result ?_
      rw [depthOf_of_ne (by simp)]
      exact (hlog _).then_none (tellsDepth_of_readings rfl)
    | some changedFrom =>
      -- what adopting tells of counts only where it ends well: then this is a new peak
      refine (tellsDepth_adopt (b := b) s₁ changedFrom).bind (fun e s₂ h₂ => ?_) fun _ s₂ h₂ => ?_
      · rw [depthOf_of_ne (by simp)]
        exact hsame.tellsDepth.after_none h₂
      · refine endsIn_of_result (gives_pure s₂ _).result ?_
        rw [depthOf_newPeak hr hs hc, ← hmemory]
        exact hsame.tellsDepth.after_none h₂

/-- **What is told of a block that is considered** is settled by what became of it. -/
theorem tellsDepth_consider (s : Session Chain) :
    (consider k b).EndsIn s fun a s' => s.TellsDepth (s.memory.depthOf k b a) s' := by
  refine endsIn_consider (fun hr a s' hsame => ?_) fun r s' hr hmemory hsame => ?_
  · rw [depthOf_of_none hr]
    exact hsame.tellsDepth
  · have hplace : (place k r b).EndsIn s' fun a t => s'.TellsDepth (s'.memory.depthOf k b a) t :=
      tellsDepth_place (hmemory ▸ hr)
    rw [hmemory] at hplace
    exact hsame.tellsDepth.after_none hplace

/-- **What is told of an offered block.** -/
theorem tellsDepth_offer (k : Consensus) (b : HeaderBlock) (s : Session Chain) :
    s.TellsDepth (s.memory.depthOf k b ((offer k b).result s)) ((offer k b).after s) := by
  have hoffer : (offer k b).EndsIn s fun a s' => s.TellsDepth (s.memory.depthOf k b a) s' := by
    unfold offer
    refine (tellsDepth_consider s).bind (fun e s₁ h₁ => h₁) fun outcome s₁ h₁ => ?_
    refine endsIn_bind_of_ok (gives_measure _ _).result ?_
    refine endsIn_of_result (gives_pure _ outcome).result (h₁.then_none ?_)
    exact tellsDepth_measure s₁ (fun _ => rfl) fun _ => rfl
  exact hoffer

/-! ### The heights that a new peak takes -/

/-- The walk down from a block stops at the height it was to stop at. -/
theorem le_height_of_pathDown (hi : c.index.Within tree) (hb : tree.has b) (hr : r.Copies b)
    (hpath : c.index.pathDown changedFrom r = .ok path) (hle : changedFrom ≤ b.height) :
    ∀ q ∈ path, changedFrom ≤ q.height := by
  obtain ⟨q, l, hl, hcopies, -, hfloor⟩ := (Index.walk_of_walkDown hpath).descent hi hb hr
  intro a ha
  obtain ⟨y, hy, hay⟩ := BlockRecord.exists_block hcopies ha
  rw [hay.height, ← hfloor hle]
  exact hl.le_height hy

/-- Below the lowest height that changes nothing does. -/
theorem hashAt?_adopted_of_lt (hpath : ∀ q ∈ path, changedFrom ≤ q.height)
    (hlt : h < changedFrom) :
    (c.adopted b r changedFrom path).index.hashAt? h = c.index.hashAt? h := by
  have hreplaced : (replaceFrom (c.index.add r) changedFrom path).hashAt? h =
      c.index.hashAt? h := by
    refine Index.replaceFrom_induction (P := fun j => j.hashAt? h = c.index.hashAt? h) ?_ ?_
    · rw [Index.hashAt?_dropHeightsFrom, if_pos hlt, Index.hashAt?_add]
    · intro j hj q hq
      rw [Index.hashAt?_setHeight, if_neg, hj]
      rintro rfl
      exact UInt32.not_lt.mpr (hpath q hq) hlt
  rw [← hreplaced, Index.hashAt?, Index.hashAt?, adopted, canonical_evicted]

/-- **A new peak takes the heights of the old canonical chain above the fork**, and no others. -/
theorem Sound.loses_iff (hs : c.Sound tree rooted) (hk : k.Obeys tree) (hr : Validated k b c r)
    (hstanding : c.standing? k r = .ok choice)
    (hc : choice.changedFrom? r.height = some changedFrom)
    (hpath : c.index.pathDown changedFrom r = .ok path) (hpeak : c.peak? = some peak) :
    ∃ fork low, tree.IsFork b peak fork ∧ changedFrom.toNat = aboveFork fork ∧
      c.index.Interval peak low ∧ (rooted → low = 0) ∧
      ∀ h, c.index.Loses (c.adopted b r changedFrom path).index h ↔
        max (aboveFork fork) low.toNat ≤ h.toNat ∧ h.toNat < peak.height.toNat + 1 := by
  obtain ⟨hb, hcopies⟩ := hr.copies hk
  obtain ⟨l, foot, hl, hspine, hfoot⟩ := hs.spine peak hpeak
  obtain ⟨p, hp, hof⟩ : ∃ p, c.index.record? peak.hash = some p ∧
      Choice.of k.findFork c.index r (some p) = .ok choice := by
    rcases standing?_eq_ok hstanding with ⟨hnone, -⟩ | ⟨peak', p, hpeak', hp, hof⟩
    · cases hnone.symm.trans hpeak
    · cases hpeak'.symm.trans hpeak
      exact ⟨p, hp, hof⟩
  -- the heights change from right above the fork, and both chains are descents in the tree
  obtain ⟨fork, hfork, habove, hle⟩ := exists_fork hs.within hk.findFork hb hcopies hr.fresh
    (hl.has_of_mem hl.head_mem) hp hof hc
  have hnew : (c.adopted b r changedFrom path).Sound tree rooted :=
    hs.adopted hk.findFork hb hcopies (fun hnone => hr.height_eq_zero (hs.idle hnone).1) hstanding
      hc hpath
  obtain ⟨l', foot', hl', hspine', -⟩ := hnew.spine b peak?_adopted
  refine ⟨fork, foot.height, hfork, habove, hspine.interval hl hs.within, hfoot, fun h => ?_⟩
  -- a height that is lost has changed, so it lies above the fork, and between the ends of the old
  -- chain
  constructor
  · rintro ⟨x, hx, hlost⟩
    have hchanged : ¬h < changedFrom := fun hlt =>
      have hfork := le_height_of_pathDown hs.within hb hcopies hpath hle
      hlost ((hashAt?_adopted_of_lt hfork hlt).trans hx)
    obtain ⟨y, hy, rfl, rfl⟩ := (hspine h x).mp hx
    have hlow := UInt32.le_iff_toNat_le.mp (hl.le_height hy)
    have hhigh := UInt32.le_iff_toNat_le.mp (hl.height_le hy)
    rw [UInt32.not_lt, UInt32.le_iff_toNat_le] at hchanged
    omega
  · rintro ⟨hlow, hhigh⟩
    have hlow' : foot.height ≤ h := UInt32.le_iff_toNat_le.mpr (by omega)
    have hhigh' : h ≤ peak.height := UInt32.le_iff_toNat_le.mpr (by omega)
    obtain ⟨y, hy, rfl⟩ := hl.exists_height hlow' hhigh'
    refine ⟨y.hash, (hspine _ _).mpr ⟨y, hy, rfl, rfl⟩, fun hkept => ?_⟩
    -- a block that stays canonical would be a common ancestor above the fork
    obtain ⟨z, hz, -, hzy⟩ := (hspine' _ _).mp hkept
    obtain rfl : z = y := tree.eq_of_hash (hl'.has_of_mem hz) (hl.has_of_mem hy) hzy
    have hbelow := hl'.below_of_mem hz
    have hbelow' := hl.below_of_mem hy
    cases fork with
    | none => exact hfork z hbelow hbelow'
    | some m =>
      have hm := UInt32.le_iff_toNat_le.mp (hfork.2.2 z hbelow hbelow')
      have habove' : aboveFork (some m) = m.height.toNat + 1 := rfl
      omega

/-! ### Every offer -/

/-- What is not a new peak leaves the canonical heights as they are. -/
theorem Offered.hashAt?_eq (h : Offered k b c d a m cs) (ha : a ≠ .ok .newPeak) :
    m.index.hashAt? = c.index.hashAt? := by
  cases h with
  | newPeak => exact absurd rfl ha
  | _ => rfl

/-- **A reorganisation of some depth**: the new peak and the old one part at the fork, and the old
canonical chain goes down to the height `low`. -/
structure Reorganises (tree : BlockTree) (c m : Chain) (b peak : HeaderBlock)
    (fork : Option HeaderBlock) (low : Height) (depth : UInt32) : Prop where
  top : c.peak? = some peak
  parted : tree.IsFork b peak fork
  interval : c.index.Interval peak low
  /-- The depth is the number of heights from the fork to the old peak, as far as a word tells. -/
  depth_eq : depth.toNat = (peak.height.toNat + 1 - aboveFork fork) % UInt32.size
  /-- Of these heights the ones are discarded that were canonical. -/
  discarded_eq : c.index.discarded m.index =
    peak.height.toNat + 1 - max (aboveFork fork) low.toNat
  exact_iff : depth.toNat = c.index.discarded m.index ↔ low.toNat ≤ aboveFork fork ∧ depth ≠ 0

/-- The depth in wrapping arithmetic. -/
theorem toNat_depth {top bottom : Height} (hle : bottom ≤ top) :
    (top + 1 - bottom).toNat = (top.toNat + 1 - bottom.toNat) % UInt32.size := by
  have hsize : UInt32.size = 4294967296 := rfl
  have htop := top.toNat_lt
  rw [UInt32.le_iff_toNat_le] at hle
  rw [UInt32.toNat_sub, UInt32.toNat_add, UInt32.toNat_one, hsize]
  omega

/-- What is told of a new peak over an old one. -/
theorem Sound.depthFrom_iff (hs : c.Sound tree rooted) (hk : k.Obeys tree)
    (hr : Validated k b c r) (hstanding : c.standing? k r = .ok choice)
    (hc : choice.changedFrom? r.height = some changedFrom)
    (hpath : c.index.pathDown changedFrom r = .ok path) (hpeak : c.peak? = some peak) :
    (depthFrom (some peak) changedFrom ≠ none ↔
        0 < c.index.discarded (c.adopted b r changedFrom path).index) ∧
      ∀ n, depthFrom (some peak) changedFrom = some n → ∃ fork low, (rooted → low = 0) ∧
        Reorganises tree c (c.adopted b r changedFrom path) b peak fork low n := by
  obtain ⟨fork, low, hfork, habove, hinterval, hlow, hlost⟩ :=
    hs.loses_iff hk hr hstanding hc hpath hpeak
  have hsize : UInt32.size = 4294967296 := rfl
  have htop := peak.height.toNat_lt
  have hcount := Index.discarded_eq_sub (Nat.succ_le_of_lt htop) hlost
  have hle := UInt32.le_iff_toNat_le.mp hinterval.low_le
  -- where heights up to the peak change, the depth is told, in wrapping arithmetic
  by_cases hdepth : changedFrom ≤ peak.height
  · have hfrom : depthFrom (some peak) changedFrom = some (peak.height + 1 - changedFrom) :=
      if_pos hdepth
    have hword := toNat_depth hdepth
    rw [UInt32.le_iff_toNat_le, habove] at hdepth
    rw [habove] at hword
    refine ⟨iff_of_true (by simp [hfrom]) (by omega), fun n hn => ?_⟩
    obtain rfl := Option.some.inj (hfrom.symm.trans hn)
    refine ⟨fork, low, hlow, hpeak, hfork, hinterval, hword, hcount, ?_⟩
    have hzero : peak.height + 1 - changedFrom ≠ 0 ↔
        (peak.height + 1 - changedFrom).toNat ≠ 0 := not_congr UInt32.toNat_inj.symm
    rw [hzero, hcount, hword, hsize]
    omega
  · have hfrom : depthFrom (some peak) changedFrom = none := if_neg hdepth
    rw [UInt32.le_iff_toNat_le, habove] at hdepth
    refine ⟨iff_of_false (by simp [hfrom]) (by omega), fun n hn => ?_⟩
    cases hfrom.symm.trans hn

/-- **A depth is told exactly if heights are discarded.** Whenever a block is offered to a chain,
and whatever becomes of it, a recorder is told of a reorganisation if and only if a canonical height
has lost its block. The depth it is told is the number of these heights if and only if the old
canonical chain reaches down to the fork, and they are not all the heights there are. -/
theorem Reached.depth_told {seeded : Bool} (h : Reached tree seeded s) (hk : k.Obeys tree)
    (b : HeaderBlock) :
    ∃ depth, s.TellsDepth depth ((offer k b).after s) ∧
      (depth ≠ none ↔
        0 < s.memory.index.discarded ((offer k b).after s).memory.index) ∧
      ∀ n, depth = some n → ∃ peak fork low, (seeded = false → low = 0) ∧
        Reorganises tree s.memory ((offer k b).after s).memory b peak fork low n := by
  have hs := h.sound
  have htold := tellsDepth_offer k b s
  obtain ⟨a, m, cs, hgives, hoffered⟩ := offer_cases k b s
  rw [hgives.result] at htold
  refine ⟨_, htold, ?_⟩
  rw [hgives.memory]
  -- where no height is lost there is nothing to tell
  have hquiet : (∀ h, ¬s.memory.index.Loses m.index h) → s.memory.depthOf k b a = none →
      (s.memory.depthOf k b a ≠ none ↔ 0 < s.memory.index.discarded m.index) ∧
        ∀ n, s.memory.depthOf k b a = some n → ∃ peak fork low, (seeded = false → low = 0) ∧
          Reorganises tree s.memory m b peak fork low n := by
    intro hlost hnone
    rw [hnone, Index.discarded_eq_zero hlost]
    exact ⟨iff_of_false (fun h => h rfl) (Nat.lt_irrefl 0), fun n hn => by cases hn⟩
  -- only a new peak is told of, and only over an old one
  by_cases ha : a = .ok .newPeak
  · subst ha
    cases hoffered with
    | @newPeak r choice changedFrom path hr hstanding hc hpath =>
      have hdepth := depthOf_newPeak hr hstanding hc
      cases hpeak : s.memory.peak? with
      | none =>
        refine hquiet ?_ (hdepth.trans (by rw [hpeak]; rfl))
        rintro h ⟨x, hx, -⟩
        obtain ⟨y, hy, -⟩ := ((hs.idle hpeak).2 h x).mp hx
        cases hy
      | some peak =>
        obtain ⟨hiff, hreorganises⟩ := hs.depthFrom_iff hk hr hstanding hc hpath hpeak
        rw [hdepth, hpeak]
        exact ⟨hiff, fun n hn => ⟨peak, hreorganises n hn⟩⟩
  · refine hquiet ?_ (depthOf_of_ne ha)
    rintro h ⟨x, hx, hlost⟩
    rw [hoffered.hashAt?_eq ha] at hlost
    exact hlost hx

set_option maxRecDepth 4000 in
/-- A child of the first block gives way to a heavier one, and one height is discarded. -/
theorem depth_told_forked :
    ∃ s, Reached Sample.forkedTree false s ∧
      (offer (.only Sample.forked) Sample.rival).result s = .ok .newPeak ∧
      ∃ depth, s.TellsDepth depth ((offer (.only Sample.forked) Sample.rival).after s) ∧
        (depth ≠ none ↔ 0 < s.memory.index.discarded
          ((offer (.only Sample.forked) Sample.rival).after s).memory.index) ∧
        ∀ n, depth = some n → ∃ peak fork low, (false = false → low = 0) ∧
          Reorganises Sample.forkedTree s.memory
            ((offer (.only Sample.forked) Sample.rival).after s).memory Sample.rival peak fork
            low n := by
  have hreached : Reached Sample.forkedTree false
      (offerAll (.only Sample.forked) [Sample.root, Sample.child]
        (opened (.only Sample.forked) (.only Sample.forked) {} {})) :=
    (Reached.opened_empty Verifier.only_obeys rfl fun _ _ => rfl).offerAll
      Consensus.only_obeys [Sample.root, Sample.child]
  refine ⟨_, hreached, ?_, hreached.depth_told Consensus.only_obeys Sample.rival⟩
  cbv

end Chain

/-! ### A chain that starts above the fork -/

namespace Sample

/-- The first block of a branch beside those. -/
def sideway : HeaderBlock := next 1 8 (some root)

/-- The last block of that branch. -/
def sidewayTip : HeaderBlock := next 1 8 (some sideway)

/-- Two branches of two blocks from one first block. -/
def sideways : List HeaderBlock := [root, child, grandchild, sideway, sidewayTip]

/-- The tree of the two branches. -/
def sidewaysTree : BlockTree := .ofList sideways (by decide +kernel) (by decide +kernel)

/-- The last block of the second branch came in with a weight proof over nothing else, when the
blocks below it were known. -/
def onSideway : Session Chain :=
  (Chain.offerProof (.only sideways) { recent := [sidewayTip] } none).after
    (Chain.offerAll (.only sideways) [root, child, sideway]
      (Chain.opened (.only sideways) (.only sideways) {} {}))

end Sample

namespace Chain

set_option maxRecDepth 8000 in
theorem reached_onSideway : Reached Sample.sidewaysTree true Sample.onSideway := by
  have hreached : Reached Sample.sidewaysTree false
      (offerAll (.only Sample.sideways) [Sample.root, Sample.child, Sample.sideway]
        (opened (.only Sample.sideways) (.only Sample.sideways) {} {})) :=
    (Reached.opened_empty Verifier.only_obeys rfl fun _ _ => rfl).offerAll
      Consensus.only_obeys _
  refine hreached.proofAdopted Verifier.only_obeys.follows_runs (fun rs hrs => by cases hrs) ?_
  cbv

set_option maxRecDepth 8000 in
/-- **The depth overcounts** above a canonical chain that starts at a weight proof. The block at
height two is the only one that is canonical, and the one that takes its place parts from it at
height zero: one height is discarded, and the depth is two. -/
theorem depth_overcounts :
    Reached Sample.sidewaysTree true Sample.onSideway ∧
      (Consensus.only Sample.sideways).Obeys Sample.sidewaysTree ∧
      Sample.onSideway.TellsDepth (some 2)
        ((offer (.only Sample.sideways) Sample.grandchild).after Sample.onSideway) ∧
      Sample.onSideway.memory.index.discarded
        ((offer (.only Sample.sideways) Sample.grandchild).after Sample.onSideway).memory.index =
          1 := by
  -- one evaluation of the session for all that is read off it
  have hfacts : (fun s : Session Chain => (fun t : Session Chain =>
      (s.readings.depths, s.readings.reorganisations, t.readings.depths, t.readings.reorganisations,
        s.memory.index.discarded t.memory.index))
        ((offer (.only Sample.sideways) Sample.grandchild).after s)) Sample.onSideway =
      ([0], some 0, [0, 2], some 1, 1) := by cbv
  simp only [Prod.mk.injEq] at hfacts
  obtain ⟨hdepths, hcount, hdepths', hcount', hdiscarded⟩ := hfacts
  refine ⟨reached_onSideway, Consensus.only_obeys, ⟨?_, ?_⟩, hdiscarded⟩
  · rw [hdepths, hdepths']
    rfl
  · rw [hcount, hcount']
    rfl

end Chain

end HeaderChain
