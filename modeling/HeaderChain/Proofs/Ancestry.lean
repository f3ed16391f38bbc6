import HeaderChain.Proofs.BlockTree

/-!
# Walks along parents

Both walks of the fork choice follow parents through the index. Where all that is indexed is of one
tree they follow descents of the tree, and there is one descent from a block only.

* `Index.descents_of_walkBack` — a fork point is the height of a block that both descend to;
* `Index.Walk` — the records that a walk down comes across. They are those of a descent, which ends
  at the height asked for if it starts above it (`Index.Walk.descent`);
* `Index.Closed` — every known record that is no root has its parent indexed as well. There no walk
  fails (`Index.Closed.forkPoint_ok`, `Index.Closed.pathDown_ok`).
-/

namespace HeaderChain

namespace Index

variable {tree : BlockTree} {i : Index} {a b p r : BlockRecord} {x y : HeaderBlock}

/-- Records of one block of the tree are records of its only block with that hash. -/
theorem Within.copies (hi : i.Within tree) (hx : tree.has x) (hr : i.record? x.hash = some r) :
    r.Copies x := by
  obtain ⟨hhash, y, hy, hcopies⟩ := hi _ _ hr
  have : y = x := tree.eq_of_hash hy hx (by rw [← hcopies.hash, hhash])
  exact this ▸ hcopies

/-- The parent of a record is that of its block. -/
theorem Within.parent (hi : i.Within tree) (ha : a.Copies x) (hp : i.record? a.parent = some p) :
    ∃ z, tree.has z ∧ p.Copies z ∧ x.parent = z.hash := by
  obtain ⟨hhash, z, hz, hcopies⟩ := hi _ _ hp
  exact ⟨z, hz, hcopies, by rw [← ha.parent, ← hhash, hcopies.hash]⟩

/-! ### Walking back -/

theorem parentOf_eq_ok {record? : Hash → Option BlockRecord} :
    parentOf record? a = .ok p ↔ record? a.parent = some p := by
  unfold parentOf
  cases record? a.parent <;> simp

/-- **A step back**: the higher one of the records goes to its parent, or both of them do. -/
theorem stepBack_cases {record? : Hash → Option BlockRecord} {a' b' : BlockRecord}
    (h : stepBack record? a b = .ok (a', b')) :
    b.height < a.height ∧ record? a.parent = some a' ∧ b' = b ∨
      a.height < b.height ∧ a' = a ∧ record? b.parent = some b' ∨
      a.height = b.height ∧ record? a.parent = some a' ∧ record? b.parent = some b' := by
  unfold stepBack at h
  split_ifs at h
  -- in each branch the result is told by the look-ups of the parents
  all_goals
    cases ha : parentOf record? a <;> cases hb : parentOf record? b <;>
      simp only [ha, hb, bind, pure, Except.bind, Except.pure, Except.ok.injEq, Prod.mk.injEq,
        reduceCtorEq] at h
  all_goals
    obtain ⟨rfl, rfl⟩ := h
    simp_all [parentOf_eq_ok, UInt32.le_antisymm_iff]

/-- Each of two records steps back to its parent, or stays where it is. -/
theorem of_stepBack {record? : Hash → Option BlockRecord} {a' b' : BlockRecord}
    (h : stepBack record? a b = .ok (a', b')) :
    (a' = a ∨ record? a.parent = some a') ∧ (b' = b ∨ record? b.parent = some b') := by
  obtain ⟨-, ha, hb⟩ | ⟨-, ha, hb⟩ | ⟨-, ha, hb⟩ := stepBack_cases h
  · exact ⟨.inr ha, .inl hb⟩
  · exact ⟨.inl ha, .inr hb⟩
  · exact ⟨.inr ha, .inr hb⟩

/-- A record that steps back, or stays, steps along a descent. -/
theorem Within.descent_step (hi : i.Within tree) {a' : BlockRecord} (hx : tree.has x)
    (ha : a.Copies x) (ha' : a' = a ∨ i.record? a.parent = some a') :
    ∃ z, tree.has z ∧ a'.Copies z ∧
      ∀ {l m}, tree.Descent l z m → ∃ l', tree.Descent l' x m := by
  rcases ha' with rfl | ha'
  · exact ⟨x, hx, ha, fun {l m} hl => ⟨l, hl⟩⟩
  · obtain ⟨z, hz, hcopies, hlink⟩ := hi.parent ha ha'
    exact ⟨z, hz, hcopies, fun {l m} hl => ⟨x :: l, .step hx hlink hl⟩⟩

/-- **Where two walks meet** both have come down to one block, at the height they tell. If the
second walk starts at what is indexed, so is that block. -/
theorem descents_of_walkBack (hi : i.Within tree) {steps : Nat} {f : Height}
    (hx : tree.has x) (ha : a.Copies x) (hy : tree.has y) (hb : i.record? y.hash = some b)
    (h : walkBack i.record? steps a b = .ok (some f)) :
    ∃ m l l', tree.Descent l x m ∧ tree.Descent l' y m ∧ m.height = f ∧
      i.contains m.hash = true := by
  -- at the end of both walks two records have one hash, and so they are of one block
  have hmeet : ∀ {a b : BlockRecord} {x y : HeaderBlock}, tree.has x → a.Copies x → tree.has y →
      i.record? y.hash = some b → a.hash = b.hash → ∃ m l l', tree.Descent l x m ∧
        tree.Descent l' y m ∧ m.height = a.height ∧ i.contains m.hash = true := by
    intro a b x y hx ha hy hb hhash
    have hcopies := hi.copies hy hb
    obtain rfl : x = y := tree.eq_of_hash hx hy (by rw [← ha.hash, hhash, hcopies.hash])
    exact ⟨x, [x], [x], .self hx, .self hx, ha.height.symm, contains_iff.mpr ⟨b, hb⟩⟩
  -- on the way the second record stays one that is indexed under the hash of its block
  induction steps generalizing a b x y with
  | zero =>
    unfold walkBack at h
    split_ifs at h with hsame hroots
    · cases h
      exact hmeet hx ha hy hb hsame.2
    · cases h
  | succ steps ih =>
    unfold walkBack at h
    split_ifs at h with hsame hroots
    · cases h
      exact hmeet hx ha hy hb hsame.2
    · cases h
    · dsimp only at h
      cases hstep : stepBack i.record? a b with
      | error e => simp [hstep, bind, Except.bind] at h
      | ok places =>
        obtain ⟨a', b'⟩ := places
        simp only [hstep, bind, Except.bind] at h
        obtain ⟨ha', hb'⟩ := of_stepBack hstep
        -- one step back lengthens one descent or both
        obtain ⟨x', hx', hca, hxl⟩ := hi.descent_step hx ha ha'
        obtain ⟨y', hy', hcb, hyl⟩ := hi.descent_step hy (hi.copies hy hb) hb'
        have hknown : i.record? y'.hash = some b' := by
          rcases hb' with rfl | hb'
          · rwa [← hcb.hash, (hi.copies hy hb).hash]
          · rwa [← hcb.hash, (hi _ _ hb').1]
        obtain ⟨m, l, l', hl, hl', hm, hmi⟩ := ih hx' hca hy' hknown h
        obtain ⟨n, hn⟩ := hxl hl
        obtain ⟨n', hn'⟩ := hyl hl'
        exact ⟨m, n, n', hn, hn', hm, hmi⟩

/-! ### Walking down -/

/-- A walk down, told by the records it comes across. -/
inductive Walk (i : Index) (floor : Height) : BlockRecord → List BlockRecord → Prop
  | stop {r : BlockRecord} (h : r.height ≤ floor) : Walk i floor r [r]
  | step {r p : BlockRecord} {path : List BlockRecord} (h : floor < r.height)
    (hp : i.record? r.parent = some p) (hpath : Walk i floor p path) : Walk i floor r (r :: path)

variable {floor : Height} {path : List BlockRecord}

theorem walk_of_walkDown {steps : Nat} (h : i.walkDown floor steps r = .ok path) :
    i.Walk floor r path := by
  -- a walk that has ended well is one that was never cut short
  induction steps generalizing r path with
  | zero =>
    unfold walkDown at h
    split_ifs at h with hlow
    cases h
    exact .stop hlow
  | succ steps ih =>
    unfold walkDown at h
    split_ifs at h with hlow
    · cases h
      exact .stop hlow
    · cases hparent : i.record r.parent with
      | error e => simp [hparent, bind, Except.bind] at h
      | ok p =>
        cases hrest : i.walkDown floor steps p with
        | error e => simp [hparent, hrest, bind, Except.bind] at h
        | ok rest =>
          simp only [hparent, hrest, bind, Except.bind, pure, Except.pure, Except.ok.injEq] at h
          exact h ▸ .step (UInt32.not_le.mp hlow) (record_eq_ok.mp hparent) (ih hrest)

/-- All records of a path but the first are indexed. -/
theorem Walk.mem (h : i.Walk floor r path) {s : BlockRecord} (hs : s ∈ path) :
    s = r ∨ ∃ y, i.record? y = some s := by
  induction h with
  | stop => exact .inl (List.mem_singleton.mp hs)
  | step _ hp _ ih =>
    rcases List.mem_cons.mp hs with rfl | hs
    · exact .inl rfl
    · rcases ih hs with rfl | hs
      · exact .inr ⟨_, hp⟩
      · exact .inr hs

/-- **A path** goes down a descent, and no further than to the height asked for. -/
theorem Walk.descent (h : i.Walk floor r path) (hi : i.Within tree) (hx : tree.has x)
    (hr : r.Copies x) :
    ∃ m l, tree.Descent l x m ∧ List.Forall₂ BlockRecord.Copies path l ∧ m.height ≤ floor ∧
      (floor ≤ x.height → m.height = floor) := by
  induction h generalizing x with
  | stop hlow =>
    rw [hr.height] at hlow
    exact ⟨x, [x], .self hx, .cons hr .nil, hlow, UInt32.le_antisymm hlow⟩
  | step hhigh hparent _ ih =>
    obtain ⟨z, hz, hp, hlink⟩ := hi.parent hr hparent
    obtain ⟨m, l, hl, hcopies, hm, hfloor⟩ := ih hz hp
    refine ⟨m, x :: l, .step hx hlink hl, .cons hr hcopies, hm, fun _ => hfloor ?_⟩
    -- the block lies above the height, so its parent does not lie below it
    have hstep := BlockTree.Descent.height_step hx hlink hl
    rw [hr.height, UInt32.lt_iff_toNat_lt] at hhigh
    rw [UInt32.le_iff_toNat_le]
    omega

/-! ### Walks that do not fail -/

/-- Every record above height zero has its parent indexed. -/
def Closed (i : Index) : Prop :=
  ∀ x r, i.record? x = some r → r.height ≠ 0 → ∃ p, i.record? r.parent = some p

/-- A record with its parent indexed, if it needs one. -/
def Rests (i : Index) (r : BlockRecord) : Prop :=
  r.height ≠ 0 → ∃ p, i.record? r.parent = some p

/-- The parent of a record rests as well, one height below it. -/
theorem Closed.step (hc : i.Closed) (hi : i.Within tree) (hr : tree.Records r) (hrests : i.Rests r)
    (hheight : r.height ≠ 0) : ∃ p, i.record? r.parent = some p ∧ tree.Records p ∧ i.Rests p ∧
      r.height.toNat = p.height.toNat + 1 := by
  obtain ⟨p, hp⟩ := hrests hheight
  obtain ⟨x, hx, hcopies⟩ := hr
  obtain ⟨z, hz, hpz, hlink⟩ := hi.parent hcopies hp
  refine ⟨p, hp, ⟨z, hz, hpz⟩, hc _ _ hp, ?_⟩
  rw [hcopies.height, hpz.height]
  exact tree.height_of_parent hz hx hlink

/-- A step back is possible from two records that rest, and it lowers the sum of their heights. -/
theorem Closed.stepBack_ok (hc : i.Closed) (hi : i.Within tree) (ha : tree.Records a)
    (ha' : i.Rests a) (hb : tree.Records b) (hb' : i.Rests b)
    (hroots : ¬(a.height = 0 ∧ b.height = 0)) :
    ∃ a' b', stepBack i.record? a b = .ok (a', b') ∧ tree.Records a' ∧ i.Rests a' ∧
      tree.Records b' ∧ i.Rests b' ∧
      a'.height.toNat + b'.height.toNat < a.height.toNat + b.height.toNat := by
  -- a height above another one is not zero
  have hpos : ∀ {c d : BlockRecord}, d.height < c.height → c.height ≠ 0 := by
    intro c d hlt heq
    rw [heq] at hlt
    exact UInt32.not_lt_zero hlt
  unfold stepBack
  by_cases hba : b.height < a.height
  · obtain ⟨p, hp, hrec, hrests, hheight⟩ := hc.step hi ha ha' (hpos hba)
    refine ⟨p, b, ?_, hrec, hrests, hb, hb', by omega⟩
    simp [hba, parentOf_eq_ok.mpr hp, bind, pure, Except.bind, Except.pure]
  · by_cases hab : a.height < b.height
    · obtain ⟨p, hp, hrec, hrests, hheight⟩ := hc.step hi hb hb' (hpos hab)
      refine ⟨a, p, ?_, ha, ha', hrec, hrests, by omega⟩
      simp [hba, hab, parentOf_eq_ok.mpr hp, bind, pure, Except.bind, Except.pure]
    · have heq : a.height = b.height :=
        UInt32.le_antisymm (UInt32.not_lt.mp hba) (UInt32.not_lt.mp hab)
      have hane : a.height ≠ 0 := fun hzero => hroots ⟨hzero, heq ▸ hzero⟩
      obtain ⟨p, hp, hrec, hrests, hheight⟩ := hc.step hi ha ha' hane
      obtain ⟨q, hq, hrec', hrests', hheight'⟩ := hc.step hi hb hb' (heq ▸ hane)
      refine ⟨p, q, ?_, hrec, hrests, hrec', hrests', by omega⟩
      simp [hba, hab, parentOf_eq_ok.mpr hp, parentOf_eq_ok.mpr hq, bind, pure, Except.bind,
        Except.pure]

/-- Each step back lowers the sum of the heights, so as many steps are enough. -/
theorem Closed.walkBack_ok (hc : i.Closed) (hi : i.Within tree) {steps : Nat}
    (ha : tree.Records a) (ha' : i.Rests a) (hb : tree.Records b) (hb' : i.Rests b)
    (hsteps : a.height.toNat + b.height.toNat ≤ steps) :
    ∃ f, walkBack i.record? steps a b = .ok f := by
  -- no parent is missing on the way, and the heights fall until both blocks are roots
  induction steps generalizing a b with
  | zero =>
    have hzero : a.height = 0 ∧ b.height = 0 :=
      ⟨UInt32.toNat_inj.mp (by simp; omega), UInt32.toNat_inj.mp (by simp; omega)⟩
    unfold walkBack
    split_ifs
    · exact ⟨_, rfl⟩
    · exact ⟨_, rfl⟩
  | succ steps ih =>
    unfold walkBack
    split_ifs with hsame hroots
    · exact ⟨_, rfl⟩
    · exact ⟨_, rfl⟩
    · obtain ⟨a', b', hstep, hra, hra', hrb, hrb', hlt⟩ :=
        hc.stepBack_ok hi ha ha' hb hb' hroots
      obtain ⟨f, hf⟩ := ih hra hra' hrb hrb' (by omega)
      exact ⟨f, by simp [hstep, bind, Except.bind, hf]⟩

/-- **A fork point is always found** where all parents are indexed. -/
theorem Closed.forkPoint_ok (hc : i.Closed) (hi : i.Within tree) (ha : tree.Records a)
    (ha' : i.Rests a) (hb : tree.Records b) (hb' : i.Rests b) : ∃ f, i.forkPoint a b = .ok f :=
  hc.walkBack_ok hi ha ha' hb hb' (Nat.le_add_right _ _)

theorem Closed.walkDown_ok (hc : i.Closed) (hi : i.Within tree) (floor : Height) {steps : Nat}
    (hr : tree.Records r) (hr' : i.Rests r) (hsteps : r.height.toNat ≤ steps) :
    ∃ path, i.walkDown floor steps r = .ok path := by
  -- heights fall by one, so as many steps are enough as the block stands high
  induction steps generalizing r with
  | zero =>
    have hzero : r.height = 0 := UInt32.toNat_inj.mp (by simp; omega)
    unfold walkDown
    exact ⟨[r], by simp [hzero]⟩
  | succ steps ih =>
    unfold walkDown
    split_ifs with hlow
    · exact ⟨_, rfl⟩
    · have hne : r.height ≠ 0 := fun hzero => hlow (hzero ▸ UInt32.zero_le)
      obtain ⟨p, hp, hrec, hrests, hheight⟩ := hc.step hi hr hr' hne
      obtain ⟨path, hpath⟩ := ih hrec hrests (by omega)
      exact ⟨r :: path, by
        simp [record_eq_ok.mpr hp, hpath, bind, pure, Except.bind, Except.pure]⟩

/-- **A path is always found** where all parents are indexed. -/
theorem Closed.pathDown_ok (hc : i.Closed) (hi : i.Within tree) (floor : Height)
    (hr : tree.Records r) (hr' : i.Rests r) : ∃ path, i.pathDown floor r = .ok path :=
  hc.walkDown_ok hi floor hr hr' (by unfold pathSteps; omega)

end Index

end HeaderChain
