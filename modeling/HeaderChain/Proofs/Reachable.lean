import HeaderChain.Proofs.Records

/-!
# The states of a chain, whoever it has to do with

What holds of a chain at all times depends on what is taken for granted of those it is opened with
and asked by. A `Chain.Setting` says that, and all else is the same for every setting.

* `Chain.Request` — what may be asked of an open chain, with the collaborators that answer its
  questions; `Chain.Request.cases` tells what it can come to;
* `Chain.Reachable` — the sessions that come about in a setting: a chain is opened on a store, and
  requests are made to it. Any call to the store may fail on the way, and the collaborators may be
  others each time;
* `Chain.Reachable.invariant` — what holds of a chain that was opened and is kept by each request
  holds of all of these sessions; `Chain.Reachable.lasts` — so it is with what lasts on the records
  of an index.
-/

namespace HeaderChain

namespace Chain

open Procedure

/-! ### Requests -/

/-- **What may be asked of an open chain**, and those who help it to answer. -/
inductive Request
  | offer (k : Consensus) (b : HeaderBlock)
  | offerProof (v : Verifier) (w : WeightProof) (records : Option (List BlockRecord))
  | reset

namespace Request

/-- The session a request leaves, whether it fails or not. -/
def after (s : Session Chain) : Request → Session Chain
  | offer k b => (Chain.offer k b).after s
  | offerProof v w records => (Chain.offerProof v w records).after s
  | reset => Chain.reset.after s

/-- The request is to take a weight proof, and it is taken. -/
def Seeds (s : Session Chain) : Request → Prop
  | offerProof v w records => (Chain.offerProof v w records).result s = .ok true
  | offer .. | reset => False

/-- **Every way through a request**: the memory it leaves, and the calls that account for the
store. -/
theorem cases {P : Chain → List Call → Prop} (q : Request) (s : Session Chain)
    (hoffer : ∀ {k b a m cs}, q = .offer k b → (Chain.offer k b).result s = a →
      Offered k b s.memory s.disk a m cs → P m cs)
    (hproof : ∀ {v w records a m cs}, q = .offerProof v w records →
      (Chain.offerProof v w records).result s = a →
      ProofOffered v w s.memory s.disk records a m cs → P m cs)
    (hreset : ∀ {a m cs}, q = .reset → Chain.reset.result s = a →
      Resetting s.memory s.disk a m cs → P m cs) :
    ∃ cs, (q.after s).disk = s.disk.serveAll cs ∧ (q.after s).calls = s.calls ++ cs ∧
      P (q.after s).memory cs := by
  cases q with
  | offer k b =>
    obtain ⟨a, m, cs, hgives, h⟩ := offer_cases k b s
    exact ⟨cs, hgives.disk, hgives.calls, hgives.memory ▸ hoffer rfl hgives.result h⟩
  | offerProof v w records =>
    obtain ⟨a, m, cs, hgives, h⟩ := offerProof_cases (v := v) (w := w) s records
    exact ⟨cs, hgives.disk, hgives.calls, hgives.memory ▸ hproof rfl hgives.result h⟩
  | reset =>
    obtain ⟨a, m, cs, hgives, h⟩ := reset_cases s
    exact ⟨cs, hgives.disk, hgives.calls, hgives.memory ▸ hreset rfl hgives.result h⟩

/-- The memory that a request leaves, by itself. -/
theorem memory_cases {P : Chain → Prop} (q : Request) (s : Session Chain)
    (hoffer : ∀ {k b a m cs}, q = .offer k b → (Chain.offer k b).result s = a →
      Offered k b s.memory s.disk a m cs → P m)
    (hproof : ∀ {v w records a m cs}, q = .offerProof v w records →
      (Chain.offerProof v w records).result s = a →
      ProofOffered v w s.memory s.disk records a m cs → P m)
    (hreset : ∀ {a m cs}, q = .reset → Chain.reset.result s = a →
      Resetting s.memory s.disk a m cs → P m) : P (q.after s).memory := by
  obtain ⟨cs, -, -, h⟩ := q.cases (P := fun m _ => P m) s hoffer hproof hreset
  exact h

end Request

/-! ### Settings -/

/-- **A setting**: with which verifier and on which store a chain may be opened, and what may be
asked of it, as it is. -/
structure Setting where
  opens : Verifier → Disk → Prop
  admits : Session Chain → Request → Prop

namespace Setting

/-- The setting of those who judge blocks like `consensus`, of proofs with records like `attests`,
and of stores like `store`. -/
def of (consensus : Consensus → Prop) (attests : WeightProof → List BlockRecord → Prop)
    (store : Disk → Prop) : Setting where
  opens v d := v.Follows attests ∧ store d
  admits _
    | .offer k _ => consensus k
    | .offerProof v w records => v.Follows attests ∧ ∀ rs, records = some rs → attests w rs
    | .reset => True

/-- The same setting, as long as no proof is taken. -/
def proofless (setting : Setting) : Setting where
  opens v d := setting.opens v d ∧ d.value? WeightProof proofKey = .ok none
  admits s q := setting.admits s q ∧ ¬q.Seeds s

end Setting

/-- **The sessions that can be reached** in a setting. Whether a request fails or not, the chain
goes on from what it has left. -/
inductive Reachable (setting : Setting) : Session Chain → Prop
  | opened {v : Verifier} {k : Consensus} {config : Config} {d : Disk} (hopens : setting.opens v d)
    (h : (load v k).result ⟨fresh config, d, []⟩ = .ok ()) :
    Reachable setting (Chain.opened v k config d)
  | asked {s : Session Chain} {q : Request} (hs : Reachable setting s)
    (hq : setting.admits s q) : Reachable setting (q.after s)

/-- **A run from one session to another** on which blocks and proofs are offered, and nothing is
reset. -/
inductive Onward (setting : Setting) (s : Session Chain) : Session Chain → Prop
  | start : Onward setting s s
  | asked {t : Session Chain} {q : Request} (ht : Onward setting s t) (hq : setting.admits t q)
    (hgoes : q ≠ .reset) : Onward setting s (q.after t)

namespace Reachable

variable {setting : Setting} {s t : Session Chain}

/-- **What every request keeps** holds at all times, if it holds of a chain that was just opened. -/
theorem invariant {P : Chain → Disk → Prop} (h : Reachable setting s)
    (hopened : ∀ {v k config d m cs}, setting.opens v d →
      Loading k v (fresh config) d (.ok ()) m cs → P m (d.serveAll cs))
    (hoffered : ∀ {s : Session Chain} {k b a m cs}, setting.admits s (.offer k b) →
      P s.memory s.disk → Offered k b s.memory s.disk a m cs → P m (s.disk.serveAll cs))
    (hproofOffered : ∀ {s : Session Chain} {v w records a m cs},
      setting.admits s (.offerProof v w records) → P s.memory s.disk →
      (offerProof v w records).result s = a →
      ProofOffered v w s.memory s.disk records a m cs → P m (s.disk.serveAll cs))
    (hreset : ∀ {s : Session Chain} {a m cs}, P s.memory s.disk →
      Resetting s.memory s.disk a m cs → P m (s.disk.serveAll cs)) :
    P s.memory s.disk := by
  -- what each operation comes to is known by its cases, so the run need not be looked into again
  induction h with
  | opened hopens h =>
    rw [disk_opened]
    exact hopened hopens (loading_of_opens h)
  | @asked s q hs hq ih =>
    obtain ⟨cs, hdisk, -, hP⟩ := q.cases (P := fun m cs => P m (s.disk.serveAll cs)) s
      (fun hq' _ h => hoffered (hq' ▸ hq) ih h) (fun hq' ha h => hproofOffered (hq' ▸ hq) ih ha h)
      (fun _ _ h => hreset ih h)
    rwa [hdisk]

/-- A chain that was opened on an empty store. -/
theorem opened_empty {v : Verifier} {k : Consensus} {config : Config} {d : Disk}
    (hopens : setting.opens v d) (hd : d.entries = ∅) (hserves : d.Serves) :
    Reachable setting (Chain.opened v k config d) :=
  .opened hopens (load_of_empty ⟨fresh config, d, []⟩ rfl hd hserves).result

theorem onward (h : Reachable setting s) (hrun : Onward setting s t) : Reachable setting t := by
  induction hrun with
  | start => exact h
  | asked _ hq _ ih => exact ih.asked hq

/-- Blocks that are offered in turn. -/
theorem offerAll_of_forall {k : Consensus} {blocks : List HeaderBlock} (h : Reachable setting s)
    (hk : ∀ s, ∀ b ∈ blocks, setting.admits s (.offer k b)) :
    Reachable setting (Chain.offerAll k blocks s) := by
  induction blocks generalizing s with
  | nil => exact h
  | cons b blocks ih =>
    exact ih (h.asked (hk s b List.mem_cons_self)) fun s b hb => hk s b (List.mem_cons_of_mem _ hb)

/-- Blocks of whatever kind. -/
theorem offerAll {k : Consensus} (h : Reachable setting s)
    (hk : ∀ s b, setting.admits s (.offer k b)) (blocks : List HeaderBlock) :
    Reachable setting (Chain.offerAll k blocks s) :=
  h.offerAll_of_forall fun s b _ => hk s b

/-- What can be reached without taking a proof can be reached. -/
theorem of_proofless (h : Reachable setting.proofless s) : Reachable setting s := by
  induction h with
  | opened hopens h => exact .opened hopens.1 h
  | asked _ hq ih => exact .asked ih hq.1

/-- What can be reached where more is asked of everybody can be reached where less is. -/
theorem of_imp {K K' : Consensus → Prop} {A A' : WeightProof → List BlockRecord → Prop}
    {D D' : Disk → Prop} (h : Reachable (.of K A D) s) (hK : ∀ {k}, K k → K' k)
    (hA : ∀ {w rs}, A w rs → A' w rs) (hD : ∀ {d}, D d → D' d) : Reachable (.of K' A' D') s := by
  induction h with
  | opened hopens h => exact .opened ⟨fun hrs => hA (hopens.1 hrs), hD hopens.2⟩ h
  | @asked s q hs hq ih =>
    refine .asked ih ?_
    cases q with
    | offer => exact hK hq
    | offerProof => exact ⟨fun hrs => hA (hq.1 hrs), fun rs hrs => hA (hq.2 rs hrs)⟩
    | reset => trivial

/-- **What lasts on the records of an index** holds at all times, if whoever the setting admits
comes with no other records. -/
theorem lasts_of {P : BlockRecord → Prop} {Q : Index → Prop} (hQ : Index.Lasts P Q)
    (h : Reachable setting s)
    (hopens : ∀ {v d}, setting.opens v d → ∀ {w skip rs}, v w skip = .ok rs → ∀ r ∈ rs, P r)
    (hoffers : ∀ {s k b r}, setting.admits s (.offer k b) → Validated k b s.memory r → P r)
    (hproofs : ∀ {s v w records}, setting.admits s (.offerProof v w records) →
      (∀ {w skip rs}, v w skip = .ok rs → ∀ r ∈ rs, P r) ∧
        ∀ rs, records = some rs → ∀ r ∈ rs, P r) : Q s.memory.index := by
  refine h.invariant (P := fun c _ => Q c.index) ?_ ?_ ?_ ?_
  · intro v k config d m cs hv hloading
    exact lasts_loaded hQ hQ.empty (hopens hv) hloading
  · intro s k b a m cs hk hs hoffered
    exact lasts_offered hQ hs (fun r hr => hoffers hk hr) hoffered
  · intro s v w records a m cs hv hs _ hoffered
    exact lasts_proofOffered hQ hs (hproofs hv).1 (hproofs hv).2 hoffered
  · intro s a m cs hs hreset
    exact lasts_reset hQ hs hreset

/-- So it does if it is asked for of nothing but the records that are built and those that come with
a proof. -/
theorem lasts {P : BlockRecord → Prop} {Q : Index → Prop} (hQ : Index.Lasts P Q)
    {consensus : Consensus → Prop} {attests : WeightProof → List BlockRecord → Prop}
    {store : Disk → Prop} (h : Reachable (.of consensus attests store) s)
    (hbuilt : ∀ {k b c r}, consensus k → Validated k b c r → P r)
    (hattests : ∀ {w rs}, attests w rs → ∀ r ∈ rs, P r) : Q s.memory.index :=
  h.lasts_of hQ (fun hopens _ _ _ hv => hattests (hopens.1 hv)) (fun hk hr => hbuilt hk hr)
    fun hv => ⟨fun hverified => hattests (hv.1 hverified), fun rs hrs => hattests (hv.2 rs hrs)⟩

end Reachable

end Chain

end HeaderChain
