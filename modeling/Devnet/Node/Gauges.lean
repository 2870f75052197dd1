import Devnet.Chain.Status

/-!
A scrape of the metrics endpoint. The three slots of the chain are sampled one after another,
each through a snapshot of its own, and the writers of the engine go on between the samples.
The clock and the two checkpoints are kept apart in the store, so their order is a matter of
what is brought in, and when.
-/

set_option autoImplicit false

namespace Devnet.Node
open Machine Devnet.Types Devnet.Ssz Devnet.Protocol Devnet.ForkChoice Devnet.Engine Devnet.Chain

/-- The gauges of one scrape, in the order they are sampled. -/
structure Scrape where
  chainSlot : Nat
  chainJustifiedSlot : Nat
  chainFinalizedSlot : Nat
  deriving DecidableEq

/-- The engine as each of the three closures finds it. -/
def scrape (slotSrc justifiedSrc finalizedSrc : Store) : Scrape :=
  ⟨(ChainSnapshot.fromEngine slotSrc).currentSlot,
    (ChainSnapshot.fromEngine justifiedSrc).latestJustified.slot.get,
    (ChainSnapshot.fromEngine finalizedSrc).latestFinalized.slot.get⟩

def Scrape.Ordered (self : Scrape) : Prop :=
  self.chainFinalizedSlot ≤ self.chainJustifiedSlot ∧ self.chainJustifiedSlot ≤ self.chainSlot

instance (self : Scrape) : Decidable self.Ordered :=
  inferInstanceAs (Decidable (_ ∧ _))

/-- No block later than `limit` comes in, and no vote for an empty slot. -/
def OnTime (limit : Nat) : Event → Prop
  | .importBlock _ signed _ => signed.message.block.slot.get ≤ limit ∧
      ∀ att ∈ signed.message.block.body.attestations, att.data.target.root ≠ ByteVector.zero
  | .produceBlock _ slot _ => slot.get ≤ limit
  | .produceBlockUnsigned _ slot _ => slot.get ≤ limit
  | _ => True

instance (limit : Nat) (e : Event) : Decidable (OnTime limit e) := by
  cases e <;> unfold OnTime <;> infer_instance

/-- A restart is always on time: it sets the clock to the slot of the block it starts from. -/
def ActionOnTime (limit : Nat) : Action → Prop
  | .event e => OnTime limit e
  | .resume _ => True

def SourcedBelow (limit : Nat) : Event → Prop
  | .importBlock _ signed _ =>
    ∀ att ∈ signed.message.block.body.attestations, att.data.source.slot.get ≤ limit
  | .produceBlock _ _ _ => False
  | .produceBlockUnsigned _ _ _ => False
  | _ => True

instance (limit : Nat) (e : Event) : Decidable (SourcedBelow limit e) := by
  cases e <;> unfold SourcedBelow <;> infer_instance

section
variable [HashPair]

/-- A store no later than `limit`, in which no empty slot is justified. -/
structure Kept (limit : Nat) (held : List Block) (st : Store) : Prop where
  lives : Lives held st
  named : ∀ (r : Bytes32) (s : State), st.states[r]? = some s → Named s
  bounded : ∀ (r : Bytes32) (b : Block), st.blocks[r]? = some b → b.slot.get ≤ limit

theorem Kept.later {limit limit' : Nat} {held : List Block} {st : Store} (h : Kept limit held st)
    (hle : limit ≤ limit') : Kept limit' held st :=
  ⟨h.lives,h.named,fun r b hb => (h.bounded r b hb).trans hle⟩

theorem brings_onTime {limit : Nat} {held : List Block} {anchor : Bytes32} {st : Store}
    (h : Linked held anchor st) (hsound : Sound held) {e : Event} (htime : OnTime limit e)
    {block : Block} (hbrings : e.Brings st block) :
    block.slot.get ≤ limit ∧
      ∀ att ∈ block.body.attestations, att.data.target.root ≠ ByteVector.zero := by
  cases e with
  | importBlock verifier signed policy =>
    obtain rfl : block = signed.message.block := hbrings
    exact htime
  | produceBlock order slot validator =>
    obtain ⟨rfl,htargets⟩ := hbrings
    exact ⟨htime,fun att hatt => h.nonzero hsound (htargets att hatt)⟩
  | produceBlockUnsigned order slot validator =>
    obtain ⟨rfl,htargets⟩ := hbrings
    exact ⟨htime,fun att hatt => h.nonzero hsound (htargets att hatt)⟩
  | _ => exact hbrings.elim

theorem Kept.event {limit : Nat} {held : List Block} {st : Store} (h : Kept limit held st)
    (hsound : Sound held) {e : Event} (htime : OnTime limit e) :
    Kept limit (held ++ Tables.values (handle e st).blocks) (handle e st) := by
  obtain ⟨anchor,hlinked⟩ := h.lives.linked
  obtain ⟨pair,hgrafts,hbrings⟩ := handle_grafts hlinked e
  have hpair : ∀ p ∈ pair, p.1.slot.get ≤ limit ∧
      ∀ att ∈ p.1.body.attestations, att.data.target.root ≠ ByteVector.zero :=
    fun p hp => brings_onTime hlinked hsound htime (hbrings p hp)
  refine ⟨h.lives.event e,hlinked.named_grafts hgrafts h.named fun p hp => (hpair p hp).2,?_⟩
  intro r b hb
  cases hgrafts with
  | still same => exact h.bounded r b (same.blocks ▸ hb)
  | @grown block parent post hasParent assembled root isNew same =>
    rw [same.blocks] at hb
    rcases of_blocks_tracking isNew hb with ⟨-,rfl⟩ | ⟨-,hb⟩
    · exact (hpair _ rfl).1
    · exact h.bounded r b hb

theorem currentSlot_seedAnchor {state : State} {block : Block}
    {checkpoints : Bytes32 → Slot → Checkpoint × Checkpoint} {st : Store}
    (h : Store.seedAnchor state block checkpoints = .ok st) : st.currentSlot = block.slot.get := by
  rw [Store.currentSlot,Time.slot,time_seedAnchor h]
  exact Nat.mul_div_cancel _ (by decide)

theorem kept_seed {held : List Block} {state : State} {block : Block}
    {checkpoints : Bytes32 → Slot → Checkpoint × Checkpoint} {st : Store}
    (hlives : Lives held st) (h : Store.seedAnchor state block checkpoints = .ok st)
    (hnamed : Named state) : Kept st.currentSlot held st := by
  rw [currentSlot_seedAnchor h]
  obtain ⟨-,time,rfl⟩ := seedAnchor_ok h
  refine ⟨hlives,?_,?_⟩
  · intro r s hs
    obtain ⟨-,rfl⟩ : hashTreeRoot block = r ∧ state = s := by
      simpa [Std.ExtTreeMap.getElem?_insert] using hs
    exact hnamed
  · intro r b hb
    obtain ⟨-,rfl⟩ : hashTreeRoot block = r ∧ block = b := by
      simpa [Std.ExtTreeMap.getElem?_insert] using hb
    exact le_rfl

theorem currentSlot_le_handle (e : Event) (st : Store) :
    st.currentSlot ≤ (handle e st).currentSlot := by
  refine Nat.div_le_div_right ?_
  rcases time_handle e st with hsame | ⟨-,hnext⟩
  · rw [hsame]
  · have hlt := st.time.isLt
    rw [hnext,Time.get_next]
    omega

theorem Kept.step {held out : List Block} {st t : Store} {action : Action}
    (h : Kept st.currentSlot held st) (hsound : Sound held)
    (htime : ActionOnTime st.currentSlot action) (hstep : Step st action out t) :
    Kept t.currentSlot (held ++ out) t := by
  have hlives := h.lives.step hstep
  cases hstep with
  | event e => exact (h.event hsound htime).later (currentSlot_le_handle e st)
  | resume hasBlock hasState opens => exact kept_seed hlives opens (h.named _ _ hasState)

structure FinalizedBelow (limit : Nat) (st : Store) : Prop where
  store : st.latestFinalized.slot.get ≤ limit
  states : ∀ (r : Bytes32) (s : State), st.states[r]? = some s →
    s.latestFinalized.slot.get ≤ limit

theorem FinalizedBelow.event {limit : Nat} {held : List Block} {anchor : Bytes32} {st : Store}
    (h : FinalizedBelow limit st) (hlinked : Linked held anchor st) {e : Event}
    (hbelow : SourcedBelow limit e) : FinalizedBelow limit (handle e st) := by
  obtain ⟨pair,hgrafts,hbrings⟩ := handle_grafts hlinked e
  generalize handle e st = t at hgrafts
  cases hgrafts with
  | still same => exact ⟨same.latestFinalized ▸ h.store,same.states ▸ h.states⟩
  | @grown block parent post hasParent assembled root isNew same =>
    have hvotes : ∀ att ∈ block.body.attestations, att.data.source.slot.get ≤ limit := by
      have hblock : e.Brings st block := hbrings _ rfl
      cases e with
      | importBlock verifier signed policy =>
        obtain rfl : block = signed.message.block := hblock
        exact hbelow
      | produceBlock | produceBlockUnsigned => exact hbelow.elim
      | _ => exact hblock.elim
    have hpost : post.latestFinalized.slot.get ≤ limit := by
      rcases finalized_of_assembled assembled with hsame | ⟨att,hatt,hsource⟩
      · rw [hsame]
        exact h.states _ _ hasParent
      · rw [hsource]
        exact hvotes att hatt
    constructor
    · rw [same.latestFinalized,(tracking_new isNew block post).2.2.2.2,Store.adopted]
      split
      · exact hpost
      · exact h.store
    · intro r s hs
      rw [same.states] at hs
      rcases of_states_tracking isNew hs with ⟨-,rfl⟩ | ⟨-,hs⟩
      · exact hpost
      · exact h.states r s hs

theorem FinalizedBelow.drive {limit : Nat} {held : List Block} {st : Store}
    (h : FinalizedBelow limit st) (hlives : Lives held st) {events : List Event}
    (hbelow : ∀ e ∈ events, SourcedBelow limit e) : FinalizedBelow limit (drive events st) := by
  induction events generalizing held st with
  | nil => exact h
  | cons e rest ih =>
    obtain ⟨anchor,hlinked⟩ := hlives.linked
    exact ih (h.event hlinked (hbelow e List.mem_cons_self)) (hlives.event e)
      (fun e he => hbelow e (List.mem_cons_of_mem _ he))

theorem Kept.finalizedBelow {limit : Nat} {held : List Block} {st : Store}
    (h : Kept limit held st) (hsound : Sound held) :
    FinalizedBelow st.latestJustified.slot.get st := by
  obtain ⟨anchor,hsteady⟩ := h.lives.steady hsound
  exact ⟨hsteady.toGrounded.finalized_le h.named,
    fun r s hs => hsteady.toGrounded.state_finalized_le h.named hs⟩

theorem Kept.justified_le {limit : Nat} {held : List Block} {st : Store}
    (h : Kept limit held st) (hsound : Sound held) : st.latestJustified.slot.get ≤ limit := by
  obtain ⟨anchor,hsteady⟩ := h.lives.steady hsound
  obtain ⟨b,hb,hslot⟩ := hsteady.pointed.justified.tracked
  rw [← hslot]
  exact h.bounded _ _ hb

/-- A life in which everything comes in on time. -/
def Punctual (st : Store) (action : Action) (out : List Block) (t : Store) : Prop :=
  ActionOnTime st.currentSlot action ∧ Step st action out t

/-- The gauges of a scrape are in order, if what comes in before the first sample is on time
by the clock, what comes in before the second is on time by the first sample, and no vote that
comes in before the third has a source above the second. -/
theorem gauges_ordered {genesisTime : UInt64} {validators : Validators} {g st₁ st₂ : Store}
    {actions : List Action} {between later : List Event} {outs outs' : List (List Block)}
    (hopen : Store.fromAnchor (genesisState genesisTime validators)
      (genesisAnchorBlock (genesisState genesisTime validators)) = .ok g)
    (hbefore : Run Punctual g actions outs st₁)
    (hbetween : Run (fun st e => Step st (.event e)) st₁ between outs' st₂)
    (hontime : ∀ e ∈ between, OnTime st₁.currentSlot e)
    (hbelow : ∀ e ∈ later, SourcedBelow st₂.latestJustified.slot.get e)
    (hsound : Sound (Tables.values g.blocks ++ outs.flatten ++ outs'.flatten)) :
    (scrape st₁ st₂ (drive later st₂)).Ordered := by
  have hkept₁ : Kept st₁.currentSlot (Tables.values g.blocks ++ outs.flatten) st₁ := by
    refine hbefore.invariant (fun _ outs st => Sound (Tables.values g.blocks ++ outs.flatten) →
      Kept st.currentSlot (Tables.values g.blocks ++ outs.flatten) st) ?_ ?_
      (hsound.mono fun b hb => List.mem_append_left _ hb)
    · intro _
      have hlives : Lives (Tables.values g.blocks ++ ([] : List (List Block)).flatten) g :=
        ⟨genesisTime,validators,g,[],[],hopen,Run.nil g,rfl⟩
      exact kept_seed hlives hopen fun hpos => absurd hpos (Nat.lt_irrefl 0)
    · intro _ earlier m action out n _ ih hstep hs
      rw [List.flatten_append,List.flatten_singleton,← List.append_assoc] at hs ⊢
      have hs' := hs.mono fun b hb => List.mem_append_left _ hb
      exact (ih hs').step hs' hstep.1 hstep.2
  have hkept₂ : Kept st₁.currentSlot (Tables.values g.blocks ++ outs.flatten ++ outs'.flatten) st₂ := by
    refine hbetween.invariant (fun done outs' st => (∀ e ∈ done, OnTime st₁.currentSlot e) →
      Sound (Tables.values g.blocks ++ outs.flatten ++ outs'.flatten) →
      Kept st₁.currentSlot (Tables.values g.blocks ++ outs.flatten ++ outs'.flatten) st) ?_ ?_
      hontime hsound
    · intro _ _
      simpa using hkept₁
    · intro done earlier m e out n _ ih hstep ht hs
      rw [List.flatten_append,List.flatten_singleton,← List.append_assoc] at hs ⊢
      have hs' := hs.mono fun b hb => List.mem_append_left _ hb
      cases hstep
      exact (ih (fun e he => ht e (List.mem_append_left _ he)) hs').event hs' (ht e (by simp))
  have hfinal := (hkept₂.finalizedBelow hsound).drive hkept₂.lives hbelow
  exact ⟨hfinal.store,hkept₂.justified_le hsound⟩

def heed (e : Event) (st : Store) : List Block × Store :=
  (Tables.values (handle e st).blocks,handle e st)

theorem run_punctual {events : List Event} {st : Store}
    (h : Meets (fun st e => OnTime st.currentSlot e) heed events st) :
    Run Punctual st (events.map .event) (trace heed events st).1 (trace heed events st).2 := by
  induction events generalizing st with
  | nil => exact .nil st
  | cons e rest ih => exact (Run.single ⟨h.1,.event st e⟩).append (ih h.2)

theorem run_heed (events : List Event) (st : Store) :
    Run (fun st e => Step st (.event e)) st events (trace heed events st).1
      (trace heed events st).2 :=
  (run_trace heed events st).imp fun hheed => by
    obtain ⟨rfl,rfl⟩ := Prod.mk.inj hheed
    exact .event _ _

end

section
attribute [local instance] mixPair

-- Twelve intervals take the clock into slot 3.
def waited : List Event := List.replicate 12 (.tickInterval false)

def handed (block : Block) : Event := .importBlock none ⟨⟨block,default⟩,[]⟩ .enforce

def early : List Event :=
  waited ++ [handed (mint soloStore genesisPoint.root 1 []),
    handed (mint line1 (tip line1).root 2 [soloVote genesisPoint (tip line1)])]

def third : Event := handed (mint line2 (tip line2).root 3 [soloVote (tip line1) (tip line2)])

def fourth : Event := handed (mint line3 (tip line3).root 4 [soloVote (tip line2) (tip line3)])

def sampled₁ : Store := (trace heed early soloStore).2
def sampled₂ : Store := (trace heed [third] sampled₁).2

theorem gauges_ordered_line :
    scrape sampled₁ sampled₂ (drive [fourth] sampled₂) = ⟨3,2,2⟩ ∧
    (scrape sampled₁ sampled₂ (drive [fourth] sampled₂)).Ordered := by
  obtain ⟨hmeets,hontime,hbelow,hsound,hscrape⟩ :
      Meets (fun st e => OnTime st.currentSlot e) heed early soloStore ∧
      (∀ e ∈ [third], OnTime sampled₁.currentSlot e) ∧
      (∀ e ∈ [fourth], SourcedBelow sampled₂.latestJustified.slot.get e) ∧
      Sound (Tables.values soloStore.blocks ++ (trace heed early soloStore).1.flatten ++
        (trace heed [third] sampled₁).1.flatten) ∧
      scrape sampled₁ sampled₂ (drive [fourth] sampled₂) = ⟨3,2,2⟩ := by decide +kernel
  have hbefore : Run Punctual soloStore (early.map .event) (trace heed early soloStore).1
    sampled₁ := run_punctual hmeets
  have hbetween : Run (fun st e => Step st (.event e)) sampled₁ [third]
    (trace heed [third] sampled₁).1 sampled₂ := run_heed [third] sampled₁
  exact ⟨hscrape,gauges_ordered (fromAnchor_genesis 0 [default]) hbefore hbetween hontime hbelow
    hsound⟩

def emptied : Store := extend fork2 (tip fork2) 4 fork4

/-- A justified slot ahead of the clock, in a store whose blocks came in early; a finalized slot
above the justified one, as three blocks come in between the two samples; and the same in one
state, after votes for an empty slot. -/
theorem gauges_disordered :
    (∃ held, Lives held line2 ∧ Sound held ∧ scrape line2 line2 line2 = ⟨0,1,0⟩) ∧
    (∃ held events, Lives held soloStore ∧ Sound (held ++ Tables.values line3.blocks) ∧
      drive events soloStore = line3 ∧
      scrape soloStore soloStore (drive events soloStore) = ⟨0,0,1⟩) ∧
    (∃ held, Lives held emptied ∧ Sound held ∧ scrape emptied emptied emptied = ⟨0,0,2⟩) ∧
    ¬ (Scrape.mk 0 1 0).Ordered ∧ ¬ (Scrape.mk 0 0 1).Ordered ∧ ¬ (Scrape.mk 0 0 2).Ordered := by
  have hlife : Lives (Tables.values soloStore.blocks) soloStore := lives_genesis 0 [default]
  have hline1 : Lives _ line1 := hlife.extend genesisPoint 1 []
  have hline2 : Lives _ line2 := hline1.extend (tip line1) 2 [soloVote genesisPoint (tip line1)]
  have hfork2 : Lives _ fork2 := hline1.extend genesisPoint 2 []
  have hemptied : Lives _ emptied := hfork2.extend (tip fork2) 4 fork4
  refine ⟨⟨_,hline2,by decide +kernel,by decide +kernel⟩,
    ⟨_,[handed (mint soloStore genesisPoint.root 1 []),
      handed (mint line1 (tip line1).root 2 [soloVote genesisPoint (tip line1)]),third],hlife,
      by decide +kernel,rfl,by decide +kernel⟩,
    ⟨_,hemptied,by decide +kernel,by decide +kernel⟩,by decide,by decide,by decide⟩

end

end Devnet.Node
