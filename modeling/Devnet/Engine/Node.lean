import Devnet.Engine.Importer

/-!
Runs of a node. An event is one call on the store, with everything it depends on: the
verifier the engine holds, and the order in which a hash map hands out votes. Calls that
fail are events like any other. A node may also be restarted at a pair it tracks.
-/

set_option autoImplicit false

namespace Devnet.Engine
open Machine Devnet.Types Devnet.Ssz Devnet.Protocol Devnet.ForkChoice

inductive Event where
  | importBlock (verifier : Option Verifier) (signed : SignedBlockWithAttestation)
      (policy : VerifyPolicy)
  | importAttestation (vote : SignedAttestation)
  | processAttestation (vote : SignedAttestation) (isFromBlock : Bool)
  | acceptNewVotes
  | tickInterval (hasProposal : Bool)
  | produceBlock (order : IterationOrder SignedAttestation) (slot : Slot)
      (validator : ValidatorIndex)
  | produceAttestationVote (slot : Slot)
  | produceBlockUnsigned (order : IterationOrder SignedAttestation) (slot : Slot)
      (validator : ValidatorIndex)

def Event.gossip : Event → Option SignedAttestation
  | .importAttestation vote => some vote
  | .processAttestation vote false => some vote
  | _ => none

section Handling
variable [HashPair]

def handle : Event → Store → Store
  | .importBlock verifier signed policy, st =>
    (importBlockCapturingInner verifier signed policy st).2
  | .importAttestation vote, st => (importAttestation vote st).2
  | .processAttestation vote isFromBlock, st => after (processAttestation vote isFromBlock) st
  | .acceptNewVotes, st => after acceptNewVotes st
  | .tickInterval hasProposal, st => after (tickInterval hasProposal) st
  | .produceBlock order slot validator, st => after (produceBlock order slot validator) st
  | .produceAttestationVote slot, st => after (produceAttestationVote slot) st
  | .produceBlockUnsigned order slot validator, st =>
    after (produceBlockUnsigned order slot validator) st

theorem handle_gossip {e : Event} {vote : SignedAttestation} (h : e.gossip = some vote)
    (st : Store) : handle e st = st ∨ st.Admits vote ∧ handle e st = st.withGossip vote := by
  have hafter : handle e st = after (processAttestation vote false) st := by
    cases e with
    | importAttestation v =>
      obtain rfl : v = vote := by simpa [Event.gossip] using h
      exact importAttestation_store v st
    | processAttestation v isFromBlock =>
      cases isFromBlock with
      | true => simp [Event.gossip] at h
      | false =>
        obtain rfl : v = vote := by simpa [Event.gossip] using h
        rfl
    | _ => simp [Event.gossip] at h
  rw [hafter]
  rcases processAttestation_cases st vote false with ⟨e,-,hrun⟩ | ⟨changed,hadmits,hrun⟩
  · exact .inl (after_of_error hrun)
  · exact .inr ⟨hadmits,after_of_ok hrun⟩

theorem handle_settles {e : Event} (h : e.gossip = none) (st : Store) :
    Settles st (handle e st) := by
  cases e with
  | importBlock verifier signed policy =>
    exact settles_importBlockCapturingInner verifier signed policy st
  | importAttestation vote => simp [Event.gossip] at h
  | processAttestation vote isFromBlock =>
    cases isFromBlock with
    | true => exact .quiet (touches_onChain st vote)
    | false => simp [Event.gossip] at h
  | acceptNewVotes => exact .quiet (touches_acceptNewVotes st)
  | tickInterval hasProposal => exact .quiet (touches_tickInterval hasProposal st)
  | produceBlock order slot validator => exact settles_produceBlock order slot validator st
  | produceAttestationVote slot =>
    refine .quiet ?_
    change Touches st (after (produceAttestationVote slot) st)
    rw [after_produceAttestationVote]
    exact touches_acceptNewVotes st
  | produceBlockUnsigned order slot validator =>
    exact settles_produceBlockUnsigned order slot validator st

/-- What survives every kind of write survives every event. -/
theorem handle_rule (I : Store → Prop) (hgossip : ∀ {st vote}, I st → I (st.withGossip vote))
    (htouch : ∀ {st t}, Touch st t → I st → I t)
    (htrack : ∀ {st block post}, hashTreeRoot block ∉ st.blocks → I st →
      I (st.tracking (hashTreeRoot block) block post)) (e : Event) {st : Store} (h : I st) :
    I (handle e st) := by
  cases hg : e.gossip with
  | some vote =>
    rcases handle_gossip hg st with heq | ⟨-,heq⟩
    · rwa [heq]
    · rw [heq]
      exact hgossip h
  | none =>
    have hwrites := (handle_settles hg st).writes
    generalize handle e st = t at hwrites ⊢
    induction hwrites with
    | refl => exact h
    | tail _ hwrite ih =>
      cases hwrite with
      | touch touch => exact htouch touch ih
      | track _ _ _ hnew => exact htrack hnew ih

theorem handle_tree (I : Store → Prop) (hsame : ∀ {st t}, SameTree st t → I st → I t)
    (htrack : ∀ {st block post}, hashTreeRoot block ∉ st.blocks → I st →
      I (st.tracking (hashTreeRoot block) block post)) (e : Event) {st : Store} (h : I st) :
    I (handle e st) := by
  have hgossip : ∀ {st vote}, SameTree st (st.withGossip vote) := ⟨rfl,rfl,rfl,rfl,rfl⟩
  exact handle_rule I (hsame hgossip) (fun touch => hsame touch.sameTree) htrack e h

def Handles (st : Store) (e : Event) (_ : Unit) (t : Store) : Prop := t = handle e st

def drive (events : List Event) (st : Store) : Store := events.foldl (fun st e => handle e st) st

theorem drive_preserves {I : Store → Prop} (hstep : ∀ (e : Event) {st : Store}, I st → I (handle e st))
    (events : List Event) {st : Store} (h : I st) : I (drive events st) := by
  induction events generalizing st with
  | nil => exact h
  | cons e rest ih => exact ih (hstep e h)

theorem handles_drive (events : List Event) (st : Store) :
    ∃ outs, Run Handles st events outs (drive events st) := by
  induction events using List.reverseRecOn with
  | nil => exact ⟨[],Run.nil st⟩
  | append_singleton events e ih =>
    obtain ⟨outs,hrun⟩ := ih
    refine ⟨outs ++ [()],hrun.snoc ?_⟩
    simp [Handles,drive]

def genesisStore (genesisTime : UInt64) (validators : Validators) : Store :=
  let state := genesisState genesisTime validators
  let anchorRoot := hashTreeRoot (genesisAnchorBlock state)
  { time := ⟨0,Slot.zero.isLt⟩
    config := state.config
    head := anchorRoot
    safeTarget := anchorRoot
    latestJustified := ⟨anchorRoot,Slot.zero⟩
    latestFinalized := ⟨anchorRoot,Slot.zero⟩
    blocks := (∅ : Blocks).insert anchorRoot (genesisAnchorBlock state)
    states := (∅ : HashMap Bytes32 State).insert anchorRoot state
    blockOrder := [anchorRoot]
    latestKnownVotes := ∅
    latestNewVotes := ∅ }

theorem fromAnchor_genesis (genesisTime : UInt64) (validators : Validators) :
    Store.fromAnchor (genesisState genesisTime validators)
      (genesisAnchorBlock (genesisState genesisTime validators)) =
      .ok (genesisStore genesisTime validators) := by
  have htime : 0*intervalsPerSlot < 2^64 := by decide
  have hnormal : ∀ root, normalizeGenesisCheckpoint default Slot.zero root = ⟨root,Slot.zero⟩ :=
    fun _ => if_pos ⟨rfl,rfl⟩
  refine guard_ok.mpr ⟨not_not.mpr rfl,?_⟩
  refine (dif_pos htime).trans ?_
  simp only [Store.insertBlock,Std.ExtTreeMap.contains_empty,Bool.false_eq_true,if_false]
  exact congrArg Except.ok (by
    simp only [genesisStore,← hnormal]
    rfl)

inductive Action where
  | event (e : Event)
  | resume (root : Bytes32)

/-- A step of a node's life reports the blocks the node holds after it. -/
inductive Step : Store → Action → List Block → Store → Prop where
  | event (st : Store) (e : Event) :
      Step st (.event e) (Tables.values (handle e st).blocks) (handle e st)
  | resume {st t : Store} {root : Bytes32} {block : Block} {state : State}
      (hasBlock : st.blocks[root]? = some block) (hasState : st.states[root]? = some state)
      (opens : Store.fromTrustedHead state block = .ok t) :
      Step st (.resume root) (Tables.values t.blocks) t

/-- A node that was opened at a genesis pair and is now at `st`, with the blocks it has held
at any time. -/
structure Lives (held : List Block) (st : Store) : Prop where
  life : ∃ genesisTime validators g actions outs,
    Store.fromAnchor (genesisState genesisTime validators)
      (genesisAnchorBlock (genesisState genesisTime validators)) = .ok g ∧
    Run Step g actions outs st ∧ held = Tables.values g.blocks ++ outs.flatten

/-- What holds at genesis and is kept by every step holds throughout a life. -/
theorem Lives.rule {held : List Block} {st : Store} (h : Lives held st)
    (I : List Block → Store → Prop)
    (hgenesis : ∀ {genesisTime validators g}, Store.fromAnchor (genesisState genesisTime validators)
      (genesisAnchorBlock (genesisState genesisTime validators)) = .ok g →
        I (Tables.values g.blocks) g)
    (hstep : ∀ {held st action out t}, I held st → Step st action out t → I (held ++ out) t) :
    I held st := by
  obtain ⟨genesisTime,validators,g,actions,outs,hopen,hrun,rfl⟩ := h.life
  refine hrun.invariant (fun _ outs st => I (Tables.values g.blocks ++ outs.flatten) st) ?_ ?_
  · simpa using hgenesis hopen
  · intro _ earlier m action out n _ ih hs
    rw [List.flatten_append,List.flatten_singleton,← List.append_assoc]
    exact hstep ih hs

theorem lives_genesis (genesisTime : UInt64) (validators : Validators) :
    Lives (Tables.values (genesisStore genesisTime validators).blocks)
      (genesisStore genesisTime validators) :=
  ⟨genesisTime,validators,_,[],[],fromAnchor_genesis _ _,Run.nil _,by simp⟩

theorem Lives.step {held : List Block} {st t : Store} {action : Action} {out : List Block}
    (h : Lives held st) (hstep : Step st action out t) : Lives (held ++ out) t := by
  obtain ⟨genesisTime,validators,g,actions,outs,hopen,hrun,rfl⟩ := h.life
  exact ⟨genesisTime,validators,g,_,_,hopen,hrun.snoc hstep,by simp⟩

theorem Lives.event {held : List Block} {st : Store} (h : Lives held st) (e : Event) :
    Lives (held ++ Tables.values (handle e st).blocks) (handle e st) := h.step (.event st e)

def reopened (st : Store) (root : Bytes32) : Option Store := do
  let block ← st.blocks[root]?
  let state ← st.states[root]?
  (Store.fromTrustedHead state block).toOption

theorem Lives.reopened {held : List Block} {st t : Store} {root : Bytes32} (h : Lives held st)
    (hopen : reopened st root = some t) : Lives (held ++ Tables.values t.blocks) t := by
  obtain ⟨block,hblock,hopen⟩ := Option.bind_eq_some_iff.mp hopen
  obtain ⟨state,hstate,hopen⟩ := Option.bind_eq_some_iff.mp hopen
  exact h.step (.resume hblock hstate (toOption_eq_some.mp hopen))

end Handling

def soloStore : Store := @genesisStore mixPair 0 [default]

end Devnet.Engine
