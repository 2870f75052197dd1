import Devnet.Engine.Proposing
import Devnet.Engine.Replicas
import Devnet.Protocol.Accountable

/-!
Agreement between nodes of one genesis. A checkpoint that a node has taken over from a
post-state is backed by two thirds of the registry, with their votes in blocks the node
tracks. Two nodes that disagree on a checkpoint of one slot therefore convict a third of the
registry between them; without that they also follow one head. A restart is left out: it pins
both checkpoints to the block resumed at, which nobody need have voted for.
-/

set_option autoImplicit false

namespace Devnet.Engine
open Machine Trees Devnet.Types Devnet.Ssz Devnet.Protocol Devnet.ForkChoice

section
variable [HashPair]

def genesisRoot (genesisTime : UInt64) (validators : Validators) : Bytes32 :=
  hashTreeRoot (genesisAnchorBlock (genesisState genesisTime validators))

/-- A store that has grown on a genesis pair: every post-state is reached from the genesis
state by blocks of the store. -/
structure Grown (genesisTime : UInt64) (validators : Validators) (st : Store) : Prop where
  linked : Linked (Tables.values st.blocks) (genesisRoot genesisTime validators) st
  genesis : st.blocks[genesisRoot genesisTime validators]? =
    some (genesisAnchorBlock (genesisState genesisTime validators))
  chains : ∀ {r : Bytes32} {s : State}, st.states[r]? = some s → ∃ blocks logs,
    Chain true (genesisState genesisTime validators) blocks logs s ∧
      ∀ signed ∈ blocks, signed.message.block ∈ Tables.values st.blocks
  steady : Sound (Tables.values st.blocks) →
    Steady (Tables.values st.blocks) (genesisRoot genesisTime validators) st

theorem grown_genesis (genesisTime : UInt64) (validators : Validators) :
    Grown genesisTime validators (genesisStore genesisTime validators) := by
  have hopen := fromAnchor_genesis genesisTime validators
  have hlinked : Linked (Tables.values (genesisStore genesisTime validators).blocks) _ _ :=
    linked_genesis hopen (mem_values_genesis hopen)
  refine ⟨hlinked,Std.ExtTreeMap.getElem?_insert_self,?_,fun _ => steady_seed hlinked hopen rfl⟩
  intro r s hs
  obtain ⟨-,rfl⟩ : hashTreeRoot (genesisAnchorBlock (genesisState genesisTime validators)) = r ∧
      genesisState genesisTime validators = s := by
    simpa [genesisStore,Std.ExtTreeMap.getElem?_insert] using hs
  exact ⟨[],[],Run.nil _,by simp⟩

omit [HashPair] in
theorem Grows.values {st t : Store} (h : Grows st t) :
    ∀ b ∈ Tables.values st.blocks, b ∈ Tables.values t.blocks := by
  intro b hb
  obtain ⟨r,hr⟩ := Tables.mem_values.mp hb
  exact Tables.mem_values.mpr ⟨r,h.blocks hr⟩

theorem Grown.handle {genesisTime : UInt64} {validators : Validators} {st : Store}
    (h : Grown genesisTime validators st) (e : Event) :
    Grown genesisTime validators (handle e st) := by
  obtain ⟨pair,hgrafts,-⟩ := handle_grafts h.linked e
  have hgrows := h.linked.grows_grafts hgrafts
  have hsub := hgrows.values
  have hkept : ∀ {r b}, (Engine.handle e st).blocks[r]? = some b →
      b ∈ Tables.values (Engine.handle e st).blocks := fun hb => Tables.mem_values.mpr ⟨_,hb⟩
  have hearlier : ∀ {r : Bytes32} {s : State}, st.states[r]? = some s → ∃ blocks logs,
      Chain true (genesisState genesisTime validators) blocks logs s ∧
        ∀ signed ∈ blocks, signed.message.block ∈ Tables.values (Engine.handle e st).blocks := by
    intro r s hs
    obtain ⟨blocks,logs,hchain,hin⟩ := h.chains hs
    exact ⟨blocks,logs,hchain,fun signed hsigned => hsub _ (hin signed hsigned)⟩
  refine ⟨(h.linked.mono hsub).handle e hkept,hgrows.blocks h.genesis,?_,fun hsound =>
    ((h.steady (hsound.mono hsub)).mono hsub).handle hsound e hkept⟩
  intro r s hs
  cases hgrafts with
  | still same =>
    rw [same.states] at hs
    exact hearlier hs
  | @grown block parent post hasParent assembled root isNew same =>
    rw [same.states] at hs
    rcases of_states_tracking isNew hs with ⟨-,rfl⟩ | ⟨-,hs⟩
    · obtain ⟨_,-,-,htrans⟩ := h.linked.transition hasParent assembled root
      obtain ⟨blocks,logs,hchain,hin⟩ := hearlier hasParent
      refine ⟨_,_,hchain.snoc ⟨htrans ⟨⟨block,default⟩,[]⟩ rfl,rfl⟩,?_⟩
      intro signed hsigned
      rcases List.mem_append.mp hsigned with hsigned | hsigned
      · exact hin signed hsigned
      · obtain rfl := List.mem_singleton.mp hsigned
        refine hkept (r := hashTreeRoot block) ?_
        rw [same.blocks,(getElem?_tracking isNew block post _).1,if_pos rfl]
    · exact hearlier hs

theorem grown_drive (genesisTime : UInt64) (validators : Validators) (events : List Event) :
    Grown genesisTime validators (drive events (genesisStore genesisTime validators)) :=
  drive_preserves (fun e _ h => h.handle e) events (grown_genesis genesisTime validators)

theorem drive_single (e : Event) (st : Store) : drive [e] st = handle e st := rfl

def Carries (st : Store) (v : Nat) (checkpoint : Checkpoint) : Prop :=
  ∃ b ∈ Tables.values st.blocks, ∃ att ∈ b.body.attestations,
    att.validatorId.get = v ∧ att.data.target = checkpoint

theorem Firm.distinct {held : List Block} (h : Firm held) {g : State}
    {blocks : List SignedBlockWithAttestation} (hg : genesisAnchorBlock g ∈ held)
    (hin : ∀ signed ∈ blocks, signed.message.block ∈ held) : Distinct (chainBlocks g blocks) := by
  have hsub : ∀ b ∈ chainBlocks g blocks, b ∈ held := by
    intro b hb
    rcases List.mem_cons.mp hb with rfl | hb
    · exact hg
    · obtain ⟨signed,hsigned,rfl⟩ := List.mem_map.mp hb
      exact hin signed hsigned
  have hmono := h.mono hsub
  exact ⟨hmono.stateRoot,hmono.nonzero,hmono.injective⟩

theorem Grown.quorum {genesisTime : UInt64} {validators : Validators} {st : Store}
    (h : Grown genesisTime validators st) (hfirm : Firm (Tables.values st.blocks))
    {carried : State → Checkpoint}
    (hcarried : carried = State.latestJustified ∨ carried = State.latestFinalized) {c : Checkpoint}
    (hplaced : Placed carried (genesisRoot genesisTime validators) st c)
    (hpos : 0 < c.slot.get) :
    ∃ voters : Finset Nat, 2*validators.length ≤ 3*voters.card ∧
      ∀ v ∈ voters, v < validators.length ∧ Carries st v c := by
  obtain ⟨b,hb,hslot⟩ := hplaced.tracked
  rcases hplaced.source with hanchor | ⟨r,s,hs,rfl,-⟩
  · -- The genesis block is at slot 0.
    rw [hanchor,h.genesis] at hb
    obtain rfl := Option.some.inj hb
    rw [← hslot] at hpos
    exact absurd hpos (Nat.lt_irrefl 0)
  · obtain ⟨blocks,logs,hchain,hin⟩ := h.chains hs
    have hroots := hfirm.distinct (Tables.mem_values.mpr ⟨_,h.genesis⟩) hin
    obtain ⟨acts,outs,L,hreach,-,hL⟩ := hchain.represented
    have hmarked : L.Marked (carried s) := by
      have horder := hreach.consistent.order
      rcases hreach.consistent.checkpoints with ⟨-,hzero⟩ | ⟨hfin,hjust⟩
      · rw [hL.latestFinalized,hL.latestJustified] at horder
        rw [hL.latestJustified] at hzero
        rcases hcarried with rfl | rfl <;> omega
      · rcases hcarried with rfl | rfl
        · exact hL.latestJustified ▸ hjust
        · exact hL.latestFinalized ▸ hfin
    have hbit : s.justifiedSlots.get (carried s).slot.get = some true := by
      rw [Bitlist.get_eq,← hL.justified]
      exact hmarked.bit
    obtain ⟨voters,hcard,hvotes⟩ := hchain.two_thirds hroots (carried s) hpos hbit
      (hL.history ▸ hmarked.root) (h.linked.nonzero hfirm.toSound (mem_of_get hb))
    refine ⟨voters,hcard,fun v hv => ⟨(hvotes v hv).1,?_⟩⟩
    obtain ⟨signed,hsigned,att,hatt,hvoter,htarget⟩ := hchain.carries (hvotes v hv).2
    exact ⟨_,hin signed hsigned,att,hatt,hvoter,htarget⟩

theorem Grown.genesis_slot {genesisTime : UInt64} {validators : Validators} {st : Store}
    (h : Grown genesisTime validators st) {r : Bytes32} {b : Block} (hb : st.blocks[r]? = some b)
    (hzero : b.slot.get = 0) : r = genesisRoot genesisTime validators := by
  by_contra hne
  obtain ⟨p,_,_,-,-,-,hlt,-⟩ := (h.linked.child hb hne).parent
  omega

/-- At least a third of `n` validators voted for either of two different checkpoints of one
slot, in blocks of the two stores. -/
structure Convicted (n : Nat) (st st' : Store) (c c' : Checkpoint) : Prop where
  slot : c.slot = c'.slot
  root : c.root ≠ c'.root
  culprits : ∃ culprits : Finset Nat, n ≤ 3*culprits.card ∧
    ∀ v ∈ culprits, v < n ∧ Carries st v c ∧ Carries st' v c'

theorem Grown.agree {genesisTime : UInt64} {validators : Validators} {st st' : Store}
    (h : Grown genesisTime validators st) (h' : Grown genesisTime validators st')
    (hfirm : Firm (Tables.values st.blocks)) (hfirm' : Firm (Tables.values st'.blocks))
    {carried : State → Checkpoint}
    (hcarried : carried = State.latestJustified ∨ carried = State.latestFinalized)
    {c c' : Checkpoint} (hplaced : Placed carried (genesisRoot genesisTime validators) st c)
    (hplaced' : Placed carried (genesisRoot genesisTime validators) st' c')
    (hslot : c.slot = c'.slot) : c = c' ∨ Convicted validators.length st st' c c' := by
  by_cases hroot : c.root = c'.root
  · cases c
    cases c'
    simp only at hslot hroot
    exact .inl (by rw [hslot,hroot])
  have hpos : 0 < c.slot.get := by
    refine Nat.pos_of_ne_zero fun hzero => hroot ?_
    obtain ⟨b,hb,hbslot⟩ := hplaced.tracked
    obtain ⟨b',hb',hbslot'⟩ := hplaced'.tracked
    rw [h.genesis_slot hb (hbslot ▸ hzero),h'.genesis_slot hb' (hbslot' ▸ hslot ▸ hzero)]
  obtain ⟨voters,hcard,hvotes⟩ := h.quorum hfirm hcarried hplaced hpos
  obtain ⟨voters',hcard',hvotes'⟩ := h'.quorum hfirm' hcarried hplaced' (hslot ▸ hpos)
  refine .inr ⟨hslot,hroot,voters ∩ voters',third_of_two_thirds (fun v hv => (hvotes v hv).1)
    (fun v hv => (hvotes' v hv).1) hcard hcard',fun v hv => ?_⟩
  obtain ⟨hv,hv'⟩ := Finset.mem_inter.mp hv
  exact ⟨(hvotes v hv).1,(hvotes v hv).2,(hvotes' v hv').2⟩

/-- Two nodes of one genesis, at any moments and after any calls, that stand at one justified
slot agree on the justified checkpoint or convict a third of the registry; so for the
finalized one. -/
theorem checkpoints_agree_or_convict (genesisTime : UInt64) (validators : Validators)
    (events events' : List Event) {st st' : Store}
    (hst : st = drive events (genesisStore genesisTime validators))
    (hst' : st' = drive events' (genesisStore genesisTime validators))
    (hfirm : Firm (Tables.values st.blocks)) (hfirm' : Firm (Tables.values st'.blocks)) :
    (st.latestJustified.slot = st'.latestJustified.slot → st.latestJustified = st'.latestJustified ∨
      Convicted validators.length st st' st.latestJustified st'.latestJustified) ∧
    (st.latestFinalized.slot = st'.latestFinalized.slot → st.latestFinalized = st'.latestFinalized ∨
      Convicted validators.length st st' st.latestFinalized st'.latestFinalized) := by
  have hgrown : Grown genesisTime validators st := hst ▸ grown_drive genesisTime validators events
  have hgrown' : Grown genesisTime validators st' :=
    hst' ▸ grown_drive genesisTime validators events'
  have hpointed := (hgrown.steady hfirm.toSound).pointed
  have hpointed' := (hgrown'.steady hfirm'.toSound).pointed
  exact ⟨hgrown.agree hgrown' hfirm hfirm' (.inl rfl) hpointed.justified hpointed'.justified,
    hgrown.agree hgrown' hfirm hfirm' (.inr rfl) hpointed.finalized hpointed'.finalized⟩

/-- The head of such a node is current, if every vote of a block came with its block. -/
theorem current_drive {genesisTime : UInt64} {validators : Validators} {st : Store}
    (h : Grown genesisTime validators st) (events : List Event)
    (hbare : ∀ e ∈ events, ¬ e.Bare) (hsound : Sound (Tables.values (drive events st).blocks))
    (hcurrent : Sound (Tables.values st.blocks) → Current st) : Current (drive events st) := by
  induction events generalizing st with
  | nil => exact hcurrent hsound
  | cons e rest ih =>
    refine ih (h.handle e) (fun e' he' => hbare e' (List.mem_cons_of_mem _ he')) hsound ?_
    intro hnext
    obtain ⟨_,hgrafts,-⟩ := handle_grafts h.linked e
    have hsub := (h.linked.grows_grafts hgrafts).values
    have hsteady := (h.steady (hnext.mono hsub)).mono hsub
    exact (hcurrent (hnext.mono hsub)).handle hsteady.toGrounded hnext
      (hbare e (List.mem_cons_self ..)) fun hb => Tables.mem_values.mpr ⟨_,hb⟩

theorem current_genesis (genesisTime : UInt64) (validators : Validators)
    (hsound : Sound (Tables.values (genesisStore genesisTime validators).blocks)) :
    Current (genesisStore genesisTime validators) :=
  current_seed ((grown_genesis genesisTime validators).steady hsound) hsound
    (fromAnchor_genesis genesisTime validators)

/-- Two nodes of one genesis that track the same roots and count votes for the same heads are
at one head, or they convict a third of the registry. -/
theorem heads_agree_or_convict (genesisTime : UInt64) (validators : Validators)
    (events events' : List Event) (hbare : ∀ e ∈ events, ¬ e.Bare) (hbare' : ∀ e ∈ events', ¬ e.Bare)
    {st st' : Store} (hst : st = drive events (genesisStore genesisTime validators))
    (hst' : st' = drive events' (genesisStore genesisTime validators))
    (hfirm : Firm (Tables.values st.blocks ++ Tables.values st'.blocks))
    (hinjective : ∀ s ∈ Tables.values st.states, ∀ s' ∈ Tables.values st'.states,
      hashTreeRoot s = hashTreeRoot s' → s = s')
    (hroots : ∀ r, r ∈ st.blocks ↔ r ∈ st'.blocks)
    (hvotes : voteHeadCheckpoints st.latestKnownVotes = voteHeadCheckpoints st'.latestKnownVotes) :
    st.head = st'.head ∨
      Convicted validators.length st st' st.latestJustified st'.latestJustified := by
  have hsub : ∀ b ∈ Tables.values st.blocks, b ∈ Tables.values st.blocks ++ Tables.values st'.blocks :=
    fun b hb => List.mem_append_left _ hb
  have hsub' : ∀ b ∈ Tables.values st'.blocks,
      b ∈ Tables.values st.blocks ++ Tables.values st'.blocks :=
    fun b hb => List.mem_append_right _ hb
  have hsound := hfirm.toSound.mono hsub
  have hsound' := hfirm.toSound.mono hsub'
  have hgrown : Grown genesisTime validators st := hst ▸ grown_drive genesisTime validators events
  have hgrown' : Grown genesisTime validators st' :=
    hst' ▸ grown_drive genesisTime validators events'
  have hsteady := hgrown.steady hsound
  have hsteady' := hgrown'.steady hsound'
  have hblocks := same_blocks hgrown.linked hgrown'.linked hfirm.toSound hsub hsub' hroots
  have hstates := same_states hgrown.linked hgrown'.linked hfirm.toSound hsub hsub' hinjective hroots
  have hslot := same_justified_slot hsteady.toGrounded hsteady'.toGrounded hsound hsound' hblocks
    hstates
  rcases hgrown.agree hgrown' (hfirm.mono hsub) (hfirm.mono hsub') (.inl rfl)
    hsteady.pointed.justified hsteady'.pointed.justified hslot with hsame | hconvicted
  · have hcurrent : Current st := by
      subst hst
      exact current_drive (grown_genesis _ _) events hbare hsound (current_genesis _ _)
    have hcurrent' : Current st' := by
      subst hst'
      exact current_drive (grown_genesis _ _) events' hbare' hsound' (current_genesis _ _)
    rw [Current,hblocks,hsame,hvotes] at hcurrent
    exact .inl (Except.ok.inj (hcurrent.symm.trans hcurrent'))
  · exact .inr hconvicted

end

section
attribute [local instance] mixPair

def twinEvents (ballots : List (Nat × Nat × Nat)) : List Event :=
  ((genesisState 0 [default]).grownBlocks (twinSchedule ballots)).map
    fun signed => .importBlock none signed .enforce

def twinNode (ballots : List (Nat × Nat × Nat)) : Store :=
  drive (twinEvents ballots) (genesisStore 0 [default])

theorem twinNode_eq (ballots : List (Nat × Nat × Nat)) :
    twinNode ballots = drive (twinEvents ballots) (genesisStore 0 [default]) := rfl

theorem checkpoints_agree_or_convict_twin :
    (twinNode []).latestJustified.slot = Slot.ofNat 1 ∧
    Convicted 1 (twinNode []) (twinNode [(0,0,0)]) (twinNode []).latestJustified
      (twinNode [(0,0,0)]).latestJustified := by
  obtain ⟨hfirm,hfirm',hslot,hslot',hne⟩ : Firm (Tables.values (twinNode []).blocks) ∧
      Firm (Tables.values (twinNode [(0,0,0)]).blocks) ∧
      (twinNode []).latestJustified.slot = Slot.ofNat 1 ∧
      (twinNode [(0,0,0)]).latestJustified.slot = Slot.ofNat 1 ∧
      (twinNode []).latestJustified ≠ (twinNode [(0,0,0)]).latestJustified := by decide +kernel
  obtain ⟨hjustified,-⟩ := checkpoints_agree_or_convict 0 [default] (twinEvents [])
    (twinEvents [(0,0,0)]) (twinNode_eq _) (twinNode_eq _) hfirm hfirm'
  exact ⟨hslot,(hjustified (hslot.trans hslot'.symm)).resolve_left hne⟩

theorem heads_agree_or_convict_follower : soloProposed.head ≠ soloStore.head ∧
    (soloProposed.head = soloFollower.head ∨ Convicted 1 soloProposed soloFollower
      soloProposed.latestJustified soloFollower.latestJustified) := by
  obtain ⟨hhead,hkeys,hfirm,hinjective,hvotes⟩ : soloProposed.head ≠ soloStore.head ∧
      soloProposed.blocks.keys = soloFollower.blocks.keys ∧
      Firm (Tables.values soloProposed.blocks ++ Tables.values soloFollower.blocks) ∧
      (∀ s ∈ Tables.values soloProposed.states, ∀ s' ∈ Tables.values soloFollower.states,
        hashTreeRoot s = hashTreeRoot s' → s = s') ∧
      voteHeadCheckpoints soloProposed.latestKnownVotes =
        voteHeadCheckpoints soloFollower.latestKnownVotes := by decide +kernel
  have hproposed : soloProposed = drive [.produceBlock default (Slot.ofNat 1) default]
      (genesisStore 0 [default]) := (drive_single _ _).symm
  have hfollower : soloFollower = drive [.importBlock none soloEnvelope .enforce]
      (genesisStore 0 [default]) := (drive_single _ _).symm
  refine ⟨hhead,heads_agree_or_convict 0 [default] _ _ ?_ ?_ hproposed hfollower hfirm hinjective
    ?_ hvotes⟩
  · rintro e he ⟨vote,rfl⟩
    simp at he
  · rintro e he ⟨vote,rfl⟩
    simp at he
  · intro r
    rw [← Std.ExtTreeMap.mem_keys,hkeys,Std.ExtTreeMap.mem_keys]

end

end Devnet.Engine
