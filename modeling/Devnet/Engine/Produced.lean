import Devnet.Engine.Ladder

/-!
A produced block is valid everywhere. The producer does not run the state transition: it
advances a copy of the head state, applies a candidate without a state root and gathers
votes until none can be added. Its block passes the transition all the same, on the
producer's own parent state and on that of any other node that knows the parent.
-/

set_option autoImplicit false

namespace Devnet.Engine
open Machine Trees Devnet.Types Devnet.Ssz Devnet.Protocol Devnet.ForkChoice

section
variable [HashPair]

theorem Grounded.transitionAndTrack_ok {held : List Block} {anchor : Bytes32} {st : Store}
    {signed : SignedBlockWithAttestation} {parent post : State} (h : Grounded held anchor st)
    (hsound : Sound held) (hheld : signed.message.block ∈ held)
    (hparent : st.states[signed.message.block.parentRoot]? = some parent)
    (htrans : parent.stateTransition signed true = .ok post)
    (hnew : hashTreeRoot signed.message.block ∉ st.blocks) :
    ∃ t, transitionAndTrack signed parent st = .ok (hashTreeRoot post) t ∧
      SameTree (st.tracking (hashTreeRoot signed.message.block) signed.message.block post) t := by
  have hroot := ((stateTransition_extends htrans).2 rfl).symm
  have htracked :=
    h.track hsound hparent (assembled_of_stateTransition htrans) hroot hnew hheld
  have hfold := touches_foldBlockAttestations
    (blockCarriedVotes signed.message.block.body.attestations signed.signature)
    (st.tracking (hashTreeRoot signed.message.block) signed.message.block post)
  obtain ⟨t,haccept,-⟩ := (htracked.touches hsound hfold).acceptNewVotes_ok hsound
  have hrefresh := touches_acceptNewVotes (foldBlockAttestations
    (blockCarriedVotes signed.message.block.body.attestations signed.signature)
    (st.tracking (hashTreeRoot signed.message.block) signed.message.block post))
  rw [after_of_ok haccept] at hrefresh
  have htrack := trackBlock_total hroot hnew (h.linked.stated.mp (mem_of_get hparent))
  refine ⟨t,estate_bind_ok.mpr ⟨post,st,check_ok.mpr ⟨mapError_ok.mpr htrans,rfl⟩,?_⟩,
    sameTree_of_touches (hfold.trans hrefresh)⟩
  refine estate_bind_ok.mpr ⟨true,_,adaptExcept_ok.mpr htrack,?_⟩
  rw [estate_modify_bind]
  exact estate_bind_ok.mpr ⟨(),_,adaptExcept_ok.mpr haccept,rfl⟩

theorem Grounded.importBlock_accepted {held : List Block} {anchor : Bytes32} {st : Store}
    {verifier : Option Verifier} {signed : SignedBlockWithAttestation} {policy : VerifyPolicy}
    {parent post : State} (h : Grounded held anchor st) (hsound : Sound held)
    (hheld : signed.message.block ∈ held)
    (himportable : Importable verifier signed policy st parent)
    (htrans : parent.stateTransition signed true = .ok post) :
    ∃ head plan t, importBlockCapturingInner verifier signed policy st =
      ((.accepted (hashTreeRoot signed.message.block) signed.message.block.parentRoot
        (hashTreeRoot post) head,plan),t) ∧
      SameTree (st.tracking (hashTreeRoot signed.message.block) signed.message.block post) t := by
  obtain ⟨t,ht,hsame⟩ := h.transitionAndTrack_ok hsound hheld himportable.hasParent htrans
    himportable.fresh
  have hparent : ∀ {other}, Importable verifier signed policy st other → other = parent := by
    intro other hother
    simpa [himportable.hasParent] using hother.hasParent.symm
  rcases importBlock_cases verifier signed policy st with
    ⟨_,-,hnone,-⟩ | ⟨other,error,_,hother,hrun,-⟩ | ⟨other,root,t',hother,hrun,heq⟩
  · exact absurd ⟨parent,himportable⟩ hnone
  · obtain rfl := hparent hother
    simp [ht] at hrun
  · obtain rfl := hparent hother
    obtain ⟨rfl,rfl⟩ : hashTreeRoot post = root ∧ t = t' := by simpa [ht] using hrun
    exact ⟨_,_,t,heq,hsame⟩

theorem Lives.produced {held : List Block} {st t : Store} (hlife : Lives held st)
    {order : IterationOrder SignedAttestation} {slot : Slot} {validator : ValidatorIndex}
    {produced : ProducedBlock} (h : produceBlock order slot validator st = .ok produced t) :
    ∃ p parent, st.blocks[produced.block.parentRoot]? = some p ∧
      st.states[produced.block.parentRoot]? = some parent ∧ Paired p parent ∧
      produced.root = hashTreeRoot produced.block ∧
      produced.block.body.attestations.length ≤ maxAttestations ∧
      ∀ signed : SignedBlockWithAttestation, signed.message.block = produced.block →
        parent.stateTransition signed true = .ok produced.postState := by
  obtain ⟨anchor,hlinked⟩ := hlife.linked
  obtain ⟨m,parent,votes,post,_,_,haccept,hparent,hconv,hblock,hroot,-,rfl,-,-,-⟩ :=
    produceBlock_ok h
  have hsame := sameTree_of_touches (touches_acceptNewVotes st)
  rw [after_of_ok haccept] at hsame
  rw [hsame.states] at hparent
  obtain ⟨hlen,candidate,hbuild⟩ := convergeAttestations_ok hconv
  have hat : produced.block.parentRoot = m.head := by rw [hblock]
  have hassembled : Assembled parent produced.block produced.postState := by
    rw [hblock]
    exact buildCandidateBlock_ok hbuild _
  rw [← hat] at hparent
  obtain ⟨p,hp,hpair,htrans⟩ := hlinked.transition hparent hassembled (by rw [hblock])
  refine ⟨p,parent,hp,hparent,hpair,hroot,?_,htrans⟩
  rw [hblock]
  simpa [bodyFrom] using hlen

/-- Two nodes that track one root keep the same post-state under it, if the hash has no
collision among what they hold. -/
theorem same_state {held held' all : List Block} {anchor anchor' r : Bytes32} {st st' : Store}
    {s s' : State} (h : Linked held anchor st) (h' : Linked held' anchor' st')
    (hsound : Sound all) (hsub : ∀ b ∈ held, b ∈ all) (hsub' : ∀ b ∈ held', b ∈ all)
    (hstates : ∀ s ∈ Tables.values st.states, ∀ s' ∈ Tables.values st'.states,
      hashTreeRoot s = hashTreeRoot s' → s = s')
    (hs : st.states[r]? = some s) (hs' : st'.states[r]? = some s') : s = s' := by
  obtain ⟨b,hb⟩ := get_of_mem (h.stated.mp (mem_of_get hs))
  obtain ⟨b',hb'⟩ := get_of_mem (h'.stated.mp (mem_of_get hs'))
  obtain rfl := hsound.injective b (hsub b (h.kept hb)) b' (hsub' b' (h'.kept hb'))
    ((h.keyed hb).trans (h'.keyed hb').symm)
  refine hstates s (Tables.mem_values.mpr ⟨r,hs⟩) s' (Tables.mem_values.mpr ⟨r,hs'⟩) ?_
  exact (h.paired hb hs).root.symm.trans (h'.paired hb' hs').root

/-- A produced block passes the transition on its parent's post-state with the post-state the
producer returned, and every other node that tracks the parent accepts it. -/
theorem produced_block_valid {held : List Block} {st t : Store} (hlife : Lives held st)
    {order : IterationOrder SignedAttestation} {slot : Slot} {validator : ValidatorIndex}
    {produced : ProducedBlock} (h : produceBlock order slot validator st = .ok produced t) :
    (∃ parent, st.states[produced.block.parentRoot]? = some parent ∧
      ∀ signed : SignedBlockWithAttestation, signed.message.block = produced.block →
        parent.stateTransition signed true = .ok produced.postState) ∧
    ∀ {held' : List Block} {st' : Store}, Lives held' st' →
      Sound (held ++ produced.block :: held') →
      (∀ s ∈ Tables.values st.states, ∀ s' ∈ Tables.values st'.states,
        hashTreeRoot s = hashTreeRoot s' → s = s') →
      produced.block.parentRoot ∈ st'.blocks → produced.root ∉ st'.blocks →
      ∀ (signed : SignedBlockWithAttestation) (policy : VerifyPolicy),
        signed.message.block = produced.block → signed.signature.length ≤ maxAttestations →
        ∃ head plan t', importBlockCapturingInner none signed policy st' =
          ((.accepted produced.root produced.block.parentRoot (hashTreeRoot produced.postState)
            head,plan),t') := by
  obtain ⟨p,parent,hp,hparent,-,hroot,hbody,htrans⟩ := hlife.produced h
  refine ⟨⟨parent,hparent,htrans⟩,?_⟩
  intro held' st' hlife' hsound hstates htracked hnew signed policy hsigned hsigs
  obtain ⟨_,hlinked⟩ := hlife.linked
  have hsub : ∀ b ∈ held', b ∈ held ++ produced.block :: held' := by
    intro b hb
    simp [hb]
  obtain ⟨_,hsteady⟩ := hlife'.steady (hsound.mono hsub)
  have hgrounded := hsteady.toGrounded.mono hsub
  obtain ⟨parent',hparent'⟩ := get_of_mem (hgrounded.linked.stated.mpr htracked)
  obtain rfl := same_state hlinked hgrounded.linked hsound
    (fun b hb => List.mem_append_left _ hb) (fun b hb => hb) hstates hparent hparent'
  rw [← hsigned] at hparent' hbody
  rw [hroot,← hsigned] at hnew
  rw [hroot,← hsigned]
  have himportable : Importable none signed policy st' parent := by
    refine ⟨hnew,?_,hparent',fun _ => rfl⟩
    simp [preCheckOverCap,Nat.not_lt.mpr hsigs,Nat.not_lt.mpr hbody]
  obtain ⟨head,plan,t',heq,-⟩ := hgrounded.importBlock_accepted hsound (by simp [hsigned])
    himportable (htrans signed hsigned)
  exact ⟨head,plan,t',heq⟩

end

section
attribute [local instance] mixPair

def voted1 : Store :=
  handle (.importAttestation ⟨⟨default,⟨Slot.zero,tip line1,tip line1,genesisPoint⟩⟩,default⟩) line1

def beside1 : Store := extend (extend soloStore genesisPoint 2 []) genesisPoint 1 []

/-- The block carries the vote, and the other node takes it whatever stands around it. -/
theorem produced_block_valid_beside : ∃ produced t,
    produceBlock default (Slot.ofNat 3) default voted1 = .ok produced t ∧
    produced.block.body.attestations.length = 1 ∧
    produced.postState.latestJustified = tip line1 ∧
    ∀ (proposer : Attestation) (signature : Signature), ∃ head plan t',
      importBlockCapturingInner none ⟨⟨produced.block,proposer⟩,[signature]⟩ .enforce beside1 =
        ((.accepted produced.root produced.block.parentRoot (hashTreeRoot produced.postState)
          head,plan),t') := by
  have hsolo : Lives (Tables.values soloStore.blocks) soloStore := lives_genesis 0 [default]
  have hproducer : Lives _ voted1 := (hsolo.extend genesisPoint 1 []).event _
  have hreceiver : Lives _ beside1 := (hsolo.extend genesisPoint 2 []).extend genesisPoint 1 []
  obtain ⟨⟨produced,t⟩,hrun,hvotes,hjust,hsound,hparent,hnew⟩ :
      ∃ p ∈ success (produceBlock default (Slot.ofNat 3) default) voted1,
        p.1.block.body.attestations.length = 1 ∧
        p.1.postState.latestJustified = tip line1 ∧
        Sound ((Tables.values soloStore.blocks ++
            Tables.values (extend soloStore genesisPoint 1 []).blocks ++
            Tables.values voted1.blocks) ++ p.1.block ::
          (Tables.values soloStore.blocks ++
            Tables.values (extend soloStore genesisPoint 2 []).blocks ++
            Tables.values beside1.blocks)) ∧
        p.1.block.parentRoot ∈ beside1.blocks ∧ p.1.root ∉ beside1.blocks := by
    decide +kernel
  have hok := success_eq_some.mp hrun
  refine ⟨produced,t,hok,hvotes,hjust,fun proposer signature => ?_⟩
  exact (produced_block_valid hproducer hok).2 hreceiver hsound (by decide +kernel) hparent hnew _ _
    rfl (by simp [maxAttestations,validatorRegistryLimit])

end

end Devnet.Engine
