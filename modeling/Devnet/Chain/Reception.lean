import Devnet.Chain.Proposals
import Devnet.Engine.Authentic
import Devnet.Engine.SafeTarget

/-!
How other nodes receive a node's own proposals. The service signs the proposer's attestation
and nothing else, so its envelopes carry one signature however many votes are in the body. A
node without a verifier takes them, and so does the sync path, which skips the gate; the
gossip path of a node with a verifier asks for a signature per vote and turns down every
proposal that carries one.
-/

set_option autoImplicit false

namespace Devnet.Chain
open Machine Devnet.Types Devnet.Ssz Devnet.Protocol Devnet.ForkChoice Devnet.Engine
  Devnet.Storage Devnet.Duties

section
variable [HashPair]

theorem lives_service {held : List Block} {st : Store} (h : Lives held st) (store : RedbStore) :
    Lives held (Service.mk st store).engine := h

theorem importBlock_gated {st : Store} {verifier : Option Verifier}
    {signed : SignedBlockWithAttestation} {policy : VerifyPolicy} {parent : State} {e : VerifyError}
    (hnew : hashTreeRoot signed.message.block ∉ st.blocks)
    (hcap : preCheckOverCap signed.signature signed.message.block.body.attestations = .ok ())
    (hparent : st.states[signed.message.block.parentRoot]? = some parent)
    (henforce : policy.enforces = true)
    (hgate : runVerifyGate verifier signed parent.validators = .error e) :
    importBlockCapturingInner verifier signed policy st =
      ((.rejected (hashTreeRoot signed.message.block) signed.message.block.parentRoot (.verify e),
        none),st) := by
  have hfresh : ¬ st.hasBlock (hashTreeRoot signed.message.block) = true :=
    mt Std.ExtTreeMap.contains_iff_mem.mp hnew
  rw [importBlockCapturingInner_eq]
  simp only [screenBlock,if_neg hfresh,hcap,hparent,if_pos henforce,hgate,settleBlock]

omit [HashPair] in
theorem slot_produced {st t : Store} {slot : Slot} {produced : ProducedVote}
    (h : produceAttestationVote slot st = .ok produced t) : produced.vote.slot = slot := by
  obtain ⟨headRoot,m,-,h⟩ := estate_bind_ok.mp h
  rw [estate_get_bind] at h
  obtain ⟨headBlock,_,-,h⟩ := estate_bind_ok.mp h
  obtain ⟨target,_,-,h⟩ := estate_bind_ok.mp h
  obtain ⟨rfl,-⟩ := EStateM.Result.ok.inj h
  rfl

theorem proposed {self t : Service} {order : IterationOrder SignedAttestation} {slot : Slot}
    {validator : ValidatorIndex} {signer : AttestationSigner} {fault : Fault}
    {signed : SignedBlockWithAttestation}
    (h : produceBlock order slot validator signer fault self = .ok signed t) :
    ∃ produced m signature, ForkChoice.produceBlock order slot validator self.engine =
      .ok produced m ∧ signed.message.block = produced.block ∧ signed.signature = [signature] ∧
      signer signed.message.proposerAttestation = .ok signature ∧
      signed.message.proposerAttestation.validatorId = validator ∧
      signed.message.proposerAttestation.data.slot = slot := by
  rcases produceBlock_cases self order slot validator signer fault with
    ⟨e,engine,-,heq⟩ | ⟨prod,engine,hunsigned,⟨-,heq⟩ | ⟨inputs,-,⟨e,-,heq⟩ | ⟨signature,hsign,heq⟩⟩⟩
  · simp [heq] at h
  · simp [heq] at h
  · simp [heq] at h
  · obtain ⟨produced,m,hproduced,hrest⟩ := estate_bind_ok.mp hunsigned
    obtain ⟨vote,n,hvote,hpure⟩ := estate_bind_ok.mp hrest
    obtain ⟨rfl,-⟩ := EStateM.Result.ok.inj hpure
    rw [heq] at h
    obtain ⟨_,_,-,hsigned⟩ := estate_bind_ok.mp h
    obtain ⟨rfl,-⟩ := EStateM.Result.ok.inj hsigned
    exact ⟨produced,m,signature,adaptExcept_ok.mp hproduced,rfl,rfl,hsign,rfl,
      slot_produced (adaptExcept_ok.mp hvote)⟩

/-- How a node that knows the parent of a proposal, and not the proposal itself, receives it.
By sync it always takes it. By gossip, with a verifier, it takes it if and only if the body is
empty and the proposer's signature verifies; a body with votes is turned down for the length
of the signature list, whatever the verifier. -/
theorem proposal_reception {held held' : List Block} {self t : Service} {st : Store}
    (hlife : Lives held self.engine) {order : IterationOrder SignedAttestation} {slot : Slot}
    {validator : ValidatorIndex} {signer : AttestationSigner} {fault : Fault}
    {signed : SignedBlockWithAttestation}
    (h : produceBlock order slot validator signer fault self = .ok signed t)
    (hlife' : Lives held' st) (hsound : Sound (held ++ signed.message.block :: held'))
    (hstates : ∀ s ∈ Tables.values self.engine.states, ∀ s' ∈ Tables.values st.states,
      hashTreeRoot s = hashTreeRoot s' → s = s')
    (hparent : signed.message.block.parentRoot ∈ st.blocks)
    (hnew : hashTreeRoot signed.message.block ∉ st.blocks) (verifier : Verifier) :
    ∃ parent signature, st.states[signed.message.block.parentRoot]? = some parent ∧
      signed.signature = [signature] ∧
      (importBlockCapturingInner (some verifier) signed .skip st).1.1.isAccepted = true ∧
      (signed.message.block.body.attestations ≠ [] →
        importBlockCapturingInner (some verifier) signed .enforce st =
          ((.rejected (hashTreeRoot signed.message.block) signed.message.block.parentRoot
            (.verify (.lengthMismatch (signed.message.block.body.attestations.length+1) 1)),
            none),st)) ∧
      (signed.message.block.body.attestations = [] →
        ((importBlockCapturingInner (some verifier) signed .enforce st).1.1.isAccepted = true ↔
          verifyOne verifier parent.validators signed.message.proposerAttestation signature =
            .ok ())) := by
  obtain ⟨produced,m,signature,hproduced,hblock,hsignature,-⟩ := proposed h
  obtain ⟨p,own,-,hown,-,-,hbody,htrans⟩ := hlife.produced hproduced
  have hsub' : ∀ b ∈ held', b ∈ held ++ signed.message.block :: held' := by
    intro b hb
    simp [hb]
  obtain ⟨_,hlinked⟩ := hlife.linked
  obtain ⟨_,hgrounded⟩ := hlife'.grounded hsub' hsound
  obtain ⟨parent,hstate⟩ := get_of_mem (hgrounded.linked.stated.mpr hparent)
  rw [← hblock] at hown hbody
  obtain rfl := same_state hlinked hgrounded.linked hsound
    (fun b hb => List.mem_append_left _ hb) (fun b hb => hb) hstates hown hstate
  have hcap : preCheckOverCap signed.signature signed.message.block.body.attestations = .ok () := by
    have hone : ¬ maxAttestations < 1 := by decide
    simp [preCheckOverCap,hsignature,Nat.not_lt.mpr hbody,hone]
  have haccepts : ∀ {policy : VerifyPolicy}, (policy.enforces = true →
      runVerifyGate (some verifier) signed own.validators = .ok ()) →
      (importBlockCapturingInner (some verifier) signed policy st).1.1.isAccepted = true := by
    intro policy hgate
    obtain ⟨head,plan,t',heq,-⟩ := hgrounded.importBlock_accepted hsound (by simp)
      ⟨hnew,hcap,hstate,hgate⟩ (htrans signed hblock)
    rw [heq]
    rfl
  refine ⟨own,signature,hstate,hsignature,haccepts (by simp [VerifyPolicy.enforces]),?_,?_⟩
  · intro hvotes
    refine importBlock_gated hnew hcap hstate rfl ?_
    have hlength : 1 ≠ signed.message.block.body.attestations.length+1 := by
      have := List.length_pos_of_ne_nil hvotes
      omega
    simp only [runVerifyGate,verifyPositional,hsignature,List.length_singleton]
    exact if_pos hlength
  · intro hempty
    have hgate : runVerifyGate (some verifier) signed own.validators = .ok () ↔
        verifyOne verifier own.validators signed.message.proposerAttestation signature = .ok () := by
      simp [verifyGate_ok,carried,hsignature,hempty]
    constructor
    · intro haccepted
      refine hgate.mp ?_
      cases hrun : runVerifyGate (some verifier) signed own.validators with
      | ok _ => rfl
      | error e =>
        rw [importBlock_gated hnew hcap hstate rfl hrun] at haccepted
        cases haccepted
    · intro hverify
      exact haccepts fun _ => hgate.mpr hverify

end

section
attribute [local instance] mixPair

def polledProposal : Call SignedBlockWithAttestation :=
  produceBlock default (Slot.ofNat 2) default willing none

/-- It has a vote pending then, which its own peer does not take from it. -/
theorem proposal_reception_polled : ∃ signed t,
    polledProposal ⟨polledLine,RedbStore.empty⟩ = .ok signed t ∧
    ∀ verifier, importBlockCapturingInner (some verifier) signed .enforce line1 =
      ((.rejected (hashTreeRoot signed.message.block) signed.message.block.parentRoot
        (.verify (.lengthMismatch 2 1)),none),line1) := by
  obtain ⟨⟨signed,t⟩,hok,hone,hsound,hparent,hnew⟩ :
      ∃ p ∈ success polledProposal ⟨polledLine,RedbStore.empty⟩,
        p.1.message.block.body.attestations.length = 1 ∧
        Sound (((Tables.values soloStore.blocks ++ Tables.values line1.blocks) ++
          Tables.values polledLine.blocks) ++ p.1.message.block ::
            (Tables.values soloStore.blocks ++ Tables.values line1.blocks)) ∧
        p.1.message.block.parentRoot ∈ line1.blocks ∧
        hashTreeRoot p.1.message.block ∉ line1.blocks := by decide +kernel
  dsimp only at hone hsound hparent hnew
  have hrun := success_eq_some.mp hok
  have hlife : Lives (Tables.values soloStore.blocks ++ Tables.values line1.blocks) line1 :=
    (lives_genesis 0 [default]).extend genesisPoint 1 []
  have hpolled : Lives ((Tables.values soloStore.blocks ++ Tables.values line1.blocks) ++
      Tables.values polledLine.blocks) polledLine :=
    hlife.event (.importAttestation (soloVote genesisPoint (tip line1)))
  have hengine := lives_service hpolled RedbStore.empty
  refine ⟨signed,t,hrun,fun verifier => ?_⟩
  obtain ⟨_,_,-,-,-,hrejected,-⟩ := proposal_reception hengine hrun hlife hsound
    (by decide +kernel) hparent hnew verifier
  have hvotes : signed.message.block.body.attestations ≠ [] := by
    intro hempty
    simp [hempty] at hone
  simpa only [hone] using hrejected hvotes

end

end Devnet.Chain
