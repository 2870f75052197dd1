import Devnet.Engine.Ladder

/-!
Whether a produced vote can be counted. Its source is the store's justified checkpoint; a
child of its head counts it only if that checkpoint is marked in the history of the head's
own branch. A post-state that carries the checkpoint marks it, and so do all its
descendants; a branch beside it, or a restart that pins the checkpoint to the anchor, does
not.
-/

set_option autoImplicit false

namespace Devnet.Engine
open Machine Trees Devnet.Types Devnet.Ssz Devnet.Protocol Devnet.ForkChoice

/-- The bit of the checkpoint's slot is set and the history records its root there. -/
structure Marks (history : List Bytes32) (bits : Bitlist historicalRootsLimit) (c : Checkpoint) :
    Prop where
  bit : bits.get c.slot.get = some true
  root : history[c.slot.get]? = some c.root

theorem marks_iff {L : Ledger} {history : List Bytes32} {bits : Bitlist historicalRootsLimit}
    {c : Checkpoint} (hhist : L.history = history) (hbits : L.justified = bits.toList) :
    Marks history bits c ↔ L.Marked c := by
  subst hhist
  constructor
  · intro h
    exact ⟨by rw [hbits,← Bitlist.get_eq]; exact h.bit,h.root⟩
  · intro h
    exact ⟨by rw [Bitlist.get_eq,← hbits]; exact h.bit,h.root⟩

section
variable [HashPair]

/-- Before the votes of a child the checkpoint is marked on `s`, or it is the genesis block
that `s` stands at and the child is about to record. -/
def Inherits (s : State) (root : Bytes32) (c : Checkpoint) : Prop :=
  Marks s.historicalBlockHashes s.justifiedSlots c ∨ s.slot.get = 0 ∧ c = ⟨root,Slot.zero⟩

theorem OnChain.inherits {s m : State} {block : Block} {start w : Working} {c : Checkpoint}
    {done : List Attestation} (h : OnChain s) (hc : Inherits s block.parentRoot c)
    (hm : s.opened block = .ok m) (hstart : Working.start m = .ok start)
    (hrun : attestAll m start done = .ok w) :
    Marks m.historicalBlockHashes w.justifiedSlots c := by
  obtain ⟨n,L,hL,-⟩ := h.represented
  obtain ⟨-,root,start',hstart',hmirror⟩ := hL.opened hm
  obtain rfl : start' = start := by
    rw [hstart'] at hstart
    exact Except.ok.inj hstart
  have hopened : (L.extend root (s.gap block)).Marked c := by
    have hstep : Ledger.Step n L (.extend root (s.gap block)) [] _ := .extend L root _
    rcases hc with hmarks | ⟨hzero,rfl⟩
    · exact ((marks_iff hL.history hL.justified).mp hmarks).mono (fun t => hstep.bit_mono)
        hstep.history_mono
    · -- The first block of all sets the bit of slot 0 and records its parent there.
      have hempty : L.history = [] := by
        rw [hL.history,← List.length_eq_zero_iff,h.length,hzero]
      have hbits : L.justified = [] := by
        obtain ⟨_,L',hL',hc'⟩ := h.represented
        rw [hL.justified,← hL'.justified,← List.length_eq_zero_iff,hc'.aligned,hL'.history,
          h.length,hzero]
      rw [← hL.records hm hmirror]
      exact ⟨by simp [Ledger.extend,hempty,hbits,Slot.zero],by simp [Ledger.extend,hempty,Slot.zero]⟩
  obtain ⟨_,L',hvotes,-,hmirror'⟩ := hmirror.attestAll hrun
  refine (marks_iff hmirror'.history hmirror'.justified).mpr ?_
  refine Run.preserves (fun L => L.Marked c) hvotes hopened ?_
  intro L₁ _ _ L₂ hmarked hstep
  exact hmarked.mono (fun t => hstep.bit_mono) hstep.history_mono

theorem OnChain.inherits_of_opened {s m : State} {block : Block} {start : Working} {c : Checkpoint}
    (h : OnChain s) (hm : s.opened block = .ok m) (hstart : Working.start m = .ok start)
    (hmarks : Marks m.historicalBlockHashes start.justifiedSlots c) :
    Inherits s block.parentRoot c := by
  obtain ⟨n,L,hL,hconsistent⟩ := h.represented
  obtain ⟨-,root,start',hstart',hmirror⟩ := hL.opened hm
  obtain rfl : start' = start := Except.ok.inj (hstart'.symm.trans hstart)
  obtain ⟨hbit,hroot⟩ := (marks_iff hmirror.history hmirror.justified).mp hmarks
  have haligned := hconsistent.aligned
  simp only [Ledger.extend] at hbit hroot
  rcases Nat.lt_or_ge c.slot.get L.history.length with hlt | hge
  · rw [List.getElem?_append_left (by omega)] at hbit hroot
    exact .inl ((marks_iff hL.history hL.justified).mpr ⟨hbit,hroot⟩)
  · rw [List.getElem?_append_right (by omega)] at hbit hroot
    cases hidx : c.slot.get - L.history.length with
    | succ k =>
      rw [haligned,hidx,List.getElem?_cons_succ] at hbit
      simp [List.getElem?_replicate] at hbit
    | zero =>
      rw [haligned,hidx,List.getElem?_cons_zero,Option.some.injEq,List.isEmpty_iff] at hbit
      rw [hidx,List.getElem?_cons_zero,Option.some.injEq] at hroot
      have hzero : c.slot.get = 0 := by simpa [hbit] using hidx
      refine .inr ⟨by rw [← h.length,← hL.history,hbit]; rfl,?_⟩
      rw [← hL.records hm hmirror,hroot]
      obtain ⟨croot,cslot⟩ := c
      exact congrArg (Checkpoint.mk croot) (Slot.ext_get hzero)

theorem OnChain.inherits_next {s t : State} {signed : SignedBlockWithAttestation}
    {c : Checkpoint} (h : OnChain s) (hc : Inherits s signed.message.block.parentRoot c)
    (htrans : s.stateTransition signed true = .ok t) :
    Marks t.historicalBlockHashes t.justifiedSlots c := by
  obtain ⟨m,hm,hpost,-⟩ := stateTransition_ok.mp htrans
  obtain ⟨start,w,_,hstart,hrun,-,rfl⟩ := processAttestations_ok.mp hpost
  have hmarks := h.inherits hc hm hstart hrun
  exact ⟨hmarks.bit,hmarks.root⟩

theorem Linked.inherits {held : List Block} {anchor a r : Bytes32} {st : Store} {c : Checkpoint}
    (h : Linked held anchor st) (hsound : Sound held)
    (hanc : AncestorOrSelf (parentLink st.blocks) a r)
    (ha : ∀ s, st.states[a]? = some s → Inherits s a c) :
    ∀ s, st.states[r]? = some s → Inherits s r c := by
  induction hanc with
  | self => exact ha
  | @up r p hp hap ih =>
    intro s hs
    obtain ⟨b,hb,rfl⟩ := parentLink_eq_some.mp hp
    have hne : r ≠ anchor := by
      rintro rfl
      obtain ⟨_,hlink⟩ := hap.descendant
      obtain ⟨_,hparent,-⟩ := parentLink_eq_some.mp hlink
      exact (h.planted hsound).outside hb (mem_of_get hparent)
    obtain ⟨p,ps,s',hp,hps,hs',-,htrans⟩ := (h.child hb hne).parent
    obtain rfl : s' = s := by simpa [hs] using hs'.symm
    have hchain := (h.paired hp hps).chain
    refine .inl (hchain.inherits_next ?_ (htrans ⟨⟨b,default⟩,[]⟩ rfl))
    exact ih ps hps

theorem OnChain.carries {s : State} (h : OnChain s) (hpos : 0 < s.latestJustified.slot.get) :
    Marks s.historicalBlockHashes s.justifiedSlots s.latestJustified := by
  obtain ⟨n,L,hL,hc⟩ := h.represented
  rw [marks_iff hL.history hL.justified,← hL.latestJustified]
  rcases hc.checkpoints with ⟨-,hzero⟩ | ⟨-,hmarked⟩
  · rw [hL.latestJustified] at hzero
    omega
  · exact hmarked

/-- Whatever child of the head the vote is carried by, and after whatever other votes, it is
not skipped for its source. -/
def Countable (head : Bytes32) (state : State) (source : Checkpoint) : Prop :=
  ∀ (block : Block) (m : State) (start w : Working) (done : List Attestation),
    block.parentRoot = head → state.opened block = .ok m → Working.start m = .ok start →
    attestAll m start done = .ok w → Marks m.historicalBlockHashes w.justifiedSlots source

theorem OnChain.countable_iff {s : State} (h : OnChain s) {head : Bytes32} {source : Checkpoint}
    (hchild : ∃ block m, block.parentRoot = head ∧ s.opened block = .ok m) :
    Countable head s source ↔ Inherits s head source := by
  constructor
  · intro hcountable
    obtain ⟨block,m,rfl,hm⟩ := hchild
    obtain ⟨n,L,hL,-⟩ := h.represented
    obtain ⟨-,_,start,hstart,-⟩ := hL.opened hm
    exact h.inherits_of_opened hm hstart (hcountable block m start start [] rfl hm hstart rfl)
  · intro hinherits block m start w done hparent hm hstart hrun
    exact h.inherits (hparent ▸ hinherits) hm hstart hrun

/-- Every store produces a vote. It can be counted if the justified checkpoint is the genesis
block's or is carried by a post-state on the branch of the head the vote is for; and wherever that
head can have a child, it can be counted just if the head's state marks the checkpoint. -/
theorem produced_vote_countable {held : List Block} {st : Store} (hlife : Lives held st)
    (hsound : Sound held) (slot : Slot) :
    ∃ produced t hs, produceAttestationVote slot st = .ok produced t ∧
      t.states[produced.vote.head.root]? = some hs ∧
      (st.latestJustified.slot.get = 0 ∨ (∃ (r : Bytes32) (s : State), st.states[r]? = some s ∧
          s.latestJustified = st.latestJustified ∧
          AncestorOrSelf (parentLink st.blocks) r produced.vote.head.root) →
        Countable produced.vote.head.root hs produced.vote.source) ∧
      ((∃ block m, block.parentRoot = produced.vote.head.root ∧ hs.opened block = .ok m) →
        (Countable produced.vote.head.root hs produced.vote.source ↔
          Inherits hs produced.vote.head.root st.latestJustified)) := by
  obtain ⟨anchor,hsteady⟩ := hlife.steady hsound
  have h := hsteady.toGrounded
  obtain ⟨m,hb,target,haccept,hhb,-,hvote⟩ := h.produceAttestationVote_ok hsound slot
  have htouches := touches_acceptNewVotes st
  rw [after_of_ok haccept] at htouches
  have hsame := sameTree_of_touches htouches
  have hm := h.touches hsound htouches
  obtain ⟨hs,hhs,hpair⟩ := hm.linked.state hhb
  refine ⟨_,m,hs,hvote,hhs,?_⟩
  rw [hsame.latestJustified]
  refine ⟨fun hcarried => ?_,hpair.chain.countable_iff⟩
  have hbelow : AncestorOrSelf (parentLink st.blocks) st.latestJustified.root m.head := by
    rcases acceptNewVotes_cases st with ⟨head,hhead,hrun⟩ | ⟨e,-,hrun⟩
    · obtain rfl : { st.promoted with head := head } = m := by simpa [hrun] using haccept
      exact (h.selected hsound hhead).1
    · simp [hrun] at haccept
  rw [hsame.states] at hhs
  have hinherits : Inherits hs m.head st.latestJustified := by
    rcases Nat.eq_zero_or_pos st.latestJustified.slot.get with hzero | hpos
    · -- The genesis checkpoint passes down from the genesis block itself.
      refine h.linked.inherits hsound hbelow ?_ hs hhs
      intro s hs'
      obtain ⟨jb,hjb,hslot⟩ := h.pointed.justified.tracked
      have hgenesis : st.latestJustified.slot = Slot.zero := Slot.ext_get hzero
      refine .inr ⟨?_,?_⟩
      · rw [(h.linked.paired hjb hs').slot,hslot,hzero]
      · rw [← hgenesis]
    · obtain ⟨r,s,hs',hjust,hanc⟩ := hcarried.resolve_left (by omega)
      refine h.linked.inherits hsound hanc ?_ hs hhs
      intro s' hs''
      obtain rfl : s = s' := by simpa [hs'] using hs''
      obtain ⟨b,hb⟩ := get_of_mem (h.linked.stated.mp (mem_of_get hs'))
      rw [← hjust] at hpos ⊢
      exact .inl ((h.linked.paired hb hs').chain.carries hpos)
  intro block opened start w done hparent hopened hstart hrun
  exact hpair.chain.inherits (hparent ▸ hinherits) hopened hstart hrun

theorem not_countable {head : Bytes32} {state : State} {source : Checkpoint} {block : Block}
    (hparent : block.parentRoot = head)
    (h : ∃ m ∈ (state.opened block).toOption, ∃ start ∈ (Working.start m).toOption,
      start.justifiedSlots.get source.slot.get ≠ some true) : ¬ Countable head state source := by
  obtain ⟨m,hm,start,hstart,hbit⟩ := h
  intro hcount
  exact hbit (hcount block m start start [] hparent (toOption_eq_some.mp hm)
    (toOption_eq_some.mp hstart) rfl).bit

end

section
attribute [local instance] mixPair

-- A block at slot 3 justifies the block before it; one beside it, at slot 2 or 5, does not.
def split3 : Store := extend line1 (tip line1) 3 [soloVote genesisPoint (tip line1)]
def split2 : Store := extend split3 (tip line1) 2 []
def split5 : Store := extend split3 (tip line1) 5 []

/-- The head is the block that justifies; the one beside it is a leaf below the justified block
that does not carry the checkpoint. -/
theorem produced_vote_countable_split :
    split2.latestJustified = tip line1 ∧
    (∃ s ∈ Tables.values split2.states, s.slot.get = 2 ∧ s.latestJustified ≠ tip line1) ∧
    ∃ produced t hs, produceAttestationVote (Slot.ofNat 4) split2 = .ok produced t ∧
      t.states[produced.vote.head.root]? = some hs ∧
      Countable produced.vote.head.root hs produced.vote.source := by
  have hlife : Lives _ split2 := (((lives_genesis 0 [default]).extend genesisPoint 1 []).extend
    (tip line1) 3 [soloVote genesisPoint (tip line1)]).extend (tip line1) 2 []
  obtain ⟨hjust,hother,⟨s,hs,hcarries⟩,hlink,hhead⟩ : split2.latestJustified = tip line1 ∧
      (∃ s ∈ Tables.values split2.states, s.slot.get = 2 ∧ s.latestJustified ≠ tip line1) ∧
      (∃ s ∈ split2.states[(tip split3).root]?, s.latestJustified = tip line1) ∧
      parentLink split2.blocks (tip split3).root = some (tip line1).root ∧
      ∀ p ∈ success (produceAttestationVote (Slot.ofNat 4)) split2,
        p.1.vote.head.root = (tip split3).root := by decide +kernel
  obtain ⟨produced,t,hs',hvote,hhs,hcountable,-⟩ :=
    produced_vote_countable hlife (by decide +kernel) (Slot.ofNat 4)
  refine ⟨hjust,hother,produced,t,hs',hvote,hhs,hcountable (.inr ?_)⟩
  rw [hhead (produced,t) (success_eq_some.mpr hvote)]
  exact ⟨(tip split3).root,s,hs,hcarries.trans hjust.symm,.self hlink⟩

/-- After a restart at block 1, and on the other branch of a fork without any restart, the
next block skips the vote for its source. -/
theorem produced_vote_skipped :
    (∃ held st produced t hs, reopened line1 (tip line1).root = some st ∧ Lives held st ∧
      Sound held ∧ produceAttestationVote (Slot.ofNat 2) st = .ok produced t ∧
      t.states[produced.vote.head.root]? = some hs ∧
      ¬ Countable produced.vote.head.root hs produced.vote.source) ∧
    ∃ held produced t hs, Lives held split5 ∧ Sound held ∧
      produceAttestationVote (Slot.ofNat 6) split5 = .ok produced t ∧
      t.states[produced.vote.head.root]? = some hs ∧
      ¬ Countable produced.vote.head.root hs produced.vote.source := by
  have hline1 : Lives _ line1 := (lives_genesis 0 [default]).extend genesisPoint 1 []
  refine ⟨?_,?_⟩
  · obtain ⟨st,hopen,hsound,⟨produced,t⟩,hvote,hs,hhs,hparent,hskips⟩ :
        ∃ st ∈ reopened line1 (tip line1).root,
          Sound ((Tables.values soloStore.blocks ++ Tables.values line1.blocks) ++
            Tables.values st.blocks) ∧
          ∃ p ∈ success (produceAttestationVote (Slot.ofNat 2)) st,
          ∃ hs ∈ p.2.states[p.1.vote.head.root]?,
            (mint p.2 p.1.vote.head.root 2 []).parentRoot = p.1.vote.head.root ∧
            ∃ m ∈ (hs.opened (mint p.2 p.1.vote.head.root 2 [])).toOption,
            ∃ start ∈ (Working.start m).toOption,
              start.justifiedSlots.get p.1.vote.source.slot.get ≠ some true := by
      decide +kernel
    exact ⟨_,st,produced,t,hs,hopen,hline1.reopened hopen,hsound,success_eq_some.mp hvote,hhs,
      not_countable hparent hskips⟩
  · have hlife : Lives _ split5 :=
      (hline1.extend (tip line1) 3 [soloVote genesisPoint (tip line1)]).extend (tip line1) 5 []
    obtain ⟨⟨produced,t⟩,hvote,hs,hhs,hparent,hskips⟩ :
        ∃ p ∈ success (produceAttestationVote (Slot.ofNat 6)) split5,
        ∃ hs ∈ p.2.states[p.1.vote.head.root]?,
          (mint p.2 p.1.vote.head.root 6 []).parentRoot = p.1.vote.head.root ∧
          ∃ m ∈ (hs.opened (mint p.2 p.1.vote.head.root 6 [])).toOption,
          ∃ start ∈ (Working.start m).toOption,
            start.justifiedSlots.get p.1.vote.source.slot.get ≠ some true := by
      decide +kernel
    exact ⟨_,produced,t,hs,hlife,by decide +kernel,success_eq_some.mp hvote,hhs,
      not_countable hparent hskips⟩

end

end Devnet.Engine
