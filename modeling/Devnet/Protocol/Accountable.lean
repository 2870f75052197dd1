import Devnet.Protocol.History

/-!
Two chains that start at one genesis and justify different blocks at one slot share a
third of the registry: each of these validators had a vote for either block accepted.
The tally is kept by root alone, so that the argument needs the roots of a chain to tell
its slots apart; the zero root of the empty slots does not.
-/

set_option autoImplicit false

namespace Devnet.Protocol
open Machine Devnet.Types Devnet.Ssz

structure Ledger.Recorded (n : Nat) (log : List Cast) (L : Ledger) : Prop where
  voter : ∀ c ∈ log, c.verdict ≠ .skipped → c.att.validatorId.get < n
  target : ∀ c ∈ log, c.verdict ≠ .skipped →
    L.history[c.att.data.target.slot.get]? = some c.att.data.target.root

theorem Ledger.Recorded.extended {n : Nat} {log : List Cast} {L L' : Ledger} (h : L.Recorded n log)
    (hhist : L.history <+: L'.history) : L'.Recorded n log := by
  refine ⟨h.voter,fun c hc hacc => ?_⟩
  obtain ⟨rest,hrest⟩ := hhist
  have hroot := h.target c hc hacc
  have hlt := (List.getElem?_eq_some_iff.mp hroot).1
  rw [← hrest,List.getElem?_append_left hlt]
  exact hroot

theorem Ledger.Recorded.logged {n : Nat} {log : List Cast} {L : Ledger} {c : Cast}
    (h : L.Recorded n log)
    (hc : c.verdict ≠ .skipped → c.att.validatorId.get < n ∧
      L.history[c.att.data.target.slot.get]? = some c.att.data.target.root) :
    L.Recorded n (log ++ [c]) := by
  constructor
  · intro d hd hacc
    rcases List.mem_append.mp hd with hd | hd
    · exact h.voter d hd hacc
    · obtain rfl := List.mem_singleton.mp hd
      exact (hc hacc).1
  · intro d hd hacc
    rcases List.mem_append.mp hd with hd | hd
    · exact h.target d hd hacc
    · obtain rfl := List.mem_singleton.mp hd
      exact (hc hacc).2

theorem Ledger.Step.recorded {n : Nat} {L L' : Ledger} {act : Ledger.Action} {out log : List Cast}
    (h : Ledger.Step n L act out L') (hL : L.Recorded n log) : L'.Recorded n (log ++ out) := by
  have hkeep := hL.extended h.history_mono
  cases h with
  | extend root gap =>
    rw [List.append_nil]
    exact hkeep
  | skip => exact hkeep.logged (by simp)
  | count voter accepted => exact hkeep.logged fun _ => ⟨voter,accepted.targetRoot⟩
  | justify voter accepted => exact hkeep.logged fun _ => ⟨voter,accepted.targetRoot⟩

theorem Ledger.Reaches.recorded {n : Nat} {acts : List Ledger.Action} {outs : List (List Cast)}
    {L : Ledger} (h : Ledger.Reaches n acts outs L) : L.Recorded n outs.flatten :=
  Run.invariant (fun _ (outs : List (List Cast)) (L : Ledger) => L.Recorded n outs.flatten)
    h ⟨by simp,by simp⟩ (fun _ hL hs => by simpa using hs.recorded hL)

/-- Any two sets of two thirds of `n` validators share a third of them. -/
theorem third_of_two_thirds {n : Nat} {A B : Finset Nat} (hA : ∀ v ∈ A, v < n)
    (hB : ∀ v ∈ B, v < n) (hcardA : 2*n ≤ 3*A.card) (hcardB : 2*n ≤ 3*B.card) :
    n ≤ 3*(A ∩ B).card := by
  have hsub : A ∪ B ⊆ Finset.range n := by
    intro v hv
    rcases Finset.mem_union.mp hv with hv | hv
    · exact Finset.mem_range.mpr (hA v hv)
    · exact Finset.mem_range.mpr (hB v hv)
  have hunion := Finset.card_le_card hsub
  have hsum := Finset.card_union_add_card_inter A B
  rw [Finset.card_range] at hunion
  omega

theorem att_of_mem_castLog {self : State} {w : Working} {atts : List Attestation} {c : Cast}
    (h : c ∈ castLog self w atts) : c.att ∈ atts := by
  induction atts generalizing w with
  | nil => simp [castLog] at h
  | cons att rest ih =>
    rcases List.mem_cons.mp h with rfl | h
    · exact List.mem_cons_self ..
    · split at h
      · exact List.mem_cons_of_mem _ (ih h)
      · cases h

section
variable [HashPair]

/-- No block of a chain has a zero root or a zero state root, and no two share a root. -/
structure Distinct (blocks : List Block) : Prop where
  stateRoot : ∀ b ∈ blocks, b.stateRoot ≠ ByteVector.zero
  nonzero : ∀ b ∈ blocks, hashTreeRoot b ≠ ByteVector.zero
  injective : ∀ b ∈ blocks, ∀ b' ∈ blocks, hashTreeRoot b = hashTreeRoot b' → b = b'

instance (blocks : List Block) : Decidable (Distinct blocks) :=
  decidable_of_iff ((∀ b ∈ blocks, b.stateRoot ≠ ByteVector.zero) ∧
    (∀ b ∈ blocks, hashTreeRoot b ≠ ByteVector.zero) ∧
    ∀ b ∈ blocks, ∀ b' ∈ blocks, hashTreeRoot b = hashTreeRoot b' → b = b')
    ⟨fun h => ⟨h.1,h.2.1,h.2.2⟩,fun h => ⟨h.stateRoot,h.nonzero,h.injective⟩⟩

theorem PostState.block_at {earlier : List Block} {last : Block} {s : State}
    (h : PostState earlier last s) {i : Nat} {root : Bytes32}
    (hi : s.historicalBlockHashes[i]? = some root) (hroot : root ≠ ByteVector.zero) :
    ∃ b ∈ earlier, b.slot.get = i ∧ hashTreeRoot b = root := by
  have hlt : i < last.slot.get := h.length ▸ (List.getElem?_eq_some_iff.mp hi).1
  by_contra hnone
  have hzero := h.empty i hlt fun b hb hslot =>
    hnone ⟨b,hb,hslot,Option.some.inj ((hslot ▸ h.entries b hb).symm.trans hi)⟩
  rw [hi] at hzero
  exact hroot (Option.some.inj hzero)

theorem Chain.slot_of_root {genesisTime : UInt64} {validators : Validators}
    {blocks : List SignedBlockWithAttestation} {logs : List (List Cast)} {s : State}
    (h : Chain true (genesisState genesisTime validators) blocks logs s)
    (hroots : Distinct (chainBlocks (genesisState genesisTime validators) blocks)) {i j : Nat}
    {root : Bytes32} (hne : root ≠ ByteVector.zero)
    (hi : s.historicalBlockHashes[i]? = some root) (hj : s.historicalBlockHashes[j]? = some root) :
    i = j := by
  obtain ⟨earlier,last,heq,hpost⟩ := h.postState hroots.stateRoot
  have hin : ∀ b ∈ earlier, b ∈ chainBlocks (genesisState genesisTime validators) blocks := by
    intro b hb
    rw [heq]
    exact List.mem_append_left _ hb
  obtain ⟨b,hb,rfl,hbroot⟩ := hpost.block_at hi hne
  obtain ⟨b',hb',rfl,hbroot'⟩ := hpost.block_at hj hne
  rw [hroots.injective b (hin b hb) b' (hin b' hb') (hbroot.trans hbroot'.symm)]

/-- `v` had a vote for the checkpoint accepted on a chain with these logs. -/
def VotedFor (logs : List (List Cast)) (v : Nat) (checkpoint : Checkpoint) : Prop :=
  ∃ c ∈ logs.flatten, c.verdict ≠ .skipped ∧ c.att.validatorId.get = v ∧
    c.att.data.target = checkpoint

theorem Chain.carries {validate : Bool} {g s : State} {blocks : List SignedBlockWithAttestation}
    {logs : List (List Cast)} (h : Chain validate g blocks logs s) {v : Nat}
    {checkpoint : Checkpoint} (hvoted : VotedFor logs v checkpoint) :
    ∃ signed ∈ blocks, ∃ att ∈ signed.message.block.body.attestations,
      att.validatorId.get = v ∧ att.data.target = checkpoint := by
  obtain ⟨c,hc,-,hvoter,htarget⟩ := hvoted
  suffices hin : ∃ signed ∈ blocks, c.att ∈ signed.message.block.body.attestations by
    obtain ⟨signed,hsigned,hatt⟩ := hin
    exact ⟨signed,hsigned,c.att,hatt,hvoter,htarget⟩
  refine h.invariant (fun blocks logs _ => c ∈ logs.flatten →
    ∃ signed ∈ blocks, c.att ∈ signed.message.block.body.attestations) (by simp) ?_ hc
  intro earlier logs m signed log t _ ih happ hc
  rw [List.flatten_append,List.flatten_singleton,List.mem_append] at hc
  rcases hc with hc | hc
  · obtain ⟨signed',hsigned',hatt⟩ := ih hc
    exact ⟨signed',List.mem_append_left _ hsigned',hatt⟩
  · refine ⟨signed,by simp,?_⟩
    rw [happ.2] at hc
    unfold State.batchLog at hc
    split at hc
    · cases hc
    · split at hc
      · cases hc
      · exact att_of_mem_castLog hc

theorem Chain.two_thirds {genesisTime : UInt64} {validators : Validators}
    {blocks : List SignedBlockWithAttestation} {logs : List (List Cast)} {s : State}
    (h : Chain true (genesisState genesisTime validators) blocks logs s)
    (hroots : Distinct (chainBlocks (genesisState genesisTime validators) blocks))
    (checkpoint : Checkpoint) (hpos : 0 < checkpoint.slot.get)
    (hbit : s.justifiedSlots.get checkpoint.slot.get = some true)
    (hroot : s.historicalBlockHashes[checkpoint.slot.get]? = some checkpoint.root)
    (hne : checkpoint.root ≠ ByteVector.zero) :
    ∃ voters : Finset Nat, 2*validators.length ≤ 3*voters.card ∧
      ∀ v ∈ voters, v < validators.length ∧ VotedFor logs v checkpoint := by
  obtain ⟨_,outs,L,hreach,hflat,hL⟩ := h.represented
  have hrecorded := hreach.recorded
  have hearned := hreach.earned
  rw [hflat] at hrecorded hearned
  rw [Bitlist.get_eq,← hL.justified] at hbit
  obtain ⟨c,-,-,-,hcroot,voters,hcard,hvotes⟩ := hearned checkpoint.slot.get hpos hbit
  have hsame : c.att.data.target.root = checkpoint.root := by
    rw [hL.history,hroot] at hcroot
    exact (Option.some.inj hcroot).symm
  refine ⟨voters,hcard,fun v hv => ?_⟩
  obtain ⟨d,hd,hacc,hdroot,hvoter⟩ := hvotes v hv
  refine ⟨hvoter ▸ hrecorded.voter d hd hacc,d,hd,hacc,hvoter,?_⟩
  have htarget := hrecorded.target d hd hacc
  rw [hL.history,hdroot,hsame] at htarget
  have hslot := h.slot_of_root hroots hne htarget hroot
  have hdsame := hdroot.trans hsame
  generalize d.att.data.target = target at hslot hdsame
  cases target with
  | mk root slot => exact congrArg₂ Checkpoint.mk hdsame (Slot.ext_get hslot)

theorem Chain.genesis_root {genesisTime : UInt64} {validators : Validators}
    {blocks : List SignedBlockWithAttestation} {logs : List (List Cast)} {s : State}
    (h : Chain true (genesisState genesisTime validators) blocks logs s)
    (hroots : Distinct (chainBlocks (genesisState genesisTime validators) blocks)) {root : Bytes32}
    (hroot : s.historicalBlockHashes[0]? = some root) :
    root = hashTreeRoot (genesisAnchorBlock (genesisState genesisTime validators)) := by
  obtain ⟨earlier,last,heq,hpost⟩ := h.postState hroots.stateRoot
  cases earlier with
  | nil =>
    -- A chain of one block has no history.
    obtain ⟨rfl,-⟩ : genesisAnchorBlock (genesisState genesisTime validators) = last ∧ _ :=
      List.cons.inj heq
    have hlt := (List.getElem?_eq_some_iff.mp hroot).1
    rw [hpost.length] at hlt
    exact absurd hlt (Nat.not_lt_zero 0)
  | cons first rest =>
    obtain ⟨rfl,-⟩ : genesisAnchorBlock (genesisState genesisTime validators) = first ∧ _ :=
      List.cons.inj heq
    have hentry := hpost.entries _ (List.mem_cons_self ..)
    exact Option.some.inj (hroot.symm.trans hentry)

/-- When two chains of one genesis justify different blocks at one slot, a third of the
registry voted for both of them. -/
theorem conflicting_justification_accountable {genesisTime : UInt64} {validators : Validators}
    {blocks blocks' : List SignedBlockWithAttestation} {logs logs' : List (List Cast)}
    {s s' : State} (h : Chain true (genesisState genesisTime validators) blocks logs s)
    (h' : Chain true (genesisState genesisTime validators) blocks' logs' s')
    (hroots : Distinct (chainBlocks (genesisState genesisTime validators) blocks))
    (hroots' : Distinct (chainBlocks (genesisState genesisTime validators) blocks'))
    {slot : Slot} {root root' : Bytes32} (hne : root ≠ root')
    (hroot : s.historicalBlockHashes[slot.get]? = some root) (hblock : root ≠ ByteVector.zero)
    (hroot' : s'.historicalBlockHashes[slot.get]? = some root') (hblock' : root' ≠ ByteVector.zero)
    (hbit : s.justifiedSlots.get slot.get = some true)
    (hbit' : s'.justifiedSlots.get slot.get = some true) :
    ∃ culprits : Finset Nat, validators.length ≤ 3*culprits.card ∧
      ∀ v ∈ culprits, v < validators.length ∧
        VotedFor logs v ⟨root,slot⟩ ∧ VotedFor logs' v ⟨root',slot⟩ := by
  have hpos : 0 < slot.get := by
    refine Nat.pos_of_ne_zero fun hzero => ?_
    rw [hzero] at hroot hroot'
    exact hne ((h.genesis_root hroots hroot).trans (h'.genesis_root hroots' hroot').symm)
  obtain ⟨voters,hcard,hvotes⟩ :=
    h.two_thirds hroots ⟨root,slot⟩ hpos hbit hroot hblock
  obtain ⟨voters',hcard',hvotes'⟩ :=
    h'.two_thirds hroots' ⟨root',slot⟩ hpos hbit' hroot' hblock'
  refine ⟨voters ∩ voters',third_of_two_thirds (fun v hv => (hvotes v hv).1)
    (fun v hv => (hvotes' v hv).1) hcard hcard',fun v hv => ?_⟩
  obtain ⟨hv,hv'⟩ := Finset.mem_inter.mp hv
  exact ⟨(hvotes v hv).1,(hvotes v hv).2,(hvotes' v hv').2⟩

end

section
attribute [local instance] mixPair

def twinSchedule (ballots : List (Nat × Nat × Nat)) : Schedule := [(1,ballots),(2,[(0,0,1)])]

def twinChain (ballots : List (Nat × Nat × Nat)) : State :=
  (genesisState 0 [default]).grown (twinSchedule ballots)

def twinLogs (ballots : List (Nat × Nat × Nat)) : List (List Cast) :=
  (genesisState 0 [default]).grownLogs (twinSchedule ballots)

def twinRoot (ballots : List (Nat × Nat × Nat)) : Bytes32 :=
  (twinChain ballots).historicalBlockHashes.getD 1 ByteVector.zero

theorem conflicting_justification_accountable_twin :
    twinRoot [] ≠ twinRoot [(0,0,0)] ∧
    ∃ culprits : Finset Nat, 1 ≤ 3*culprits.card ∧ ∀ v ∈ culprits, v < 1 ∧
      VotedFor (twinLogs []) v ⟨twinRoot [],Slot.ofNat 1⟩ ∧
      VotedFor (twinLogs [(0,0,0)]) v ⟨twinRoot [(0,0,0)],Slot.ofNat 1⟩ := by
  have h : Chain true (genesisState 0 [default]) _ (twinLogs []) (twinChain []) :=
    chain_grown _ (by decide +kernel)
  have h' : Chain true (genesisState 0 [default]) _ (twinLogs [(0,0,0)]) (twinChain [(0,0,0)]) :=
    chain_grown _ (by decide +kernel)
  have hne : twinRoot [] ≠ twinRoot [(0,0,0)] := by decide +kernel
  exact ⟨hne,conflicting_justification_accountable h h' (by decide +kernel) (by decide +kernel) hne
    (by decide +kernel) (by decide +kernel) (by decide +kernel) (by decide +kernel)
    (by decide +kernel) (by decide +kernel)⟩

end

end Devnet.Protocol
