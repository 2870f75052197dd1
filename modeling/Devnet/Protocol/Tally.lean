import Devnet.Protocol.Finality

/-!
The vote tally along a chain: its packed form is exactly the votes still live, it never
makes a batch fail, and a justified slot has two thirds of the registry behind it when
no two slots that were voted for share a root.
-/

set_option autoImplicit false

namespace Devnet.Protocol
open Machine Devnet.Types Devnet.Ssz

theorem Ledger.Earned.supported {n : Nat} {log : List Cast} {L : Ledger} (h : Earned n log L)
    (hroots : RootsNameSlots log) {t : Nat} (hpos : 0 < t) (hbit : L.justified[t]? = some true) :
    ∃ root, L.history[t]? = some root ∧
      Supported n log (fun target => target.root = root ∧ target.slot.get = t) := by
  obtain ⟨c,hmem,hverdict,hslot,hroot,hsup⟩ := h t hpos hbit
  refine ⟨c.att.data.target.root,hroot,hsup.mono (fun _ h => h) ?_⟩
  intro d hd hacc hsame
  have heq := hroots d hd c hmem hacc (by simp [hverdict]) hsame
  exact ⟨hsame,by rw [heq,hslot]⟩

section
variable [HashPair]

/-- Two thirds stand behind every justified slot, at every post-state and at every moment
of a batch, on a chain whose accepted votes never name one root for two slots. -/
theorem justified_two_thirds {validate : Bool} {genesisTime : UInt64} {validators : Validators} :
    (∀ {blocks logs s}, Chain validate (genesisState genesisTime validators) blocks logs s →
      RootsNameSlots logs.flatten → ∀ t, 0 < t → s.justifiedSlots.get t = some true →
      ∃ root, s.historicalBlockHashes[t]? = some root ∧
        Supported validators.length logs.flatten
          (fun target => target.root = root ∧ target.slot.get = t)) ∧
    (∀ {m w log}, Moment validate (genesisState genesisTime validators) m w log →
      RootsNameSlots log → ∀ t, 0 < t → w.justifiedSlots.get t = some true →
      ∃ root, m.historicalBlockHashes[t]? = some root ∧
        Supported validators.length log
          (fun target => target.root = root ∧ target.slot.get = t)) := by
  constructor
  · intro blocks logs s h hroots t hpos hbit
    obtain ⟨_,outs,L,hreach,hflat,hL⟩ := h.represented
    rw [Bitlist.get_eq,← hL.justified] at hbit
    have hearned := hreach.earned
    rw [hflat] at hearned
    rw [← hL.history]
    exact hearned.supported hroots hpos hbit
  · intro m w log h hroots t hpos hbit
    obtain ⟨-,_,outs,L,hreach,rfl,hL⟩ := h.mirrored
    rw [Bitlist.get_eq,← hL.justified] at hbit
    rw [← hL.history]
    exact hreach.earned.supported hroots hpos hbit

end

section
attribute [local instance] mixPair

theorem justified_two_thirds_solo :
    ∃ root, soloChain.historicalBlockHashes[1]? = some root ∧
      Supported 1 soloLogs.flatten (fun target => target.root = root ∧ target.slot.get = 1) := by
  obtain ⟨blocks,hs,-⟩ := soloChain_chain
  have hroots : RootsNameSlots soloLogs.flatten := by
    unfold RootsNameSlots
    decide +kernel
  exact justified_two_thirds.1 hs hroots 1 (by decide) (by decide +kernel)

def emptyChain : State := (genesisState 0 [default,default,default]).grown [(5,[(0,0,1),(1,0,2)])]

def emptyLogs : List (List Cast) :=
  (genesisState 0 [default,default,default]).grownLogs [(5,[(0,0,1),(1,0,2)])]

/-- Both votes are counted under the all-zero root, and slot 2 is justified on the word
of one validator in three. -/
theorem justified_by_one_voter :
    ∃ blocks, Chain true (genesisState 0 [default,default,default]) blocks emptyLogs emptyChain ∧
      emptyChain.justifiedSlots.get 2 = some true ∧
      ¬ ∃ root, emptyChain.historicalBlockHashes[2]? = some root ∧
        Supported 3 emptyLogs.flatten (fun target => target.root = root ∧ target.slot.get = 2) := by
  refine ⟨_,chain_grown _ (by decide +kernel),by decide +kernel,?_⟩
  rintro ⟨root,-,voters,hcard,hvotes⟩
  have honly : ∀ c ∈ emptyLogs.flatten, c.att.data.target.slot.get = 2 → c.att.validatorId.get = 1 := by
    decide +kernel
  have hsub : voters ⊆ {1} := by
    intro v hv
    obtain ⟨c,hc,-,⟨-,hslot⟩,rfl⟩ := hvotes v hv
    simpa using honly c hc hslot
  have hle := Finset.card_le_card hsub
  simp at hle
  omega

end

theorem Rows.size_le {n : Nat} {table : BTreeMap Bytes32 (List Bool)} {L : Ledger}
    (h : Rows n table L.ballots) (hg : L.Grounded n) : table.size ≤ L.history.length := by
  have hnodup : table.keys.Nodup := by
    rw [List.nodup_iff_pairwise_ne]
    refine Std.ExtTreeMap.ordered_keys.imp ?_
    rintro a b hlt rfl
    simp at hlt
  have hsub : table.keys ⊆ L.history := by
    intro root hroot
    obtain ⟨row,hrow⟩ := Option.isSome_iff_exists.mp
      (Std.ExtTreeMap.isSome_getElem?_iff_mem.mpr (Std.ExtTreeMap.mem_keys.mp hroot))
    obtain ⟨t,ht,-⟩ := hg.unjustified root (h.nonempty root row hrow)
    exact List.mem_of_getElem? ht
  rw [← Std.ExtTreeMap.length_keys]
  exact (List.subperm_of_subset hnodup hsub).length_le

theorem Mirrors.packs {m : State} {w : Working} {L : Ledger} (h : Mirrors m w L)
    (hc : L.Consistent) (hg : L.Grounded m.validators.length)
    (hn : m.validators.length ≤ validatorRegistryLimit) :
    ∃ stored, w.justifications.packed = .ok stored := by
  have hrows := h.rows.size_le hg
  have hhist : L.history.length ≤ historicalRootsLimit := by
    rw [← hc.aligned,h.justified,Bitlist.length_toList]
    exact w.justifiedSlots.len_le
  have hfit : w.justifications.table.size*w.justifications.numValidators ≤
      justificationsValidatorsLimit := by
    rw [h.registry]
    exact Nat.mul_le_mul (hrows.trans hhist) hn
  obtain ⟨flat,hflat,-⟩ := packed_spec (by rw [h.registry]; exact h.rows.width) hfit
  exact ⟨_,hflat⟩

theorem Represents.start {n : Nat} {s : State} {L : Ledger} (h : Represents n s L)
    (hg : L.Grounded n) : ∃ start, Working.start s = .ok start ∧ Mirrors s start L := by
  -- With no validators every box is empty.
  obtain ⟨table,hroots,hflat,hrows⟩ := h.tally
  rw [← h.registry] at hrows hg
  by_cases hn : s.validators.length = 0
  · refine ⟨⟨⟨∅,0⟩,s.justifiedSlots,s.latestJustified,s.latestFinalized⟩,?_,
      ⟨h.history,h.justified,h.latestJustified,h.latestFinalized,hn.symm,?_⟩⟩
    · simp [Working.start,Justifications.tryFrom,hn,bind,Except.bind,pure,Except.pure]
    · have hempty : L.ballots = fun _ => ∅ := by
        funext root
        refine Finset.eq_empty_of_forall_notMem fun v hv => ?_
        have := hg.voters root v hv
        omega
      rw [hempty]
      exact rows_empty _
  · refine ⟨⟨⟨table,s.validators.length⟩,s.justifiedSlots,s.latestJustified,s.latestFinalized⟩,?_,
      ⟨h.history,h.justified,h.latestJustified,h.latestFinalized,rfl,hrows⟩⟩
    rw [Working.start,tryFrom_packed hn hroots hflat hrows.width]
    rfl

/-- On a state that stands for a reached ledger a batch fails only at a range check. -/
theorem processAttestations_range {n : Nat} {m : State} {start : Working} {L : Ledger}
    {acts : List Ledger.Action} {outs : List (List Cast)}
    (hreach : Ledger.Reaches n acts outs L)
    (hregistry : m.validators.length = n) (hn : n ≤ validatorRegistryLimit)
    (hstart : Working.start m = .ok start) (hL : Mirrors m start L)
    (attestations : List Attestation) :
    ((∀ att ∈ attestations, InRange m att) → ∃ t, processAttestations attestations m = .ok () t) ∧
    ∀ e t, processAttestations attestations m = .error e t →
      ∃ att ∈ attestations, checkRanges m att = .error e := by
  have hfail : ∀ e t, processAttestations attestations m = .error e t →
      ∃ att ∈ attestations, checkRanges m att = .error e := by
    intro e t h
    refine processAttestations_error hstart (fun w hw => ?_) h
    obtain ⟨_,L',hrun,-,hL'⟩ := hL.attestAll hw
    rw [hregistry] at hrun
    have hreach' := Run.append hreach hrun
    exact hL'.packs (Ledger.Reaches.consistent hreach')
      (hregistry ▸ Ledger.Reaches.grounded hreach') (hregistry ▸ hn)
  refine ⟨fun hrange => ?_,hfail⟩
  cases hres : processAttestations attestations m with
  | ok _ t => exact ⟨t,rfl⟩
  | error e t =>
    obtain ⟨att,hmem,herr⟩ := hfail e t hres
    rw [checkRanges_ok.mpr (hrange att hmem)] at herr
    cases herr

section
variable [HashPair]

/-- The packed tally of every post-state is sorted, has one bit per listed root and
validator, and holds exactly the live votes; every listed root is the history entry of
an unjustified slot. Processing votes on it, before or after opening a block, fails
only where a vote is out of range. -/
theorem tally_exact {validate : Bool} {genesisTime : UInt64} {validators : Validators}
    {blocks : List SignedBlockWithAttestation} {logs : List (List Cast)} {s : State}
    (hn : validators.length ≤ validatorRegistryLimit)
    (h : Chain validate (genesisState genesisTime validators) blocks logs s) :
    s.justificationsRoots.Pairwise (· < ·) ∧
    s.justificationsValidators.len = s.justificationsRoots.length*validators.length ∧
    (∀ i root, s.justificationsRoots[i]? = some root →
      (∀ v < validators.length, s.justificationsValidators.get (i*validators.length+v) = some true ↔
        LiveVote logs.flatten root v) ∧
      ∃ t : Nat, s.historicalBlockHashes[t]? = some root ∧ s.justifiedSlots.get t = some false) ∧
    (∀ root v, LiveVote logs.flatten root v → root ∈ s.justificationsRoots) ∧
    (∀ m, m = s ∨ (∃ block, s.opened block = .ok m) →
      (∃ start, Working.start m = .ok start) ∧
      ∀ attestations,
        ((∀ att ∈ attestations, InRange m att) →
          ∃ t, processAttestations attestations m = .ok () t) ∧
        ∀ e t, processAttestations attestations m = .error e t →
          ∃ att ∈ attestations, checkRanges m att = .error e) := by
  obtain ⟨acts,outs,L,hreach,hflat,hL⟩ := h.represented
  have hg := hreach.grounded
  have htally : Ledger.rule.Tallies logs.flatten L.ballots := hflat ▸ hreach.tallies
  obtain ⟨table,hroots,hbits,hrows⟩ := hL.tally
  have hwidth : ∀ row ∈ Tables.rowsOf table, row.length = validators.length := by
    intro row hrow
    obtain ⟨root,hroot⟩ := Tables.mem_rowsOf.mp hrow
    exact hrows.width root row hroot
  refine ⟨?_,?_,?_,?_,?_⟩
  · rw [hroots]
    exact Std.ExtTreeMap.ordered_keys
  · rw [← Bitlist.length_toList,hbits,Tables.length_flatten_rows hwidth,Tables.length_rowsOf,hroots]
  · intro i root hi
    rw [hroots] at hi
    obtain ⟨row,hrow,hrowi⟩ := Tables.getElem?_rowsOf hi
    constructor
    · intro v hv
      rw [Bitlist.get_eq,hbits,Tables.getElem?_flatten_rows hwidth i hv,hrowi,Option.bind_some,
        ← Tables.mem_marked,hrows.boxes root row hrow]
      exact htally root v
    · obtain ⟨t,hroot,hbit⟩ := hg.unjustified root (hrows.nonempty root row hrow)
      rw [hL.history] at hroot
      rw [hL.justified,← Bitlist.get_eq] at hbit
      exact ⟨t,hroot,hbit⟩
  · intro root v hlive
    have hv := (htally root v).mpr hlive
    rw [hroots,Std.ExtTreeMap.mem_keys]
    by_contra hmem
    have habsent := hrows.absent root (Std.ExtTreeMap.getElem?_eq_none hmem)
    simp [habsent] at hv
  · rintro m (rfl | ⟨block,hopen⟩)
    · obtain ⟨start,hstart,hmirror⟩ := hL.start hg
      exact ⟨⟨start,hstart⟩,processAttestations_range hreach hL.registry hn hstart hmirror⟩
    · obtain ⟨hat,root,start,hstart,hmirror⟩ := hL.opened hopen
      exact ⟨⟨start,hstart⟩,processAttestations_range
        (Run.append hreach (Run.single (.extend L root _))) hat.registry hn hstart hmirror⟩

end

section
attribute [local instance] mixPair

def pendingChain : State :=
  (genesisState 0 [default,default,default]).grown [(1,[]),(2,[(0,0,1)])]

def pendingLogs : List (List Cast) :=
  (genesisState 0 [default,default,default]).grownLogs [(1,[]),(2,[(0,0,1)])]

theorem tally_exact_pending :
    ∃ root, pendingChain.justificationsRoots[0]? = some root ∧
      LiveVote pendingLogs.flatten root 0 ∧ ¬ LiveVote pendingLogs.flatten root 1 ∧
      ∃ t, processAttestations [pendingChain.voteFor (1,0,1)] pendingChain = .ok () t := by
  have hs : Chain true (genesisState 0 [default,default,default]) _ pendingLogs pendingChain :=
    chain_grown _ (by decide +kernel)
  have hroot : pendingChain.justificationsRoots[0]? =
      some (pendingChain.justificationsRoots.headD ByteVector.zero) := by decide +kernel
  obtain ⟨-,-,hbits,-,htotal⟩ := tally_exact (by decide) hs
  have hlive := (hbits 0 _ hroot).1
  refine ⟨_,hroot,(hlive 0 (by decide)).mp (by decide +kernel),
    fun h => absurd ((hlive 1 (by decide)).mpr h) (by decide +kernel),?_⟩
  refine ((htotal _ (.inl rfl)).2 _).1 fun att hatt => ?_
  obtain rfl := List.mem_singleton.mp hatt
  exact checkRanges_ok.mp (by decide +kernel)

end

end Devnet.Protocol
