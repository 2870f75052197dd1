import Devnet.Protocol.Refinement

/-!
Finality and justification along a chain: the finalized slot never goes back, the
two checkpoints stay consistent with the bits and the history, and the justified
checkpoint is the one justified last, which need not be the highest.
-/

set_option autoImplicit false

namespace Devnet.Protocol
open Machine Devnet.Types Devnet.Ssz

section
variable [HashPair]

/-- Finality never goes back: not from a post-state to a later one, and not from one
vote of a batch to the next. -/
theorem latestFinalized_slot_mono {validate : Bool} {genesisTime : UInt64}
    {validators : Validators} :
    (∀ {blocks more logs moreLogs s t},
      Chain validate (genesisState genesisTime validators) blocks logs s →
      Chain validate s more moreLogs t →
      s.latestFinalized.slot.get ≤ t.latestFinalized.slot.get) ∧
    (∀ {m w log att next},
      Moment validate (genesisState genesisTime validators) m w log →
      attest m w att = .ok next →
      w.latestFinalized.slot.get ≤ next.latestFinalized.slot.get) := by
  constructor
  · intro blocks more logs moreLogs s t hs hmore
    obtain ⟨_,_,L,hreach,-,hL⟩ := hs.represented
    obtain ⟨_,_,L',hrun,-,hL'⟩ := hmore.continued hL
    rw [← hL.latestFinalized,← hL'.latestFinalized]
    exact Ledger.finalized_mono hrun hreach.consistent
  · intro m w log att next hmoment hatt
    obtain ⟨-,_,_,L,hreach,-,hL⟩ := hmoment.mirrored
    obtain ⟨L',hstep,hL'⟩ := hL.attest hatt
    rw [← hL.latestFinalized,← hL'.latestFinalized]
    exact hstep.finalized_mono hreach.consistent

end

section
attribute [local instance] mixPair

def soloChain : State := (genesisState 0 [default]).grown [(1,[]),(2,[(0,0,1)])]

def soloBlock : Block := soloChain.propose (Slot.ofNat 3) [(0,1,2)]

def soloNext : State := soloChain.grown [(3,[(0,1,2)])]

def soloLogs : List (List Cast) := (genesisState 0 [default]).grownLogs [(1,[]),(2,[(0,0,1)])]

theorem soloChain_chain :
    ∃ blocks, Chain true (genesisState 0 [default]) blocks soloLogs soloChain ∧ blocks ≠ [] :=
  ⟨_,chain_grown _ (by decide +kernel),by decide +kernel⟩

theorem soloNext_applies :
    Applies true soloChain ⟨⟨soloBlock,default⟩,[]⟩ (soloChain.batchLog soloBlock) soloNext :=
  applies_grown 3 [(0,1,2)] (by decide +kernel)

theorem latestFinalized_slot_mono_solo :
    ∃ m w next att log, Moment true (genesisState 0 [default]) m w log ∧
      attest m w att = .ok next ∧
      soloChain.latestFinalized.slot.get = 0 ∧ soloNext.latestFinalized.slot.get = 1 ∧
      soloChain.latestFinalized.slot.get ≤ soloNext.latestFinalized.slot.get ∧
      w.latestFinalized.slot.get ≤ next.latestFinalized.slot.get := by
  obtain ⟨blocks,hs,-⟩ := soloChain_chain
  obtain ⟨m,w,log,next,hmoment,hatt⟩ := soloNext_applies.moment hs []
    (soloBlock.body.attestations.headD default) [] (by decide +kernel)
  exact ⟨m,w,next,_,log,hmoment,hatt,by decide +kernel,by decide +kernel,
    latestFinalized_slot_mono.1 hs (Run.single soloNext_applies),
    latestFinalized_slot_mono.2 hmoment hatt⟩

end

section
variable [HashPair]

theorem Chain.marked {validate : Bool} {genesisTime : UInt64} {validators : Validators}
    {blocks : List SignedBlockWithAttestation} {logs : List (List Cast)} {s : State} {L : Ledger}
    (h : Chain validate (genesisState genesisTime validators) blocks logs s)
    (hne : blocks ≠ []) (hL : Represents validators.length s L) (hc : L.Consistent) :
    L.Marked L.latestFinalized ∧ L.Marked L.latestJustified := by
  rcases hc.checkpoints with ⟨hnil,-⟩ | hm
  · have hslot : 0 < s.slot.get := by
      cases h with
      | nil => exact absurd rfl hne
      | snoc _ happ => exact Nat.lt_of_le_of_lt (Nat.zero_le _) happ.slot.2
    have hlen := hL.length
    rw [← hL.history,hnil,← hL.clock,List.length_nil] at hlen
    omega
  · exact hm

/-- The two checkpoints of every post-state are in order, below the state's slot, marked
in the bits and recorded in the history; and bits are never cleared. -/
theorem checkpoints_consistent {validate : Bool} {genesisTime : UInt64} {validators : Validators}
    {blocks : List SignedBlockWithAttestation} {logs : List (List Cast)} {s : State}
    (h : Chain validate (genesisState genesisTime validators) blocks logs s)
    (hne : blocks ≠ []) :
    s.latestFinalized.slot.get ≤ s.latestJustified.slot.get ∧
    s.latestJustified.slot.get < s.slot.get ∧
    s.justifiedSlots.get s.latestFinalized.slot.get = some true ∧
    s.justifiedSlots.get s.latestJustified.slot.get = some true ∧
    s.historicalBlockHashes[s.latestFinalized.slot.get]? = some s.latestFinalized.root ∧
    s.historicalBlockHashes[s.latestJustified.slot.get]? = some s.latestJustified.root ∧
    ∀ {more moreLogs t}, Chain validate s more moreLogs t → ∀ i,
      s.justifiedSlots.get i = some true → t.justifiedSlots.get i = some true := by
  obtain ⟨_,_,L,hreach,-,hL⟩ := h.represented
  have hc := hreach.consistent
  obtain ⟨hfin,hjust⟩ := h.marked hne hL hc
  have horder := hc.order
  rw [hL.latestFinalized] at hfin horder
  rw [hL.latestJustified] at hjust horder
  have hfbit := hfin.bit
  have hjbit := hjust.bit
  have hfroot := hfin.root
  have hjroot := hjust.root
  rw [hL.justified,← Bitlist.get_eq] at hfbit hjbit
  rw [hL.history] at hfroot hjroot
  refine ⟨horder,?_,hfbit,hjbit,hfroot,hjroot,?_⟩
  · have hlt := (List.getElem?_eq_some_iff.mp hjroot).1
    rwa [hL.length,← hL.clock] at hlt
  · intro more moreLogs t hmore i hbit
    obtain ⟨_,_,L',hrun,-,hL'⟩ := hmore.continued hL
    rw [Bitlist.get_eq,← hL'.justified]
    rw [Bitlist.get_eq,← hL.justified] at hbit
    exact Run.preserves (fun L => L.justified[i]? = some true) hrun hbit
      (fun hb hs => hs.bit_mono hb)

end

section
attribute [local instance] mixPair

theorem checkpoints_consistent_solo :
    soloChain.latestFinalized.slot.get ≤ soloChain.latestJustified.slot.get ∧
    soloChain.latestJustified.slot.get < soloChain.slot.get ∧
    soloChain.justifiedSlots.get soloChain.latestJustified.slot.get = some true ∧
    soloChain.historicalBlockHashes[soloChain.latestJustified.slot.get]? =
      some soloChain.latestJustified.root ∧
    soloNext.justifiedSlots.get 1 = some true := by
  obtain ⟨blocks,hs,hne⟩ := soloChain_chain
  obtain ⟨h1,h2,-,h4,-,h6,h7⟩ := checkpoints_consistent hs hne
  exact ⟨h1,h2,h4,h6,h7 (Run.single soloNext_applies) 1 (by decide +kernel)⟩

end

section
variable [HashPair]

/-- The justified checkpoint is the target that reached two thirds last. It stays at or
above the finalized one; it rises with the chain, and names the highest justified slot,
as long as votes reach two thirds in the order of their targets. -/
theorem latestJustified_names_last {validate : Bool} {genesisTime : UInt64}
    {validators : Validators} {blocks : List SignedBlockWithAttestation}
    {logs : List (List Cast)} {s : State}
    (h : Chain validate (genesisState genesisTime validators) blocks logs s) :
    (justifying logs.flatten = [] ∧ s.latestJustified.slot.get = 0 ∨
      ∃ earlier c, justifying logs.flatten = earlier ++ [c] ∧
        s.latestJustified = c.att.data.target) ∧
    s.latestFinalized.slot.get ≤ s.latestJustified.slot.get ∧
    (blocks ≠ [] → s.justifiedSlots.get s.latestJustified.slot.get = some true) ∧
    ∀ {more moreLogs t}, Chain validate s more moreLogs t →
      Ascending (logs.flatten ++ moreLogs.flatten) →
      s.latestJustified.slot.get ≤ t.latestJustified.slot.get ∧
      ∀ i, t.justifiedSlots.get i = some true → i ≤ t.latestJustified.slot.get := by
  obtain ⟨_,outs,L,hreach,hflat,hL⟩ := h.represented
  have hlast := hreach.namesLast
  rw [hflat] at hlast
  have horder := hreach.consistent.order
  rw [hL.latestFinalized,hL.latestJustified] at horder
  refine ⟨?_,horder,?_,?_⟩
  · rw [← hL.latestJustified]
    exact hlast.imp id (fun hsome => hsome.2)
  · intro hne
    have hbit := (h.marked hne hL hreach.consistent).2.bit
    rwa [hL.latestJustified,hL.justified,← Bitlist.get_eq] at hbit
  · intro more moreLogs t hmore hasc
    obtain ⟨_,outs',L',hrun,hflat',hL'⟩ := hmore.continued hL
    have hreach' := Run.append hreach hrun
    have hall : (outs ++ outs').flatten = logs.flatten ++ moreLogs.flatten := by
      rw [List.flatten_append,hflat,hflat']
    have hlast' := Ledger.Reaches.namesLast hreach'
    rw [hall] at hlast'
    rw [← hL.latestJustified,← hL'.latestJustified]
    constructor
    · rcases hlast with ⟨-,hzero⟩ | ⟨-,earlier,c,heq,hnames⟩
      · omega
      · rw [hnames]
        have hmem : c ∈ justifying logs.flatten := by simp [heq]
        obtain ⟨hin,hverdict⟩ := mem_justifying.mp hmem
        exact hlast'.ge_of_ascending hasc
          (mem_justifying.mpr ⟨List.mem_append_left _ hin,hverdict⟩)
    · intro i hbit
      rw [Bitlist.get_eq,← hL'.justified] at hbit
      exact Ledger.Reaches.highest_of_ascending hreach' (hall ▸ hasc) hbit

end

section
attribute [local instance] mixPair

theorem latestJustified_names_last_solo :
    soloChain.latestFinalized.slot.get ≤ soloChain.latestJustified.slot.get ∧
      soloChain.latestJustified.slot.get ≤ soloNext.latestJustified.slot.get ∧
      soloNext.justifiedSlots.get 1 = some true ∧ 1 ≤ soloNext.latestJustified.slot.get := by
  obtain ⟨blocks,hs,-⟩ := soloChain_chain
  have hasc : Ascending (soloLogs.flatten ++ [soloChain.batchLog soloBlock].flatten) := by
    unfold Ascending
    decide +kernel
  have hbit : soloNext.justifiedSlots.get 1 = some true := by decide +kernel
  obtain ⟨-,horder,-,hrise⟩ := latestJustified_names_last hs
  obtain ⟨hmono,hhigh⟩ := hrise (Run.single soloNext_applies) hasc
  exact ⟨horder,hmono,hbit,hhigh 1 hbit⟩

def pairChain : State :=
  (genesisState 0 [default,default,default]).grown [(1,[]),(2,[]),(3,[(0,0,2),(1,0,2)])]

def pairNext : State := pairChain.grown [(4,[(0,0,1),(1,0,1)])]

theorem latestJustified_slot_falls :
    ∃ blocks logs signed log,
      Chain true (genesisState 0 [default,default,default]) blocks logs pairChain ∧
      Applies true pairChain signed log pairNext ∧
      pairChain.latestJustified.slot.get = 2 ∧ pairNext.latestJustified.slot.get = 1 ∧
      pairNext.justifiedSlots.get 2 = some true := by
  exact ⟨_,_,_,_,chain_grown _ (by decide +kernel),
    applies_grown 4 [(0,0,1),(1,0,1)] (by decide +kernel),by decide +kernel⟩

end

end Devnet.Protocol
