import Devnet.Protocol.Liveness

/-!
What finality does not promise. Which slots may be justified depends on the finalized slot of
the chain a vote is counted on, so that two slots without a justifiable one between them on
one chain may have one between them on another. Two chains can therefore finalize blocks that
are not on the other's chain by votes of the same validators, although none of them ever voted
for two targets of one slot or for a link strictly inside another.
-/

set_option autoImplicit false

namespace Devnet.Protocol
open Machine Devnet.Types Devnet.Ssz

def AttestationData.link (data : AttestationData) : Nat × Nat :=
  (data.source.slot.get,data.target.slot.get)

/-- The target slots are the same, or one link lies strictly inside the other. -/
def Crossing (a b : Nat × Nat) : Prop :=
  a.2 = b.2 ∨ a.1 < b.1 ∧ b.2 < a.2 ∨ b.1 < a.1 ∧ a.2 < b.2

instance (a b : Nat × Nat) : Decidable (Crossing a b) :=
  inferInstanceAs (Decidable (_ ∨ _ ∧ _ ∨ _ ∧ _))

def Contradicts (data data' : AttestationData) : Prop :=
  data ≠ data' ∧ Crossing data.link data'.link

/-- The slots of a list of blocks, and the links their votes make; all by `voters`. -/
structure Campaign (voters : List ValidatorIndex) (blocks : List SignedBlockWithAttestation)
    (slots : List Nat) (links : List (Nat × Nat)) : Prop where
  slots : blocks.map (·.message.block.slot.get) = slots
  votes : ∃ cast : List AttestationData, cast.map AttestationData.link = links ∧
    ∀ signed ∈ blocks, ∀ att ∈ signed.message.block.body.attestations,
      att.validatorId ∈ voters ∧ att.data ∈ cast

theorem Campaign.append {voters : List ValidatorIndex}
    {blocks blocks' : List SignedBlockWithAttestation} {slots slots' : List Nat}
    {links links' : List (Nat × Nat)} (h : Campaign voters blocks slots links)
    (h' : Campaign voters blocks' slots' links') :
    Campaign voters (blocks ++ blocks') (slots ++ slots') (links ++ links') := by
  obtain ⟨cast,hcast,hvotes⟩ := h.votes
  obtain ⟨cast',hcast',hvotes'⟩ := h'.votes
  refine ⟨by rw [List.map_append,h.slots,h'.slots],cast ++ cast',
    by rw [List.map_append,hcast,hcast'],?_⟩
  intro signed hsigned att hatt
  rcases List.mem_append.mp hsigned with hsigned | hsigned
  · obtain ⟨hv,hd⟩ := hvotes signed hsigned att hatt
    exact ⟨hv,List.mem_append_left _ hd⟩
  · obtain ⟨hv,hd⟩ := hvotes' signed hsigned att hatt
    exact ⟨hv,List.mem_append_right _ hd⟩

theorem Campaign.no_block {voters : List ValidatorIndex}
    {blocks : List SignedBlockWithAttestation} {slots : List Nat} {links : List (Nat × Nat)}
    (h : Campaign voters blocks slots links) {slot : Nat} (hslot : slot ∉ slots) :
    ∀ signed ∈ blocks, signed.message.block.slot.get ≠ slot := by
  rintro signed hsigned rfl
  rw [← h.slots] at hslot
  exact hslot (List.mem_map.mpr ⟨signed,hsigned,rfl⟩)

theorem Campaign.consistent {voters : List ValidatorIndex}
    {blocks : List SignedBlockWithAttestation} {slots : List Nat} {links : List (Nat × Nat)}
    (h : Campaign voters blocks slots links) (hlinks : links.Pairwise (¬ Crossing · ·)) :
    ∀ signed ∈ blocks, ∀ att ∈ signed.message.block.body.attestations,
      ∀ signed' ∈ blocks, ∀ att' ∈ signed'.message.block.body.attestations,
        ¬ Contradicts att.data att'.data := by
  obtain ⟨cast,rfl,hvotes⟩ := h.votes
  rw [List.pairwise_map] at hlinks
  have hsymm : Std.Symm fun d d' : AttestationData => ¬ Crossing d.link d'.link := by
    refine ⟨fun d d' hcross hcross' => hcross ?_⟩
    rcases hcross' with heq | hin | hin
    · exact .inl heq.symm
    · exact .inr (.inr hin)
    · exact .inr (.inl hin)
  intro signed hsigned att hatt signed' hsigned' att' hatt' hcontra
  exact hlinks.forall (hvotes signed hsigned att hatt).2 (hvotes signed' hsigned' att' hatt').2
    hcontra.1 hcontra.2

structure Quorum (n : Nat) (voters : List ValidatorIndex) : Prop where
  nonempty : n ≠ 0
  limit : n ≤ validatorRegistryLimit
  nodup : voters.Nodup
  registered : ∀ v ∈ voters, v.get < n
  enough : 2*n ≤ 3*voters.length

section
variable [HashPair]

/-- A chain stands at `slot` with the given slot finalized. -/
structure Stands (n : Nat) (finalized slot : Nat) (s : State) (L : Ledger) : Prop where
  reach : ∃ acts outs, Ledger.Reaches n acts outs L
  represents : Represents n s L
  finalized : L.latestFinalized.slot.get = finalized
  slot : s.slot.get = slot

def nextFinalized (finalized source target : Nat) : Nat :=
  if noIntermediate (Slot.ofNat finalized) source target = true then source else finalized

omit [HashPair] in
theorem Slot.eq_ofNat {slot : Slot} {k : Nat} (h : slot.get = k) : slot = Slot.ofNat k := by
  have hlt : k < 2^64 := h ▸ slot.isLt
  exact Slot.ext_get (h.trans (Slot.get_ofNat hlt).symm)

theorem Stands.vote {n finalized slot origin : Nat} {voters : List ValidatorIndex} {s : State}
    {L : Ledger} (hq : Quorum n voters) (h : Stands n finalized slot s L) {source : Checkpoint}
    (hsource : L.Marked source) (horigin : source.slot.get = origin) (horder : origin < slot)
    (hjust : (Slot.ofNat slot).isJustifiableAfter (Slot.ofNat finalized) = true)
    (next : Nat) (hnext : slot < next) (hroom : next ≤ historicalRootsLimit) :
    ∃ signed log t L' target, Applies true s signed log t ∧
      Campaign voters [signed] [next] [(origin,slot)] ∧
      Stands n (nextFinalized finalized origin slot) next t L' ∧
      L'.Marked target ∧ target.slot.get = slot := by
  obtain ⟨acts,outs,hreach⟩ := h.reach
  have hbound : historicalRootsLimit < 2^64 := by decide
  have hget : (Slot.ofNat next).get = next := Slot.get_ofNat (by omega)
  have hlater : s.slot.get < (Slot.ofNat next).get := by rw [h.slot,hget]; exact hnext
  have hbefore : source.slot.get < s.slot.get := by rw [horigin,h.slot]; exact horder
  rw [← Slot.eq_ofNat h.slot,← Slot.eq_ofNat h.finalized] at hjust
  obtain ⟨data,signed,log,t,acts',outs',L',rfl,htarget,happ,hslot,hatts,hreach',hL',hmarked,hfin⟩ :=
    h.represents.justifies hreach hq.nonempty hq.limit hq.nodup hq.registered hq.enough hsource
      hbefore hjust (Slot.ofNat next) hlater (by omega)
  have hat : data.target.slot.get = slot := by rw [htarget,h.slot]
  have hlink : data.link = (origin,slot) := by rw [AttestationData.link,horigin,hat]
  have hfinalized : L'.latestFinalized.slot.get = nextFinalized finalized origin slot := by
    have hiff := noIntermediate_iff L.latestFinalized.slot data
    rw [horigin,hat,Slot.eq_ofNat h.finalized] at hiff
    rw [Slot.eq_ofNat h.finalized] at hfin
    rcases hfin with ⟨hcons,heq⟩ | ⟨hcons,heq⟩
    · rw [heq,nextFinalized,if_pos (hiff.mpr hcons),horigin]
    · rw [heq,nextFinalized,if_neg (mt hiff.mp hcons),h.finalized]
  refine ⟨signed,log,t,L',data.target,happ,⟨?_,[data],?_,?_⟩,⟨⟨acts',outs',hreach'⟩,hL',hfinalized,?_⟩,
    hmarked,hat⟩
  · have hblock := happ.slot.1
    simp only [List.map_cons,List.map_nil,← hblock,hslot,hget]
  · simp only [List.map_cons,List.map_nil,hlink]
  · intro signed' hsigned' att hatt
    obtain rfl := List.mem_singleton.mp hsigned'
    rw [hatts] at hatt
    obtain ⟨v,hv,rfl⟩ := List.mem_map.mp hatt
    exact ⟨hv,List.mem_singleton_self _⟩
  · rw [hslot,hget]

theorem Stands.link {n finalized slot origin : Nat} {voters : List ValidatorIndex}
    {s : State} {L : Ledger} (hq : Quorum n voters) (h : Stands n finalized slot s L)
    (hsource : ∀ root gap, ∃ source : Checkpoint, source.slot.get = origin ∧
      (L.extend root gap).Marked source)
    (target : Nat) (horder : origin < target)
    (hjust : (Slot.ofNat target).isJustifiableAfter (Slot.ofNat finalized) = true)
    (hlater : slot < target) (hroom : target < historicalRootsLimit) :
    ∃ blocks logs t L' c, Chain true s blocks logs t ∧
      Campaign voters blocks [target,target+1] [(origin,target)] ∧
      Stands n (nextFinalized finalized origin target) (target+1) t L' ∧
      L'.Marked c ∧ c.slot.get = target := by
  obtain ⟨acts,outs,hreach⟩ := h.reach
  have hbound : historicalRootsLimit < 2^64 := by decide
  have hget : (Slot.ofNat target).get = target := Slot.get_ofNat (by omega)
  have hbefore : s.slot.get < (Slot.ofNat target).get := by rw [h.slot,hget]; exact hlater
  obtain ⟨root,hblock⟩ := h.represents.proposes hreach hq.nonempty hq.limit (Slot.ofNat target)
    hbefore (by omega)
  obtain ⟨first,log,m,votes,L₁,happ,hslot,hatts,hrun,hL₁⟩ := hblock [] (by simp)
  obtain ⟨rfl,-⟩ := hrun.nil_inv
  have hreach₁ := hreach.append
    (Run.single (.extend L root ((Slot.ofNat target).get - s.slot.get - 1)))
  obtain ⟨source,horigin,hmarked⟩ := hsource root ((Slot.ofNat target).get - s.slot.get - 1)
  have hm : Stands n finalized target m
      (L.extend root ((Slot.ofNat target).get - s.slot.get - 1)) := by
    refine ⟨⟨_,_,hreach₁⟩,hL₁,?_,by rw [hslot,hget]⟩
    rw [L.extend_finalized,h.finalized]
  obtain ⟨second,log',t,L',c,happ',hcampaign,hstands,hrest⟩ :=
    hm.vote hq hmarked horigin horder hjust (target+1) (Nat.lt_succ_self target) (by omega)
  have hempty : Campaign voters [first] [target] [] := by
    refine ⟨?_,[],rfl,?_⟩
    · have hat := happ.slot.1
      simp only [List.map_cons,List.map_nil,← hat,hslot,hget]
    · intro signed hsigned att hatt
      obtain rfl := List.mem_singleton.mp hsigned
      rw [hatts] at hatt
      cases hatt
  exact ⟨_,_,t,L',c,(Run.single happ).snoc happ',hempty.append hcampaign,hstands,hrest⟩

theorem stands_genesis (genesisTime : UInt64) (validators : Validators) :
    Stands validators.length 0 0 (genesisState genesisTime validators) Ledger.genesis :=
  ⟨⟨[],[],Run.nil _⟩,represents_genesis genesisTime validators,rfl,rfl⟩

omit [HashPair] in
theorem Ledger.Marked.extend {L : Ledger} {c : Checkpoint} {k : Nat} (h : L.Marked c)
    (hslot : c.slot.get = k) : ∀ root gap, ∃ source : Checkpoint, source.slot.get = k ∧
      (L.extend root gap).Marked source := by
  intro root gap
  have hstep : Ledger.Step 0 L _ [] _ := .extend L root gap
  exact ⟨c,hslot,h.mono (fun _ => hstep.bit_mono) hstep.history_mono⟩

omit [HashPair] in
theorem marked_genesis : ∀ root gap, ∃ source : Checkpoint, source.slot.get = 0 ∧
    (Ledger.genesis.extend root gap).Marked source := by
  intro root gap
  have hreach : Ledger.Reaches 0 _ _ (Ledger.genesis.extend root gap) :=
    Run.single (.extend Ledger.genesis root gap)
  refine ⟨_,?_,Ledger.marked_extend hreach.consistent⟩
  rw [Ledger.extend_finalized]
  rfl

/-- Any two thirds of the registry can finalize the block of slot 7 on one chain and that of
slot 9 on another that has no block at slot 7, while the first has none at slot 9; and no two
of the votes contradict each other. -/
theorem conflicting_finality (genesisTime : UInt64) (validators : Validators)
    {voters : List ValidatorIndex} (hq : Quorum validators.length voters) :
    ∃ common left right logs logs' s s',
      Chain true (genesisState genesisTime validators) (common ++ left) logs s ∧
      Chain true (genesisState genesisTime validators) (common ++ right) logs' s' ∧
      s.latestFinalized.slot.get = 7 ∧ s'.latestFinalized.slot.get = 9 ∧
      (∀ signed ∈ common ++ left, signed.message.block.slot.get ≠ 9) ∧
      (∀ signed ∈ common ++ right, signed.message.block.slot.get ≠ 7) ∧
      ∀ signed ∈ common ++ left ++ right, ∀ att ∈ signed.message.block.body.attestations,
        att.validatorId ∈ voters ∧
        ∀ signed' ∈ common ++ left ++ right, ∀ att' ∈ signed'.message.block.body.attestations,
          ¬ Contradicts att.data att'.data := by
  -- Both chains justify slot 1, with its votes in the block of slot 2.
  obtain ⟨common,logs₀,s₂,L₂,c₁,hchain₀,hcampaign₀,hstands₂,hmarked₁,hc₁⟩ :=
    (stands_genesis genesisTime validators).link hq marked_genesis 1 (by decide) (by decide +kernel)
      (by decide) (by decide)
  -- The first goes on from 1 to 2, which finalizes 1, then to 7 and to 10.
  obtain ⟨b₃,log₃,s₃,L₃,c₂,happ₃,hcampaign₃,hstands₃,hmarked₂,hc₂⟩ :=
    hstands₂.vote hq hmarked₁ hc₁ (by decide) (by decide +kernel) 3 (by decide) (by decide)
  obtain ⟨bs₈,logs₈,s₈,L₈,c₇,hchain₈,hcampaign₈,hstands₈,hmarked₇,hc₇⟩ :=
    hstands₃.link hq (hmarked₂.extend hc₂) 7 (by decide) (by decide +kernel) (by decide) (by decide)
  obtain ⟨bs₁₁,logs₁₁,s₁₁,L₁₁,-,hchain₁₁,hcampaign₁₁,hstands₁₁,-⟩ :=
    hstands₈.link hq (hmarked₇.extend hc₇) 10 (by decide) (by decide +kernel) (by decide) (by decide)
  -- The second goes from 1 to 3, which finalizes nothing, then to 9 and to 12.
  obtain ⟨bs₄,logs₄,s₄,L₄,c₃,hchain₄,hcampaign₄,hstands₄,hmarked₃,hc₃⟩ :=
    hstands₂.link hq (hmarked₁.extend hc₁) 3 (by decide) (by decide +kernel) (by decide) (by decide)
  obtain ⟨bs₁₀,logs₁₀,s₁₀,L₁₀,c₉,hchain₁₀,hcampaign₁₀,hstands₁₀,hmarked₉,hc₉⟩ :=
    hstands₄.link hq (hmarked₃.extend hc₃) 9 (by decide) (by decide +kernel) (by decide) (by decide)
  obtain ⟨bs₁₃,logs₁₃,s₁₃,L₁₃,-,hchain₁₃,hcampaign₁₃,hstands₁₃,-⟩ :=
    hstands₁₀.link hq (hmarked₉.extend hc₉) 12 (by decide) (by decide +kernel) (by decide)
      (by decide)
  have hleft := (hcampaign₃.append hcampaign₈).append hcampaign₁₁
  have hright := (hcampaign₄.append hcampaign₁₀).append hcampaign₁₃
  have hall := (hcampaign₀.append hleft).append hright
  refine ⟨common,_,_,_,_,s₁₁,s₁₃,
    hchain₀.append (((Run.single happ₃).append hchain₈).append hchain₁₁),
    hchain₀.append ((hchain₄.append hchain₁₀).append hchain₁₃),?_,?_,
    (hcampaign₀.append hleft).no_block (by decide),(hcampaign₀.append hright).no_block (by decide),?_⟩
  · rw [← hstands₁₁.represents.latestFinalized,hstands₁₁.finalized]
    decide +kernel
  · rw [← hstands₁₃.represents.latestFinalized,hstands₁₃.finalized]
    decide +kernel
  · obtain ⟨cast,-,hvotes⟩ := hall.votes
    intro signed hsigned att hatt
    exact ⟨(hvotes signed hsigned att hatt).1,hall.consistent (by decide) signed hsigned att hatt⟩

end

section
attribute [local instance] mixPair

theorem conflicting_finality_solo :
    ∃ blocks blocks' logs logs' s s', Chain true (genesisState 0 [default]) blocks logs s ∧
      Chain true (genesisState 0 [default]) blocks' logs' s' ∧
      s.latestFinalized.slot.get = 7 ∧ s'.latestFinalized.slot.get = 9 ∧
      (∀ signed ∈ blocks, signed.message.block.slot.get ≠ 9) ∧
      ∀ signed ∈ blocks', signed.message.block.slot.get ≠ 7 := by
  have hq : Quorum [(default : Validator)].length [default] :=
    ⟨by decide,by decide,List.nodup_singleton _,by decide,by decide⟩
  obtain ⟨common,left,right,logs,logs',s,s',h,h',hslot,hslot',hnone,hnone',-⟩ :=
    conflicting_finality 0 [default] hq
  exact ⟨_,_,logs,logs',s,s',h,h',hslot,hslot',hnone,hnone'⟩

end

end Devnet.Protocol
