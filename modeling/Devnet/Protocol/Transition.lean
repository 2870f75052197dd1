import Devnet.Protocol.Attestations

/-!
The state transition and chains of accepted blocks. A chain is a run of transitions;
the output of each step is the log of the votes its block carried, so that what was
accepted on a chain can be spoken about. A moment is a point inside the vote loop of
the next block.
-/

set_option autoImplicit false

namespace Devnet.Protocol
open Machine Devnet.Types Devnet.Ssz

section Transition
variable [HashPair]

/-- The state in which the votes of `block` are processed. -/
def State.opened (self : State) (block : Block) : Except StateTransitionError State := do
  let next ← onCopy (processSlots block.slot) self
  onCopy (processBlockHeader block) next

def State.stateTransition (self : State) (signedBlock : SignedBlockWithAttestation)
    (validateStateRoot : Bool) : Except StateTransitionError State := do
  let block := signedBlock.message.block
  let next ← onCopy (processSlots block.slot) self
  let next ← onCopy (processBlockHeader block) next
  let next ← onCopy (processAttestations block.body.attestations) next
  let got := hashTreeRoot next
  if validateStateRoot = true ∧ got ≠ block.stateRoot then
    .error (.stateRootMismatch block.slot got block.stateRoot)
  else .ok next

theorem stateTransition_ok {s t : State} {signed : SignedBlockWithAttestation} {validate : Bool} :
    s.stateTransition signed validate = .ok t ↔ ∃ m, s.opened signed.message.block = .ok m ∧
      processAttestations signed.message.block.body.attestations m = .ok () t ∧
      (validate = true → hashTreeRoot t = signed.message.block.stateRoot) := by
  simp only [State.stateTransition,State.opened,except_bind_ok,guard_ok,onCopy_ok,Except.ok.injEq,
    not_and,ne_eq,not_not]
  constructor
  · rintro ⟨m₁,⟨_,h₁⟩,m₂,⟨_,h₂⟩,_,⟨_,h₃⟩,hroot,rfl⟩
    exact ⟨m₂,⟨m₁,⟨_,h₁⟩,_,h₂⟩,h₃,hroot⟩
  · rintro ⟨m₂,⟨m₁,⟨_,h₁⟩,_,h₂⟩,h₃,hroot⟩
    exact ⟨m₁,⟨_,h₁⟩,m₂,⟨_,h₂⟩,t,⟨_,h₃⟩,hroot,rfl⟩

theorem opened_ok {s m : State} {block : Block} (h : s.opened block = .ok m) :
    s.slot.get < block.slot.get ∧ ∃ root bits,
      (s.cachedRoot ≠ ByteVector.zero → root = s.cachedRoot) ∧
      HeaderFits (s.sealed block.slot root) block ∧
      bits.toList = (s.sealed block.slot root).extendedBits block ∧
      m = (s.sealed block.slot root).withHeader block bits := by
  simp only [State.opened,except_bind_ok,onCopy_ok] at h
  obtain ⟨_,⟨⟨⟩,hslots⟩,⟨⟩,hheader⟩ := h
  obtain ⟨hlt,root,rfl,hroot⟩ := processSlots_ok hslots
  obtain ⟨hfits,bits,hbits,rfl⟩ := processBlockHeader_ok hheader
  exact ⟨hlt,root,bits,hroot,hfits,hbits,rfl⟩

/-- What a transition does apart from its votes: it seals the pending header with some
state root, records it, and leaves the block's own header pending. -/
structure Extends (s : State) (block : Block) (t : State) (root : Bytes32) : Prop where
  cached : s.cachedRoot ≠ ByteVector.zero → root = s.cachedRoot
  fits : HeaderFits (s.sealed block.slot root) block
  later : s.slot.get < block.slot.get
  slot : t.slot = block.slot
  header : t.latestBlockHeader = { block.header with stateRoot := ByteVector.zero }
  history : t.historicalBlockHashes = s.historicalBlockHashes ++
    hashTreeRoot { s.latestBlockHeader with stateRoot := root } ::
      List.replicate (s.gap block) ByteVector.zero
  validators : t.validators = s.validators

theorem stateTransition_extends {s t : State} {signed : SignedBlockWithAttestation}
    {validate : Bool} (h : s.stateTransition signed validate = .ok t) :
    (∃ root, Extends s signed.message.block t root) ∧
      (validate = true → hashTreeRoot t = signed.message.block.stateRoot) := by
  obtain ⟨m,hm,hproc,hroot⟩ := stateTransition_ok.mp h
  obtain ⟨hlt,root,bits,hcached,hfits,-,rfl⟩ := opened_ok hm
  obtain ⟨_,_,_,-,-,-,rfl⟩ := processAttestations_ok.mp hproc
  exact ⟨⟨root,hcached,hfits,hlt,rfl,rfl,rfl,rfl⟩,hroot⟩

def State.batchLog (s : State) (block : Block) : List Cast :=
  match s.opened block with
  | .error _ => []
  | .ok m =>
    match Working.start m with
    | .error _ => []
    | .ok start => castLog m start block.body.attestations

theorem batchLog_eq {s m : State} {block : Block} {start : Working}
    (hm : s.opened block = .ok m) (hstart : Working.start m = .ok start) :
    s.batchLog block = castLog m start block.body.attestations := by
  simp [State.batchLog,hm,hstart]

def Applies (validate : Bool) (s : State) (signed : SignedBlockWithAttestation) (log : List Cast)
    (t : State) : Prop :=
  s.stateTransition signed validate = .ok t ∧ log = s.batchLog signed.message.block

abbrev Chain (validate : Bool) := Run (Applies validate)

theorem Applies.slot {validate : Bool} {s t : State} {signed : SignedBlockWithAttestation}
    {log : List Cast} (h : Applies validate s signed log t) :
    t.slot = signed.message.block.slot ∧ s.slot.get < t.slot.get := by
  obtain ⟨⟨root,hext⟩,-⟩ := stateTransition_extends h.1
  exact ⟨hext.slot,hext.slot ▸ hext.later⟩

/-- A point inside the vote loop: some prefix of the next block's votes is processed. -/
structure Moment (validate : Bool) (g : State) (m : State) (w : Working) (log : List Cast) :
    Prop where
  chain : ∃ blocks logs s block start done, Chain validate g blocks logs s ∧
    s.opened block = .ok m ∧ Working.start m = .ok start ∧ done <+: block.body.attestations ∧
    attestAll m start done = .ok w ∧ log = logs.flatten ++ castLog m start done

theorem Applies.moment {validate : Bool} {g s t : State} {signed : SignedBlockWithAttestation}
    {blocks : List SignedBlockWithAttestation} {logs : List (List Cast)} {log : List Cast}
    (hchain : Chain validate g blocks logs s) (happ : Applies validate s signed log t)
    (done : List Attestation) (att : Attestation) (rest : List Attestation)
    (hsplit : signed.message.block.body.attestations = done ++ att :: rest) :
    ∃ m w seen next, Moment validate g m w seen ∧ attest m w att = .ok next := by
  obtain ⟨m,hm,hproc,-⟩ := stateTransition_ok.mp happ.1
  obtain ⟨start,w,stored,hstart,hrun,-,-⟩ := processAttestations_ok.mp hproc
  rw [attestAll,hsplit,List.foldlM_append,except_bind_ok] at hrun
  obtain ⟨w₁,hdone,hrest⟩ := hrun
  rw [List.foldlM_cons,except_bind_ok] at hrest
  obtain ⟨next,hatt,-⟩ := hrest
  exact ⟨m,w₁,_,next,⟨blocks,logs,s,signed.message.block,start,done,hchain,hm,hstart,
    ⟨att :: rest,hsplit.symm⟩,hdone,rfl⟩,hatt⟩

def State.voteFor (m : State) (ballot : Nat × Nat × Nat) : Attestation :=
  let checkpoint (slot : Nat) : Checkpoint :=
    ⟨m.historicalBlockHashes.getD slot ByteVector.zero,Slot.ofNat slot⟩
  { validatorId := ⟨ballot.1 % 2^64,Nat.mod_lt _ (by decide)⟩
    data :=
      { slot := Slot.ofNat ballot.2.2
        head := checkpoint ballot.2.2
        target := checkpoint ballot.2.2
        source := checkpoint ballot.2.1 } }

/-- The block the proposer of `slot` builds on `s` with these votes, its state root
filled in from the transition it is about to cause. -/
def State.propose (s : State) (slot : Slot) (ballots : List (Nat × Nat × Nat)) : Block :=
  match onCopy (processSlots slot) s with
  | .error _ => default
  | .ok m =>
    let empty : Block :=
      { slot := slot
        proposerIndex := ⟨slot.get % m.numValidators % 2^64,Nat.mod_lt _ (by decide)⟩
        parentRoot := hashTreeRoot m.latestBlockHeader
        stateRoot := ByteVector.zero
        body := ⟨[]⟩ }
    match onCopy (processBlockHeader empty) m with
    | .error _ => empty
    | .ok opened =>
      let block := { empty with body := ⟨ballots.map opened.voteFor⟩ }
      match s.stateTransition ⟨⟨block,default⟩,[]⟩ false with
      | .error _ => block
      | .ok t => { block with stateRoot := hashTreeRoot t }

abbrev Schedule := List (Nat × List (Nat × Nat × Nat))

def State.grow (s : State) : Schedule →
    Option (List SignedBlockWithAttestation × List (List Cast) × State)
  | [] => some ([],[],s)
  | (slot,ballots) :: rest =>
    let signed : SignedBlockWithAttestation := ⟨⟨s.propose (Slot.ofNat slot) ballots,default⟩,[]⟩
    match s.stateTransition signed true with
    | .error _ => none
    | .ok t => (t.grow rest).map fun grown =>
      (signed :: grown.1,s.batchLog signed.message.block :: grown.2.1,grown.2.2)

theorem chain_grow {s t : State} {schedule : Schedule} {blocks : List SignedBlockWithAttestation}
    {logs : List (List Cast)} (h : s.grow schedule = some (blocks,logs,t)) :
    Chain true s blocks logs t := by
  induction schedule generalizing s blocks logs with
  | nil =>
    simp only [State.grow,Option.some.injEq,Prod.mk.injEq] at h
    obtain ⟨rfl,rfl,rfl⟩ := h
    exact Run.nil s
  | cons entry rest ih =>
    obtain ⟨slot,ballots⟩ := entry
    simp only [State.grow] at h
    split at h
    · cases h
    · next m hm =>
      obtain ⟨grown,hgrown,heq⟩ := Option.map_eq_some_iff.mp h
      simp only [Prod.mk.injEq] at heq
      obtain ⟨rfl,rfl,rfl⟩ := heq
      exact (Run.single (⟨hm,rfl⟩ : Applies true s _ _ m)).append (ih hgrown)

def State.grown (s : State) (schedule : Schedule) : State :=
  ((s.grow schedule).map (·.2.2)).getD s

def State.grownLogs (s : State) (schedule : Schedule) : List (List Cast) :=
  ((s.grow schedule).map (·.2.1)).getD []

def State.grownBlocks (s : State) (schedule : Schedule) : List SignedBlockWithAttestation :=
  ((s.grow schedule).map (·.1)).getD []

theorem chain_grown {s : State} (schedule : Schedule) (h : (s.grow schedule).isSome = true) :
    Chain true s (s.grownBlocks schedule) (s.grownLogs schedule) (s.grown schedule) := by
  obtain ⟨⟨blocks,logs,t⟩,hgrow⟩ := Option.isSome_iff_exists.mp h
  simpa [State.grown,State.grownLogs,State.grownBlocks,hgrow] using chain_grow hgrow

theorem applies_grown {s : State} (slot : Nat) (ballots : List (Nat × Nat × Nat))
    (h : (s.grow [(slot,ballots)]).isSome = true) :
    Applies true s ⟨⟨s.propose (Slot.ofNat slot) ballots,default⟩,[]⟩
      (s.batchLog (s.propose (Slot.ofNat slot) ballots)) (s.grown [(slot,ballots)]) := by
  refine ⟨?_,rfl⟩
  simp only [State.grow,State.grown] at h ⊢
  split at h
  · simp at h
  · next t ht => simp [ht]

end Transition

/-- A pair hash for running the model on fixed inputs: it mixes the first two bytes of
each chunk. -/
@[reducible] def mixPair : HashPair :=
  ⟨fun left right =>
    match left.bytes, right.bytes with
    | a :: b :: _, c :: d :: _ =>
      ⟨(a*3+c*5+b+1) :: (b*7+d*11+a+c+1) :: List.replicate 30 1,by simp⟩
    | _, _ => left⟩

end Devnet.Protocol
