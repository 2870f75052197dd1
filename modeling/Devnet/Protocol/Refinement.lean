import Devnet.Protocol.Ledger

/-!
The code follows the ledger. `Mirrors` relates the working copies of a batch to a
ledger, `Represents` a committed state; a header, a vote and a commit keep the
relation, so every accepted block is a run of ledger steps that logs the same votes.
-/

set_option autoImplicit false

namespace Devnet.Protocol
open Machine Devnet.Types Devnet.Ssz

/-- A table of rows holds the ballot boxes: one row per non-empty box. -/
structure Rows (n : Nat) (table : BTreeMap Bytes32 (List Bool)) (ballots : Bytes32 → Finset Nat) :
    Prop where
  width : ∀ (root : Bytes32) (row : List Bool), table[root]? = some row → row.length = n
  boxes : ∀ (root : Bytes32) (row : List Bool), table[root]? = some row →
    Tables.marked row = ballots root
  nonempty : ∀ (root : Bytes32) (row : List Bool), table[root]? = some row →
    (ballots root).Nonempty
  absent : ∀ root : Bytes32, table[root]? = none → ballots root = ∅

theorem rows_empty (n : Nat) : Rows n ∅ (fun _ => ∅) := by
  constructor <;> simp

theorem Rows.ballot {n : Nat} {table : BTreeMap Bytes32 (List Bool)} {ballots : Bytes32 → Finset Nat}
    (h : Rows n table ballots) (root : Bytes32) {v : Nat} (hv : v < n) :
    ((table[root]?.getD (List.replicate n false)).set v true).length = n ∧
      Tables.marked ((table[root]?.getD (List.replicate n false)).set v true) =
        insert v (ballots root) := by
  cases hrow : table[root]? with
  | none =>
    refine ⟨by simp,?_⟩
    rw [Option.getD_none,Tables.marked_set (by simpa using hv),Tables.marked_replicate,
      h.absent root hrow]
  | some row =>
    have hw := h.width root row hrow
    refine ⟨by simp [hw],?_⟩
    rw [Option.getD_some,Tables.marked_set (by rw [hw]; exact hv),h.boxes root row hrow]

theorem Rows.insert {n : Nat} {table : BTreeMap Bytes32 (List Bool)} {ballots : Bytes32 → Finset Nat}
    (h : Rows n table ballots) {root : Bytes32} {row : List Bool} {box : Finset Nat}
    (hw : row.length = n) (hbox : Tables.marked row = box) (hne : box.Nonempty) :
    Rows n (table.insert root row) (Function.update ballots root box) := by
  have hget : ∀ r : Bytes32, (table.insert root row)[r]? = if root = r then some row else table[r]? := by
    intro r
    simp [Std.ExtTreeMap.getElem?_insert]
  constructor
  · intro r row' hr
    rw [hget] at hr
    split at hr
    · cases hr
      exact hw
    · exact h.width r row' hr
  · intro r row' hr
    rw [hget] at hr
    split at hr
    · next heq =>
      cases hr
      rw [← heq,Function.update_self]
      exact hbox
    · next hne' =>
      rw [Function.update_of_ne (Ne.symm hne')]
      exact h.boxes r row' hr
  · intro r row' hr
    rw [hget] at hr
    split at hr
    · next heq =>
      rw [← heq,Function.update_self]
      exact hne
    · next hne' =>
      rw [Function.update_of_ne (Ne.symm hne')]
      exact h.nonempty r row' hr
  · intro r hr
    rw [hget] at hr
    split at hr
    · cases hr
    · next hne' =>
      rw [Function.update_of_ne (Ne.symm hne')]
      exact h.absent r hr

theorem Rows.erase {n : Nat} {table : BTreeMap Bytes32 (List Bool)} {ballots : Bytes32 → Finset Nat}
    (h : Rows n table ballots) (root : Bytes32) :
    Rows n (table.erase root) (Function.update ballots root ∅) := by
  have hget : ∀ r : Bytes32, (table.erase root)[r]? = if root = r then none else table[r]? := by
    intro r
    simp [Std.ExtTreeMap.getElem?_erase]
  have hkeep : ∀ (r : Bytes32) (row : List Bool), (table.erase root)[r]? = some row →
      table[r]? = some row ∧ r ≠ root := by
    intro r row hr
    rw [hget] at hr
    split at hr
    · cases hr
    · next hne => exact ⟨hr,Ne.symm hne⟩
  constructor
  · intro r row hr
    exact h.width r row (hkeep r row hr).1
  · intro r row hr
    obtain ⟨hold,hne⟩ := hkeep r row hr
    rw [Function.update_of_ne hne]
    exact h.boxes r row hold
  · intro r row hr
    obtain ⟨hold,hne⟩ := hkeep r row hr
    rw [Function.update_of_ne hne]
    exact h.nonempty r row hold
  · intro r hr
    by_cases heq : r = root
    · rw [heq,Function.update_self]
    · rw [Function.update_of_ne heq]
      rw [hget,if_neg (Ne.symm heq)] at hr
      exact h.absent r hr

/-- The working copies of a batch on `m` stand for the ledger `L`. -/
structure Mirrors (m : State) (w : Working) (L : Ledger) : Prop where
  history : L.history = m.historicalBlockHashes
  justified : L.justified = w.justifiedSlots.toList
  latestJustified : L.latestJustified = w.latestJustified
  latestFinalized : L.latestFinalized = w.latestFinalized
  registry : w.justifications.numValidators = m.validators.length
  rows : Rows m.validators.length w.justifications.table L.ballots

/-- A committed state stands for the ledger `L`. -/
structure Represents (n : Nat) (s : State) (L : Ledger) : Prop where
  history : L.history = s.historicalBlockHashes
  justified : L.justified = s.justifiedSlots.toList
  latestJustified : L.latestJustified = s.latestJustified
  latestFinalized : L.latestFinalized = s.latestFinalized
  registry : s.validators.length = n
  clock : s.slot = s.latestBlockHeader.slot
  length : s.historicalBlockHashes.length = s.latestBlockHeader.slot.get
  tally : ∃ table, s.justificationsRoots = table.keys ∧
    s.justificationsValidators.toList = (Tables.rowsOf table).flatten ∧ Rows n table L.ballots

theorem represents_genesis [HashPair] (genesisTime : UInt64) (validators : Validators) :
    Represents validators.length (genesisState genesisTime validators) Ledger.genesis where
  history := rfl
  justified := rfl
  latestJustified := rfl
  latestFinalized := rfl
  registry := rfl
  clock := rfl
  length := rfl
  tally := ⟨∅,by simp [genesisState,default,instInhabitedState.default],by
    simp [genesisState,default,instInhabitedState.default,Tables.rowsOf,Bitlist.toList_new],
    rows_empty _⟩

theorem Mirrors.acceptable {m : State} {w : Working} {L : Ledger} (h : Mirrors m w L)
    (vote : AttestationData) : w.Acceptable m vote ↔ L.Acceptable vote := by
  simp only [Working.Acceptable,Bitlist.get_eq,← h.history,← h.justified,← h.latestFinalized]
  constructor
  · rintro ⟨h1,h2,h3,h4,h5,h6⟩
    exact ⟨h1,h2,h3,h4,h5,h6⟩
  · rintro ⟨h1,h2,h3,h4,h5,h6⟩
    exact ⟨h1,h2,h3,h4,h5,h6⟩

theorem noIntermediate_iff (finalized : Slot) (vote : AttestationData) :
    noIntermediate finalized vote.source.slot.get vote.target.slot.get = true ↔
      Ledger.Consecutive finalized vote := by
  simp only [noIntermediate,List.all_eq_true,List.mem_range'_1,Bool.not_eq_true',
    Ledger.Consecutive]
  constructor
  · intro h mid hlo hhi
    exact h mid ⟨hlo,by omega⟩
  · intro h mid hmid
    exact h mid hmid.1 (by omega)

theorem Mirrors.ballot {m : State} {w : Working} {L : Ledger} (h : Mirrors m w L)
    {att : Attestation} (hv : att.validatorId.get < m.validators.length) :
    (w.ballot att).length = m.validators.length ∧ Tables.marked (w.ballot att) = L.ballot att := by
  have hb := h.rows.ballot att.data.target.root hv
  rw [← h.registry] at hb
  rw [← h.registry]
  exact hb

theorem Mirrors.count {m : State} {w : Working} {L : Ledger} (h : Mirrors m w L)
    {att : Attestation} (hv : att.validatorId.get < m.validators.length) :
    (w.ballot att).count true = (L.ballot att).card := by
  rw [← (h.ballot hv).2,Tables.card_marked]

/-- One vote of the code is one step of the ledger, with the same verdict. -/
theorem Mirrors.attest {m : State} {w next : Working} {L : Ledger} {att : Attestation}
    (h : Mirrors m w L) (hatt : Protocol.attest m w att = .ok next) :
    ∃ L', Ledger.Step m.validators.length L (.vote att) [⟨att,w.verdict m att⟩] L' ∧
      Mirrors m next L' := by
  obtain ⟨hrange,htally⟩ := attest_ok.mp hatt
  have hv := hrange.validator
  have hbox := h.ballot hv
  have hfill : Rows m.validators.length
      (w.justifications.table.insert att.data.target.root (w.ballot att))
      (Function.update L.ballots att.data.target.root (L.ballot att)) :=
    h.rows.insert hbox.1 hbox.2 (Finset.insert_nonempty _ _)
  rcases tally_cases htally with ⟨hverdict,hacc,rfl⟩ | ⟨hverdict,hacc,hshort,rfl⟩ |
    ⟨hverdict,hacc,hquorum,bits,hset,rfl⟩
  · rw [hverdict]
    exact ⟨L,.skip (fun hL => hacc ((h.acceptable _).mpr hL)),h⟩
  · rw [hverdict]
    rw [h.count hv] at hshort
    exact ⟨L.record att,.count hv ((h.acceptable _).mp hacc) hshort,
      ⟨h.history,h.justified,h.latestJustified,h.latestFinalized,h.registry,hfill⟩⟩
  · rw [hverdict]
    rw [h.count hv] at hquorum
    have hlive : att.data.target.slot.get < w.justifiedSlots.len := by
      have hbit := hacc.2.1
      rw [Bitlist.get_eq] at hbit
      simpa using (List.getElem?_eq_some_iff.mp hbit).1
    refine ⟨L.justify att (w.justify att bits).latestFinalized,
      .justify hv ((h.acceptable _).mp hacc) hquorum ?_,?_⟩
    · rw [h.latestFinalized,← noIntermediate_iff]
      by_cases hno : noIntermediate w.latestFinalized.slot att.data.source.slot.get
          att.data.target.slot.get = true
      · exact .inl ⟨hno,by simp [Working.justify,hno]⟩
      · exact .inr ⟨hno,by simp [Working.justify,hno]⟩
    · refine ⟨h.history,?_,rfl,rfl,h.registry,?_⟩
      · simp only [Ledger.justify,Working.justify,Bitlist.toList_set hlive hset,h.justified]
      · have herase := hfill.erase att.data.target.root
        rwa [Function.update_idem] at herase

/-- A whole batch of the code is a run of the ledger with the same log. -/
theorem Mirrors.attestAll {m : State} {w next : Working} {L : Ledger} {atts : List Attestation}
    (h : Mirrors m w L) (hrun : Protocol.attestAll m w atts = .ok next) :
    ∃ outs L', Run (Ledger.Step m.validators.length) L (atts.map .vote) outs L' ∧
      outs.flatten = castLog m w atts ∧ Mirrors m next L' := by
  induction atts generalizing w L with
  | nil =>
    obtain rfl := except_pure_ok.mp hrun
    exact ⟨[],L,Run.nil L,rfl,h⟩
  | cons att atts ih =>
    simp only [Protocol.attestAll,List.foldlM_cons,except_bind_ok] at hrun
    obtain ⟨w₁,hatt,hrest⟩ := hrun
    obtain ⟨L₁,hstep,h₁⟩ := h.attest hatt
    obtain ⟨outs,L',hr,hflat,h'⟩ := ih h₁ hrest
    refine ⟨[⟨att,w.verdict m att⟩] :: outs,L',(Run.single hstep).append hr,?_,h'⟩
    simp [castLog,hatt,hflat]

structure OpenedAt (n : Nat) (m : State) (block : Block) : Prop where
  registry : m.validators.length = n
  inhabited : n ≠ 0
  clock : m.slot = block.slot
  header : m.latestBlockHeader.slot = block.slot
  length : m.historicalBlockHashes.length = block.slot.get

theorem Mirrors.committed {n : Nat} {m : State} {w : Working} {L : Ledger} {block : Block}
    {stored : List Bytes32 × Bitlist justificationsValidatorsLimit}
    (h : Mirrors m w L) (hm : OpenedAt n m block)
    (hpack : w.justifications.packed = .ok stored) : Represents n (m.committed w stored) L := by
  have hrows : Rows n w.justifications.table L.ballots := hm.registry ▸ h.rows
  obtain ⟨flat,hpack',hflat⟩ := packed_spec (j := w.justifications)
    (by rw [h.registry,hm.registry]; exact hrows.width) (packed_fits hpack)
  obtain rfl : (w.justifications.table.keys,flat) = stored := by
    rw [hpack] at hpack'
    exact (Except.ok.inj hpack').symm
  have hlength := hm.length
  rw [← hm.header] at hlength
  exact ⟨h.history,h.justified,h.latestJustified,h.latestFinalized,hm.registry,
    hm.clock.trans hm.header.symm,hlength,w.justifications.table,rfl,hflat,hrows⟩

section Chains
variable [HashPair]

/-- A header of the code is one step of the ledger, and hydration succeeds. -/
theorem Represents.opened {n : Nat} {s m : State} {L : Ledger} {block : Block}
    (h : Represents n s L) (hm : s.opened block = .ok m) :
    OpenedAt n m block ∧ ∃ root start, Working.start m = .ok start ∧
      Mirrors m start (L.extend root (s.gap block)) := by
  obtain ⟨hlt,stateRoot,bits,-,hfits,hbits,rfl⟩ := opened_ok hm
  obtain ⟨table,hroots,hflat,hrows⟩ := h.tally
  have hn : n ≠ 0 := by
    rintro rfl
    exact hfits.registry (by simp [State.numValidators,State.sealed,h.registry])
  have hlater : s.latestBlockHeader.slot.get < block.slot.get := hfits.later
  have hempty : s.latestBlockHeader.slot.isZero = L.history.isEmpty := by
    rw [Slot.isZero,← h.length,← h.history]
    cases L.history <;> rfl
  have hstart : Working.start ((s.sealed block.slot stateRoot).withHeader block bits) =
      .ok ⟨⟨table,n⟩,bits,(s.sealed block.slot stateRoot).anchored s.latestJustified,
        (s.sealed block.slot stateRoot).anchored s.latestFinalized⟩ := by
    rw [← h.registry] at hn hrows
    have htry : Justifications.tryFrom ((s.sealed block.slot stateRoot).withHeader block bits) =
        .ok ⟨table,s.validators.length⟩ := tryFrom_packed hn hroots hflat hrows.width
    rw [Working.start,htry,← h.registry]
    rfl
  refine ⟨⟨h.registry,hn,rfl,rfl,?_⟩,
    hashTreeRoot (s.sealed block.slot stateRoot).latestBlockHeader,_,hstart,?_⟩
  · have hl := h.length
    simp [State.withHeader,State.sealed,State.gap,hl]
    omega
  · refine ⟨?_,?_,?_,?_,h.registry.symm,?_⟩
    · rw [Ledger.extend,h.history]
      rfl
    · simp only [Ledger.extend]
      rw [hbits,h.justified,← hempty]
      rfl
    · simp only [Ledger.extend,State.anchored,← hempty,h.latestJustified]
      rfl
    · simp only [Ledger.extend,State.anchored,← hempty,h.latestFinalized]
      rfl
    · rw [← h.registry] at hrows
      exact hrows

theorem Represents.records {n : Nat} {s m : State} {L : Ledger} {block : Block} {root : Bytes32}
    {start : Working} (h : Represents n s L) (hm : s.opened block = .ok m)
    (hmirror : Mirrors m start (L.extend root (s.gap block))) : root = block.parentRoot := by
  obtain ⟨-,sealing,bits,-,hfits,-,rfl⟩ := opened_ok hm
  have hhist := hmirror.history
  simp only [Ledger.extend,State.withHeader,h.history] at hhist
  have htail := List.append_cancel_left hhist
  rw [hfits.parent]
  exact (List.cons.inj htail).1

theorem Represents.applies {n : Nat} {validate : Bool} {s t : State} {L : Ledger}
    {signed : SignedBlockWithAttestation} {log : List Cast}
    (h : Represents n s L) (happ : Applies validate s signed log t) :
    ∃ acts outs L', Run (Ledger.Step n) L acts outs L' ∧ outs.flatten = log ∧
      Represents n t L' := by
  obtain ⟨htrans,rfl⟩ := happ
  obtain ⟨m,hm,hproc,-⟩ := stateTransition_ok.mp htrans
  obtain ⟨hat,root,start,hstart,hmirror⟩ := h.opened hm
  obtain ⟨start',w,stored,hstart',hrun,hpack,rfl⟩ := processAttestations_ok.mp hproc
  obtain rfl : start = start' := by
    rw [hstart] at hstart'
    exact Except.ok.inj hstart'
  obtain ⟨outs,L',hr,hflat,hmirror'⟩ := hmirror.attestAll hrun
  rw [hat.registry] at hr
  refine ⟨.extend root (s.gap signed.message.block) :: _,[] :: outs,L',
    (Run.single (.extend L root _)).append hr,?_,hmirror'.committed hat hpack⟩
  simp [hflat,batchLog_eq hm hstart]

/-- Every chain is a run of the ledger with the same log. -/
theorem Chain.continued {validate : Bool} {n : Nat} {s t : State} {L : Ledger}
    {blocks : List SignedBlockWithAttestation} {logs : List (List Cast)}
    (h : Chain validate s blocks logs t) (hs : Represents n s L) :
    ∃ acts outs L', Run (Ledger.Step n) L acts outs L' ∧ outs.flatten = logs.flatten ∧
      Represents n t L' :=
  Run.simulates (Represents n) h hs (fun hR happ => hR.applies happ)

theorem Chain.represented {validate : Bool} {genesisTime : UInt64} {validators : Validators}
    {blocks : List SignedBlockWithAttestation} {logs : List (List Cast)} {s : State}
    (h : Chain validate (genesisState genesisTime validators) blocks logs s) :
    ∃ acts outs L, Ledger.Reaches validators.length acts outs L ∧
      outs.flatten = logs.flatten ∧ Represents validators.length s L :=
  h.continued (represents_genesis genesisTime validators)

theorem Moment.mirrored {validate : Bool} {genesisTime : UInt64} {validators : Validators}
    {m : State} {w : Working} {log : List Cast}
    (h : Moment validate (genesisState genesisTime validators) m w log) :
    m.validators.length = validators.length ∧ ∃ acts outs L,
      Ledger.Reaches validators.length acts outs L ∧ outs.flatten = log ∧ Mirrors m w L := by
  obtain ⟨blocks,logs,s,block,start,done,hchain,hm,hstart,-,hrun,rfl⟩ := h.chain
  obtain ⟨acts,outs,L,hreach,hflat,hrep⟩ := hchain.represented
  obtain ⟨hat,root,start',hstart',hmirror⟩ := hrep.opened hm
  obtain rfl : start' = start := by
    rw [hstart'] at hstart
    exact Except.ok.inj hstart
  obtain ⟨outs',L',hr,hflat',hmirror'⟩ := hmirror.attestAll hrun
  rw [hat.registry] at hr
  refine ⟨hat.registry,_,_,L',(hreach.append (Run.single (.extend L root _))).append hr,?_,hmirror'⟩
  simp [hflat,hflat']

end Chains

end Devnet.Protocol
