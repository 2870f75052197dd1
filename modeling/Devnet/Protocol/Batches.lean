import Devnet.Protocol.Sweep
import Devnet.Protocol.Tally

/-!
What a batch of votes depends on: which of its votes there are, and on their order only through
the checkpoints and sources that votes move. A vote that is skipped leaves no trace, and a vote
that is cast again finds itself counted.
-/

set_option autoImplicit false

namespace Devnet.Protocol
open Machine Devnet.Types Devnet.Ssz

theorem marked_injective {row row' : List Bool} (hlength : row.length = row'.length)
    (h : Tables.marked row = Tables.marked row') : row = row' := by
  refine List.ext_getElem hlength fun j h1 h2 => ?_
  have hj : row[j]? = some true ↔ row'[j]? = some true := by
    rw [← Tables.mem_marked,← Tables.mem_marked,h]
  rw [List.getElem?_eq_getElem h1,List.getElem?_eq_getElem h2] at hj
  simpa [← Bool.eq_iff_iff] using hj

theorem Rows.unique {n : Nat} {table table' : BTreeMap Bytes32 (List Bool)}
    {ballots : Bytes32 → Finset Nat} (h : Rows n table ballots) (h' : Rows n table' ballots) :
    table = table' := by
  apply Std.ExtTreeMap.ext_getElem?
  intro root
  cases hrow : table[root]? with
  | none =>
    cases hrow' : table'[root]? with
    | none => rfl
    | some row' =>
      have hbox := h'.nonempty root row' hrow'
      rw [h.absent root hrow] at hbox
      cases hbox.ne_empty rfl
  | some row =>
    cases hrow' : table'[root]? with
    | none =>
      have hbox := h.nonempty root row hrow
      rw [h'.absent root hrow'] at hbox
      cases hbox.ne_empty rfl
    | some row' =>
      have hmarked := (h.boxes root row hrow).trans (h'.boxes root row' hrow').symm
      rw [marked_injective ((h.width root row hrow).trans (h'.width root row' hrow').symm) hmarked]

theorem Mirrors.processAttestations {m : State} {L : Ledger} {start : Working} {atts : List Attestation}
    {t : State} (hstart : Working.start m = .ok start) (hL : Mirrors m start L)
    (h : Protocol.processAttestations atts m = .ok () t) :
    ∃ outs M w stored, Run (Ledger.Step m.validators.length) L (atts.map .vote) outs M ∧
      outs.flatten = castLog m start atts ∧ Mirrors m w M ∧
      w.justifications.packed = .ok stored ∧ t = m.committed w stored := by
  obtain ⟨start',w,stored,hstart',hrun,hpack,rfl⟩ := processAttestations_ok.mp h
  obtain rfl := Except.ok.inj (hstart.symm.trans hstart')
  obtain ⟨outs,M,hr,hflat,hmirror⟩ := hL.attestAll hrun
  exact ⟨outs,M,w,stored,hr,hflat,hmirror,hpack,rfl⟩

def State.Accepts (m : State) (vote : AttestationData) : Prop :=
  Working.Acceptable m ⟨⟨∅,0⟩,m.justifiedSlots,m.latestJustified,m.latestFinalized⟩ vote

instance (m : State) (vote : AttestationData) : Decidable (m.Accepts vote) :=
  inferInstanceAs (Decidable (Working.Acceptable _ _ _))

theorem Mirrors.accepts {m : State} {start : Working} {L : Ledger}
    (hstart : Working.start m = .ok start) (hL : Mirrors m start L) (vote : AttestationData) :
    m.Accepts vote ↔ L.Acceptable vote := by
  obtain ⟨j,-,hj⟩ := except_bind_ok.mp hstart
  obtain rfl := except_pure_ok.mp hj
  exact hL.acceptable vote

theorem Mirrors.counted_again {m : State} {w : Working} {L : Ledger} {att : Attestation}
    (h : Mirrors m w L) (hin : att.validatorId.get ∈ L.ballots att.data.target.root) :
    w.counted att = w := by
  cases hrow : w.justifications.table[att.data.target.root]? with
  | none =>
    rw [h.rows.absent _ hrow] at hin
    cases Finset.notMem_empty _ hin
  | some row =>
    have hmarked : row[att.validatorId.get]? = some true := by
      rw [← Tables.mem_marked,h.rows.boxes _ row hrow]
      exact hin
    have hballot : w.ballot att = row := by
      obtain ⟨hlt,hget⟩ := List.getElem?_eq_some_iff.mp hmarked
      rw [Working.ballot,hrow,Option.getD_some,← hget,List.set_getElem_self]
    have htable : w.justifications.table.insert att.data.target.root row = w.justifications.table := by
      apply Std.ExtTreeMap.ext_getElem?
      intro root
      rw [Std.ExtTreeMap.getElem?_insert]
      split
      · next heq => rw [← Std.compare_eq_iff_eq.mp heq,hrow]
      · rfl
    simp only [Working.counted,hballot,htable]

section
variable [HashPair] {validate : Bool} {genesisTime : UInt64} {validators : Validators}
  {blocks : List SignedBlockWithAttestation} {logs : List (List Cast)} {s m : State}

theorem Chain.mirrored (h : Chain validate (genesisState genesisTime validators) blocks logs s)
    (hm : m = s ∨ ∃ block, s.opened block = .ok m) :
    m.validators.length = validators.length ∧ ∃ acts outs L start,
      Ledger.Reaches validators.length acts outs L ∧ Working.start m = .ok start ∧
      Mirrors m start L := by
  obtain ⟨acts,outs,L,hreach,-,hL⟩ := h.represented
  rcases hm with rfl | ⟨block,hopen⟩
  · obtain ⟨start,hstart,hmirror⟩ := hL.start hreach.grounded
    exact ⟨hL.registry,acts,outs,L,start,hreach,hstart,hmirror⟩
  · obtain ⟨hat,root,start,hstart,hmirror⟩ := hL.opened hopen
    exact ⟨hat.registry,_,_,_,start,Run.append hreach (Run.single (.extend L root _)),hstart,
      hmirror⟩

/-- A vote that is skipped, and a vote that was accepted before, can be left out of a batch: the
latter, unless its row was taken away in between to justify another slot. -/
theorem votes_inert
    (h : Chain validate (genesisState genesisTime validators) blocks logs s)
    (hm : m = s ∨ ∃ block, s.opened block = .ok m) {pre post : List Attestation}
    {att : Attestation} {start w : Working} {t : State} (hstart : Working.start m = .ok start)
    (hpre : attestAll m start pre = .ok w)
    (hrun : processAttestations (pre ++ att :: post) m = .ok () t)
    (hinert : w.verdict m att = .skipped ∨ ∃ before c between,
      castLog m start pre = before ++ c :: between ∧ c.att = att ∧ c.verdict ≠ .skipped ∧
        ∀ d ∈ between, ¬ d.Clears att) :
    processAttestations (pre ++ post) m = .ok () t := by
  obtain ⟨hregistry,_,_,L,start',hreach,hstart',hL⟩ := h.mirrored hm
  obtain rfl := Except.ok.inj (hstart.symm.trans hstart')
  obtain ⟨start',last,stored,hstart',hall,hpack,rfl⟩ := processAttestations_ok.mp hrun
  obtain rfl := Except.ok.inj (hstart.symm.trans hstart')
  rw [attestAll,List.foldlM_append,except_bind_ok] at hall
  obtain ⟨w',hw',hrest⟩ := hall
  obtain rfl := Except.ok.inj (hpre.symm.trans hw')
  rw [List.foldlM_cons,except_bind_ok] at hrest
  obtain ⟨next,hatt,hpost⟩ := hrest
  obtain ⟨outs,M,hM,hflat,hmirror⟩ := hL.attestAll hpre
  -- a vote that passes the filters again is still in its box
  have hcast : w.Acceptable m att.data → w.verdict m att ≠ .skipped →
      att.validatorId.get ∈ M.ballots att.data.target.root := by
    intro hacc hverdict
    obtain ⟨before,c,between,hlog,rfl,haccepted,hkept⟩ := hinert.resolve_left hverdict
    rcases Ledger.standing hM (hflat.trans hlog) haccepted hkept with hset | hin
    · rw [((hmirror.acceptable _).mp hacc).targetBit] at hset
      cases hset
    · exact hin
  have hsame : next = w := by
    obtain ⟨hrange,htally⟩ := attest_ok.mp hatt
    rcases tally_cases htally with ⟨-,-,rfl⟩ | ⟨hverdict,hacc,-,rfl⟩ |
      ⟨hverdict,hacc,hquorum,-⟩
    · rfl
    · exact hmirror.counted_again (hcast hacc (by simp [hverdict]))
    · have hin := hcast hacc (by simp [hverdict])
      have hshort := (hregistry ▸ hreach.short : L.Short m.validators.length)
      have hbox := (hM.preserves (Ledger.Short _) hshort fun hK hs => hs.short hK) _ ⟨_,hin⟩
      rw [hmirror.count hrange.validator,Ledger.ballot,Finset.insert_eq_self.mpr hin] at hquorum
      omega
  refine processAttestations_ok.mpr ⟨start,last,stored,hstart,?_,hpack,rfl⟩
  rw [attestAll,List.foldlM_append,except_bind_ok]
  exact ⟨w,hpre,hsame ▸ hpost⟩

end

section
attribute [local instance] mixPair

theorem ok_of_isOk {ε α : Type} {x : Except ε α} (h : x.isOk = true) : ∃ a, x = .ok a := by
  cases x with
  | ok a => exact ⟨a,rfl⟩
  | error e => cases h

theorem ran_ok {ε σ : Type} {x : EStateM ε σ Unit} {s : σ} (h : (returned x s).isOk = true) :
    x s = .ok () (after x s) := by
  obtain ⟨⟨⟩,hok⟩ := ok_of_isOk h
  cases hx : x s with
  | ok _ t => rw [after_of_ok hx]
  | error e t => simp [returned,hx] at hok

def State.working (s : State) : Working :=
  (Working.start s).toOption.getD ⟨⟨∅,0⟩,s.justifiedSlots,s.latestJustified,s.latestFinalized⟩

theorem start_working {s : State} (h : (Working.start s).isOk = true) :
    Working.start s = .ok s.working := by
  obtain ⟨w,hw⟩ := ok_of_isOk h
  simp [State.working,hw,Except.toOption]

def gapped : State := (genesisState 0 [default,default,default]).grown [(5,[])]

/-- Votes for the empty slots 1 and 2 share a row; the second justifies slot 2 and removes it, and
the first is counted once more. -/
theorem vote_counted_again :
    (∃ blocks logs, Chain true (genesisState 0 [default,default,default]) blocks logs gapped) ∧
      (∃ start, Working.start gapped = .ok start ∧
        ∃ c ∈ castLog gapped start [gapped.voteFor (0,0,1),gapped.voteFor (1,0,2)],
          c.att = gapped.voteFor (0,0,1) ∧ c.verdict ≠ .skipped) ∧
      ∃ t t', processAttestations ([gapped.voteFor (0,0,1),gapped.voteFor (1,0,2)] ++
          [gapped.voteFor (0,0,1)]) gapped = .ok () t ∧
        processAttestations [gapped.voteFor (0,0,1),gapped.voteFor (1,0,2)] gapped = .ok () t' ∧
        t ≠ t' := by
  obtain ⟨hstart,hcast,hrun,hrun',hne⟩ : (Working.start gapped).isOk = true ∧
      (∃ c ∈ castLog gapped gapped.working [gapped.voteFor (0,0,1),gapped.voteFor (1,0,2)],
        c.att = gapped.voteFor (0,0,1) ∧ c.verdict ≠ .skipped) ∧
      (returned (processAttestations ([gapped.voteFor (0,0,1),gapped.voteFor (1,0,2)] ++
        [gapped.voteFor (0,0,1)])) gapped).isOk = true ∧
      (returned (processAttestations [gapped.voteFor (0,0,1),gapped.voteFor (1,0,2)])
        gapped).isOk = true ∧
      after (processAttestations ([gapped.voteFor (0,0,1),gapped.voteFor (1,0,2)] ++
        [gapped.voteFor (0,0,1)])) gapped ≠
        after (processAttestations [gapped.voteFor (0,0,1),gapped.voteFor (1,0,2)]) gapped := by
    decide +kernel
  exact ⟨⟨_,_,chain_grown _ (by decide +kernel)⟩,⟨gapped.working,start_working hstart,hcast⟩,
    _,_,ran_ok hrun,ran_ok hrun',hne⟩

def sharedRow : List Attestation := [gapped.voteFor (0,0,1),gapped.voteFor (0,0,2)]

/-- The first of them comes again while the row is open, before a vote that justifies slot 2. -/
theorem votes_inert_gapped :
    processAttestations (sharedRow ++ [gapped.voteFor (1,0,2)]) gapped =
      .ok () (after (processAttestations
        (sharedRow ++ gapped.voteFor (0,0,1) :: [gapped.voteFor (1,0,2)])) gapped) ∧
    (after (processAttestations (sharedRow ++ [gapped.voteFor (1,0,2)])) gapped).justifiedSlots.get
      2 = some true := by
  have hchain := chain_grown (s := genesisState 0 [default,default,default]) [(5,[])]
    (by decide +kernel)
  obtain ⟨hstart,hpre,hlog,hrun,hbit⟩ : (Working.start gapped).isOk = true ∧
      (attestAll gapped gapped.working sharedRow).isOk = true ∧
      castLog gapped gapped.working sharedRow = [] ++ ⟨gapped.voteFor (0,0,1),.counted⟩ ::
        [⟨gapped.voteFor (0,0,2),.counted⟩] ∧
      (returned (processAttestations
        (sharedRow ++ gapped.voteFor (0,0,1) :: [gapped.voteFor (1,0,2)])) gapped).isOk = true ∧
      (after (processAttestations
        (sharedRow ++ [gapped.voteFor (1,0,2)])) gapped).justifiedSlots.get 2 = some true := by
    decide +kernel
  obtain ⟨w,hw⟩ := ok_of_isOk hpre
  refine ⟨votes_inert hchain (.inl rfl) (start_working hstart) hw (ran_ok hrun)
    (.inr ⟨_,_,_,hlog,rfl,by decide,?_⟩),hbit⟩
  simp [Cast.Clears]

end

end Devnet.Protocol
