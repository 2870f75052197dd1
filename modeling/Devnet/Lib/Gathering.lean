import Devnet.Lib.Effects
import Devnet.Lib.Tables

/-!
Loops that gather the values of a finite table. Values are drawn under keys of their own; what
is drawn later and is not among the values drawn before comes from other keys, so that no more
is ever drawn than the table holds. With it the rule for a loop that may fail on the way: it
comes to a state in which its body fails or stops.
-/

set_option autoImplicit false

namespace Machine
section
variable {σ ρ ε : Type} {body : σ → Except ε (Flow σ ρ)} (spent : ε)

theorem loop_run (I : σ → Prop) (μ : σ → Nat) {n : Nat} {s : σ}
    (hbody : ∀ {s t}, I s → body s = .ok (.next t) → I t ∧ μ t < μ s) (hs : I s) (hn : μ s < n) :
    ∃ t, Relation.ReflTransGen (fun s t => body s = .ok (.next t)) s t ∧ I t ∧
      ((∃ e, body t = .error e ∧ loop body spent n s = .error e) ∨
        ∃ r, body t = .ok (.stop r) ∧ loop body spent n s = .ok r) := by
  induction n generalizing s with
  | zero => omega
  | succ n ih =>
    cases hb : body s with
    | error e => exact ⟨s,.refl,hs,.inl ⟨e,hb,by simp [loop,hb]⟩⟩
    | ok flow =>
      cases flow with
      | stop r => exact ⟨s,.refl,hs,.inr ⟨r,hb,by simp [loop,hb]⟩⟩
      | next t =>
        obtain ⟨ht,hlt⟩ := hbody hs hb
        obtain ⟨u,hreach,hu,hend⟩ := ih ht (by omega)
        refine ⟨u,.head hb hreach,hu,?_⟩
        simpa only [loop,hb] using hend

variable {spent}

end
end Machine

namespace Tables

theorem forall₂_sublist {α β : Type} {R : α → β → Prop} {as : List α} {bs cs : List β}
    (hsub : cs.Sublist bs) (h : List.Forall₂ R as bs) :
    ∃ ds, ds.Sublist as ∧ List.Forall₂ R ds cs := by
  induction hsub generalizing as with
  | slnil => exact ⟨as,.refl as,h⟩
  | cons b _ ih =>
    cases h with
    | cons hab htail =>
      obtain ⟨ds,hds,hrel⟩ := ih htail
      exact ⟨ds,hds.cons _,hrel⟩
  | cons_cons b _ ih =>
    cases h with
    | cons hab htail =>
      obtain ⟨ds,hds,hrel⟩ := ih htail
      exact ⟨_ :: ds,hds.cons_cons _,.cons hab hrel⟩

theorem forall₂_mem {α β : Type} {R : α → β → Prop} {as : List α} {bs : List β}
    (h : List.Forall₂ R as bs) {a : α} (ha : a ∈ as) : ∃ b ∈ bs, R a b := by
  induction h with
  | nil => cases ha
  | cons hab _ ih =>
    rcases List.mem_cons.mp ha with rfl | ha
    · exact ⟨_,List.mem_cons_self,hab⟩
    · obtain ⟨b,hb,hr⟩ := ih ha
      exact ⟨b,List.mem_cons_of_mem _ hb,hr⟩

section
variable {κ α : Type} [Ord κ] [Std.TransOrd κ]
variable {table : Std.ExtTreeMap κ α compare} {vs ws : List α}

/-- Values of a table, each under a key of its own. -/
def Drawn (table : Std.ExtTreeMap κ α compare) (vs : List α) : Prop :=
  ∃ ks : List κ, ks.Nodup ∧ List.Forall₂ (fun k v => table[k]? = some v) ks vs

theorem drawn_nil (table : Std.ExtTreeMap κ α compare) : Drawn table [] := ⟨[],List.nodup_nil,.nil⟩

theorem Drawn.sublist (h : Drawn table vs) (hsub : ws.Sublist vs) : Drawn table ws := by
  obtain ⟨ks,hnodup,hrel⟩ := h
  obtain ⟨ls,hls,hrel⟩ := forall₂_sublist hsub hrel
  exact ⟨ls,hls.nodup hnodup,hrel⟩

theorem drawn_values [Std.LawfulEqOrd κ] (table : Std.ExtTreeMap κ α compare) :
    Drawn table (values table) := by
  refine ⟨table.keys,Std.ExtTreeMap.nodup_keys,?_⟩
  rw [← Std.ExtTreeMap.map_fst_toList_eq_keys,values,List.forall₂_map_left_iff,
    List.forall₂_map_right_iff,List.forall₂_same]
  exact fun entry hentry => Std.ExtTreeMap.mem_toList_iff_getElem?_eq_some.mp hentry

theorem Drawn.perm (h : Drawn table vs) (hperm : vs.Perm ws) : Drawn table ws := by
  obtain ⟨ks,hnodup,hrel⟩ := h
  have hcomp : Relation.Comp (List.Forall₂ fun k v => table[k]? = some v) List.Perm ks ws :=
    ⟨vs,hrel,hperm⟩
  rw [List.forall₂_comp_perm_eq_perm_comp_forall₂] at hcomp
  obtain ⟨ls,hls,hrel⟩ := hcomp
  exact ⟨ls,hls.nodup_iff.mp hnodup,hrel⟩

theorem Drawn.mem (h : Drawn table vs) {v : α} (hv : v ∈ vs) : ∃ k : κ, table[k]? = some v := by
  obtain ⟨ks,-,hrel⟩ := h
  obtain ⟨k,-,hk⟩ := forall₂_mem hrel.flip hv
  exact ⟨k,hk⟩

theorem Drawn.append (h : Drawn table vs) (h' : Drawn table ws) (hnew : ∀ w ∈ ws, w ∉ vs) :
    Drawn table (vs ++ ws) := by
  obtain ⟨ks,hks,hvs⟩ := h
  obtain ⟨ls,hls,hws⟩ := h'
  refine ⟨ks ++ ls,List.nodup_append.mpr ⟨hks,hls,?_⟩,List.rel_append hvs hws⟩
  intro k hk l hl hkl
  subst hkl
  obtain ⟨v,hv,hkv⟩ := forall₂_mem hvs hk
  obtain ⟨w,hw,hkw⟩ := forall₂_mem hws hl
  obtain rfl := Option.some.inj (hkv.symm.trans hkw)
  exact hnew v hw hv

theorem Drawn.length_le [Std.LawfulEqOrd κ] (h : Drawn table vs) : vs.length ≤ table.size := by
  obtain ⟨ks,hnodup,hrel⟩ := h
  have hsub : ks ⊆ table.keys := by
    intro k hk
    obtain ⟨v,-,hkv⟩ := forall₂_mem hrel hk
    rw [Std.ExtTreeMap.mem_keys,Std.ExtTreeMap.mem_iff_isSome_getElem?,hkv]
    rfl
  rw [← hrel.length_eq,← Std.ExtTreeMap.length_keys]
  exact (hnodup.subperm hsub).length_le

end

end Tables
