import Mathlib

/-!
Ballot boxes with resets. A log is read entry by entry: an entry may count for a key
and a voter, and one that counts may also empty the box of its key. `Rule.Live` says
in terms of the log alone what a box holds, and each kind of entry has its update.
-/

set_option autoImplicit false

namespace Ballots

/-- How to read the entries of a log. -/
structure Rule (α κ ν : Type) where
  key : α → κ
  voter : α → ν
  counts : α → Prop
  clears : α → Prop
  counts_of_clears : ∀ a, clears a → counts a

section Tally
variable {α κ ν : Type}

/-- Entry `a` stands in the log with nothing after it (or itself) emptying its box. -/
def Rule.Live (ρ : Rule α κ ν) (log : List α) (k : κ) (v : ν) : Prop :=
  ∃ pre a post, log = pre ++ a :: post ∧ ρ.counts a ∧ ρ.key a = k ∧ ρ.voter a = v ∧
    ∀ b ∈ a :: post, ρ.clears b → ρ.key b ≠ k

def Rule.Tallies [DecidableEq ν] (ρ : Rule α κ ν) (log : List α) (b : κ → Finset ν) : Prop :=
  ∀ k v, v ∈ b k ↔ ρ.Live log k v

theorem Rule.not_live_nil (ρ : Rule α κ ν) (k : κ) (v : ν) : ¬ ρ.Live [] k v := by
  rintro ⟨pre,a,post,h,-⟩
  simp at h

theorem Rule.live_concat (ρ : Rule α κ ν) (log : List α) (a : α) (k : κ) (v : ν) :
    ρ.Live (log ++ [a]) k v ↔ (ρ.clears a → ρ.key a ≠ k) ∧
      (ρ.counts a ∧ ρ.key a = k ∧ ρ.voter a = v ∨ ρ.Live log k v) := by
  constructor
  · rintro ⟨pre,e,post,heq,hcounts,hkey,hvoter,hclear⟩
    rcases List.eq_nil_or_concat post with rfl | ⟨post',last,rfl⟩
    · obtain ⟨rfl,rfl⟩ : log = pre ∧ a = e := by simpa using List.append_inj' heq rfl
      exact ⟨hclear a (by simp),.inl ⟨hcounts,hkey,hvoter⟩⟩
    · have hsplit : log ++ [a] = (pre ++ e :: post') ++ [last] := by simpa using heq
      obtain ⟨rfl,rfl⟩ : log = pre ++ e :: post' ∧ a = last := by
        simpa using List.append_inj' hsplit rfl
      refine ⟨hclear a (by simp),.inr ⟨pre,e,post',rfl,hcounts,hkey,hvoter,?_⟩⟩
      intro b hb
      exact hclear b (by
        rcases List.mem_cons.mp hb with rfl | hb
        · simp
        · simp [hb])
  · rintro ⟨hclear,⟨hcounts,hkey,hvoter⟩ | ⟨pre,e,post,rfl,hcounts,hkey,hvoter,hrest⟩⟩
    · exact ⟨log,a,[],rfl,hcounts,hkey,hvoter,by simpa using hclear⟩
    · refine ⟨pre,e,post ++ [a],by simp,hcounts,hkey,hvoter,?_⟩
      intro b hb
      rcases List.mem_cons.mp hb with rfl | hb
      · exact hrest b (by simp)
      · rcases List.mem_append.mp hb with hb | hb
        · exact hrest b (by simp [hb])
        · obtain rfl : b = a := by simpa using hb
          exact hclear

variable [DecidableEq ν]

theorem Rule.tallies_empty (ρ : Rule α κ ν) : ρ.Tallies [] (fun _ => ∅) := by
  intro k v
  simp [ρ.not_live_nil]

theorem Rule.Tallies.skip {ρ : Rule α κ ν} {log : List α} {b : κ → Finset ν}
    (h : ρ.Tallies log b) {a : α} (ha : ¬ ρ.counts a) : ρ.Tallies (log ++ [a]) b := by
  intro k v
  have hc : ¬ ρ.clears a := fun hcl => ha (ρ.counts_of_clears a hcl)
  rw [h k v,ρ.live_concat]
  simp [ha,hc]

variable [DecidableEq κ]

theorem Rule.Tallies.count {ρ : Rule α κ ν} {log : List α} {b : κ → Finset ν}
    (h : ρ.Tallies log b) {a : α} (ha : ρ.counts a) (hc : ¬ ρ.clears a) :
    ρ.Tallies (log ++ [a]) (Function.update b (ρ.key a) (insert (ρ.voter a) (b (ρ.key a)))) := by
  intro k v
  rw [ρ.live_concat,← h k v]
  by_cases hk : ρ.key a = k
  · subst hk
    simp [ha,hc,eq_comm (a := v)]
  · simp [hc,hk,Function.update_of_ne (Ne.symm hk)]

theorem Rule.Tallies.clear {ρ : Rule α κ ν} {log : List α} {b : κ → Finset ν}
    (h : ρ.Tallies log b) {a : α} (hc : ρ.clears a) :
    ρ.Tallies (log ++ [a]) (Function.update b (ρ.key a) ∅) := by
  intro k v
  rw [ρ.live_concat,← h k v]
  by_cases hk : ρ.key a = k
  · subst hk
    simp [hc]
  · simp [hk,Function.update_of_ne (Ne.symm hk)]

end Tally

end Ballots
