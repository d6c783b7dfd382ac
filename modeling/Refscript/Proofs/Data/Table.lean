import Refscript.Data.Table

/-!
# Refscript.Proofs.Data.Table

Looking up in a table after an insertion (`get?_insert`), and the entries that a look-up can find.
-/

namespace Refscript
namespace Table

variable {κ α : Type} [DecidableEq κ]

theorem go_mem {entries : List (κ × α)} {k : κ} {a : α} (h : get?.go k entries = some a) :
    (k, a) ∈ entries := by
  induction entries with
  | nil => cases h
  | cons e rest ih =>
    obtain ⟨k', b⟩ := e
    simp only [get?.go] at h
    split at h
    · rename_i hk
      cases h
      subst hk
      exact List.mem_cons_self
    · exact List.mem_cons_of_mem _ (ih h)

theorem mem_of_get? {t : Table κ α} {k : κ} {a : α} (h : t.get? k = some a) : (k, a) ∈ t.entries :=
  go_mem h

theorem go_insert (entries : List (κ × α)) (k k' : κ) (a : α) :
    get?.go k' (insert.go k a entries) = if k = k' then some a else get?.go k' entries := by
  induction entries with
  | nil => rfl
  | cons e rest ih =>
    obtain ⟨j, b⟩ := e
    simp only [insert.go]
    by_cases hj : j = k
    · subst hj
      simp only [if_true, get?.go]
      split <;> rfl
    · simp only [if_neg hj, get?.go, ih]
      by_cases hk : j = k'
      · subst hk
        rw [if_pos rfl, if_neg (Ne.symm hj), if_pos rfl]
      · rw [if_neg hk, if_neg hk]

theorem get?_insert (t : Table κ α) (k k' : κ) (a : α) :
    (t.insert k a).get? k' = if k = k' then some a else t.get? k' :=
  go_insert t.entries k k' a

theorem mem_go_insert {entries : List (κ × α)} {k : κ} {a : α} {e : κ × α}
    (h : e ∈ insert.go k a entries) : e ∈ entries ∨ e.2 = a := by
  induction entries with
  | nil =>
    rw [List.mem_singleton.1 h]
    exact .inr rfl
  | cons e' rest ih =>
    obtain ⟨j, b⟩ := e'
    unfold insert.go at h
    split at h
    · rcases List.mem_cons.1 h with rfl | h
      · exact .inr rfl
      · exact .inl (List.mem_cons_of_mem _ h)
    · rcases List.mem_cons.1 h with rfl | h
      · exact .inl List.mem_cons_self
      · exact (ih h).imp (List.mem_cons_of_mem _) id

theorem mem_insert {t : Table κ α} {k : κ} {a : α} {e : κ × α} (h : e ∈ (t.insert k a).entries) :
    e ∈ t.entries ∨ e.2 = a :=
  mem_go_insert h

theorem contains_insert (t : Table κ α) (k k' : κ) (a : α) :
    (t.insert k a).contains k' = true ↔ k' = k ∨ t.contains k' = true := by
  rw [contains, get?_insert]
  split
  · rename_i h
    simp [h]
  · rename_i h
    simp [contains, Ne.symm h]

end Table
end Refscript
