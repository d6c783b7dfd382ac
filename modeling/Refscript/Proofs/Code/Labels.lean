/-!
# Refscript.Proofs.Code.Labels

Pieces of code whose offsets are labelled, and how they are put together.

`Labelled R step X Y i j e` says that the offsets from `i` up to `j` can be labelled so that every
step from an offset brings a label that fits the one at the place it leads to, `R` being what fits.
`Y` lists labels that one may bring to places of the piece, and `e` is the label at its end; `X`
lists the places outside that its steps lead to, with the labels they bring.

Pieces are put together by `Labelled.join`, and a step to a place that is known by then is settled
by `Labelled.close`.
-/

namespace Refscript

variable {α : Type} {R : α → α → Prop} {step : Nat → α → List (Nat × α) → Prop}

def Labelled (R : α → α → Prop) (step : Nat → α → List (Nat × α) → Prop) (X Y : List (Nat × α))
    (i j : Nat) (e : α) : Prop :=
  i ≤ j ∧ ∃ H : Nat → α, H j = e ∧ (∀ y ∈ Y, i ≤ y.1 ∧ y.1 ≤ j ∧ R y.2 (H y.1)) ∧
    ∀ k, i ≤ k → k < j → ∃ targets, step k (H k) targets ∧
      ∀ t ∈ targets, (∃ x ∈ X, x.1 = t.1 ∧ R t.2 x.2) ∨ (i ≤ t.1 ∧ t.1 ≤ j ∧ R t.2 (H t.1))

namespace Labelled

variable {X Y X' Y' : List (Nat × α)} {i j m : Nat} {d e : α}

theorem empty (hd : R d e) (i : Nat) : Labelled R step [] [(i, d)] i i e := by
  refine ⟨Nat.le_refl i, fun _ => e, rfl, ?_, fun k _ _ => by omega⟩
  intro y hy
  rw [List.mem_singleton.1 hy]
  exact ⟨Nat.le_refl i, Nat.le_refl i, hd⟩

theorem join (htrans : ∀ {a b c}, R a b → R b c → R a c) (h₁ : Labelled R step X Y i m d)
    (h₂ : Labelled R step X' Y' m j e) (hmeet : (m, d) ∈ Y') :
    Labelled R step (X ++ X') (Y ++ Y') i j e := by
  obtain ⟨him, H₁, hend₁, hy₁, hs₁⟩ := h₁
  obtain ⟨hmj, H₂, hend₂, hy₂, hs₂⟩ := h₂
  -- what fits at the end of the first piece fits at the start of the second
  have hleft : ∀ t a, t ≤ m → R a (H₁ t) → R a (if t < m then H₁ t else H₂ t) := by
    intro t a hm ha
    split
    · exact ha
    · obtain rfl : t = m := by omega
      rw [hend₁] at ha
      exact htrans ha (hy₂ _ hmeet).2.2
  have hright : ∀ t a, m ≤ t → R a (H₂ t) → R a (if t < m then H₁ t else H₂ t) := by
    intro t a hm ha
    rw [if_neg (by omega)]
    exact ha
  refine ⟨by omega, fun k => if k < m then H₁ k else H₂ k, (if_neg (by omega)).trans hend₂, ?_, ?_⟩
  · intro y hy
    rcases List.mem_append.1 hy with hy | hy
    · obtain ⟨hi, hm, hR⟩ := hy₁ y hy
      exact ⟨hi, by omega, hleft _ _ hm hR⟩
    · obtain ⟨hm, hj, hR⟩ := hy₂ y hy
      exact ⟨by omega, hj, hright _ _ hm hR⟩
  · intro k hi hj
    by_cases hk : k < m
    · obtain ⟨targets, hstep, hall⟩ := hs₁ k hi hk
      refine ⟨targets, by simpa only [if_pos hk] using hstep, fun t ht => ?_⟩
      rcases hall t ht with ⟨x, hx, hxt⟩ | ⟨hi', hm', hR⟩
      · exact .inl ⟨x, List.mem_append_left _ hx, hxt⟩
      · exact .inr ⟨hi', by omega, hleft _ _ hm' hR⟩
    · obtain ⟨targets, hstep, hall⟩ := hs₂ k (by omega) hj
      refine ⟨targets, by simpa only [if_neg hk] using hstep, fun t ht => ?_⟩
      rcases hall t ht with ⟨x, hx, hxt⟩ | ⟨hm', hj', hR⟩
      · exact .inl ⟨x, List.mem_append_right _ hx, hxt⟩
      · exact .inr ⟨by omega, hj', hright _ _ hm' hR⟩

/-- The label may be brought to the place. -/
def Welcome (R : α → α → Prop) (Y : List (Nat × α)) (j : Nat) (e : α) (x : Nat × α) : Prop :=
  (∃ y ∈ Y, y.1 = x.1 ∧ R x.2 y.2) ∨ (x.1 = j ∧ R x.2 e)

/-- A step to a place of the piece, with a label that may be brought there, is a step inside it. -/
theorem close (htrans : ∀ {a b c}, R a b → R b c → R a c) (h : Labelled R step X Y i j e)
    (hX : ∀ x ∈ X, Welcome R Y j e x ∨ ∃ x' ∈ X', x'.1 = x.1 ∧ R x.2 x'.2)
    (hY : ∀ y ∈ Y', Welcome R Y j e y) : Labelled R step X' Y' i j e := by
  obtain ⟨hij, H, hend, hy, hs⟩ := h
  have hwelcome : ∀ x, Welcome R Y j e x → i ≤ x.1 ∧ x.1 ≤ j ∧ R x.2 (H x.1) := by
    rintro ⟨k, a⟩ (⟨⟨k', b⟩, hb, rfl, hR⟩ | ⟨rfl, hR⟩)
    · obtain ⟨hi, hj, hb⟩ := hy _ hb
      exact ⟨hi, hj, htrans hR hb⟩
    · exact ⟨hij, Nat.le_refl _, by rw [hend]; exact hR⟩
  refine ⟨hij, H, hend, fun y hy' => hwelcome y (hY y hy'), fun k hi hj => ?_⟩
  obtain ⟨targets, hstep, hall⟩ := hs k hi hj
  refine ⟨targets, hstep, fun t ht => ?_⟩
  rcases hall t ht with ⟨x, hx, hxt, hR⟩ | hinside
  · rcases hX x hx with hx | hx
    · obtain ⟨hi', hj', hH⟩ := hwelcome x hx
      rw [hxt] at hi' hj' hH
      exact .inr ⟨hi', hj', htrans hR hH⟩
    · obtain ⟨x', hx', heq, hR'⟩ := hx
      exact .inl ⟨x', hx', heq.trans hxt, htrans hR hR'⟩
  · exact .inr hinside

theorem relabel (htrans : ∀ {a b c}, R a b → R b c → R a c) (h : Labelled R step X Y i j d)
    (hd : R d e) : Labelled R step X Y i j e := by
  have hend := h.join (R := R) htrans (.empty hd j) (List.mem_singleton_self _)
  rw [List.append_nil] at hend
  obtain ⟨hij, H, hH, hy, hs⟩ := hend
  exact ⟨hij, H, hH, fun y hY => hy y (List.mem_append_left _ hY), hs⟩

theorem single {targets : List (Nat × α)} (hstep : step i d targets) (hd : R d d)
    (hnext : ∀ t ∈ targets, (∃ x ∈ X, x.1 = t.1 ∧ R t.2 x.2) ∨ (t.1 = i + 1 ∧ R t.2 e)) :
    Labelled R step X [(i, d)] i (i + 1) e := by
  refine ⟨Nat.le_succ i, fun k => if k = i then d else e, if_neg (Nat.succ_ne_self i), ?_, ?_⟩
  · intro y hy
    rw [List.mem_singleton.1 hy]
    exact ⟨Nat.le_refl i, Nat.le_succ i, by simpa only [if_true] using hd⟩
  · intro k hik hki
    obtain rfl : k = i := by omega
    refine ⟨targets, by simpa only [if_true] using hstep, fun t ht => ?_⟩
    rcases hnext t ht with htX | ⟨hnext, hR⟩
    · exact .inl htX
    · exact .inr ⟨by omega, by omega, by simpa only [hnext, if_neg (Nat.succ_ne_self _)] using hR⟩

end Labelled
end Refscript
