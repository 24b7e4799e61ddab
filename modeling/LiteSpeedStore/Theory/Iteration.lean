import Mathlib.Data.Finmap

/-!
# Loops over a finite map

A loop over a map visits its entries in an order that the map does not fix.  An `Iteration` is one
such order, and a loop whose turns touch one key each has the same effect in every order.

`Iteration.lookup_foldl` says what such a loop leaves at a key.
-/

namespace LiteSpeedStore

open Finmap

variable {α β γ : Type}

/-- An order in which a loop over the map `m` may visit its entries. -/
structure Iteration (m : Finmap fun _ : α => β) where
  /-- The entries in that order. -/
  list : List (Σ _ : α, β)
  /-- Each entry is visited once. -/
  entries_eq : (list : Multiset (Σ _ : α, β)) = m.entries

/-- The order of the loop over each map. -/
abbrev Order (α β : Type) := (m : Finmap fun _ : α => β) → Iteration m

/-- Some order. -/
noncomputable def Order.any : Order α β := fun m => ⟨m.entries.toList, m.entries.coe_toList⟩

namespace Iteration

variable {m : Finmap fun _ : α => β} (it : Iteration m)

theorem nodupKeys : it.list.NodupKeys := by
  have h := m.nodupKeys
  rwa [← it.entries_eq, Multiset.coe_nodupKeys] at h

theorem eq_toFinmap : m = AList.toFinmap ⟨it.list, it.nodupKeys⟩ := Finmap.ext it.entries_eq.symm

theorem length_list : it.list.length = m.keys.card := by
  have h : m.keys.card = Multiset.card (m.entries.map Sigma.fst) := rfl
  rw [h, Multiset.card_map, ← it.entries_eq, Multiset.coe_card]

variable [DecidableEq α]

theorem dlookup_list (k : α) : it.list.dlookup k = m.lookup k := by
  conv_rhs => rw [it.eq_toFinmap]
  rfl

theorem mem_list_iff {k : α} {b : β} :
    (⟨k, b⟩ : Σ _ : α, β) ∈ it.list ↔ m.lookup k = some b := by
  rw [← it.dlookup_list]
  exact (List.mem_dlookup_iff it.nodupKeys).symm

theorem lookup_of_mem {k : α} {b : β} (h : (⟨k, b⟩ : Σ _ : α, β) ∈ it.list) :
    m.lookup k = some b := it.mem_list_iff.1 h

end Iteration

section Loops

variable [DecidableEq α] {step : (Finmap fun _ : α => γ) → (Σ _ : α, β) → Finmap fun _ : α => γ}
  (update : α → β → Option γ → Option γ)

/-- A loop whose turn at an entry touches the entry's key alone leaves at each key what one turn
makes of it. -/
theorem lookup_foldl
    (hstep : ∀ m x k, (step m x).lookup k =
      if k = x.1 then update x.1 x.2 (m.lookup k) else m.lookup k)
    {l : List (Σ _ : α, β)} (hl : l.NodupKeys) (m : Finmap fun _ : α => γ) (k : α) :
    (l.foldl step m).lookup k =
      match l.dlookup k with
      | none => m.lookup k
      | some b => update k b (m.lookup k) := by
  induction l generalizing m with
  | nil => rfl
  | cons x l ih =>
    obtain ⟨k', b⟩ := x
    rw [List.nodupKeys_cons] at hl
    rw [List.foldl_cons, ih hl.2, hstep]
    by_cases hk : k = k'
    · subst hk
      rw [if_pos rfl, List.dlookup_cons_eq, List.dlookup_eq_none.2 hl.1]
    · rw [if_neg hk, List.dlookup_cons_ne _ _ hk]

/-- `lookup_foldl` for a loop over a map. -/
theorem Iteration.lookup_foldl {m' : Finmap fun _ : α => β} (it : Iteration m')
    (hstep : ∀ m x k, (step m x).lookup k =
      if k = x.1 then update x.1 x.2 (m.lookup k) else m.lookup k)
    (m : Finmap fun _ : α => γ) (k : α) :
    (it.list.foldl step m).lookup k =
      match m'.lookup k with
      | none => m.lookup k
      | some b => update k b (m.lookup k) := by
  rw [LiteSpeedStore.lookup_foldl update hstep it.nodupKeys, it.dlookup_list]

end Loops

end LiteSpeedStore
