import Mathlib.Data.Set.Function
import Mathlib.Data.List.Induction
import Mathlib.Tactic.Common

/-!
# Hash chains

A chain over some items hashes each item together with the digest of the chain before it.  Where the
hash has no collision among the inputs of two chains, their heads bind them.

* `HashChain.concat_inj` : equal heads of two nonempty chains have equal last items.
* `HashChain.head_inj` : equal heads of two chains of one length make the chains equal.
-/

namespace LiteSpeedStore

namespace HashChain

variable {Item Input Digest : Type*} (link : Digest → Item → Input) (hash : Input → Digest)

/-- The digest of the chain that starts from `d`. -/
def head (d : Digest) : List Item → Digest
  | [] => d
  | x :: xs => head (hash (link d x)) xs

/-- What is hashed along the chain. -/
def inputs (d : Digest) : List Item → List Input
  | [] => []
  | x :: xs => link d x :: inputs (hash (link d x)) xs

theorem head_concat (d : Digest) (xs : List Item) (x : Item) :
    head link hash d (xs ++ [x]) = hash (link (head link hash d xs) x) := by
  induction xs generalizing d with
  | nil => rfl
  | cons y ys ih => exact ih _

theorem inputs_concat (d : Digest) (xs : List Item) (x : Item) :
    inputs link hash d (xs ++ [x]) = inputs link hash d xs ++ [link (head link hash d xs) x] := by
  induction xs generalizing d with
  | nil => rfl
  | cons y ys ih => rw [List.cons_append, inputs, ih, inputs, head, List.cons_append]

theorem inputs_append (d : Digest) (xs ys : List Item) : inputs link hash d (xs ++ ys) =
    inputs link hash d xs ++ inputs link hash (head link hash d xs) ys := by
  induction xs generalizing d with
  | nil => rfl
  | cons x xs ih => rw [List.cons_append, inputs, ih, inputs, head, List.cons_append]

variable {link hash} {d d' : Digest} {xs ys : List Item} {x y : Item}

/-- No two inputs of the two chains collide. -/
def CollisionFree (hash : Input → Digest) (as bs : List Input) : Prop :=
  Set.InjOn hash {i | i ∈ as ∨ i ∈ bs}

theorem CollisionFree.mono {as as' bs bs' : List Input} (h : CollisionFree hash as bs)
    (ha : as' ⊆ as) (hb : bs' ⊆ bs) : CollisionFree hash as' bs' :=
  Set.InjOn.mono (fun _ hi => hi.imp (fun h => ha h) (fun h => hb h)) h

/-- Equal heads of two nonempty chains have equal last items, behind equal heads. -/
theorem concat_inj (hlink : Function.Injective2 link)
    (hfree : CollisionFree hash (inputs link hash d (xs ++ [x])) (inputs link hash d' (ys ++ [y])))
    (h : head link hash d (xs ++ [x]) = head link hash d' (ys ++ [y])) :
    head link hash d xs = head link hash d' ys ∧ x = y := by
  rw [head_concat, head_concat] at h
  rw [inputs_concat, inputs_concat] at hfree
  exact hlink (hfree (.inl (by simp)) (.inr (by simp)) h)

/-- **The head binds the chain**: chains of one length with one head are equal. -/
theorem head_inj (hlink : Function.Injective2 link)
    (hfree : CollisionFree hash (inputs link hash d xs) (inputs link hash d' ys))
    (hlen : xs.length = ys.length) (h : head link hash d xs = head link hash d' ys) :
    d = d' ∧ xs = ys := by
  induction xs using List.reverseRecOn generalizing ys with
  | nil =>
    obtain rfl := List.length_eq_zero_iff.1 hlen.symm
    exact ⟨h, rfl⟩
  | append_singleton xs x ih =>
    cases ys using List.reverseRecOn with
    | nil => simp at hlen
    | append_singleton ys y =>
      obtain ⟨hhead, rfl⟩ := concat_inj hlink hfree h
      rw [inputs_concat, inputs_concat] at hfree
      obtain ⟨hd, rfl⟩ := ih (hfree.mono (List.subset_append_left ..) (List.subset_append_left ..))
        (by simpa using hlen) hhead
      exact ⟨hd, rfl⟩

end HashChain

end LiteSpeedStore
