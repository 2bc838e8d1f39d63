/-
# MultiPaxosDB.Lib.Reservation — a lock table that does not say who holds what.

Several holders have each locked some accounts and count on what they have found there, but the table is
only the set of locked accounts.  `Reserved` says that the table is exact all the same: an account is locked
iff some holder has it, no two holders share one, and each still finds what it counts on.  A new holder that takes only
free accounts keeps that, and so does one that leaves, whatever it does to the balances of its own accounts.
-/
import Mathlib.Data.Finset.Basic
import Mathlib.Data.List.Pairwise

namespace MultiPaxosDB.Lib

universe u v w

variable {α : Type u} {M : Type v}

/-- Someone who holds the locks of some accounts, and counts on something about the balance of each. -/
structure Holder (α : Type u) (M : Type v) where
  accounts : Finset α
  counts : α → M → Prop

/-- Holders that share no account: what holds an account is determined by it. -/
theorem eq_of_shared {β : Type w} {f : β → Holder α M} {xs : List β}
    (hapart : (xs.map f).Pairwise fun h h' => Disjoint h.accounts h'.accounts) {x y : β} (hx : x ∈ xs) (hy : y ∈ xs)
    {a : α} (hax : a ∈ (f x).accounts) (hay : a ∈ (f y).accounts) : x = y := by
  by_contra hne
  have hsymm : Std.Symm fun x y => Disjoint (f x).accounts (f y).accounts := ⟨fun _ _ hd => hd.symm⟩
  exact Finset.disjoint_left.mp ((List.pairwise_map.mp hapart).forall hx hy hne) hax hay

structure Reserved (locks : Finset α) (balance : α → M) (holders : List (Holder α M)) : Prop where
  locks : ∀ a, a ∈ locks ↔ ∃ h ∈ holders, a ∈ h.accounts
  apart : holders.Pairwise fun h h' => Disjoint h.accounts h'.accounts
  funds : ∀ h ∈ holders, ∀ a ∈ h.accounts, h.counts a (balance a)

namespace Reserved

variable {locks locks' : Finset α} {balance balance' : α → M} {holders holders' : List (Holder α M)}

theorem nil (balance : α → M) : Reserved ∅ balance [] where
  locks := by simp
  apart := .nil
  funds := fun _ hmem => absurd hmem List.not_mem_nil

/-- The order of the holders does not matter. -/
theorem perm (h : Reserved locks balance holders) (hperm : holders.Perm holders') :
    Reserved locks balance holders' where
  locks := by
    intro a
    rw [h.locks a]
    exact exists_congr fun x => and_congr_left fun _ => hperm.mem_iff
  apart := (hperm.pairwise_iff fun hd => hd.symm).mp h.apart
  funds := fun x hx => h.funds x (hperm.mem_iff.mpr hx)

/-- A holder that takes free accounts and finds what it counts on. -/
theorem take (h : Reserved locks balance holders) {x : Holder α M} (hfree : ∀ a ∈ x.accounts, a ∉ locks)
    (hfunds : ∀ a ∈ x.accounts, x.counts a (balance a)) (hlocks : ∀ a, a ∈ locks' ↔ a ∈ locks ∨ a ∈ x.accounts) :
    Reserved locks' balance (x :: holders) where
  locks := by
    intro a
    rw [hlocks, h.locks, List.exists_mem_cons_iff, or_comm]
  apart := by
    refine List.pairwise_cons.mpr ⟨?_, h.apart⟩
    intro y hy
    rw [Finset.disjoint_left]
    intro a hx ha
    exact hfree a hx ((h.locks a).mpr ⟨y, hy, ha⟩)
  funds := by
    intro y hy
    rcases List.mem_cons.mp hy with rfl | hy
    · exact hfunds
    · exact h.funds y hy

/-- A holder leaves and frees its accounts, whose balances it may have changed. -/
theorem leave {x : Holder α M} (h : Reserved locks balance (x :: holders))
    (hlocks : ∀ a, a ∈ locks' ↔ a ∈ locks ∧ a ∉ x.accounts)
    (hbalance : ∀ a, a ∉ x.accounts → balance' a = balance a) : Reserved locks' balance' holders := by
  obtain ⟨hapart, hrest⟩ := List.pairwise_cons.mp h.apart
  have hothers : ∀ y ∈ holders, ∀ a ∈ y.accounts, a ∉ x.accounts := fun y hy a ha hx =>
    Finset.disjoint_left.mp (hapart y hy) hx ha
  refine ⟨?_, hrest, ?_⟩
  · intro a
    rw [hlocks, h.locks, List.exists_mem_cons_iff]
    constructor
    · rintro ⟨hx | hy, hnot⟩
      · exact absurd hx hnot
      · exact hy
    · rintro ⟨y, hy, ha⟩
      exact ⟨.inr ⟨y, hy, ha⟩, hothers y hy a ha⟩
  · intro y hy a ha
    rw [hbalance a (hothers y hy a ha)]
    exact h.funds y (List.mem_cons_of_mem x hy) a ha

end Reserved

end MultiPaxosDB.Lib
