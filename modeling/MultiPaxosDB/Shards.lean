/-
# MultiPaxosDB.Shards — the shard of an account id, for every id that fits in a message.

`getClusterIdFromClientId` multiplies the id with the number of clusters in an `int`, and no caller checks the id.  On the
ids of the clients nothing overflows, and the shards are the blocks of an even split of `1 … total_clients`
(`clients_split`).  On the others the product may wrap around: an id is taken for one of a shard exactly if the product
is at most `total_clients * num_clusters` behind a multiple of `2 ^ 32` (`in_a_shard_iff`), and of these only the
multiple 0 belongs to the clients.  So the lookup is right for an id exactly if its product is not behind another one
(`shard_lookup_right_iff`); it is right for all ids of a message in a deployment of one cluster only
(`right_for_all_iff`).
-/
import MultiPaxosDB.Conservation
import MultiPaxosDB.Lib.Decimal
import MultiPaxosDB.Lib.EvenSplit

namespace MultiPaxosDB

open Lib

variable {c : Constants} {id : Int}

/-! ## The clients -/

/-- The product does not overflow for a client. -/
theorem int32_client (hn : 1 ≤ c.numClusters) (hn' : c.numClusters ≤ totalClients) (hid : 1 ≤ id) (hid' : id ≤ totalClients) :
    int32 (id * c.numClusters) = id * c.numClusters := by
  have hlow : 0 ≤ id * c.numClusters := mul_nonneg (by omega) (by omega)
  have hhigh : id * c.numClusters ≤ totalClients * totalClients := mul_le_mul hid' hn' (by omega) (by decide)
  unfold totalClients at hhigh
  exact int32_eq_self (by omega) (by omega)

/-- The clients of a shard are a block of the even split. -/
theorem clients_split (hn : 1 ≤ c.numClusters) (hn' : c.numClusters ≤ totalClients) {k : Int} (hk : 1 ≤ k)
    (hk' : k ≤ c.numClusters) :
    (idsUpTo totalClients).filter (fun a => isClientInCluster c a k) = block c.numClusters totalClients k := by
  have hpos : 0 < c.numClusters := by omega
  ext a
  rw [Finset.mem_filter, mem_idsUpTo, isClientInCluster, beq_iff_eq, getClusterIdFromClientId]
  constructor
  · rintro ⟨⟨ha, ha'⟩, heq⟩
    rw [int32_client hn hn' ha ha', ceilDiv_eq_iff (by decide)] at heq
    exact (mem_block hpos).mpr heq
  · intro ha
    obtain ⟨hlow, hhigh⟩ := Finset.mem_Icc.mp (mem_Icc_of_mem_block hpos (by decide) hk hk' ha)
    rw [int32_client hn hn' hlow hhigh, ceilDiv_eq_iff (by decide)]
    exact ⟨⟨hlow, hhigh⟩, (mem_block hpos).mp ha⟩

theorem getClusterIdFromClientId_mono (hn : 1 ≤ c.numClusters) (hn' : c.numClusters ≤ totalClients) {a b : Int} (ha : 1 ≤ a)
    (hab : a ≤ b) (hb : b ≤ totalClients) : getClusterIdFromClientId c a ≤ getClusterIdFromClientId c b := by
  rw [getClusterIdFromClientId, getClusterIdFromClientId, int32_client hn hn' ha (by omega),
    int32_client hn hn' (by omega) hb, ceilDiv_le_iff (by decide)]
  calc a * c.numClusters ≤ b * c.numClusters := mul_le_mul_of_nonneg_right hab (by omega)
    _ ≤ _ := (ceilDiv_le_iff (by decide)).mp le_rfl

/-! ## Any id -/

/-- The product of the id is behind the `k`-th multiple of `2 ^ 32`, as the products of the clients are behind 0. -/
def BehindMultiple (c : Constants) (id k : Int) : Prop :=
  k * 2 ^ 32 < id * c.numClusters ∧ id * c.numClusters ≤ k * 2 ^ 32 + totalClients * c.numClusters

theorem behindMultiple_zero_iff (hn : 1 ≤ c.numClusters) : BehindMultiple c id 0 ↔ 1 ≤ id ∧ id ≤ totalClients := by
  have hpos : 0 < c.numClusters := by omega
  rw [BehindMultiple, zero_mul, zero_add, mul_pos_iff_of_pos_right hpos, mul_le_mul_iff_left₀ hpos]
  rfl

theorem products_lt (hn' : c.numClusters ≤ totalClients) : totalClients * c.numClusters < 2 ^ 31 :=
  lt_of_le_of_lt (mul_le_mul_of_nonneg_left hn' (by decide)) (by decide)

/-- There is at most one such multiple. -/
theorem BehindMultiple.unique (hn' : c.numClusters ≤ totalClients) {k k' : Int} (h : BehindMultiple c id k)
    (h' : BehindMultiple c id k') : k = k' := by
  have hmax := products_lt hn'
  obtain ⟨hlow, hhigh⟩ := h
  obtain ⟨hlow', hhigh'⟩ := h'
  omega

/-- **An id is taken for one of a shard** if the product is behind some multiple. -/
theorem in_a_shard_iff (hn' : c.numClusters ≤ totalClients) :
    (1 ≤ getClusterIdFromClientId c id ∧ getClusterIdFromClientId c id ≤ c.numClusters) ↔ ∃ k, BehindMultiple c id k := by
  have hcluster : (1 ≤ getClusterIdFromClientId c id ∧ getClusterIdFromClientId c id ≤ c.numClusters) ↔
      0 < int32 (id * c.numClusters) ∧ int32 (id * c.numClusters) ≤ totalClients * c.numClusters := by
    have hfirst := lt_ceilDiv_iff (a := int32 (id * c.numClusters)) (k := 0) (show 0 < totalClients by decide)
    rw [mul_zero] at hfirst
    rw [getClusterIdFromClientId, ceilDiv_le_iff (by decide), ← hfirst]
    rfl
  have hmax := products_lt hn'
  rw [hcluster]
  constructor
  · rintro ⟨hlow, hhigh⟩
    refine ⟨(id * c.numClusters).bdiv (2 ^ 32), ?_⟩
    have hsum : int32 (id * c.numClusters) + 2 ^ 32 * (id * c.numClusters).bdiv (2 ^ 32) = id * c.numClusters :=
      Int.bmod_add_bdiv _ _
    unfold BehindMultiple
    omega
  · rintro ⟨k, hlow, hhigh⟩
    have hproduct : int32 (id * c.numClusters) = id * c.numClusters - k * 2 ^ 32 := by
      refine (Int.bmod_eq_iff (by decide)).mpr ⟨by omega, by omega, -k, ?_⟩
      push_cast
      omega
    rw [hproduct]
    omega

/-! ## The lookup -/

/-- How many clients a shard has. -/
def shardSize (c : Constants) (k : Int) : ℕ := ((idsUpTo totalClients).filter fun a => isClientInCluster c a k).card

/-- The lookup is right for `id`: the id has a shard exactly if it is a client's.  And the clients are in all shards, in
order and evenly. -/
structure LookupRight (c : Constants) (id : Int) : Prop where
  inside : (1 ≤ getClusterIdFromClientId c id ∧ getClusterIdFromClientId c id ≤ c.numClusters) ↔
    1 ≤ id ∧ id ≤ totalClients
  monotone : ∀ a b, 1 ≤ a → a ≤ b → b ≤ totalClients → getClusterIdFromClientId c a ≤ getClusterIdFromClientId c b
  onto : ∀ k, 1 ≤ k → k ≤ c.numClusters → ∃ a, (1 ≤ a ∧ a ≤ totalClients) ∧ getClusterIdFromClientId c a = k
  even : ∀ k, 1 ≤ k → k ≤ c.numClusters →
    (shardSize c k : Int) = totalClients / c.numClusters ∨ (shardSize c k : Int) = ceilDiv totalClients c.numClusters

/-- The clients are in all shards, in order and evenly, whatever the number of clusters. -/
theorem lookupRight_iff_inside (hn : 1 ≤ c.numClusters) (hn' : c.numClusters ≤ totalClients) :
    LookupRight c id ↔ ((1 ≤ getClusterIdFromClientId c id ∧ getClusterIdFromClientId c id ≤ c.numClusters) ↔
      1 ≤ id ∧ id ≤ totalClients) := by
  constructor
  · exact fun h => h.inside
  · intro h
    refine ⟨h, fun a b => getClusterIdFromClientId_mono hn hn', ?_, ?_⟩
    · intro k hk hk'
      have hmem := ediv_mem_block (show 0 < c.numClusters by omega) hn' k
      rw [← clients_split hn hn' hk hk', Finset.mem_filter, mem_idsUpTo, isClientInCluster, beq_iff_eq] at hmem
      exact ⟨_, hmem⟩
    · intro k hk hk'
      rw [shardSize, clients_split hn hn' hk hk']
      exact card_block (by omega) (by decide) k

/-- Among the multiples of `2 ^ 32` only 0 belongs to the clients. -/
theorem inside_iff (hn : 1 ≤ c.numClusters) (hn' : c.numClusters ≤ totalClients) :
    ((1 ≤ getClusterIdFromClientId c id ∧ getClusterIdFromClientId c id ≤ c.numClusters) ↔ 1 ≤ id ∧ id ≤ totalClients) ↔
      ∀ k, k ≠ 0 → ¬ BehindMultiple c id k := by
  rw [in_a_shard_iff hn', ← behindMultiple_zero_iff hn]
  constructor
  · intro h k hk hbehind
    exact hk (hbehind.unique hn' (h.mp ⟨k, hbehind⟩))
  · intro h
    refine ⟨?_, fun hzero => ⟨0, hzero⟩⟩
    rintro ⟨k, hbehind⟩
    by_cases hk : k = 0
    · exact hk ▸ hbehind
    · exact absurd hbehind (h k hk)

/-- **The shard lookup is right** for an id exactly if no multiple of `2 ^ 32` but 0 is close before its product with
the number of clusters. -/
theorem shard_lookup_right_iff (c : Constants) (hn : 1 ≤ c.numClusters) (hn' : c.numClusters ≤ totalClients) (id : Int) :
    LookupRight c id ↔ ∀ k, k ≠ 0 → ¬ BehindMultiple c id k := by
  rw [lookupRight_iff_inside hn hn', inside_iff hn hn']

/-- With three clusters the first id behind the clients is in no shard. -/
theorem shard_lookup_right_iff_next : LookupRight ⟨3, 3⟩ 3001 := by
  refine (shard_lookup_right_iff ⟨3, 3⟩ (by decide) (by decide) 3001).mpr ?_
  rintro k hk ⟨hlow, hhigh⟩
  unfold totalClients at hhigh
  dsimp only at hlow hhigh
  omega

/-- With three clusters the product of 1431655766 is 2, and the id is taken for one of the first shard. -/
theorem wrapped_id_in_a_shard :
    ¬ ∀ (c : Constants), 1 ≤ c.numClusters → c.numClusters ≤ totalClients → ∀ id, InRange 32 id → LookupRight c id := by
  intro h
  have hright := (h ⟨3, 3⟩ (by decide) (by decide) 1431655766 (by decide)).inside
  have hshard : getClusterIdFromClientId ⟨3, 3⟩ 1431655766 = 1 := by decide
  rw [hshard] at hright
  exact absurd (hright.mp (by decide)) (by decide)

/-- Over all ids of a message the lookup is right in a deployment of one cluster only: otherwise the first id behind
`-2 ^ 32 / num_clusters` is taken for a client's. -/
theorem right_for_all_iff (hn : 1 ≤ c.numClusters) (hn' : c.numClusters ≤ totalClients) :
    (∀ id, InRange 32 id → LookupRight c id) ↔ c.numClusters = 1 := by
  constructor
  · intro h
    by_contra hne
    simp only [lookupRight_iff_inside hn hn', inside_iff hn hn'] at h
    have hpos : 0 < c.numClusters := by omega
    have hdiv := Int.mul_ediv_add_emod (-2 ^ 32) c.numClusters
    have hmod := Int.emod_nonneg (-2 ^ 32) hpos.ne'
    have hmod' := Int.emod_lt_of_pos (-2 ^ 32) hpos
    have hlow : -2 ^ 31 ≤ (-2 ^ 32) / c.numClusters := by
      rw [Int.le_ediv_iff_mul_le hpos]
      omega
    have hhigh : (-2 ^ 32) / c.numClusters < 0 := Int.ediv_neg_of_neg_of_pos (by decide) hpos
    refine h ((-2 ^ 32) / c.numClusters + 1) ⟨by omega, by omega⟩ (-1) (by decide) ?_
    unfold BehindMultiple totalClients
    constructor <;> linarith
  · intro hone id hid
    rw [lookupRight_iff_inside hn hn', inside_iff hn hn']
    rintro k hk ⟨hlow, hhigh⟩
    obtain ⟨hid, hid'⟩ := hid
    rw [hone, mul_one] at hlow hhigh
    unfold totalClients at hhigh
    omega

end MultiPaxosDB
