import HM4.Pairs

/-!
# The metadata of a table

While the pairs of a table are written the builder keeps the smallest and the
greatest creation time and counts pairs and tombstones. The file holds the two
times with the starting values replaced by zero. Reading the greatest time
returns the smallest one.
-/

namespace HM4.FileMeta

open Pairs

/-- The running values of `FileMetaBuilder`. -/
structure FileMetaBuilder where
  /-- The smallest creation time so far, the greatest number at the start. -/
  minCreated : ℕ
  /-- The greatest creation time so far, zero at the start. -/
  maxCreated : ℕ
  /-- The pairs so far. -/
  count : ℕ
  /-- The tombstones so far. -/
  tombstones : ℕ

/-- The values a builder starts from. -/
def FileMetaBuilder.start : FileMetaBuilder := ⟨2 ^ 64 - 1, 0, 0, 0⟩

/-- `FileMetaBuilder::operator()`. -/
def FileMetaBuilder.push (b : FileMetaBuilder) (pair : Pair) : FileMetaBuilder where
  minCreated := if pair.created < b.minCreated then pair.created else b.minCreated
  maxCreated := if b.maxCreated < pair.created then pair.created else b.maxCreated
  count := b.count + 1
  tombstones := if pair.isTombstone then b.tombstones + 1 else b.tombstones

/-- `fixMinMax`. -/
def fixMinMax (val limit fallback : ℕ) : ℕ := if val = limit then fallback else val

/-- `fixMin`: nothing was smaller than the greatest number. -/
def fixMin (val : ℕ) : ℕ := fixMinMax val (2 ^ 64 - 1) 0

/-- `fixMax`: nothing was greater than zero. -/
def fixMax (val : ℕ) : ℕ := fixMinMax val 0 0

/-- The numbers of `FileMetaBlob`. -/
structure FileMetaBlob where
  /-- The number of pairs. -/
  size : ℕ
  /-- The number of tombstones. -/
  tombstones : ℕ
  /-- The smallest creation time. -/
  createdMin : ℕ
  /-- The greatest creation time. -/
  createdMax : ℕ
  deriving DecidableEq

/-- The blob that the builder writes when it is done with the pairs. -/
def fileMeta (pairs : List Pair) : FileMetaBlob :=
  let b := pairs.foldl FileMetaBuilder.push FileMetaBuilder.start
  ⟨b.count, b.tombstones, fixMin b.minCreated, fixMax b.maxCreated⟩

/-- `FileMeta::createdMin`. -/
def createdMin (blob : FileMetaBlob) : ℕ := blob.createdMin

/-- `FileMeta::createdMax`, which reads the same field. -/
def createdMax (blob : FileMetaBlob) : ℕ := blob.createdMin

/-- The running values bound what was there before and every pair pushed. -/
theorem foldl_push (pairs : List Pair) (b : FileMetaBuilder) :
    (pairs.foldl FileMetaBuilder.push b).minCreated ≤ b.minCreated ∧
      b.maxCreated ≤ (pairs.foldl FileMetaBuilder.push b).maxCreated ∧
      (pairs.foldl FileMetaBuilder.push b).count = b.count + pairs.length ∧
      ∀ p ∈ pairs, (pairs.foldl FileMetaBuilder.push b).minCreated ≤ p.created ∧
        p.created ≤ (pairs.foldl FileMetaBuilder.push b).maxCreated := by
  induction pairs generalizing b with
  | nil => exact ⟨le_rfl, le_rfl, rfl, fun p hp => absurd hp List.not_mem_nil⟩
  | cons q pairs ih =>
    obtain ⟨hmin, hmax, hcount, hall⟩ := ih (b.push q)
    have hqmin : (b.push q).minCreated ≤ b.minCreated ∧ (b.push q).minCreated ≤ q.created := by
      unfold FileMetaBuilder.push
      dsimp only
      split <;> omega
    have hqmax : b.maxCreated ≤ (b.push q).maxCreated ∧ q.created ≤ (b.push q).maxCreated := by
      unfold FileMetaBuilder.push
      dsimp only
      split <;> omega
    have hqcount : (b.push q).count = b.count + 1 := rfl
    rw [List.foldl_cons]
    refine ⟨hmin.trans hqmin.1, hqmax.1.trans hmax, ?_, List.forall_mem_cons.mpr ⟨?_, hall⟩⟩
    · rw [hcount, hqcount, List.length_cons]
      omega
    · exact ⟨hmin.trans hqmin.2, hqmax.2.trans hmax⟩

/-- The number of pairs is written. -/
theorem fileMeta_size (pairs : List Pair) : (fileMeta pairs).size = pairs.length := by
  obtain ⟨_, _, hcount, _⟩ := foldl_push pairs FileMetaBuilder.start
  unfold fileMeta
  dsimp only
  rw [hcount]
  exact Nat.zero_add _

end HM4.FileMeta
