import Beaver.Cipher.TweakedHash
import Beaver.Proofs.Batching

/-!
# Hashing block by block

A list of blocks is hashed in groups, with a scratch space that every group leaves something in.
As long as the space has room for a group (`hashGroup_eq`) and group `k` starts at block `k * w`
(`hashGroups_batches`), each block has the hash of its own tweak, whatever stands beside it, and
the tweaks are asked for one by one from the front (`tweaks_in_order`).
-/

namespace Beaver

open List

namespace TweakedHash

variable {m : Type → Type} [Monad m] [LawfulMonad m] (keys : Aes.Schedule) (tweak : Nat → m Block)

/-- Asks for the tweak of a block and hashes the block with it. -/
def hashAt (p : Block × Nat) : m Block := do
  let t ← tweak p.2
  pure (hashBlock keys t p.1)

/-- Masking all blocks before the second encryption is the same as hashing one by one. -/
theorem mapM_mask (start : Nat) (group : List Block) :
    (do
      let masked ← ((group.map (Aes.encrypt keys)).zipIdx start).mapM fun p => do
        let t ← tweak p.2
        pure (p.1 ^^^ t)
      pure (zipWith (· ^^^ ·) (masked.map (Aes.encrypt keys)) (group.map (Aes.encrypt keys))))
      = (group.zipIdx start).mapM (hashAt keys tweak) := by
  induction group generalizing start with
  | nil => simp
  | cons x group ih =>
    simp only [map_cons, zipIdx_cons, mapM_cons, bind_assoc, pure_bind, hashAt,
      zipWith_cons_cons, ← ih]
    rfl

theorem zipWith_right {α β γ : Type} (f : β → γ) {xs : List α} {ys : List β}
    (h : ys.length ≤ xs.length) : zipWith (fun _ y => f y) xs ys = ys.map f := by
  refine ext_getElem (by simpa using h) fun i _ _ => ?_
  rw [getElem_zipWith, getElem_map]

/-- A group that has room in the scratch space is hashed one by one. -/
theorem hashGroup_eq (start : Nat) {scratch group : List Block}
    (hroom : group.length ≤ scratch.length) :
    hashGroup keys tweak start scratch group
      = (group.zipIdx start).mapM (hashAt keys tweak) >>= fun front =>
          pure (front, group.map (Aes.encrypt keys) ++ scratch.drop group.length) := by
  rw [← mapM_mask, hashGroup, zipWith_right _ (by simpa using hroom)]
  simp only [bind_assoc, pure_bind]

/-- **The groups of a list** are hashed one by one, whatever the scratch space holds. -/
theorem hashGroups_batches {w : Nat} (hw : 0 < w) (xs : List Block) (number : Nat)
    {scratch : List Block} (hscratch : scratch.length = w) :
    hashGroups keys tweak w number scratch (batches w xs)
      = (xs.zipIdx (number * w)).mapM (hashAt keys tweak) := by
  revert number scratch
  refine batches_induction (P := fun xs groups => ∀ number {scratch : List Block},
    scratch.length = w → hashGroups keys tweak w number scratch groups
      = (xs.zipIdx (number * w)).mapM (hashAt keys tweak)) hw (fun _ _ _ => by simp [hashGroups]) ?_ xs
  intro xs _ ih number scratch hscratch
  have hgroup : (xs.take w).length ≤ w := length_take_le w xs
  have hnext : ((xs.take w).map (Aes.encrypt keys) ++ scratch.drop (xs.take w).length).length = w := by
    rw [length_append, length_map, length_drop, hscratch]
    omega
  have hrest : (xs.drop w).zipIdx ((number + 1) * w)
      = (xs.drop w).zipIdx (number * w + (xs.take w).length) := by
    rcases Nat.le_total xs.length w with h | h
    · rw [drop_eq_nil_of_le h]
      rfl
    · rw [length_take_of_le h, Nat.add_one_mul]
  rw [hashGroups, hashGroup_eq keys tweak _ (hscratch ▸ hgroup)]
  simp only [bind_assoc, pure_bind]
  rw [ih (number + 1) hnext, hrest, ← mapM_append, ← zipIdx_append, take_append_drop]

theorem hashListWith_eq {w : Nat} (hw : 0 < w) (xs : List Block) :
    hashListWith w keys tweak xs = xs.zipIdx.mapM (hashAt keys tweak) := by
  rw [hashListWith, hashGroups_batches keys tweak hw xs 0 length_replicate, Nat.zero_mul]

/-- **Every block has the hash of its own tweak.** -/
theorem hashFrom_eq (first : Nat) (xs : List Block) :
    hashFrom first xs = xs.zipIdx.map fun p => hashBlock publicKey (Block.ofNat (first + p.2)) p.1 := by
  have hlist := hashListWith_eq (m := Id) publicKey (fun i => pure (Block.ofNat (first + i)))
    (w := width) (by decide) xs
  exact congrArg Id.run (hlist.trans mapM_pure)

@[simp]
theorem length_hashFrom (first : Nat) (xs : List Block) :
    (hashFrom first xs).length = xs.length := by
  simp [hashFrom_eq]

theorem getElem?_hashFrom (first : Nat) (xs : List Block) (l : Nat) :
    (hashFrom first xs)[l]?
      = (xs[l]?).map fun x => hashBlock publicKey (Block.ofNat (first + l)) x := by
  rw [hashFrom_eq, getElem?_map, getElem?_zipIdx, Option.map_map]
  simp only [Nat.zero_add]
  rfl

/-- The tweaks of consecutive blocks are asked for from the front. -/
theorem mapM_hashAt (start : Nat) (xs : List Block) :
    (xs.zipIdx start).mapM (hashAt keys tweak) = (do
      let tweaks ← (range' start xs.length).mapM tweak
      pure (zipWith (hashBlock keys) tweaks xs)) := by
  induction xs generalizing start with
  | nil => simp
  | cons x xs ih =>
    simp only [zipIdx_cons, mapM_cons, length_cons, range'_succ, hashAt,
      bind_assoc, pure_bind, ih, zipWith_cons_cons]

/-- **Hashing in groups is hashing block by block.**  Under any key and in groups of any size, a
list of blocks is hashed by asking once for the tweak of each index, in increasing order, and then
replacing each block `x` by `π (π x + t) + π x`, with the tweak `t` of its index in the whole list. -/
theorem tweaks_in_order {w : Nat} (hw : 0 < w) (xs : List Block) :
    (hashListWith w keys tweak xs = do
      let tweaks ← (range xs.length).mapM tweak
      pure (zipWith (hashBlock keys) tweaks xs)) ∧
    ∀ t x, hashBlock keys t x
      = Aes.encrypt keys (Aes.encrypt keys x ^^^ t) ^^^ Aes.encrypt keys x := by
  refine ⟨?_, fun t x => rfl⟩
  rw [hashListWith_eq keys tweak hw, mapM_hashAt, range_eq_range']

/-- Six blocks in groups of four: whoever writes down the calls finds each index once, in order. -/
theorem tweaks_in_order_six : 0 < 4 ∧ ((hashListWith 4 publicKey
    (fun i => (do modify (· ++ [i]); pure (Block.ofNat i) : StateM (List Nat) Block))
    (replicate 6 Block.zero)).run []).2 = [0, 1, 2, 3, 4, 5] := by
  refine ⟨by decide, ?_⟩
  rw [(tweaks_in_order publicKey _ (by decide) _).1]
  rfl

end TweakedHash

end Beaver
