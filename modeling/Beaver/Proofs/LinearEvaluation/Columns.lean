import Mathlib
import Beaver.LinearEvaluation.InputHolder
import Beaver.LinearEvaluation.KeyHolder
import Beaver.Proofs.Exchange
import Beaver.Proofs.Rows
import Beaver.Transfer.Seeds

/-!
# The two ends of a linear evaluation, column by column

Column `j` belongs to bit `j` of the key.  The input holder has both streams of every
column and the key holder the one that the bit selects, so the states of both ends are
known from the streams and the key alone, and an evaluation of `n` inputs advances every
stream by `n` elements at both ends.

The input holder sends the difference of the two rows of each column plus the inputs.
Whatever errors are added on the way, the two shares add up to the key times the inputs
plus the errors that the bits of the key select (`shares_add`).
-/

namespace Beaver.LinearEvaluation

open Session (start_bind_of_done start_get start_pure)
open List
open ShareRing

/-- Both streams of every column. -/
abbrev Columns := Nat → Bool → Keystream

namespace Columns

/-- The streams after `n` elements of each. -/
def advance (s : Columns) (n : Nat) : Columns := fun j c => ((s j c).blocks n).2

/-- Element `k` of a row of column `j`. -/
def cell (α : Type) [ShareRing α] (s : Columns) (j : Nat) (c : Bool) (k : Nat) : α :=
  (s j c).element α k

/-- Streams given in a list. -/
def ofList (streams : List (Keystream × Keystream)) : Columns := fun j c =>
  ((streams[j]?).map fun p => if c then p.2 else p.1).getD (.ofSeed .zero)

variable {streams : List (Keystream × Keystream)}

theorem map_range_ofList {n : Nat} (h : streams.length = n) :
    ((range n).map fun j => (ofList streams j false, ofList streams j true)) = streams := by
  subst h
  refine ext_getElem (by simp) fun j hj _ => ?_
  have hj : j < streams.length := by simpa using hj
  simp [ofList, getElem?_eq_getElem hj]

theorem chosenKeys_eq {choice : Nat → Bool} {n : Nat} (h : streams.length = n) :
    Transfer.chosenKeys streams ((range n).map choice)
      = (range n).map fun j => ofList streams j (choice j) := by
  subst h
  refine ext_getElem (by simp [Transfer.chosenKeys]) fun j hj _ => ?_
  have hj : j < streams.length := by simpa [Transfer.chosenKeys] using hj
  simp only [Transfer.chosenKeys, getElem_map, getElem_zipIdx, Nat.zero_add,
    getElem?_map, getElem?_range hj, Option.map_some, Option.getD_some,
    getElem_range, ofList, getElem?_eq_getElem hj]

end Columns

section Ends

variable {α : Type} [ShareRing α] {l : LinkEnd} {s : Columns} {n : Nat} {passive : Bool}

/-- The input holder with the given streams. -/
def InputHolder.ofColumns (α : Type) [ShareRing α] (passive : Bool) (s : Columns) : InputHolder :=
  ⟨passive, (range (bits α)).map fun j => (s j false, s j true)⟩

/-- The key holder with the streams that the key selects. -/
def KeyHolder.ofColumns (passive : Bool) (key : α) (s : Columns) : KeyHolder α :=
  ⟨passive, key, (range (bits α)).map fun j => s j (bit key j)⟩

/-- The rows of both streams of every column. -/
def rowsOf (α : Type) [ShareRing α] (s : Columns) (n : Nat) : List (Row α × Row α) :=
  (range (bits α)).map fun j => (.ofFn n (s.cell α j false), .ofFn n (s.cell α j true))

/-- The rows of the streams that the key selects. -/
def chosenRows (key : α) (s : Columns) (n : Nat) : List (Row α) :=
  (range (bits α)).map fun j => .ofFn n (s.cell α j (bit key j))

/-- What the input holder sends for element `k` of column `j`. -/
def correction (s : Columns) (x : Nat → α) (j k : Nat) : α :=
  s.cell α j false k - s.cell α j true k + x k

/-- A correction with an error. -/
def faulty (s : Columns) (x : Nat → α) (d : Nat → Nat → α) (j k : Nat) : α :=
  correction s x j k + d j k

/-- One row for every column. -/
def rowsFor (n : Nat) (u : Nat → Nat → α) : List (Row α) :=
  (range (bits α)).map fun j => .ofFn n (u j)

/-- The input holder's share of product number `k`. -/
def InputHolder.share (s : Columns) (k : Nat) : α :=
  total (bits α) fun j => -basis j * s.cell α j false k

/-- The key holder's share of product number `k`, with the corrections that it got. -/
def KeyHolder.share (key : α) (s : Columns) (u : Nat → Nat → α) (k : Nat) : α :=
  total (bits α) fun j => basis j * (s.cell α j (bit key j) k + scale (u j k) (bit key j))

/-- The errors that the bits of the key select. -/
def selectedError (key : α) (d : Nat → Nat → α) (k : Nat) : α :=
  total (bits α) fun j => scale (basis j) (bit key j) * d j k

/-- What the input holder does after sending its corrections. -/
def InputHolder.conclude (l : LinkEnd) (rows : List (Row α × Row α)) (share : List α) :
    Session InputHolder (List α) := do
  if (← get).passive then pure share
  else
    let pairs ← challengePairs l (bits α)
    let hashes := pairs.zipIdx.map fun ((first, second), i) => digests rows i first second
    l.send PairDigests.wire.list hashes
    pure share

/-- What the key holder does after receiving corrections of the right lengths. -/
def KeyHolder.conclude (l : LinkEnd) (key : α) (rows u : List (Row α)) (share : List α) :
    Session (KeyHolder α) (List α) := do
  if (← get).passive then pure share
  else
    let pairs ← challengePairs l (bits α)
    let digests ← l.recvList "VOLE_check" PairDigests.wire pairs.length
    let good := (pairs.zip digests).zipIdx.all fun (((first, second), d), i) =>
      verifyPair key rows u i first second d
    if good then pure share else Session.fail (.cheat .consistency)

theorem InputHolder.start_expandRows (passive : Bool) (s : Columns) (n : Nat) :
    (expandRows n).start (ofColumns α passive s)
      = .done (.ok (rowsOf α s n), ofColumns α passive (s.advance n)) := by
  rw [expandRows, start_bind_of_done (start_get _),
    start_bind_of_done (Session.start_modify _ _), start_pure]
  simp only [ofColumns, map_map, Function.comp_def, Row.random_eq_ofFn]
  rfl

theorem KeyHolder.start_expandRows (hroom : n * bytes α < memoryLimit) (passive : Bool) (key : α)
    (s : Columns) :
    (expandRows n).start (ofColumns passive key s)
      = .done (.ok (chosenRows key s n), ofColumns passive key (s.advance n)) := by
  have hmapM : (ofColumns passive key s).streams.mapM (Row.random? (α := α) n)
      = some ((range (bits α)).map fun j =>
          (.ofFn n (s.cell α j (bit key j)), s.advance n j (bit key j))) := by
    simp only [ofColumns, mapM_map, Function.comp_def, Row.random?_eq_ofFn hroom]
    exact mapM_pure
  rw [expandRows, start_bind_of_done (start_get _), hmapM,
    start_bind_of_done (Session.start_total_some _ _),
    start_bind_of_done (Session.start_modify _ _), start_pure, map_map,
    map_map]
  rfl

/-- The row of corrections of a column. -/
theorem correction_row (s : Columns) (inputs : List α) (j : Nat) :
    ((Row.ofFn inputs.length (s.cell α j false)).minus
        (.ofFn inputs.length (s.cell α j true))).add ⟨inputs⟩
      = .ofFn inputs.length (correction s (Row.entry ⟨inputs⟩) j) := by
  have hadd := Row.add_ofFn inputs.length
    (fun k => s.cell α j false k - s.cell α j true k) (Row.entry ⟨inputs⟩)
  rw [Row.ofFn_entry rfl] at hadd
  rw [Row.minus_ofFn, hadd]
  rfl

section Lawful

variable [LawfulShareRing α]

theorem carries_rowsFor (hbits : bits α < 2 ^ 64) (hn : n < 2 ^ 64) (u : Nat → Nat → α) :
    (Row.wire α).list.Carries (rowsFor n u) := by
  refine .list (fun row hrow => ?_) (by simpa [rowsFor] using hbits)
  obtain ⟨j, -, rfl⟩ := mem_map.mp hrow
  exact Row.carries_wire (by simpa using hn)

/-- **The input holder sends its corrections.** -/
theorem InputHolder.start_evaluate (l : LinkEnd) (passive : Bool) (s : Columns) (inputs : List α) :
    (evaluate l inputs).start (ofColumns α passive s)
      = .send l.address ((Row.wire α).list.encode
          (rowsFor inputs.length (correction s (Row.entry ⟨inputs⟩))))
        ((conclude l (rowsOf α s inputs.length) ((range inputs.length).map (share s))).start
          (ofColumns α passive (s.advance inputs.length))) := by
  have hu : (rowsOf α s inputs.length).map (fun p => (p.1.minus p.2).add ⟨inputs⟩)
      = rowsFor inputs.length (correction s (Row.entry ⟨inputs⟩)) := by
    rw [rowsOf, rowsFor, map_map]
    exact map_congr_left fun j _ => correction_row s inputs j
  have hshare : (rowsOf α s inputs.length).zipIdx.foldl
      (fun acc q => Row.addMultiple (-basis q.2) acc q.1.1) (.zeros inputs.length)
      = .ofFn inputs.length (share s) :=
    Row.foldl_addMultiple (bits α) inputs.length (fun j => -(basis j : α)) _ Prod.fst fun _ _ => rfl
  rw [evaluate, start_bind_of_done (start_expandRows passive s _)]
  dsimp only
  rw [hu, hshare, LinkEnd.start_send_bind]
  rfl

/-- **The key holder waits for corrections**, and goes on with those of the right lengths. -/
theorem KeyHolder.start_evaluate (l : LinkEnd) (hroom : n * bytes α < memoryLimit)
    (hn : n < 2 ^ 64) (hbits : bits α < 2 ^ 64) (passive : Bool) (key : α) (s : Columns) :
    ∃ next, (evaluate l n).start (ofColumns passive key s) = .recv [l.address] next ∧
      ∀ u : Nat → Nat → α,
        next ⟨0, Nat.zero_lt_one⟩ (some ((Row.wire α).list.encode (rowsFor n u)))
          = (conclude l key (chosenRows key s n) (rowsFor n u)
              ((range n).map (share key s u))).start (ofColumns passive key (s.advance n)) := by
  rw [evaluate, start_bind_of_done (start_expandRows hroom passive key s), LinkEnd.recvList,
    bind_assoc, LinkEnd.start_recv_bind]
  refine ⟨_, rfl, fun u => ?_⟩
  have hlengths : ∀ row ∈ rowsFor n u, checkLength n row.values.length = .ok () := by
    intro row hrow
    obtain ⟨j, -, rfl⟩ := mem_map.mp hrow
    simp [checkLength]
  have hcorrected : ((chosenRows key s n).zip (rowsFor n u)).zipIdx.map
      (fun q => Row.addIf (bit key q.2) q.1.1 q.1.2)
      = (range (bits α)).map fun j => .ofFn n fun k =>
          s.cell α j (bit key j) k + scale (u j k) (bit key j) := by
    rw [chosenRows, rowsFor, zip_map', zipIdx_map, map_map]
    refine ext_getElem (by simp) fun j hj _ => ?_
    simp
  have hshare : powerSum n ((range (bits α)).map fun j => .ofFn n fun k =>
      s.cell α j (bit key j) k + scale (u j k) (bit key j)) = .ofFn n (share key s u) :=
    Row.foldl_addMultiple (bits α) n basis _ id fun _ _ => rfl
  rw [LinkEnd.got_encode (carries_rowsFor hbits hn u), if_pos (by simp [rowsFor]), pure_bind,
    start_bind_of_done (Session.start_forM_check hlengths _),
    start_bind_of_done (start_get _)]
  have hkey : (ofColumns passive key (s.advance n)).key = key := rfl
  simp only [hkey, hcorrected, hshare]
  rfl

theorem faulty_zero (s : Columns) (x : Nat → α) : faulty s x (fun _ _ => 0) = correction s x := by
  funext j k
  exact add_zero _

/-- **The two shares add up** to the key times the input, plus the selected errors. -/
theorem shares_add (key : α) (s : Columns) (x : Nat → α) (d : Nat → Nat → α) (k : Nat) :
    InputHolder.share s k + KeyHolder.share key s (faulty s x d) k
      = key * x k + selectedError key d k := by
  have hcolumn : ∀ j, -basis j * s.cell α j false k
      + basis j * (s.cell α j (bit key j) k + scale (faulty s x d j k) (bit key j))
      = scale (basis j) (bit key j) * x k + scale (basis j) (bit key j) * d j k := by
    intro j
    cases bit key j with
    | false =>
      simp only [scale, Bool.false_eq_true, if_false]
      ring
    | true =>
      simp only [scale, if_true, faulty, correction]
      ring
  have hkey : total (bits α) (fun j => scale (basis j) (bit key j)) = key :=
    LawfulShareRing.sum_bits key
  rw [InputHolder.share, KeyHolder.share, ← total_add]
  simp only [hcolumn]
  rw [total_add, total_mul_right, hkey]
  rfl

end Lawful

end Ends

end Beaver.LinearEvaluation
