import Beaver.PrepFile
import Beaver.Ring.Name
import Beaver.Sacrifice

/-!
# Keeping checked data

The triples that survive a sacrifice are written to the party's file.
-/

namespace Beaver

/-- A step with files as a step of a protocol. -/
def Session.store {α : Type} (s : Storing α) : Session Disk α := do
  let (result, disk) := s.run (← get)
  set disk
  Session.check result

/-- Checks triples under a share of the key, with parameters from a configuration,
and stores those that are kept. -/
def Sacrifice.storeTriples {φ : Type} [ShareField φ] (p : Player) (key : φ) (c : Config)
    (candidates : List (Triple φ φ)) : Session Disk (List (Triple φ φ)) := do
  let setting ← Session.check (Sacrifice.Setting.of p c.amortize)
  let kept ← Session.enclose (Sacrifice.triples setting candidates) (Sacrifice.ofKey key)
  let _ ← Session.store (PrepFile.store φ c .triples kept)
  pure kept

/-- Checking and storing triples, which needs values and tags in one field. -/
def Domain.storeTriples : (d : Domain) →
    Player → d.tag.Carrier → Config → List (Triple d.value.Carrier d.tag.Carrier) →
      Session Disk (List (Triple d.value.Carrier d.tag.Carrier))
  | .same .mersenne61 => Sacrifice.storeTriples (φ := Mersenne61)
  | .same .mersenne127 => Sacrifice.storeTriples (φ := Mersenne127)
  | .same .gf128 => Sacrifice.storeTriples (φ := Gf128)
  | .same .gf2 => Sacrifice.storeTriples (φ := Gf2)
  | _ => fun _ _ _ _ => throw (.error (.unsupported "sacrifice"))

end Beaver
