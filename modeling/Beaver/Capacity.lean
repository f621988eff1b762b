/-!
# Room in memory

The items of a list lie side by side in memory, which has room for fewer than
`2 ^ 63` bytes.  Asking for more is a fault, whatever would become of the items.
-/

namespace Beaver

/-- The number of bytes that memory has no room for. -/
def memoryLimit : Nat := Nat.pow 2 63

/-- A number of items of the given size, if memory has room for them. -/
def room? (n size : Nat) : Option Nat :=
  if n * size < memoryLimit then some n else none

end Beaver
