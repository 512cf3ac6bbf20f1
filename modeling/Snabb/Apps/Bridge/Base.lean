import Mathlib.Algebra.Group.Nat.Defs
import Mathlib.Data.List.Nodup
import Mathlib.Data.List.Range

/-!
# Bridges (`apps/bridge/base.lua`)

A bridge has ports, some of which belong to a split-horizon group. A packet is not forwarded to the
port it came from, nor to one that is in the group of that port.

A port is known by its handle, which is its place in the list of the ports counted from 1, and the
group of a port by a handle as well, where 0 is said of the free ports.
-/

namespace Snabb

namespace Bridge

/-- A port, with the handle of its group. -/
structure PortDesc where
  name : String
  group : Nat
deriving DecidableEq, Repr

end Bridge

/-- A bridge, as its ports. Handles are kept in a `uint16_t`. -/
structure Bridge where
  ports : List Bridge.PortDesc
  handles : ports.length < 2 ^ 16

namespace Bridge

/-- The handles of the ports. -/
def handlesOf (b : Bridge) : List Nat := List.range' 1 b.ports.length

/-- `ports[handle].group`. -/
def group (b : Bridge) (port : Nat) : Nat :=
  if 0 < port then ((b.ports[port - 1]?).map PortDesc.group).getD 0 else 0

/-- `dst_ports[sport]`. -/
def dstPorts (b : Bridge) (sport : Nat) : List Nat :=
  b.handlesOf.filter fun dport =>
    ¬ (sport = dport ∨ (b.group sport ≠ 0 ∧ b.group sport = b.group dport))

/-! ## Egress ports -/

/-- Two ports are in one split-horizon group. -/
def SameGroup (b : Bridge) (i j : Nat) : Prop := b.group i ≠ 0 ∧ b.group i = b.group j

instance (b : Bridge) (i j : Nat) : Decidable (b.SameGroup i j) :=
  inferInstanceAs (Decidable (_ ∧ _))

end Bridge

end Snabb
