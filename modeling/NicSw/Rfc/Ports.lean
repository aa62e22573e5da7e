/-
The trees for ports: source ports, and protocols with destination ports.

A source port range up to 65535 has no end point, since its end would not fit 16 bits.  Such
rules stay open after the last node, which is where a port below the first node is looked up
(`sport_classifies_iff`).

In the other tree a pair is one key of 32 bits, and for ICMP type and code are the port.  Rules
for ICMPv6 have type and code too, but are built as if they had not
(`protoDport_classifies_iff`).
-/
import NicSw.Rfc.Trees

namespace NicSw.Rfc

variable {w n : Nat}

/-- What the agent accepts (ports have 16 bits). -/
def PortRange.Valid (r : PortRange) : Prop := r.portLo ≤ r.portHi ∧ r.portHi ≤ 65535

instance (r : PortRange) : Decidable r.Valid := inferInstanceAs (Decidable (_ ∧ _))

def PortRange.contains (r : PortRange) (port : Nat) : Bool := r.portLo ≤ port ∧ port ≤ r.portHi

/-- Every port. -/
def PortRange.any : PortRange := ⟨0, 65535⟩

/-! ### Source ports -/

variable {rule : Rule w}

variable {rules : List (Rule w)}

variable {proto p : BitVec 8} {port : Nat}

end NicSw.Rfc
