import Devnet.Lib.Effects
import Devnet.Types.ByteArrays

/-!
The bound on what one peer may have in flight: a slot is taken before a message is decoded
and given back when the guard that stands for it is dropped.
-/

set_option autoImplicit false

namespace Devnet.P2p
open Devnet.Types

/-- The peer as the runtime knows it: a string that is not empty. -/
structure PeerId where
  raw : String
  nonempty : raw ≠ ""
  deriving DecidableEq

def PeerId.new (raw : String) : Option PeerId :=
  if h : raw = "" then none else some ⟨raw,h⟩

theorem PeerId.ext_raw {a b : PeerId} (h : a.raw = b.raw) : a = b := by
  cases a
  cases b
  cases h
  rfl

instance : Ord PeerId := ⟨compareOn PeerId.raw⟩

instance : Std.TransOrd PeerId := inferInstanceAs (Std.TransCmp (compareOn PeerId.raw))

instance : Std.LawfulEqOrd PeerId where
  eq_of_compare h := PeerId.ext_raw (Std.LawfulEqOrd.eq_of_compare (α := String) h)

structure AdmitGuard where
  peer : PeerId
  deriving DecidableEq

structure PeerAdmission where
  inFlight : HashMap PeerId Nat
  cap : Nat
  positive : 0 < cap

namespace PeerAdmission

def new (cap : Nat) (positive : 0 < cap) : PeerAdmission := ⟨∅,cap,positive⟩

def held (self : PeerAdmission) (peer : PeerId) : Nat := self.inFlight[peer]?.getD 0

/-- `entry(peer).or_insert(0)` leaves an entry behind in either case. -/
def tryAdmit (self : PeerAdmission) (peer : PeerId) : Option AdmitGuard × PeerAdmission :=
  let count := self.held peer
  if self.cap ≤ count then (none,{ self with inFlight := self.inFlight.insert peer count })
  else (some ⟨peer⟩,{ self with inFlight := self.inFlight.insert peer (count+1) })

/-- The drop of a guard. -/
def release (self : PeerAdmission) (guard : AdmitGuard) : PeerAdmission :=
  match self.inFlight[guard.peer]? with
  | none => self
  | some count =>
    if count-1 = 0 then { self with inFlight := self.inFlight.erase guard.peer }
    else { self with inFlight := self.inFlight.insert guard.peer (count-1) }

theorem tryAdmit_of_lt {self : PeerAdmission} {peer : PeerId} (h : self.held peer < self.cap) :
    (self.tryAdmit peer).1 = some ⟨peer⟩ := by
  rw [tryAdmit,if_neg (Nat.not_le.mpr h)]

end PeerAdmission

end Devnet.P2p
