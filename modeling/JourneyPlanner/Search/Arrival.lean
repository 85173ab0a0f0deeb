import JourneyPlanner.Route
/-!
# Arrivals

An `Arrival` is one way to reach a stop. It names the arrival it continues, so that the whole way can
be told from the last arrival. The `ArrivalLog` keeps every accepted arrival under its number.
-/
namespace JourneyPlanner

/-- How a stop was reached. -/
inductive Via where
  /-- By the access path of the given number. -/
  | access (path : Nat) (onBoard : Bool)
  /-- By a ride. -/
  | ride (route : RouteIndex) (run : RunRef) (boardPosition alightPosition : Position)
    (boardTime : Time)
  /-- By the transfer of the given number out of a stop. -/
  | transfer (source : Stop) (number : Nat)
  deriving DecidableEq, Repr

/-- One way to reach a stop. -/
structure Arrival where
  /-- The number of the arrival that this one continues. -/
  parent : Option Nat
  stop : Stop
  time : Time
  rides : Nat
  cost : Int
  round : Nat
  via : Via
  deriving DecidableEq, Repr

namespace Arrival

/-- Whether the stop was reached in a vehicle. -/
def onBoard (a : Arrival) : Bool :=
  match a.via with
  | .access _ onBoard => onBoard
  | .ride .. => true
  | .transfer .. => false

/-- Whether the stop was reached from the origin. -/
def isAccess (a : Arrival) : Bool :=
  match a.via with
  | .access .. => true
  | _ => false

end Arrival

/-- The accepted arrivals, each under its number. -/
structure ArrivalLog where
  records : Array Arrival
  deriving DecidableEq, Repr

namespace ArrivalLog

def empty : ArrivalLog := ⟨#[]⟩

/-- The number of arrivals, which is the number of the next one. -/
def size (log : ArrivalLog) : Nat := log.records.size

/-- Adds an arrival. -/
def push (log : ArrivalLog) (a : Arrival) : ArrivalLog := ⟨log.records.push a⟩

def get? (log : ArrivalLog) (id : Nat) : Except OutOfRange Arrival :=
  match log.records[id]? with
  | some a => .ok a
  | none => .error (.arrival id)

/-- The arrivals that lead to the one of number `id`, followed by `rest`. Each continues one with a
smaller number. -/
def chainOnto (log : ArrivalLog) (id : Nat) (rest : List Arrival) :
    Except OutOfRange (List Arrival) :=
  match log.get? id with
  | .error e => .error e
  | .ok a =>
    match a.parent with
    | none => .ok (a :: rest)
    | some parent => if parent < id then log.chainOnto parent (a :: rest) else .error (.arrival parent)
termination_by id

/-- The arrivals from the origin to the one of number `id`. -/
def chain (log : ArrivalLog) (id : Nat) : Except OutOfRange (List Arrival) := log.chainOnto id []

end ArrivalLog

/-- A passenger on a run while its route is scanned. -/
structure Rider where
  /-- The number of the arrival from which the passenger boarded. -/
  parent : Nat
  run : Run
  boardPosition : Position
  boardTime : Time
  costAtBoard : Int
  relativeCost : Float
  rides : Nat

end JourneyPlanner
