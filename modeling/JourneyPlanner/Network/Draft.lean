import JourneyPlanner.Network
/-!
# Building a network

A `NetworkDraft` collects stops, routes, transfers and connection notices, and refuses what refers to
a stop that has not been added. `NetworkDraft.finish` resolves the notices: one that names a trip the
draft does not have, the trip of a headway service, or a position outside the pattern, is dropped.
-/
namespace JourneyPlanner

/-- What has been added to a network so far. -/
structure NetworkDraft where
  stopNames : Array String
  routes : Array Route
  transfers : Array (List Transfer)
  notices : List ConnectionNotice

/-- Where a trip identifier first occurs. -/
inductive TripPlace where
  | scheduled (route : RouteIndex) (trip : Nat)
  | headway
  deriving DecidableEq, Repr

namespace NetworkDraft

/-- The draft without anything in it. -/
def empty : NetworkDraft := ⟨#[], #[], #[], []⟩

/-- Adds a stop, which gets the next number. -/
def addStop (draft : NetworkDraft) (name : String) : NetworkDraft :=
  { draft with
    stopNames := draft.stopNames.push name
    transfers := draft.transfers.push [] }

/-- Accepts a stop that has been added. -/
def checkStop (draft : NetworkDraft) (stop : Stop) : Except DataError Unit :=
  if stop < draft.stopNames.size then .ok ()
  else .error (.stopOutOfRange stop draft.stopNames.size)

/-- Adds a route over stops that have been added; it gets the next number. -/
def addRoute (draft : NetworkDraft) (id : RouteId) (mode : Mode) (pattern : StopPattern)
    (trips : List Schedule) (services : List Headway) : Except DataError NetworkDraft := do
  pattern.stops.forM draft.checkStop
  let route ← Route.ofTimetable draft.routes.size id mode pattern trips services
  return { draft with routes := draft.routes.push route }

/-- Adds a transfer that leaves `source`. -/
def addTransfer (draft : NetworkDraft) (source : Stop) (transfer : Transfer) :
    Except DataError NetworkDraft := do
  draft.checkStop source
  draft.checkStop transfer.target
  return { draft with transfers := draft.transfers.modify source (· ++ [transfer]) }

/-- Adds a connection notice. -/
def addNotice (draft : NetworkDraft) (notice : ConnectionNotice) : NetworkDraft :=
  { draft with notices := draft.notices ++ [notice] }

/-! ## Resolving the notices -/

/-- Where a trip identifier first occurs in a route: scheduled trips come before headway services. -/
def placeIn? (id : TripId) (route : Route) : Option TripPlace :=
  match route.trips.toList.findIdx? fun t => decide (t.id = id) with
  | some i => some (.scheduled route.index i)
  | none => if route.services.any fun s => decide (s.template.id = id) then some .headway else none

/-- Where a trip identifier first occurs. -/
def place? (draft : NetworkDraft) (id : TripId) : Option TripPlace :=
  draft.routes.toList.findSome? (placeIn? id)

/-- The call of a scheduled trip, by its identifier, at a position of its pattern. -/
def call? (draft : NetworkDraft) (id : TripId) (p : Position) : Option TripCall :=
  match draft.place? id with
  | some (.scheduled route trip) =>
    match draft.routes[route]? with
    | some r => if p < r.pattern.size then some ⟨route, trip, p⟩ else none
    | none => none
  | _ => none

/-- A notice with its two calls, unless one of them is not there. -/
def resolve? (draft : NetworkDraft) (notice : ConnectionNotice) : Option ConnectionEntry :=
  match draft.call? notice.alightTrip notice.alightPosition with
  | none => none
  | some alight =>
    match draft.call? notice.boardTrip notice.boardPosition with
    | none => none
    | some board => some ⟨alight, board, notice.terms⟩

/-- The notices that are kept, in the order in which they were added. -/
def kept (draft : NetworkDraft) : List ConnectionEntry := draft.notices.filterMap draft.resolve?

/-- The table of the kept notices. -/
def connections (draft : NetworkDraft) : ConnectionTable :=
  draft.kept.foldl (fun table e => table.insert e.alight e.board e.terms) .empty

/-- The routes, each with the positions at which a kept notice boards it. -/
def markedRoutes (draft : NetworkDraft) : Array Route :=
  draft.kept.foldl
    (fun routes e => routes.modify e.board.route fun r => r.markTerms e.board.position)
    draft.routes

/-! ## Routes by stop -/

/-- Adds a route to the end of a stop's list, unless it is there already. -/
def enterRoute (route : RouteIndex) (through : List RouteIndex) : List RouteIndex :=
  if through.getLast? = some route then through else through ++ [route]

/-- For each stop the routes that serve it. -/
def routesAt (draft : NetworkDraft) : Array (List RouteIndex) :=
  draft.routes.foldl
    (fun table route =>
      route.pattern.stops.foldl (fun table stop => table.modify stop (enterRoute route.index)) table)
    (Array.replicate draft.stopNames.size [])

/-- The network that has been described. -/
def finish (draft : NetworkDraft) : Network where
  stopNames := draft.stopNames
  routes := draft.markedRoutes
  routesAt := draft.routesAt
  transfers := draft.transfers
  connections := draft.connections

end NetworkDraft

end JourneyPlanner
