import JourneyPlanner.Text.Blank
/-!
# Identifiers of routes and trips

The timetable's publisher chooses the identifiers. They are kept as they are, but must not be empty
and must hold no blank, so that they stand out in a printed itinerary.
-/
namespace JourneyPlanner

/-- What an identifier names. -/
inductive IdKind where
  | route
  | trip
  deriving DecidableEq, Repr

/-- The word for what an identifier names. -/
def IdKind.word : IdKind → String
  | .route => "route"
  | .trip => "trip"

/-- Why a text is no identifier. -/
inductive IdDefect where
  | empty
  | blank
  deriving DecidableEq, Repr

/-- A refused identifier: what it was to name, and why it is refused. -/
structure IdError where
  kind : IdKind
  defect : IdDefect
  deriving DecidableEq, Repr

def IdError.message (e : IdError) : String :=
  "invalid " ++ e.kind.word ++ " id: " ++
    match e.defect with
    | .empty => "cannot be empty"
    | .blank => "cannot contain whitespace"

/-- What keeps a text from being an identifier. -/
def idDefect? (s : String) : Option IdDefect :=
  if s.isEmpty then some .empty
  else if s.toList.any Text.isBlank then some .blank
  else none

/-- The identifier of a route. -/
structure RouteId where
  text : String
  sound : idDefect? text = none
  deriving DecidableEq, Repr

/-- The identifier of a scheduled trip, or of the trip that a headway service repeats. -/
structure TripId where
  text : String
  sound : idDefect? text = none
  deriving DecidableEq, Repr

/-- The route identifier with the given text. -/
def RouteId.ofString (s : String) : Except IdError RouteId :=
  match h : idDefect? s with
  | some d => .error ⟨.route, d⟩
  | none => .ok ⟨s, h⟩

/-- The trip identifier with the given text. -/
def TripId.ofString (s : String) : Except IdError TripId :=
  match h : idDefect? s with
  | some d => .error ⟨.trip, d⟩
  | none => .ok ⟨s, h⟩

instance : ToString RouteId := ⟨RouteId.text⟩

instance : ToString TripId := ⟨TripId.text⟩

end JourneyPlanner
