import JourneyPlanner.Route
import JourneyPlanner.Json.Value
/-!
# Routes in JSON

Times are written in seconds, and what is not known as null. A run is written with its times at every
position, which for a headway service follow from the first departure.
-/
namespace JourneyPlanner

open Json

/-- The name that a list of names gives to a thing. -/
def nameIn {α : Type} [DecidableEq α] (names : List (String × α)) (x : α) : Value :=
  Value.optional (fun n => Value.text n.1) (names.find? fun n => n.2 = x)

/-- The names of the modes. -/
def Mode.names : List (String × Mode) :=
  [("bus", .bus), ("rail", .rail), ("tram", .tram), ("subway", .subway), ("ferry", .ferry),
    ("coach", .coach), ("flex", .flex)]

/-- The names of what is known about boarding in a wheelchair. -/
def Accessibility.names : List (String × Accessibility) :=
  [("possible", .possible), ("not_possible", .notPossible), ("no_information", .noInformation)]

/-- A mode by its name. -/
def Mode.toJson (m : Mode) : Value := nameIn names m

/-- What is known about boarding in a wheelchair, by its name. -/
def Accessibility.toJson (a : Accessibility) : Value := nameIn names a

/-- A time in seconds. -/
def Time.toJson (t : Time) : Value := .int t.secs

/-- A scheduled trip or a template. -/
def Schedule.toJson (s : Schedule) : Value :=
  .record
    [("id", .text s.id.text), ("arrivals", .arrayOf Time.toJson s.arrivals.toList),
      ("departures", .arrayOf Time.toJson s.departures.toList), ("reluctance", .nat s.reluctance),
      ("accessibility", s.accessibility.toJson)]

/-- A headway service. -/
def Headway.toJson (h : Headway) : Value :=
  .record
    [("template", h.template.toJson), ("start", h.start.toJson), ("end", h.finish.toJson),
      ("headway", .int h.interval)]

/-- The name of a run. -/
def RunRef.toJson : RunRef → Value
  | .scheduled trip => .record [("scheduled", .nat trip)]
  | .headway service first =>
    .record [("frequency", .record [("entry", .nat service), ("first_departure", first.toJson)])]

/-- A run with its times. -/
def Run.toJson (run : Run) : Value :=
  let positions := List.range run.schedule.size
  .record
    [("trip", run.ref.toJson), ("is_frequency", .bool run.isHeadway), ("id", .text run.id.text),
      ("arrivals", .arrayOf (fun p => (run.arrival p).toJson) positions),
      ("departures", .arrayOf (fun p => (run.departure p).toJson) positions)]

/-- A route. The last field is a row of marks for the positions at which changes board under terms of
their own, one more than there are positions. -/
def Route.toJson (r : Route) : Value :=
  .record
    [("index", .nat r.index), ("id", .text r.id.text), ("mode", r.mode.toJson),
      ("name", .text r.pattern.name), ("stops", .arrayOf .nat r.pattern.stops.toList),
      ("trips", .arrayOf Schedule.toJson r.trips.toList),
      ("frequencies", .arrayOf Headway.toJson r.services.toList),
      ("constrained",
        .arrayOf (fun p => .bool (r.hasTermsAt p)) (List.range (r.pattern.size + 1)))]

end JourneyPlanner
