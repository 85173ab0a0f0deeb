import JourneyPlanner.Time.Text
import JourneyPlanner.Time.Calendar
import JourneyPlanner.Headway
import JourneyPlanner.StopPattern
import JourneyPlanner.Transfer
import JourneyPlanner.StreetPath
import JourneyPlanner.ConnectionTable
import JourneyPlanner.Route
import JourneyPlanner.Network.Draft
import JourneyPlanner.Network.Shared
import JourneyPlanner.Frontier
import JourneyPlanner.Cost.Pricing
import JourneyPlanner.Itinerary.Text
import JourneyPlanner.Itinerary.Ranking
import JourneyPlanner.Search.Request
import JourneyPlanner.Search.EarliestArrivals
import JourneyPlanner.Search.ArrivalFrontiers
import JourneyPlanner.Search.Observed
import JourneyPlanner.Search.Rounds
import JourneyPlanner.Search.Plan
import JourneyPlanner.Cost.Json
import JourneyPlanner.Search.SettingsFile
import JourneyPlanner.Itinerary.Json
import JourneyPlanner.Network.Json
import JourneyPlanner.Search.Json
import JourneyPlanner.Main
import JourneyPlanner.Proofs.LegRows
import JourneyPlanner.Proofs.Shape
import JourneyPlanner.Proofs.Feasibility
import JourneyPlanner.Proofs.Agreement
import JourneyPlanner.Proofs.Completeness
import JourneyPlanner.Proofs.Histories
import JourneyPlanner.Proofs.EarliestHistory
import JourneyPlanner.Proofs.FrontierHistory
import JourneyPlanner.Proofs.Ranking
import JourneyPlanner.Proofs.SearchHistory
import JourneyPlanner.Proofs.Reuse
import JourneyPlanner.Proofs.Watching
import JourneyPlanner.Proofs.Refusals
import JourneyPlanner.Proofs.MovedChanges
import JourneyPlanner.Proofs.Optimality
import JourneyPlanner.Proofs.EntryOrder
import JourneyPlanner.Proofs.Additions
import JourneyPlanner.Proofs.FirstBoarding
import JourneyPlanner.Proofs.Worth
import JourneyPlanner.Proofs.BestChanges
import JourneyPlanner.Proofs.EarliestRun
import JourneyPlanner.Proofs.AccessOffers
import JourneyPlanner.Proofs.Filtering
import JourneyPlanner.Proofs.Pruning
import JourneyPlanner.Proofs.Departing
import JourneyPlanner.Proofs.Acceptances
import JourneyPlanner.Proofs.Bookkeeping
import JourneyPlanner.Proofs.RoundTrip
import JourneyPlanner.Proofs.Duplicates
import JourneyPlanner.Proofs.Departures
import JourneyPlanner.Proofs.Pareto
import JourneyPlanner.Proofs.Descent
