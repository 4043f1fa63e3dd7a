import Dhtsim.Lib.SortedMap
import Dhtsim.Lib.CallMachine
import Dhtsim.Lib.Format
import Dhtsim.Lib.Selection
import Dhtsim.Lib.BigEndian
import Dhtsim.Model.Key
import Dhtsim.Model.Message
import Dhtsim.Model.Outside
import Dhtsim.Theorems.Metric
import Dhtsim.Model.Base
import Dhtsim.Model.Kademlia
import Dhtsim.Model.Machine
import Dhtsim.Model.Network
import Dhtsim.Model.Application
import Dhtsim.Lemmas.Effects
import Dhtsim.Lemmas.CallGraph
import Dhtsim.Lemmas.Held
import Dhtsim.Lemmas.Discipline
import Dhtsim.Lemmas.Scan
import Dhtsim.Lemmas.Requests
import Dhtsim.Theorems.Placement
import Dhtsim.Theorems.Eviction
import Dhtsim.Lemmas.Messages
import Dhtsim.Lemmas.Pending
import Dhtsim.Lemmas.NetworkCalls
import Dhtsim.Lemmas.Projection
import Dhtsim.Lemmas.Traffic
import Dhtsim.Lemmas.Addresses
import Dhtsim.Lemmas.Retries
import Dhtsim.Lemmas.Copies
import Dhtsim.Lemmas.Honesty
import Dhtsim.Lemmas.Turns
import Dhtsim.Lemmas.Outbound
import Dhtsim.Lemmas.Tracker
import Dhtsim.Theorems.Pings
import Dhtsim.Lemmas.Lookups
import Dhtsim.Lemmas.Contacts
import Dhtsim.Theorems.Callers
import Dhtsim.Theorems.Exhaustive
import Dhtsim.Theorems.Kinds
import Dhtsim.Theorems.Integrity
import Dhtsim.Theorems.Correlation
import Dhtsim.Theorems.Nearest
import Dhtsim.Theorems.Order
import Dhtsim.Theorems.Discipline
import Dhtsim.Theorems.Conservation
import Dhtsim.Model.Transcript
import Dhtsim.Theorems.Accounting
import Dhtsim.Theorems.Latency
import Dhtsim.Theorems.Silence
import Dhtsim.Lib.Recency
import Dhtsim.Theorems.Duplicates
import Dhtsim.Theorems.DeadLookups
import Dhtsim.Theorems.Durability
import Dhtsim.Theorems.Answered
import Dhtsim.Theorems.EmptyBucket
import Dhtsim.Theorems.BucketForm
import Dhtsim.Theorems.LostLookup
import Dhtsim.Theorems.OwnValue
import Dhtsim.Theorems.Refresh
import Dhtsim.Theorems.Report
import Dhtsim.Theorems.Schedule
import Dhtsim.Theorems.Lifetime
import Dhtsim.Theorems.Malformed
import Dhtsim.Theorems.TagStability
import Dhtsim.Theorems.Knowledge
import Dhtsim.Lemmas.Pace
import Dhtsim.Theorems.Pace
import Dhtsim.Lemmas.Asked
import Dhtsim.Theorems.Found
import Dhtsim.Lib.Journal
import Dhtsim.Lemmas.Transfers
import Dhtsim.Lemmas.Senders
import Dhtsim.Lemmas.Rounds
import Dhtsim.Theorems.Ordering
import Dhtsim.Lib.Contracts
import Dhtsim.Lib.Client
import Dhtsim.Model.Experiment
import Dhtsim.Lemmas.Population
import Dhtsim.Lemmas.Course
import Dhtsim.Theorems.Experiment
import Dhtsim.Lemmas.Fetches
import Dhtsim.Theorems.Fetches
import Dhtsim.Lib.Pattern
import Dhtsim.Model.Plots
import Dhtsim.Theorems.Plots
