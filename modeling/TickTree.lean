import TickTree.Compile
import TickTree.Json.Reader
import TickTree.Operation
import TickTree.Random.Keystream
import TickTree.Main
import TickTree.Patrol.Drill
import TickTree.Script.Handles
import TickTree.Script.Scenario
import TickTree.Proofs.Meaning
import TickTree.Proofs.Suspension
import TickTree.Proofs.Protocol
import TickTree.Proofs.Sessions
import TickTree.Proofs.Courses
import TickTree.Proofs.Errands
import TickTree.Proofs.Contracts
import TickTree.Proofs.Soundness
import TickTree.Proofs.Privacy
import TickTree.Proofs.Interference
import TickTree.Proofs.Persistence
import TickTree.Proofs.Stranding
import TickTree.Proofs.Faults
import TickTree.Proofs.Reentrancy
import TickTree.Proofs.Leftovers
import TickTree.Proofs.Vantage
import TickTree.Proofs.Duties
import TickTree.Proofs.Squads
import TickTree.Proofs.Placement
import TickTree.Proofs.Termination
import TickTree.Proofs.Budgets
import TickTree.Proofs.Unwinding
import TickTree.Proofs.Jumps
import TickTree.Proofs.Weights
import TickTree.Proofs.Refactoring
import TickTree.Proofs.Laps
import TickTree.Proofs.Counting
import TickTree.Proofs.Goals
import TickTree.Proofs.Entrances
import TickTree.Proofs.Ledgers
import TickTree.Proofs.Listings
import TickTree.Proofs.SharedBoards
import TickTree.Proofs.Snapshots
