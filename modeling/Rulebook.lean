import Rulebook.Main
import Rulebook.Service
import Rulebook.Proofs.Batch
import Rulebook.Proofs.Feel.Printing
import Rulebook.Proofs.Feel.Plain
import Rulebook.Proofs.Agreement
import Rulebook.Proofs.Reach
import Rulebook.Proofs.Json.RoundTrip
import Rulebook.Proofs.Json.Data
import Rulebook.Proofs.Request.Whole
import Rulebook.Proofs.Feel.Refusal
import Rulebook.Proofs.Feel.Positions
import Rulebook.Proofs.Selection
import Rulebook.Proofs.Settings.Save
import Rulebook.Proofs.Feel.Enclosed
import Rulebook.Proofs.Feel.Settled
import Rulebook.Proofs.Feel.Respaced
import Rulebook.Proofs.Feel.Numbered
import Rulebook.Proofs.Feel.Quoted
import Rulebook.Proofs.TextKey
import Rulebook.Proofs.Feel.Clock
import Rulebook.Proofs.Feel.Member
import Rulebook.Proofs.Verification
import Rulebook.Proofs.Changes
import Rulebook.Proofs.MapOrder
import Rulebook.Proofs.Now
import Rulebook.Proofs.Time.Calendar
import Rulebook.Proofs.Settings.Search
import Rulebook.Proofs.Explanation
import Rulebook.Proofs.Json.Skip
import Rulebook.Proofs.Request.Strays
import Rulebook.Proofs.Definitions
import Rulebook.Proofs.Feel.Closing
import Rulebook.Proofs.Feel.Named
import Rulebook.Proofs.Feel.Blamed
