import LayeredMultimap.Session
import LayeredMultimap.Value.Event
import LayeredMultimap.Proofs.Recast
import LayeredMultimap.Proofs.Fusion
import LayeredMultimap.Proofs.Flat.Refinement
import LayeredMultimap.Proofs.Ghost.Session
import LayeredMultimap.Proofs.Passage
import LayeredMultimap.Proofs.Additions
import LayeredMultimap.Proofs.Recast.Success
import LayeredMultimap.Proofs.Recast.Order
import LayeredMultimap.Proofs.Forwarding
import LayeredMultimap.Proofs.Forwarding.Session
import LayeredMultimap.Proofs.Stopping
import LayeredMultimap.Proofs.Stored.Refusal
import LayeredMultimap.Proofs.Stored.Output
import LayeredMultimap.Proofs.Calls
import LayeredMultimap.Proofs.Condensing
import LayeredMultimap.Proofs.Condensing.Session
import LayeredMultimap.Proofs.Change
import LayeredMultimap.Proofs.Representation
import LayeredMultimap.Proofs.Reads
import LayeredMultimap.Proofs.Pouring
import LayeredMultimap.Proofs.Pouring.Schedule
import LayeredMultimap.Proofs.Reported
import LayeredMultimap.Proofs.Groups
import LayeredMultimap.Proofs.Filling
import LayeredMultimap.Proofs.Filling.Merge
import LayeredMultimap.Proofs.Recast.Repeated
import LayeredMultimap.Proofs.Reordering.Puts
import LayeredMultimap.Proofs.Undoing
import LayeredMultimap.Proofs.Building
import LayeredMultimap.Proofs.Connectives.Negation
import LayeredMultimap.Proofs.Connectives.Iteration
import LayeredMultimap.Proofs.Chaining
import LayeredMultimap.Proofs.Account
