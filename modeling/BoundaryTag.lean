import BoundaryTag.Block.Lemmas
import BoundaryTag.Region.Lemmas
import BoundaryTag.Heap.Resize
import BoundaryTag.Audit
import BoundaryTag.Proofs.Merging
import BoundaryTag.Proofs.Settlement
import BoundaryTag.Proofs.Carving
import BoundaryTag.Proofs.Freeing
import BoundaryTag.Proofs.Resizing
import BoundaryTag.Proofs.Growth
import BoundaryTag.Proofs.Allocation
import BoundaryTag.Proofs.Reallocation
import BoundaryTag.Proofs.Sessions
import BoundaryTag.Proofs.Walks
import BoundaryTag.Proofs.Consistency
import BoundaryTag.Proofs.Framing
import BoundaryTag.Proofs.Journal
import BoundaryTag.Proofs.Refusals
import BoundaryTag.Proofs.Trails
import BoundaryTag.Proofs.Verdicts
import BoundaryTag.Proofs.Confinement
import BoundaryTag.Proofs.Stopping
import BoundaryTag.Proofs.Founding
import BoundaryTag.Proofs.Damage
import BoundaryTag.Proofs.Clearance
import BoundaryTag.Proofs.Sharing
import BoundaryTag.Proofs.Shifting
import BoundaryTag.Proofs.Twins
import BoundaryTag.Proofs.Independence
import BoundaryTag.Proofs.Exactness
import BoundaryTag.Proofs.Coexistence
import BoundaryTag.Proofs.Joining
import BoundaryTag.Proofs.Inventory
import BoundaryTag.Proofs.Placement
import BoundaryTag.Proofs.Reshaping
import BoundaryTag.Proofs.Recycling
import BoundaryTag.Proofs.Clearing
import BoundaryTag.Proofs.Fragmentation
import BoundaryTag.Proofs.Accounting
import BoundaryTag.Proofs.Misalignment
import BoundaryTag.Proofs.Rounding
import BoundaryTag.Proofs.Handouts
import BoundaryTag.Proofs.Attempts
