import SlotSymmetry.Perm.Cycles
import SlotSymmetry.Perm.Power
import SlotSymmetry.Perm.Compare
import SlotSymmetry.Perm.Sorting
import SlotSymmetry.Perm.Slots
import SlotSymmetry.Perm.Display
import SlotSymmetry.Perm.Stored
import SlotSymmetry.Perm.Generated
import SlotSymmetry.Perm.Record
import SlotSymmetry.Orbit.Partition
import SlotSymmetry.Orbit.Schreier
import SlotSymmetry.Orbit.Stored
import SlotSymmetry.Chain.Build
import SlotSymmetry.Chain.Stored
import SlotSymmetry.Search.Criteria
import SlotSymmetry.Group.SignKernel
import SlotSymmetry.Group.Cosets
import SlotSymmetry.Group.Intersection
import SlotSymmetry.Group.Setwise
import SlotSymmetry.Group.Elements
import SlotSymmetry.Proofs.Chain.Factorization
import SlotSymmetry.Proofs.Chain.Decomposition
import SlotSymmetry.Proofs.Chain.Shape
import SlotSymmetry.Proofs.Chain.Termination
import SlotSymmetry.Proofs.Group.Derived
import SlotSymmetry.Proofs.Group.Cosets
import SlotSymmetry.Proofs.Group.PointStabilizer
import SlotSymmetry.Proofs.Group.SymmetricPart
import SlotSymmetry.Proofs.Group.Standard
import SlotSymmetry.Proofs.Group.Enumeration
import SlotSymmetry.Proofs.Search.Exact
import SlotSymmetry.Proofs.Search.Calls
import SlotSymmetry.Proofs.Search.Criteria
import SlotSymmetry.Proofs.Group.Limited
import SlotSymmetry.Proofs.Group.Inclusion
import SlotSymmetry.Proofs.Group.Orbits
import SlotSymmetry.Proofs.Group.Join
import SlotSymmetry.Proofs.Group.Sampling
import SlotSymmetry.Proofs.Orbit.Words
import SlotSymmetry.Proofs.Orbit.Discovery
import SlotSymmetry.Proofs.Perm.Inversions
import SlotSymmetry.Proofs.Perm.Slots
import SlotSymmetry.Proofs.Group.Sessions
import SlotSymmetry.Proofs.Perm.Unchecked
