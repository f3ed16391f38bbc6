import HeaderChain.Chain.Offer
import HeaderChain.Chain.Seed
import HeaderChain.ConfigFile
import HeaderChain.Proofs.Adoption
import HeaderChain.Proofs.Agreement
import HeaderChain.Proofs.Ancestry
import HeaderChain.Proofs.BlockTree
import HeaderChain.Proofs.Branch
import HeaderChain.Proofs.Buckets
import HeaderChain.Proofs.Canonical
import HeaderChain.Proofs.Damage
import HeaderChain.Proofs.Depth
import HeaderChain.Proofs.Determined
import HeaderChain.Proofs.DirectChild
import HeaderChain.Proofs.Enclosed
import HeaderChain.Proofs.Era
import HeaderChain.Proofs.FailedOpening
import HeaderChain.Proofs.Failure
import HeaderChain.Proofs.FiniteTree
import HeaderChain.Proofs.ForkPoint
import HeaderChain.Proofs.Heaviest
import HeaderChain.Proofs.Index
import HeaderChain.Proofs.Inert
import HeaderChain.Proofs.Journal
import HeaderChain.Proofs.Json
import HeaderChain.Proofs.Leeway
import HeaderChain.Proofs.Lookup
import HeaderChain.Proofs.Metrics
import HeaderChain.Proofs.Offer
import HeaderChain.Proofs.Opening
import HeaderChain.Proofs.Partition
import HeaderChain.Proofs.Peak
import HeaderChain.Proofs.Provenance
import HeaderChain.Proofs.Reachable
import HeaderChain.Proofs.Reading
import HeaderChain.Proofs.Records
import HeaderChain.Proofs.Registers
import HeaderChain.Proofs.Reopening
import HeaderChain.Proofs.Reorganisation
import HeaderChain.Proofs.Reseeding
import HeaderChain.Proofs.Restart
import HeaderChain.Proofs.Restored
import HeaderChain.Proofs.Retention
import HeaderChain.Proofs.Rewriting
import HeaderChain.Proofs.RoundTrip
import HeaderChain.Proofs.Seed
import HeaderChain.Proofs.Served
import HeaderChain.Proofs.Session
import HeaderChain.Proofs.Spelling
import HeaderChain.Proofs.Stored
import HeaderChain.Proofs.Sync
import HeaderChain.Proofs.Takeover
import HeaderChain.Proofs.Tally
import HeaderChain.Proofs.Termination
import HeaderChain.Proofs.Window
import HeaderChain.Sample
