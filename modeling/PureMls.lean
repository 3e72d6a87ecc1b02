import PureMls.Verification.Adoption
import PureMls.Verification.Histories
import PureMls.Verification.Advertisements
import PureMls.Verification.CliSessions
import PureMls.Verification.Storage
import PureMls.Verification.Agreement
import PureMls.Verification.Membership
import PureMls.Verification.ParentHashes
import PureMls.Verification.Truncation
import PureMls.Verification.TreeBinding
import PureMls.Verification.SubtreeHashes
import PureMls.Verification.CheckOrder
import PureMls.Verification.Malleability
import PureMls.Verification.LeafSignatures
import PureMls.Verification.Psks
import PureMls.Verification.ParsedTrees
import PureMls.Verification.Races
import PureMls.Verification.Generations
import PureMls.Verification.Repeats
import PureMls.Verification.Replay
import PureMls.Verification.Structures
import PureMls.Verification.KeyPackages
import PureMls.Verification.Extensions
import PureMls.Verification.Termination
import PureMls.Verification.Secrecy
import PureMls.Verification.ProposalCodec
import PureMls.Verification.Prefixes
import PureMls.Verification.CommitSecrets
import PureMls.Verification.Entering
import PureMls.Verification.Ratchets
import PureMls.Verification.Openings
import PureMls.Verification.Envelopes
import PureMls.Verification.WireFields
import PureMls.Verification.VarInts
import PureMls.Verification.FailedAdds
import PureMls.Verification.FilteredPaths
import PureMls.Verification.Removals
import PureMls.Verification.LeafPaths
import PureMls.Verification.MalformedInput
