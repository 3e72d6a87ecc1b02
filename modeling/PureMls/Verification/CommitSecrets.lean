import PureMls.Verification.Races

/-! # Recovering the commit secret

Whoever is in the group before and after a commit gets the committer's secret out of a ciphertext
that was sealed to its own key. -/

namespace PureMls

open RatchetTree MLSGroup

variable {C : Crypto} {sender receiver : MLSGroup} {coins : CommitCoins}
  {p : Proposal} {committed : Committed}

namespace Built

variable (r : Built C sender coins p committed)

end Built

namespace Sample

end Sample

end PureMls
