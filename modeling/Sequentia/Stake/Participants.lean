import Sequentia.Crypto
import Sequentia.Stake.Registry

/-!
# Who takes part in a pool

A controller takes part in a signer's pool with the weight that stood behind the pool
before a given height. Configured weights and tranches are added as unsigned 64-bit
numbers.
-/

namespace Sequentia

open Std KeyedMap

namespace StakeRegistry

variable (r : StakeRegistry)

/-- `WeightBefore`: the weight of a controller from stake created strictly before
`height`. -/
def weightBefore (controller : CPubKey) (height : ℕ) : ℕ :=
  let config := if 0 < height then r.config.getD controller 0 else 0
  let tranches := (r.stake.tranches.getD controller ∅).toList.takeWhile fun b => b.1 < height
  toUint64 (config + (tranches.map Prod.snd).sum)

/-- The conditions under which `ParticipantsBefore` lists a controller. -/
def takesPart (signer : CPubKey) (height : ℕ) (c : CPubKey) : Bool :=
  r.signerFor c == signer &&
    (c == signer || (r.deleg.delegHeight[c]?).any fun h => h < height) &&
    decide (0 < r.weightBefore c height)

/-- `ParticipantsBefore`: every controller whose weight counts for `signer` now and did
before `height`. -/
def participantsBefore (signer : CPubKey) (height : ℕ) : ExtTreeMap CPubKey ℕ :=
  (r.config.keys ++ r.stake.tranches.keys).foldl
    (fun out c => if r.takesPart signer height c then out.insert c (r.weightBefore c height)
      else out) ∅

end StakeRegistry

end Sequentia
