import Sequentia.Swaps.Secret
import Sequentia.Lib.Runs
import Mathlib.Logic.Function.Basic

/-!
# The two legs of a funded swap

Once the asset leg is funded, the maker may claim it with the secret at any time, and may take its
own Bitcoin back once the Bitcoin timelock has passed; the node takes the asset back once the other
timelock has passed, and the Bitcoin once the secret is out. The node's checks never compare the two
timelocks. With resume passes between blocks and blocks that confirm what the node sends, the maker
can have both legs only if Bitcoin reaches its timelock before Sequentia reaches its own, or if the
node cannot pay for what it has to send.
-/

namespace Sequentia

open Option

/-- Where a leg of the swap is. -/
inductive LegState
  /-- In the contract. -/
  | locked
  | claimed
  /-- Taken back by the timelock branch: the asset by the node, the Bitcoin by the maker. -/
  | refunded
  deriving DecidableEq

/-- What a block does to a leg. -/
inductive LegSpend
  | none | claim | refund
  deriving DecidableEq

def locktimeThreshold : ℕ := 500000000

/-- A transaction with the locktime may be in the block at the height, whose predecessors have the
median time. -/
def locktimeFinal (locktime height time : ℕ) : Prop :=
  if locktime < locktimeThreshold then locktime < height else locktime < time

instance (locktime height time : ℕ) : Decidable (locktimeFinal locktime height time) :=
  inferInstanceAs (Decidable (if locktime < locktimeThreshold then _ else _))

def claimVsize : ℤ := 175

/-- A funded swap, the two chains, and what the node has sent. -/
structure AtomicState where
  swap : XchainSwap
  /-- The output that holds the asset. -/
  target : COutPoint
  /-- The node's chain. -/
  chain : SwapChain
  /-- The height of the parent chain. -/
  btcHeight : ℕ
  asset : LegState
  btc : LegState
  claimSent : Bool
  refundSent : Bool
  /-- No resume pass has run since the last block. -/
  due : Bool

/-- What can happen next. -/
inductive AtomicEvent
  | seqBlock (txs : List CTransaction) (time : ℕ) (spend : LegSpend)
  | btcBlock (time : ℕ) (spend : LegSpend)
  /-- A resume pass, with the parent's fee rate, the id of what it sends, and what keeps the wallet
  from building a refund. -/
  | pass (now feerate : ℤ) (txid : Uint256) (refundError : Option String)

def Spends (txs : List CTransaction) (target : COutPoint) : Prop :=
  ∃ tx ∈ txs, ∃ txin ∈ tx.vin, txin.prevout = target

instance (txs : List CTransaction) (target : COutPoint) : Decidable (Spends txs target) :=
  inferInstanceAs (Decidable (∃ tx ∈ txs, ∃ txin ∈ tx.vin, _))

/-- The transactions spend the output by the hashlock branch. -/
def Reveals (crypto : Crypto) (hashH : Bytes) (txs : List CTransaction) (target : COutPoint) :
    Prop :=
  ∃ tx ∈ txs, ∃ txin ∈ tx.vin, txin.prevout = target ∧ RevealsSecret crypto hashH txin.scriptSig

instance (crypto : Crypto) (hashH : Bytes) (scriptSig : CScript) :
    Decidable (RevealsSecret crypto hashH scriptSig) :=
  inferInstanceAs (Decidable (∃ token ∈ readableTokens scriptSig.length scriptSig, _))

instance (crypto : Crypto) (hashH : Bytes) (txs : List CTransaction) (target : COutPoint) :
    Decidable (Reveals crypto hashH txs target) :=
  inferInstanceAs (Decidable (∃ tx ∈ txs, ∃ txin ∈ tx.vin, _ ∧ _))

/-- The chain with a block on top that leaves the output alone. -/
def SwapChain.extend (chain : SwapChain) (txs : List CTransaction) : SwapChain :=
  { chain with
    lastBlockHeight := chain.lastBlockHeight + 1
    block := Function.update chain.block (chain.lastBlockHeight + 1) txs
    readable := Function.update chain.readable (chain.lastBlockHeight + 1) true }

/-- The chain once the output is spent. -/
def SwapChain.spend (chain : SwapChain) (target : COutPoint) : SwapChain :=
  { chain with unspent := Function.update chain.unspent target false }

/-- What the resume pass finds. -/
def AtomicState.view (st : AtomicState) (now feerate : ℤ) (txid : Uint256)
    (refundError : Option String) : ResumeView where
  now := now
  chain := st.chain
  claimBtcLeg s :=
    if s.btcAmount ≤ feerate * claimVsize then
      .error ("the Bitcoin leg (" ++ toString s.btcAmount ++
        ") does not cover the fee to claim it (" ++ toString (feerate * claimVsize) ++ ")")
    else if st.btc = .locked then .ok txid
    else .error "the parent chain refused the claim: "
  refundSeqLeg _ :=
    if st.chain.unspent st.target then
      match refundError with
      | some error => .error error
      | none => .ok txid
    else .error "already spent"

def AtomicState.next (crypto : Crypto) (st : AtomicState) : AtomicEvent → Option AtomicState
  | .seqBlock txs _ .none =>
    if Spends txs st.target then none
    else some { st with chain := st.chain.extend txs, due := true }
  | .seqBlock txs _ .claim =>
    if st.asset = .locked ∧ Reveals crypto st.swap.hashH txs st.target then
      some { st with
        chain := (st.chain.extend txs).spend st.target
        asset := .claimed
        due := true }
    else none
  | .seqBlock txs time .refund =>
    if st.asset = .locked ∧ st.refundSent = true ∧
        locktimeFinal st.swap.seqLocktime (st.chain.lastBlockHeight + 1) time then
      some { st with
        chain := (st.chain.extend txs).spend st.target
        asset := .refunded
        due := true }
    else none
  | .btcBlock _ .none => some { st with btcHeight := st.btcHeight + 1, due := true }
  | .btcBlock _ .claim =>
    if st.btc = .locked ∧ st.claimSent = true then
      some { st with btcHeight := st.btcHeight + 1, btc := .claimed, due := true }
    else none
  | .btcBlock time .refund =>
    if st.btc = .locked ∧ locktimeFinal st.swap.btcLocktime (st.btcHeight + 1) time then
      some { st with btcHeight := st.btcHeight + 1, btc := .refunded, due := true }
    else none
  | .pass now feerate txid refundError =>
    let s := (resumeSwap crypto (st.view now feerate txid refundError) st.swap).1
    some { st with
      swap := s
      claimSent := st.claimSent || (st.swap.state = .seqFunded && s.state = .btcClaimed)
      refundSent := st.refundSent || (st.swap.state = .seqFunded && s.state = .refunded)
      due := false }

/-- The asset leg has just been funded, with whatever terms the maker sent. -/
structure AtomicState.JustFunded (st : AtomicState) : Prop where
  state : st.swap.state = .seqFunded
  outpoint : st.swap.fundingOutpoint = some st.target
  preimage : st.swap.preimage = []
  btcClaimTxid : st.swap.btcClaimTxid = none
  /-- Both legs are locked, and nothing was sent. -/
  asset : st.asset = .locked
  btc : st.btc = .locked
  claimSent : st.claimSent = false
  refundSent : st.refundSent = false
  due : st.due = true
  unspent : st.chain.unspent st.target = true
  unspentBy : ∀ h ≤ st.chain.lastBlockHeight, ¬ Spends (st.chain.block h) st.target

/-- The runs of a funded swap. -/
def atomicMachine (crypto : Crypto) : Machine AtomicState AtomicEvent where
  init := AtomicState.JustFunded
  next := AtomicState.next crypto

/-- The resume pass runs between any two blocks, and a block confirms what the node has sent. -/
def AtomicState.Prompt (st : AtomicState) : AtomicEvent → Prop
  | .seqBlock _ time spend => st.due = false ∧
      (st.refundSent = true ∧ st.asset = .locked ∧
        locktimeFinal st.swap.seqLocktime (st.chain.lastBlockHeight + 1) time → spend = .refund)
  | .btcBlock _ spend => st.due = false ∧
      (st.claimSent = true ∧ st.btc = .locked → spend = .claim)
  | .pass _ _ _ _ => True

instance (st : AtomicState) (event : AtomicEvent) : Decidable (st.Prompt event) :=
  match event with
  | .seqBlock _ _ _ => inferInstanceAs (Decidable (_ ∧ _))
  | .btcBlock _ _ => inferInstanceAs (Decidable (_ ∧ _))
  | .pass _ _ _ _ => inferInstanceAs (Decidable True)

/-- The timelocks come in the right order and the node can pay for what it sends: the asset's
timelock is a height, Bitcoin does not pass its own timelock below that height, and neither the
claim nor the refund fails for its fee. -/
def AtomicState.InTime (st : AtomicState) : AtomicEvent → Prop
  | .seqBlock _ _ _ => st.swap.seqLocktime < locktimeThreshold
  | .btcBlock time _ => st.chain.lastBlockHeight < st.swap.seqLocktime →
      ¬ locktimeFinal st.swap.btcLocktime (st.btcHeight + 1) time
  | .pass _ feerate _ refundError =>
      feerate * claimVsize < st.swap.btcAmount ∧ refundError = none

instance (st : AtomicState) (event : AtomicEvent) : Decidable (st.InTime event) :=
  match event with
  | .seqBlock _ _ _ => inferInstanceAs (Decidable (_ < _))
  | .btcBlock _ _ => inferInstanceAs (Decidable (_ → _))
  | .pass _ _ _ _ => inferInstanceAs (Decidable (_ ∧ _))

def AtomicState.Timely (st : AtomicState) (event : AtomicEvent) : Prop :=
  st.Prompt event ∧ st.InTime event

instance (st : AtomicState) (event : AtomicEvent) : Decidable (st.Timely event) :=
  inferInstanceAs (Decidable (_ ∧ _))

def AtomicState.NodeHolds (st : AtomicState) : Prop := st.asset = .refunded ∨ st.btc = .claimed

section Pass

variable {crypto : Crypto} {view : ResumeView} {s : XchainSwap}

/-- A finished record is left alone. -/
theorem resumeSwap_of_terminal (hterminal : s.terminal = true) :
    (resumeSwap crypto view s).1 = s := by
  unfold resumeSwap
  rw [if_pos hterminal]

theorem state_resumeSwap_claim {txid : Uint256} (hstate : s.state = .seqFunded)
    (hunclaimed : s.btcClaimTxid = none)
    (hsecret : (takeSecret crypto view.chain s).preimage.length = 32)
    (hclaim : view.claimBtcLeg (takeSecret crypto view.chain s) = .ok txid) :
    (resumeSwap crypto view s).1.state = .btcClaimed := by
  have hnone : (takeSecret crypto view.chain s).btcClaimTxid = none := by
    rw [takeSecret_eq]
    exact hunclaimed
  unfold resumeSwap
  rw [if_neg (by simp [XchainSwap.terminal, hstate]), if_neg (not_not.mpr hstate)]
  dsimp only
  rw [if_pos ⟨hsecret, hnone⟩, hclaim]

end Pass

/-- While the asset is in the contract, the Bitcoin is too unless the refund is on its way. -/
structure AtomicState.Waiting (st : AtomicState) : Prop where
  outpoint : st.swap.fundingOutpoint = some st.target
  preimage : st.swap.preimage = []
  btcClaimTxid : st.swap.btcClaimTxid = none
  claimSent : st.claimSent = false
  unspent : st.chain.unspent st.target = true
  unspentBy : ∀ h ≤ st.chain.lastBlockHeight, ¬ Spends (st.chain.block h) st.target
  progress : st.swap.state = .seqFunded ∧ st.refundSent = false ∧ st.btc = .locked ∨
    st.swap.state = .refunded ∧ st.refundSent = true ∧
      st.swap.seqLocktime ≤ st.chain.lastBlockHeight
  /-- After a pass, the refund has been sent if it was time. -/
  sent : st.due = false → st.refundSent = true ∨ st.chain.lastBlockHeight < st.swap.seqLocktime

/-- The maker has just claimed the asset, in the block on top of the chain. -/
structure AtomicState.JustClaimed (crypto : Crypto) (st : AtomicState) : Prop where
  due : st.due = true
  btc : st.btc = .locked
  state : st.swap.state = .seqFunded
  outpoint : st.swap.fundingOutpoint = some st.target
  preimage : st.swap.preimage = []
  btcClaimTxid : st.swap.btcClaimTxid = none
  claimed : ClaimedAt crypto st.chain st.target st.swap.hashH st.chain.lastBlockHeight
  readable : st.chain.readable st.chain.lastBlockHeight = true

/-- The swap is safe: the node can still get one of the legs. -/
def AtomicState.Safe (crypto : Crypto) (st : AtomicState) : Prop :=
  match st.asset with
  | .locked => st.Waiting
  | .claimed => st.JustClaimed crypto ∨ st.claimSent = true ∧ st.btc ≠ .refunded
  | .refunded => True

section Steps

variable {crypto : Crypto} {st : AtomicState}

theorem AtomicState.asset_cases (st : AtomicState) :
    st.asset = .locked ∨ st.asset = .claimed ∨ st.asset = .refunded := by
  cases st.asset <;> simp

theorem safe_of_locked (hasset : st.asset = .locked) : st.Safe crypto ↔ st.Waiting := by
  rw [AtomicState.Safe, hasset]

theorem safe_of_claimed (hasset : st.asset = .claimed) :
    st.Safe crypto ↔ st.JustClaimed crypto ∨ st.claimSent = true ∧ st.btc ≠ .refunded := by
  rw [AtomicState.Safe, hasset]

theorem safe_of_refunded (hasset : st.asset = .refunded) : st.Safe crypto := by
  rw [AtomicState.Safe, hasset]
  trivial

theorem AtomicState.Safe.claimSent (hsafe : st.Safe crypto) (hasset : st.asset = .claimed)
    (hdue : st.due = false) : st.claimSent = true ∧ st.btc ≠ .refunded := by
  rcases (safe_of_claimed hasset).mp hsafe with hjust | hsent
  · rw [hjust.due] at hdue
    cases hdue
  · exact hsent

/-- A block that leaves the leg alone. -/
theorem AtomicState.Waiting.extend (hwaiting : st.Waiting) {txs : List CTransaction}
    (hspends : ¬ Spends txs st.target) :
    AtomicState.Waiting { st with chain := st.chain.extend txs, due := true } where
  outpoint := hwaiting.outpoint
  preimage := hwaiting.preimage
  btcClaimTxid := hwaiting.btcClaimTxid
  claimSent := hwaiting.claimSent
  unspent := hwaiting.unspent
  unspentBy h hle := by
    simp only [SwapChain.extend, Function.update_apply] at hle ⊢
    split
    · exact hspends
    · exact hwaiting.unspentBy h (by omega)
  progress := hwaiting.progress.imp_right fun hsent =>
    ⟨hsent.1, hsent.2.1, Nat.le_succ_of_le hsent.2.2⟩
  sent hdue := by cases hdue

theorem AtomicState.Waiting.claimedAt (hwaiting : st.Waiting) {txs : List CTransaction}
    (hreveals : Reveals crypto st.swap.hashH txs st.target) :
    ClaimedAt crypto ((st.chain.extend txs).spend st.target) st.target st.swap.hashH
      (st.chain.lastBlockHeight + 1) where
  height_le := le_refl _
  spent := by simp [SwapChain.spend]
  reveals := by
    simp only [SwapChain.spend, SwapChain.extend, Function.update_self]
    exact hreveals
  once h hle tx htx txin htxin hprevout := by
    simp only [SwapChain.spend, SwapChain.extend, Function.update_apply] at hle htx
    split at htx
    · assumption
    · exact absurd ⟨tx, htx, txin, htxin, hprevout⟩ (hwaiting.unspentBy h (by omega))

/-- A pass while the asset is in the contract sends the refund once it is time. -/
theorem AtomicState.Waiting.pass (hwaiting : st.Waiting) (now feerate : ℤ) (txid : Uint256)
    {st' : AtomicState} (hnext : st.next crypto (.pass now feerate txid none) = some st')
    (hasset : st.asset = .locked) : st'.Waiting ∧ st'.asset = .locked := by
  -- While the leg is unspent there is no secret to find.
  have hsecret : takeSecret crypto (st.view now feerate txid none).chain st.swap = st.swap := by
    change takeSecret crypto st.chain st.swap = st.swap
    unfold takeSecret findPreimageOnChain
    simp only [hwaiting.outpoint, bind_some, hwaiting.unspent, if_true, ite_self]
  simp only [AtomicState.next, Option.some.injEq] at hnext
  subst hnext
  refine ⟨?_, hasset⟩
  rcases hwaiting.progress with ⟨hstate, hunsent, hbtc⟩ | ⟨hstate, hsent, hheight⟩
  · by_cases hheight : st.swap.seqLocktime ≤ st.chain.lastBlockHeight
    · -- The pass sends the refund.
      have hrefund : (st.view now feerate txid none).refundSeqLeg st.swap = .ok txid := by
        simp only [AtomicState.view, hwaiting.unspent, if_true]
      have hresume : (resumeSwap crypto (st.view now feerate txid none) st.swap).1 =
          { st.swap with seqRefundTxid := some txid, state := .refunded } := by
        unfold resumeSwap
        rw [if_neg (by simp [XchainSwap.terminal, hstate]), if_neg (not_not.mpr hstate)]
        dsimp only
        rw [hsecret, if_neg (by simp [hwaiting.preimage]), if_pos ⟨hwaiting.preimage, hheight⟩,
          hrefund]
      rw [hresume]
      exact {
        outpoint := hwaiting.outpoint
        preimage := hwaiting.preimage
        btcClaimTxid := hwaiting.btcClaimTxid
        claimSent := by simp [hwaiting.claimSent]
        unspent := hwaiting.unspent
        unspentBy := hwaiting.unspentBy
        progress := Or.inr ⟨rfl, by simp [hstate], hheight⟩
        sent := fun _ => Or.inl (by simp [hstate]) }
    · have hresume : (resumeSwap crypto (st.view now feerate txid none) st.swap).1 = st.swap := by
        unfold resumeSwap
        rw [if_neg (by simp [XchainSwap.terminal, hstate]), if_neg (not_not.mpr hstate)]
        dsimp only
        rw [hsecret, if_neg (by simp [hwaiting.preimage]), if_neg fun h => hheight h.2]
      rw [hresume]
      exact { hwaiting with
        claimSent := by simp [hwaiting.claimSent, hstate]
        progress := Or.inl ⟨hstate, by simp [hunsent, hstate], hbtc⟩
        sent := fun _ => Or.inr (not_le.mp hheight) }
  · have hresume : (resumeSwap crypto (st.view now feerate txid none) st.swap).1 = st.swap :=
      resumeSwap_of_terminal (by simp [XchainSwap.terminal, hstate])
    rw [hresume]
    exact { hwaiting with
      claimSent := by simp [hwaiting.claimSent, hstate]
      progress := Or.inr ⟨hstate, by simp [hsent], hheight⟩
      sent := fun _ => Or.inl (by simp [hsent]) }

theorem AtomicState.JustClaimed.pass (hjust : st.JustClaimed crypto) {now feerate : ℤ}
    {txid : Uint256} {refundError : Option String}
    (hfee : feerate * claimVsize < st.swap.btcAmount) :
    (resumeSwap crypto (st.view now feerate txid refundError) st.swap).1.state = .btcClaimed := by
  have hfound := (findPreimageOnChain_isSome_iff hjust.outpoint hjust.claimed).mpr
    ⟨by omega, hjust.readable⟩
  obtain ⟨found, hfound⟩ := isSome_iff_exists.mp hfound
  have hlength : (takeSecret crypto st.chain st.swap).preimage.length = 32 := by
    rw [preimage_takeSecret, if_pos (by simp [hjust.preimage]), hfound]
    exact (isSecret_of_findPreimageOnChain hfound).1
  have hamount : (takeSecret crypto st.chain st.swap).btcAmount = st.swap.btcAmount := by
    rw [takeSecret_eq]
  have hclaim : (st.view now feerate txid refundError).claimBtcLeg
      (takeSecret crypto st.chain st.swap) = .ok txid := by
    simp only [AtomicState.view, hamount, hjust.btc, if_true]
    rw [if_neg (not_le.mpr hfee)]
  exact state_resumeSwap_claim hjust.state hjust.btcClaimTxid hlength hclaim

theorem AtomicState.Safe.next (hsafe : st.Safe crypto) {event : AtomicEvent} {st' : AtomicState}
    (hprompt : st.Prompt event) (htime : st.InTime event)
    (hnext : st.next crypto event = some st') : st'.Safe crypto := by
  cases event with
  | seqBlock txs time spend =>
    cases spend with
    | none =>
      obtain ⟨hspends, hst'⟩ := ite_none_left_eq_some.mp hnext
      cases hst'
      rcases st.asset_cases with hasset | hasset | hasset
      · exact (safe_of_locked (by exact hasset)).mpr
          (((safe_of_locked hasset).mp hsafe).extend hspends)
      · exact (safe_of_claimed (by exact hasset)).mpr (Or.inr (hsafe.claimSent hasset hprompt.1))
      · exact safe_of_refunded (by exact hasset)
    | claim =>
      obtain ⟨⟨hasset, hreveals⟩, hst'⟩ := ite_none_right_eq_some.mp hnext
      cases hst'
      have hwaiting := (safe_of_locked hasset).mp hsafe
      rcases hwaiting.progress with ⟨hstate, -, hbtc⟩ | ⟨-, hsent, hheight⟩
      · exact Or.inl {
          due := rfl
          btc := hbtc
          state := hstate
          outpoint := hwaiting.outpoint
          preimage := hwaiting.preimage
          btcClaimTxid := hwaiting.btcClaimTxid
          claimed := hwaiting.claimedAt hreveals
          readable := by simp [SwapChain.spend, SwapChain.extend] }
      · -- The block would have confirmed the refund.
        have hfinal : locktimeFinal st.swap.seqLocktime (st.chain.lastBlockHeight + 1) time := by
          rw [locktimeFinal, if_pos (by exact htime)]
          omega
        cases hprompt.2 ⟨hsent, hasset, hfinal⟩
    | refund =>
      obtain ⟨-, hst'⟩ := ite_none_right_eq_some.mp hnext
      cases hst'
      trivial
  | btcBlock time spend =>
    cases spend with
    | none =>
      cases hnext
      rcases st.asset_cases with hasset | hasset | hasset
      · exact (safe_of_locked (by exact hasset)).mpr
          { (safe_of_locked hasset).mp hsafe with sent := nofun }
      · exact (safe_of_claimed (by exact hasset)).mpr (Or.inr (hsafe.claimSent hasset hprompt.1))
      · exact safe_of_refunded (by exact hasset)
    | claim =>
      obtain ⟨⟨-, hsent⟩, hst'⟩ := ite_none_right_eq_some.mp hnext
      cases hst'
      rcases st.asset_cases with hasset | hasset | hasset
      · rw [((safe_of_locked hasset).mp hsafe).claimSent] at hsent
        cases hsent
      · exact (safe_of_claimed (by exact hasset)).mpr (Or.inr ⟨hsent, nofun⟩)
      · exact safe_of_refunded (by exact hasset)
    | refund =>
      obtain ⟨⟨hbtc, hfinal⟩, hst'⟩ := ite_none_right_eq_some.mp hnext
      cases hst'
      rcases st.asset_cases with hasset | hasset | hasset
      · have hwaiting := (safe_of_locked hasset).mp hsafe
        refine (safe_of_locked (by exact hasset)).mpr { hwaiting with
          progress := ?_
          sent := nofun }
        rcases hwaiting.progress with ⟨-, hunsent, -⟩ | hsent
        · -- The refund is not yet due, so Bitcoin has not passed its timelock.
          rcases hwaiting.sent hprompt.1 with hsent | hheight
          · rw [hunsent] at hsent
            cases hsent
          · exact absurd hfinal (htime hheight)
        · exact Or.inr hsent
      · cases hprompt.2 ⟨(hsafe.claimSent hasset hprompt.1).1, hbtc⟩
      · exact safe_of_refunded (by exact hasset)
  | pass now feerate txid refundError =>
    obtain ⟨hfee, rfl⟩ := htime
    rcases st.asset_cases with hasset | hasset | hasset
    · obtain ⟨hwaiting, hasset'⟩ := ((safe_of_locked hasset).mp hsafe).pass now feerate txid hnext
        hasset
      exact (safe_of_locked hasset').mpr hwaiting
    · cases hnext
      refine (safe_of_claimed (by exact hasset)).mpr (Or.inr ?_)
      rcases (safe_of_claimed hasset).mp hsafe with hjust | ⟨hsent, hbtc⟩
      · refine ⟨?_, by simp [hjust.btc]⟩
        simp [hjust.state, hjust.pass hfee]
      · exact ⟨by simp [hsent], hbtc⟩
    · cases hnext
      exact safe_of_refunded (by exact hasset)

end Steps

/-- A swap just funded at height 10, with both timelocks at 5000. -/
def sampleAtomic (btcHeight : ℕ) : AtomicState where
  swap := { fundedSwap with btcAmount := 100000 }
  target := ⟨⟨9⟩, 0⟩
  chain := { claimChain 10 with block := fun _ => [], unspent := fun _ => true }
  btcHeight := btcHeight
  asset := .locked
  btc := .locked
  claimSent := false
  refundSent := false
  due := true

theorem justFunded_sampleAtomic (btcHeight : ℕ) : (sampleAtomic btcHeight).JustFunded where
  state := rfl
  outpoint := rfl
  preimage := rfl
  btcClaimTxid := rfl
  asset := rfl
  btc := rfl
  claimSent := rfl
  refundSent := rfl
  due := rfl
  unspent := rfl
  unspentBy _ _ := by
    rintro ⟨tx, htx, -⟩
    cases htx

/-- A resume pass with a fee rate of one satoshi. -/
def samplePass : AtomicEvent := .pass 0 1 ⟨3⟩ none

/-- A block with the maker's claim of the asset. -/
def sampleClaimBlock : AtomicEvent := .seqBlock ((claimChain 10).block 5) 0 .claim

end Sequentia
