import Sequentia.Swaps.Htlc
import Sequentia.Crypto

/-!
# The record of a cross-chain conversion

The node keeps one record of each conversion it starts. It is filled from the maker's terms, checked
against the parent chain, saved at every step and carried on by a resume pass: the pass looks for
the maker's claim on the chain, takes the secret from it, claims the Bitcoin, or takes the asset
back once its timelock has passed.
-/

namespace Sequentia

/-- `XchainSwap::state`. -/
inductive SwapState
  | negotiating | btcLocked | seqFunded | btcClaimed | refunded | failed
  deriving DecidableEq

structure XchainSwap where
  state : SwapState
  /-- `time`, when the conversion began. -/
  time : ℤ
  offerId : String
  asset : CAsset
  /-- `seq_amount`, the asset sold. -/
  seqAmount : ℤ
  /-- `btc_amount`, the Bitcoin agreed. -/
  btcAmount : ℤ
  hashH : Bytes
  makerSeqClaimPub : Bytes
  takerSeqRefundPub : Bytes
  takerBtcClaimPub : Bytes
  takerSeqRefundPriv : Bytes
  takerBtcClaimPriv : Bytes
  seqLocktime : ℕ
  btcLocktime : ℕ
  btcLegScript : CScript
  btcLegHeight : ℤ := 0
  /-- `seq_fund_txid`, nothing while it is the empty text. -/
  seqFundTxid : Option Uint256 := none
  seqFundVout : ℕ := 0
  seqRedeem : CScript := []
  /-- `preimage`, once the maker reveals it. -/
  preimage : Bytes := []
  btcClaimTxid : Option Uint256 := none
  seqRefundTxid : Option Uint256 := none
  error : String := ""
  deriving DecidableEq

def XchainSwap.terminal (s : XchainSwap) : Bool :=
  s.state = .btcClaimed || s.state = .refunded || s.state = .failed

/-- The output that holds the asset, once it is funded. -/
def XchainSwap.fundingOutpoint (s : XchainSwap) : Option COutPoint :=
  s.seqFundTxid.map fun txid => ⟨txid, s.seqFundVout⟩

structure ParentOut where
  found : Bool
  spk : CScript
  value : ℤ
  height : ℤ
  confirmations : ℤ
  deriving DecidableEq

def htlcP2wshSpk (crypto : Crypto) (witnessScript : CScript) : CScript :=
  op0 :: 32 :: crypto.sha256 witnessScript

/-- `CheckMakerBtcLeg`: nothing if the lock is good, otherwise why it is not. -/
def checkMakerBtcLeg (crypto : Crypto) (s : XchainSwap) (out : ParentOut) : Option String :=
  match parseHtlcRedeemScript s.btcLegScript with
  | none => some "the maker's Bitcoin lock is not an HTLC"
  | some terms =>
    if terms.hash ≠ s.hashH then some "the maker's Bitcoin lock uses a different hash"
    else if terms.claimPub ≠ s.takerBtcClaimPub then
      some "the maker's Bitcoin lock cannot be claimed by this wallet"
    else if terms.locktime ≠ s.btcLocktime then
      some "the maker's Bitcoin lock has a different timelock"
    else if !out.found then
      some "could not read the maker's Bitcoin lock from the parent chain"
    else if out.spk ≠ htlcP2wshSpk crypto s.btcLegScript then
      some "the output the maker pointed at does not pay the script it described"
    else if out.value < s.btcAmount then
      some ("the maker locked " ++ toString out.value ++ " satoshis, not the " ++
        toString s.btcAmount ++ " agreed")
    else none

/-- `VerifyMakerBtcLeg`, given what the parent chain says of the output. -/
def verifyMakerBtcLeg (crypto : Crypto) (s : XchainSwap) (out : ParentOut) : Option XchainSwap :=
  if checkMakerBtcLeg crypto s out = none then some { s with btcLegHeight := out.height } else none

theorem found_of_verify {crypto : Crypto} {s s' : XchainSwap} {out : ParentOut}
    (hverify : verifyMakerBtcLeg crypto s out = some s') :
    out.found = true ∧ s' = { s with btcLegHeight := out.height } := by
  obtain ⟨hcheck, hs'⟩ := Option.ite_none_right_eq_some.mp hverify
  refine ⟨?_, (Option.some.inj hs').symm⟩
  by_contra hnot
  revert hcheck
  fun_cases checkMakerBtcLeg <;> intro hcheck <;> try cases hcheck
  next hfound _ _ => exact hfound (by simpa using hnot)

/-- The tokens `GetOp` reads from the front of a script, up to its end or the first push that is
cut short; at most as many as the script has bytes. -/
def readableTokens : ℕ → CScript → List Token
  | 0, _ => []
  | n + 1, script =>
    match getScriptOp script with
    | some (opcode, data, rest) => (opcode, data) :: readableTokens n rest
    | none => []

/-- The active chain as the wallet reads it. -/
structure SwapChain where
  /-- `GetLastBlockHeight`. -/
  lastBlockHeight : ℕ
  block : ℕ → List CTransaction
  /-- Whether the block's data can be read; a block that was pruned reads as an empty one. -/
  readable : ℕ → Bool
  /-- `findCoins` finds the output unspent. -/
  unspent : COutPoint → Bool

def searchHeights (tipHeight : ℕ) : List ℕ :=
  (List.range (min 2000 (tipHeight + 1))).map (tipHeight - ·)

def secretIn (crypto : Crypto) (hashH : Bytes) (scriptSig : CScript) : Option Bytes :=
  ((readableTokens scriptSig.length scriptSig).map Prod.snd).find? fun data =>
    data.length = 32 ∧ crypto.sha256 data = hashH

def findPreimageOnChain (crypto : Crypto) (chain : SwapChain) (s : XchainSwap) : Option Bytes :=
  s.fundingOutpoint.bind fun target =>
    if chain.unspent target then none
    else (searchHeights chain.lastBlockHeight).findSome? fun h =>
      if chain.readable h then
        (chain.block h).findSome? fun tx => tx.vin.findSome? fun txin =>
          if txin.prevout ≠ target then none else secretIn crypto s.hashH txin.scriptSig
      else none

/-- `STRANDED_AFTER_S`: the longest a pass waits for the maker's lock, and an hour. -/
def strandedAfterS : ℤ := 3 * 60 * 60 + 60 * 60

/-- What the resume pass finds when it comes to a record. -/
structure ResumeView where
  /-- `GetTime`. -/
  now : ℤ
  chain : SwapChain
  /-- `ClaimBtcLeg`: the transaction sent, or why none was. -/
  claimBtcLeg : XchainSwap → Except String Uint256
  /-- `RefundSeqLeg`: the transaction sent, or why none was. -/
  refundSeqLeg : XchainSwap → Except String Uint256

/-- The first part of the pass over a funded record: take the secret if the maker has shown it. -/
def takeSecret (crypto : Crypto) (chain : SwapChain) (s : XchainSwap) : XchainSwap :=
  if s.preimage.length ≠ 32 then
    match findPreimageOnChain crypto chain s with
    | some preimage => { s with preimage }
    | none => s
  else s

/-- The body of the loop in `ResumeXchainSwaps`: the record, and whether it makes the file
dirty. -/
def resumeSwap (crypto : Crypto) (view : ResumeView) (s : XchainSwap) : XchainSwap × Bool :=
  if s.terminal then (s, false)
  else if s.state ≠ .seqFunded then
    if 0 < s.time ∧ strandedAfterS < view.now - s.time then
      ({ s with
          state := .failed
          error := "this swap was interrupted before anything of yours was committed, and " ++
            "too long ago to still be in progress; nothing was spent" }, true)
    else (s, false)
  else
    let dirty := s.preimage.length ≠ 32 && (findPreimageOnChain crypto view.chain s).isSome
    let s := takeSecret crypto view.chain s
    if s.preimage.length = 32 ∧ s.btcClaimTxid = none then
      match view.claimBtcLeg s with
      | .ok txid => ({ s with btcClaimTxid := some txid, state := .btcClaimed }, true)
      | .error error => ({ s with error }, true)
    else if s.preimage = [] ∧ s.seqLocktime ≤ view.chain.lastBlockHeight then
      match view.refundSeqLeg s with
      | .ok txid => ({ s with seqRefundTxid := some txid, state := .refunded }, true)
      | .error error => ({ s with error }, true)
    else (s, dirty)

/-- What the pass can make of a record. -/
inductive ResumeStep (crypto : Crypto) (view : ResumeView) (s : XchainSwap) : XchainSwap → Prop
  /-- A record that is not funded, or is finished, stays. -/
  | kept : s.state ≠ .seqFunded → ResumeStep crypto view s s
  /-- One that never committed anything is retired. -/
  | retired (error : String) : s.terminal = false → s.state ≠ .seqFunded →
      ResumeStep crypto view s { s with state := .failed, error }
  | claimed (txid : Uint256) : s.state = .seqFunded →
      (takeSecret crypto view.chain s).preimage.length = 32 →
      view.claimBtcLeg (takeSecret crypto view.chain s) = .ok txid →
      ResumeStep crypto view s
        { takeSecret crypto view.chain s with btcClaimTxid := some txid, state := .btcClaimed }
  /-- The asset is taken back. -/
  | refunded (txid : Uint256) : s.state = .seqFunded →
      (takeSecret crypto view.chain s).preimage = [] →
      s.seqLocktime ≤ view.chain.lastBlockHeight →
      view.refundSeqLeg (takeSecret crypto view.chain s) = .ok txid →
      ResumeStep crypto view s
        { takeSecret crypto view.chain s with seqRefundTxid := some txid, state := .refunded }
  /-- Nothing could be done yet. -/
  | waiting (error : String) : s.state = .seqFunded →
      ResumeStep crypto view s { takeSecret crypto view.chain s with error }

theorem takeSecret_eq (crypto : Crypto) (chain : SwapChain) (s : XchainSwap) :
    takeSecret crypto chain s =
      { s with preimage := (takeSecret crypto chain s).preimage } := by
  unfold takeSecret
  split
  · cases findPreimageOnChain crypto chain s <;> rfl
  · rfl

theorem resumeStep_resumeSwap (crypto : Crypto) (view : ResumeView) (s : XchainSwap) :
    ResumeStep crypto view s (resumeSwap crypto view s).1 := by
  have hlocktime : (takeSecret crypto view.chain s).seqLocktime = s.seqLocktime := by
    rw [takeSecret_eq]
  unfold resumeSwap
  by_cases hfunded : s.state = .seqFunded
  · have hlive : s.terminal = false := by simp [XchainSwap.terminal, hfunded]
    rw [if_neg (by simp [hlive]), if_neg (not_not.mpr hfunded)]
    dsimp only
    split
    · next hsecret =>
      cases hclaim : view.claimBtcLeg (takeSecret crypto view.chain s) with
      | ok txid => exact .claimed txid hfunded hsecret.1 hclaim
      | error error => exact .waiting error hfunded
    · split
      · next hpassed =>
        cases hrefund : view.refundSeqLeg (takeSecret crypto view.chain s) with
        | ok txid => exact .refunded txid hfunded hpassed.1 (hlocktime ▸ hpassed.2) hrefund
        | error error => exact .waiting error hfunded
      · exact .waiting (takeSecret crypto view.chain s).error hfunded
  · by_cases hterminal : s.terminal = true
    · rw [if_pos hterminal]
      exact .kept hfunded
    · rw [if_neg hterminal, if_pos hfunded]
      split
      · exact .retired _ (Bool.eq_false_iff.mpr hterminal) hfunded
      · exact .kept hfunded

/-- `ResumeXchainSwaps`: each record as the pass leaves it, with what the pass found when it came
to it. -/
def resumeXchainSwaps (crypto : Crypto) (views : ℕ → ResumeView) (swaps : List XchainSwap) :
    List XchainSwap :=
  swaps.mapIdx fun i s => (resumeSwap crypto (views i) s).1

/-- Replace the first record of the same conversion, or append the record. -/
def replaceSwap (s : XchainSwap) : List XchainSwap → List XchainSwap
  | [] => [s]
  | e :: all => if e.offerId = s.offerId ∧ e.time = s.time then s :: all else e :: replaceSwap s all

/-- The list `SaveSwap` writes: at most 100 records, the oldest dropped. -/
def saveSwap (all : List XchainSwap) (s : XchainSwap) : List XchainSwap :=
  (replaceSwap s all).drop ((replaceSwap s all).length - 100)

end Sequentia
