import Sequentia.Swaps.Record

/-!
# Finding the secret again

A maker that claims the asset leg puts the secret on the chain. The resume pass looks for it among
the spends of the leg in the blocks it searches, and takes nothing that is not 32 bytes with the
right hash. It finds the secret exactly if the record is still waiting for it and the claim lies
within the last 2000 blocks, in a block whose data the node still has.
-/

namespace Sequentia

open List

variable {crypto : Crypto} {chain : SwapChain}

/-- What both legs of the swap accept as the secret. -/
def IsSecret (crypto : Crypto) (hashH data : Bytes) : Prop :=
  data.length = 32 ∧ crypto.sha256 data = hashH

instance (crypto : Crypto) (hashH data : Bytes) : Decidable (IsSecret crypto hashH data) :=
  inferInstanceAs (Decidable (_ ∧ _))

/-- The spend shows the secret in one of its pushes, as the hashlock branch demands. -/
def RevealsSecret (crypto : Crypto) (hashH : Bytes) (scriptSig : CScript) : Prop :=
  ∃ token ∈ readableTokens scriptSig.length scriptSig, IsSecret crypto hashH token.2

/-- The maker claimed the leg in the active chain's block at a height. -/
structure ClaimedAt (crypto : Crypto) (chain : SwapChain) (target : COutPoint) (hashH : Bytes)
    (height : ℕ) : Prop where
  height_le : height ≤ chain.lastBlockHeight
  spent : chain.unspent target = false
  reveals : ∃ tx ∈ chain.block height, ∃ txin ∈ tx.vin, txin.prevout = target ∧
    RevealsSecret crypto hashH txin.scriptSig
  /-- The chain spends the leg nowhere else. -/
  once : ∀ h ≤ chain.lastBlockHeight, ∀ tx ∈ chain.block h, ∀ txin ∈ tx.vin,
    txin.prevout = target → h = height

theorem mem_searchHeights {tipHeight h : ℕ} :
    h ∈ searchHeights tipHeight ↔ h ≤ tipHeight ∧ tipHeight < h + 2000 := by
  simp only [searchHeights, mem_map, mem_range]
  constructor
  · rintro ⟨back, hback, rfl⟩
    omega
  · rintro ⟨hle, hlt⟩
    exact ⟨tipHeight - h, by omega, by omega⟩

variable {hashH scriptSig found : Bytes} {s : XchainSwap}

theorem isSecret_of_secretIn (hfound : secretIn crypto hashH scriptSig = some found) :
    IsSecret crypto hashH found := by
  have hsome := List.find?_some hfound
  exact of_decide_eq_true hsome

theorem secretIn_isSome (hreveals : RevealsSecret crypto hashH scriptSig) :
    (secretIn crypto hashH scriptSig).isSome = true := by
  obtain ⟨token, htoken, hsecret⟩ := hreveals
  rw [secretIn, List.find?_isSome]
  exact ⟨token.2, mem_map_of_mem htoken, decide_eq_true hsecret⟩

theorem findPreimageOnChain_eq_some (hfound : findPreimageOnChain crypto chain s = some found) :
    ∃ target, s.fundingOutpoint = some target ∧ ∃ h ∈ searchHeights chain.lastBlockHeight,
      chain.readable h = true ∧ ∃ tx ∈ chain.block h, ∃ txin ∈ tx.vin, txin.prevout = target ∧
        secretIn crypto s.hashH txin.scriptSig = some found := by
  obtain ⟨target, htarget, hsearch⟩ := Option.bind_eq_some_iff.mp hfound
  split at hsearch
  · cases hsearch
  · obtain ⟨h, hh, hblock⟩ := exists_of_findSome?_eq_some hsearch
    split at hblock
    · next hreadable =>
      obtain ⟨tx, htx, hinputs⟩ := exists_of_findSome?_eq_some hblock
      obtain ⟨txin, htxin, hinput⟩ := exists_of_findSome?_eq_some hinputs
      split at hinput
      · cases hinput
      · next hprevout =>
        exact ⟨target, htarget, h, hh, hreadable, tx, htx, txin, htxin, not_not.mp hprevout,
          hinput⟩
    · cases hblock

/-- The search never returns anything but a secret. -/
theorem isSecret_of_findPreimageOnChain (hfound : findPreimageOnChain crypto chain s = some found) :
    IsSecret crypto s.hashH found := by
  obtain ⟨_, _, _, _, _, _, _, _, _, _, hsecret⟩ := findPreimageOnChain_eq_some hfound
  exact isSecret_of_secretIn hsecret

theorem findPreimageOnChain_isSome_iff {target : COutPoint} {height : ℕ}
    (htarget : s.fundingOutpoint = some target)
    (hclaimed : ClaimedAt crypto chain target s.hashH height) :
    (findPreimageOnChain crypto chain s).isSome = true ↔
      chain.lastBlockHeight < height + 2000 ∧ chain.readable height = true := by
  constructor
  · intro hsome
    obtain ⟨found, hfound⟩ := Option.isSome_iff_exists.mp hsome
    obtain ⟨target', htarget', h, hh, hreadable, tx, htx, txin, htxin, hprevout, -⟩ :=
      findPreimageOnChain_eq_some hfound
    obtain rfl : target = target' := Option.some.inj (htarget.symm.trans htarget')
    have hrange := mem_searchHeights.mp hh
    obtain rfl := hclaimed.once h hrange.1 tx htx txin htxin hprevout
    exact ⟨hrange.2, hreadable⟩
  · rintro ⟨hlt, hreadable⟩
    obtain ⟨tx, htx, txin, htxin, hprevout, hreveals⟩ := hclaimed.reveals
    simp only [findPreimageOnChain, htarget, Option.bind_some, hclaimed.spent, Bool.false_eq_true,
      if_false, List.findSome?_isSome_iff]
    refine ⟨height, mem_searchHeights.mpr ⟨hclaimed.height_le, hlt⟩, ?_⟩
    rw [if_pos hreadable, List.findSome?_isSome_iff]
    refine ⟨tx, htx, ?_⟩
    rw [List.findSome?_isSome_iff]
    refine ⟨txin, htxin, ?_⟩
    rw [if_neg (not_not.mpr hprevout)]
    exact secretIn_isSome hreveals

/-- The stored preimage is empty or a secret. -/
def PreimageSound (crypto : Crypto) (s : XchainSwap) : Prop :=
  s.preimage = [] ∨ IsSecret crypto s.hashH s.preimage

theorem preimage_takeSecret (crypto : Crypto) (chain : SwapChain) (s : XchainSwap) :
    (takeSecret crypto chain s).preimage =
      if s.preimage.length ≠ 32 then (findPreimageOnChain crypto chain s).getD s.preimage
      else s.preimage := by
  unfold takeSecret
  split
  · cases findPreimageOnChain crypto chain s <;> rfl
  · rfl

/-- The preimage a record has after the pass. -/
theorem preimage_resumeSwap (crypto : Crypto) (view : ResumeView) (s : XchainSwap) :
    (resumeSwap crypto view s).1.preimage =
      if s.state = .seqFunded then (takeSecret crypto view.chain s).preimage else s.preimage := by
  have hstep := resumeStep_resumeSwap crypto view s
  generalize (resumeSwap crypto view s).1 = s' at hstep ⊢
  cases hstep with
  | kept hstate => rw [if_neg hstate]
  | retired _ _ hstate => rw [if_neg hstate]
  | claimed _ hstate => rw [if_pos hstate]
  | refunded _ hstate => rw [if_pos hstate]
  | waiting _ hstate => rw [if_pos hstate]

/-- The pass does not change the hash of a record. -/
theorem hashH_resumeSwap (crypto : Crypto) (view : ResumeView) (s : XchainSwap) :
    (resumeSwap crypto view s).1.hashH = s.hashH := by
  have hsame : (takeSecret crypto view.chain s).hashH = s.hashH := by rw [takeSecret_eq]
  have hstep := resumeStep_resumeSwap crypto view s
  generalize (resumeSwap crypto view s).1 = s' at hstep ⊢
  cases hstep <;> first | rfl | exact hsame

theorem preimageSound_resumeSwap {view : ResumeView} (hsound : PreimageSound crypto s) :
    PreimageSound crypto (resumeSwap crypto view s).1 := by
  unfold PreimageSound
  rw [hashH_resumeSwap, preimage_resumeSwap, preimage_takeSecret]
  split
  · split
    · cases hfound : findPreimageOnChain crypto view.chain s with
      | none => exact hsound
      | some found => exact Or.inr (isSecret_of_findPreimageOnChain hfound)
    · exact hsound
  · exact hsound

/-- The secret is stored after the pass exactly if it was stored before, or the record is waiting
for it and the claim is found. -/
theorem isSecret_resumeSwap_iff {view : ResumeView} {target : COutPoint} {height : ℕ}
    (hsound : PreimageSound crypto s) (htarget : s.fundingOutpoint = some target)
    (hclaimed : ClaimedAt crypto view.chain target s.hashH height) :
    IsSecret crypto s.hashH (resumeSwap crypto view s).1.preimage ↔
      IsSecret crypto s.hashH s.preimage ∨
        s.state = .seqFunded ∧ view.chain.lastBlockHeight < height + 2000 ∧
          view.chain.readable height = true := by
  rw [← findPreimageOnChain_isSome_iff htarget hclaimed, preimage_resumeSwap, preimage_takeSecret]
  rcases hsound with hempty | hsecret
  · have hnot : ¬ IsSecret crypto s.hashH s.preimage := by simp [IsSecret, hempty]
    rw [if_pos (show s.preimage.length ≠ 32 by simp [hempty])]
    by_cases hfunded : s.state = .seqFunded
    · rw [if_pos hfunded]
      cases hfound : findPreimageOnChain crypto view.chain s with
      | none => simp [hnot]
      | some found => simpa [hfunded] using isSecret_of_findPreimageOnChain hfound
    · rw [if_neg hfunded]
      simp [hnot, hfunded]
  · rw [if_neg (not_not.mpr hsecret.1), ite_self]
    exact ⟨Or.inl, fun _ => hsecret⟩

/-- For every record whose preimage is empty or a secret, the pass keeps it so; and if the maker
claimed the leg, at any height and in any transaction, the secret is stored after the pass exactly
if it already was, or the record is in the funded state, the claim is among the last 2000 blocks
and its block can be read. -/
theorem resume_recovers_secret (crypto : Crypto) (views : ℕ → ResumeView)
    (swaps : List XchainSwap) (i : ℕ) (s : XchainSwap) (hs : swaps[i]? = some s)
    (hsound : PreimageSound crypto s) :
    ∃ s', (resumeXchainSwaps crypto views swaps)[i]? = some s' ∧ s'.hashH = s.hashH ∧
      PreimageSound crypto s' ∧
      ∀ target height, s.fundingOutpoint = some target →
        ClaimedAt crypto (views i).chain target s.hashH height →
        (IsSecret crypto s.hashH s'.preimage ↔
          IsSecret crypto s.hashH s.preimage ∨
            s.state = .seqFunded ∧ (views i).chain.lastBlockHeight < height + 2000 ∧
              (views i).chain.readable height = true) := by
  refine ⟨(resumeSwap crypto (views i) s).1, ?_, hashH_resumeSwap .., preimageSound_resumeSwap
    hsound, fun target height => isSecret_resumeSwap_iff hsound⟩
  rw [resumeXchainSwaps, List.getElem?_mapIdx, hs, Option.map_some]

/-- A hash that returns its input. -/
def plainCrypto : Crypto where
  sha256 data := data
  hash160 data := data
  blsVerifyPossession _ _ := true
  blsFastAggregateVerify _ _ _ := true
  verifySchnorr _ _ _ := true
  fastMerkleRoot _ := ⟨0⟩

def fundedSwap : XchainSwap where
  state := .seqFunded
  time := 1
  offerId := "offer"
  asset := ⟨1⟩
  seqAmount := 100
  btcAmount := 100
  hashH := List.replicate 32 7
  makerSeqClaimPub := []
  takerSeqRefundPub := []
  takerBtcClaimPub := []
  takerSeqRefundPriv := [1]
  takerBtcClaimPriv := [2]
  seqLocktime := 5000
  btcLocktime := 5000
  btcLegScript := []
  seqFundTxid := some ⟨9⟩

/-- A chain whose block 5 has the claim of that swap, and nothing else ever happens. -/
def claimChain (tipHeight : ℕ) : SwapChain where
  lastBlockHeight := tipHeight
  block h := if h = 5 then
    [⟨⟨10⟩, [{ prevout := ⟨⟨9⟩, 0⟩, scriptSig := 32 :: List.replicate 32 7 }], [], []⟩] else []
  readable _ := true
  unspent _ := false

theorem claimedAt_claimChain {tipHeight : ℕ} (hle : 5 ≤ tipHeight) :
    ClaimedAt plainCrypto (claimChain tipHeight) ⟨⟨9⟩, 0⟩ fundedSwap.hashH 5 where
  height_le := hle
  spent := rfl
  reveals := ⟨_, mem_singleton_self _, _, mem_singleton_self _, rfl,
    (32, List.replicate 32 7), by decide +kernel, by decide⟩
  once := by
    intro h _ tx htx _ _ _
    by_contra hne
    simp only [claimChain, if_neg hne, not_mem_nil] at htx

/-- What the pass finds with that chain. -/
def claimView (tipHeight : ℕ) : ResumeView where
  now := 0
  chain := claimChain tipHeight
  claimBtcLeg _ := .error ""
  refundSeqLeg _ := .error ""

/-- A claim 1999 blocks below the tip is still found. -/
theorem resume_recovers_secret_recent :
    ∃ s', (resumeXchainSwaps plainCrypto (fun _ => claimView 2004) [fundedSwap])[0]? = some s' ∧
      IsSecret plainCrypto fundedSwap.hashH s'.preimage := by
  obtain ⟨s', hs', -, -, hiff⟩ := resume_recovers_secret plainCrypto (fun _ => claimView 2004)
    [fundedSwap] 0 fundedSwap rfl (Or.inl rfl)
  exact ⟨s', hs', (hiff ⟨⟨9⟩, 0⟩ 5 rfl (claimedAt_claimChain (by decide))).mpr
    (Or.inr ⟨rfl, by decide, rfl⟩)⟩

/-- One block later it is not, and the secret of a funded swap is not recovered. -/
theorem claim_out_of_reach :
    ClaimedAt plainCrypto (claimView 2005).chain ⟨⟨9⟩, 0⟩ fundedSwap.hashH 5 ∧
      fundedSwap.fundingOutpoint = some ⟨⟨9⟩, 0⟩ ∧
      (resumeXchainSwaps plainCrypto (fun _ => claimView 2005) [fundedSwap]).map
        XchainSwap.preimage = [[]] :=
  ⟨claimedAt_claimChain (by decide), rfl, by decide +kernel⟩

end Sequentia
