import Sequentia.Pots.Solvency
import Sequentia.Pots.Sweep

/-!
# Claims of the first generation are exact

An accepted claim of the first generation pays everybody with a share what the shares in the
pots it sweeps come to, and withholds at most a ninety-ninth of what it delivers. While the
weights of the participants of a pot add up without wrapping around, the shares of the pot stay
within its distributable part, and nothing overflows in a transaction whose amounts are in
range. Weights that wrap around let a claim pay out more than the distributable part.
-/

namespace Sequentia

open Std KeyedMap Checks Shares List ExtTreeMap

/-- A share is paid unless it is too small. -/
def payable (share : ℤ) : ℤ := if posSplitMinPayout ≤ share then share else 0

section Claim

variable (params : Params) (crypto : Crypto) (registry : StakeRegistry) (signer : CPubKey)
  (tx : CTransaction) (coins : List Coin)

/-- The pots that a claim sweeps. -/
def sweptPots : List PotInput := coins.filterMap Coin.potInput?

/-- What the claim pays the participants with a share. -/
def deliveredIn (asset : CAsset) : ℤ :=
  amountOf tx.vout (paysHolder crypto (shareholders params registry signer (sweptPots coins))) asset

/-- What leaves the pots for fees and for the claimer: what neither pays a share nor goes back
into a pot, net of what the claimer brought. -/
def withheldIn (asset : CAsset) : ℤ :=
  max 0 (amountOf tx.vout (fun out =>
    !paysHolder crypto (shareholders params registry signer (sweptPots coins)) out &&
      !isPotOut out) asset - postedTo (coins.filterMap Coin.brought?) asset)

/-- A claim whose payments are in order. -/
structure PaysShares : Prop where
  pool : ∀ coin ∈ coins, coin.isSpent = false → ∀ pot, potFromTxOut coin.out = some pot →
    pot.signer = signer
  /-- Whoever has a share is paid its shares in each asset, unless they are too small, or
  unless the hash of its key collides with that of another participant. -/
  paid : ∀ c ∈ shareholders params registry signer (sweptPots coins), ∀ asset,
    amountOf tx.vout (fun out => out.scriptPubKey = payoutScript crypto c) asset =
        payable (shareOf params registry signer (sweptPots coins) c asset) ∨
      ∃ c' ∈ shareholders params registry signer (sweptPots coins),
        c' ≠ c ∧ payoutScript crypto c' = payoutScript crypto c
  /-- At most a ninety-ninth of what is delivered is withheld. -/
  withheld : ∀ asset ∈ (sweptPots coins).map PotInput.asset,
    99 * withheldIn params crypto registry signer tx coins asset ≤
      deliveredIn params crypto registry signer tx coins asset

/-- A transaction passes the checks on its amounts: those of the outputs are in range, and the
outputs hold what the coins spent hold. -/
structure AmountsChecked : Prop where
  transaction : checkTransaction params tx = .ok ()
  nonneg : ∀ coin ∈ coins, ∀ p, coin.out.explicit? = some p → 0 ≤ p.2
  balance : ∀ asset, postedTo (coins.filterMap fun coin => coin.out.explicit?) asset ≤
    postedTo (tx.vout.filterMap CTxOut.explicit?) asset

/-- The weights of the participants of every pot add up without wrapping around. -/
def WeightsFit : Prop :=
  ∀ coin ∈ coins, ∀ pot, potFromTxOut coin.out = some pot →
    ((potSharers params registry pot.signer coin.nHeight).toList.map Prod.snd).sum < 2 ^ 64

/-- Nothing overflows while a claim is judged: neither the 128-bit products nor what is kept in
64 bits. -/
structure NoOverflow : Prop where
  product : ∀ pot ∈ sweptPots coins, ∀ e ∈ (potSharers params registry signer pot.height).toList,
    (distributablePart pot.value).toNat * e.2 < 2 ^ 128
  quotient : ∀ pot ∈ sweptPots coins, ∀ e ∈ (potSharers params registry signer pot.height).toList,
    (distributablePart pot.value).toNat * e.2 / pot.total params registry signer < 2 ^ 63
  owed : ∀ c asset, shareOf params registry signer (sweptPots coins) c asset < 2 ^ 63
  outputs : ∀ kind asset, amountOf tx.vout kind asset < 2 ^ 63
  brought : ∀ asset, postedTo (coins.filterMap Coin.brought?) asset < 2 ^ 63
  /-- The product with which the cap is checked. -/
  cap : ∀ asset, 99 * withheldIn params crypto registry signer tx coins asset < 2 ^ 63

/-- What a claim of the first generation should be. -/
structure ExactClaim : Prop extends PaysShares params crypto registry signer tx coins,
    NoOverflow params crypto registry signer tx coins where
  within : ∀ pot ∈ sweptPots coins,
    ((potSharers params registry signer pot.height).keys.map
      (pot.share params registry signer)).sum ≤ distributablePart pot.value

end Claim

section

variable {params : Params} {crypto : Crypto} {registry : StakeRegistry} {signer : CPubKey}
  {tx : CTransaction} {spentCoins coins : List Coin} {holders : List CPubKey} {out : CTxOut}

theorem isSome_payee? : (payee? crypto holders out).isSome = paysHolder crypto holders out := by
  unfold payee? paysHolder
  split
  · next hpot =>
    symm
    rw [Option.isSome_none, any_eq_false]
    intro c _ hc
    rw [isPotOut, of_decide_eq_true hc] at hpot
    cases hpot
  · rw [Bool.eq_iff_iff, List.find?_isSome, any_eq_true]
    simp only [decide_eq_true_eq, @eq_comm _ out.scriptPubKey]

/-- Without a collision, whoever has a script is the one it pays. -/
theorem payee?_eq_some_iff {c : CPubKey} (hc : c ∈ holders)
    (hunique : ∀ c' ∈ holders, payoutScript crypto c' = payoutScript crypto c → c' = c) :
    payee? crypto holders out = some c ↔ out.scriptPubKey = payoutScript crypto c := by
  have hpays : ∀ {c}, payee? crypto holders out = some c →
      c ∈ holders ∧ payoutScript crypto c = out.scriptPubKey := by
    intro c hpayee
    unfold payee? at hpayee
    split at hpayee
    · cases hpayee
    · have hscript := List.find?_some hpayee
      exact ⟨mem_of_find?_eq_some hpayee, of_decide_eq_true hscript⟩
  constructor
  · exact fun hpayee => (hpays hpayee).2.symm
  · intro hscript
    have hsome : (payee? crypto holders out).isSome = true := by
      rw [isSome_payee?, paysHolder, any_eq_true]
      exact ⟨c, hc, decide_eq_true hscript⟩
    obtain ⟨c', hc'⟩ := Option.isSome_iff_exists.mp hsome
    rw [hc', hunique c' (hpays hc').1 ((hpays hc').2.trans hscript)]

theorem mem_holders {pots : List PotInput} {c : CPubKey} :
    c ∈ (posComputePotShares params registry signer pots).owed.keys.map Prod.fst ↔
      c ∈ shareholders params registry signer pots := by
  rw [mem_shareholders]
  simp [mem_keys]

theorem paidTo_eq_payable {owed : ExtTreeMap (CPubKey × CAsset) ℤ} {payments : Payments}
    (hshares : checkShares owed payments = .ok ())
    (hassets : checkPaidAssets owed payments = .ok ()) (c : CPubKey) (a : CAsset) :
    payments.paidTo.getD (c, a) 0 = payable (owed.getD (c, a) 0) := by
  by_cases hmem : (c, a) ∈ owed
  · have hentry : ((c, a), owed.getD (c, a) 0) ∈ owed.toList := by
      rw [mem_toList_iff_getElem?_eq_some, getD_eq_getD_getElem?]
      obtain ⟨v, hv⟩ := Option.isSome_iff_exists.mp (mem_iff_isSome_getElem?.mp hmem)
      rw [hv]
      rfl
    have hcheck := forM_eq_ok.mp hshares _ hentry
    dsimp only at hcheck
    unfold payable
    split at hcheck
    · next hmin =>
      rw [ite_error_eq_ok] at hcheck
      rw [if_pos hmin]
      exact Decidable.not_not.mp hcheck.1
    · next hmin =>
      rw [ite_error_eq_ok] at hcheck
      rw [if_neg hmin]
      exact Decidable.not_not.mp hcheck.1
  · have hpaid : (c, a) ∉ payments.paidTo := by
      intro hpaid
      obtain ⟨v, hv⟩ := Option.isSome_iff_exists.mp (mem_iff_isSome_getElem?.mp hpaid)
      have hcheck := forM_eq_ok.mp hassets ((c, a), v)
        (mem_toList_iff_getElem?_eq_some.mpr hv)
      rw [ite_error_eq_ok] at hcheck
      exact hmem (by simpa using hcheck.1)
    rw [getD_eq_fallback hpaid, getD_eq_fallback hmem]
    rfl

theorem paysShares_of_checkPosPotClaimV1
    (hok : checkPosPotClaimV1 params crypto registry tx spentCoins = .ok ()) :
    sweptPots (claimCoins tx spentCoins) = [] ∨
      ∃ signer, PaysShares params crypto registry signer tx (claimCoins tx spentCoins) := by
  unfold checkPosPotClaimV1 at hok
  dsimp only at hok
  rw [bind_eq_ok] at hok
  obtain ⟨inputs, hinputs, hok⟩ := hok
  have hswept : SweptInputs (claimCoins tx spentCoins) inputs :=
    foldlM_induction (fun done st => SweptInputs done st)
      (fun _ _ _ _ hdone hstep => hdone.step hstep)
      ⟨by simp, by simp, rfl, fun a => by simp [postedTo]⟩ hinputs
  cases hsigner : inputs.signer with
  | none => exact .inl (hswept.noPot hsigner)
  | some signer =>
    simp only [hsigner, bind_eq_ok] at hok
    obtain ⟨-, -, outputs, houtputs, ⟨⟩, hshares, ⟨⟩, hassets, hwithheld⟩ := hok
    have hpots : inputs.pots = sweptPots (claimCoins tx spentCoins) := hswept.pots
    rw [hpots] at houtputs hshares hassets hwithheld
    have hpaid := foldlM_induction (fun done st => SweptOutputs crypto _ done st.payments)
      (fun _ _ _ _ hdone hstep => hdone.step hstep)
      ⟨by simp, fun c a => by simp [amountOf, postedTo, Payments.empty],
        fun a => by simp [amountOf, postedTo, Payments.empty],
        fun a => by simp [amountOf, postedTo, Payments.empty]⟩ houtputs
    have hholder : ∀ out, (payee? crypto ((posComputePotShares params registry signer
        (sweptPots (claimCoins tx spentCoins))).owed.keys.map Prod.fst) out).isSome =
        paysHolder crypto
          (shareholders params registry signer (sweptPots (claimCoins tx spentCoins))) out := by
      intro out
      rw [isSome_payee?, paysHolder, paysHolder, Bool.eq_iff_iff, any_eq_true,
        any_eq_true]
      simp only [mem_holders]
    obtain ⟨howed, -, hassetsSwept⟩ := posComputePotShares_spec params registry
      signer (sweptPots (claimCoins tx spentCoins))
    refine .inr ⟨signer, ⟨?_, ?_, ?_⟩⟩
    · intro coin hcoin hunspent pot hpot
      exact Option.some.inj ((hswept.signer coin hcoin hunspent pot hpot).symm.trans hsigner)
    · intro c hc a
      by_cases hcollision : ∃ c' ∈ shareholders params registry signer
          (sweptPots (claimCoins tx spentCoins)), c' ≠ c ∧
            payoutScript crypto c' = payoutScript crypto c
      · exact .inr hcollision
      · left
        have hunique : ∀ c' ∈ shareholders params registry signer
            (sweptPots (claimCoins tx spentCoins)),
            payoutScript crypto c' = payoutScript crypto c → c' = c := by
          intro c' hc' hscript
          by_contra hne
          exact hcollision ⟨c', hc', hne, hscript⟩
        rw [← howed, ← paidTo_eq_payable hshares hassets, hpaid.paidTo]
        unfold amountOf
        rw [filter_congr fun out _ => ?_]
        rw [Bool.eq_iff_iff, decide_eq_true_eq, decide_eq_true_eq]
        exact (payee?_eq_some_iff (mem_holders.mpr hc)
          fun c' hc' => hunique c' (mem_holders.mp hc')).symm
    · intro a ha
      have hcheck := forM_eq_ok.mp hwithheld a
        (mem_keys.mpr ((hassetsSwept a).mpr ha))
      dsimp only at hcheck
      rw [ite_error_eq_ok, hpaid.withheld, hpaid.delivered, hswept.external] at hcheck
      simp only [hholder] at hcheck
      have hle := Int.not_lt.mp hcheck.1
      unfold withheldIn deliveredIn
      rw [posSplitWithholdRatio, Int.mul_comm] at hle
      exact hle

theorem nValue_of_explicit? {p : CAsset × ℤ} (hexplicit : out.explicit? = some p) :
    out.nValue = .explicit p.2 := by
  unfold CTxOut.explicit? at hexplicit
  split at hexplicit
  · next hvalue =>
    cases hexplicit
    exact hvalue
  · cases hexplicit

theorem amountOf_le_maxMoney (hok : checkTransaction params tx = .ok ()) :
    (∀ out ∈ tx.vout, ∀ p, out.explicit? = some p → 0 ≤ p.2) ∧
      ∀ kind a, amountOf tx.vout kind a ≤ max 0 params.maxMoney := by
  unfold checkTransaction at hok
  rw [ite_error_eq_ok, ite_error_eq_ok, bind_eq_ok] at hok
  obtain ⟨-, -, total, htotal, -⟩ := hok
  have hinv := foldlM_induction (fun done total =>
      (∀ out ∈ done, ∀ p, out.explicit? = some p → 0 ≤ p.2) ∧
        (∀ kind a, amountOf done kind a ≤ total) ∧ total ≤ max 0 params.maxMoney) ?_
    ⟨by simp, fun kind a => by simp [amountOf, postedTo], Int.le_max_left 0 _⟩ htotal
  · exact ⟨hinv.1, fun kind a => (hinv.2.1 kind a).trans hinv.2.2⟩
  rintro done total out total' ⟨hnonneg, hle, hrange⟩ hstep
  -- An output counts in the total with its amount, whether or not its asset is hidden.
  have hcounts : total ≤ total' ∧ total' ≤ max 0 params.maxMoney ∧
      ∀ p, out.explicit? = some p → 0 ≤ p.2 ∧ total' = total + p.2 := by
    unfold checkOutputAmount at hstep
    split at hstep
    · next amount hvalue =>
      rw [ite_error_eq_ok, ite_error_eq_ok, ite_error_eq_ok] at hstep
      obtain ⟨hamount, -, hmoney, hstep⟩ := hstep
      cases hstep
      have hmoney' : 0 ≤ total + amount ∧ total + amount ≤ params.maxMoney := by
        simpa [Params.moneyRange] using hmoney
      refine ⟨by omega, by omega, fun p hp => ?_⟩
      have heq := hvalue.symm.trans (nValue_of_explicit? hp)
      cases heq
      exact ⟨Int.not_lt.mp hamount, rfl⟩
    · next hvalue =>
      cases hstep
      exact ⟨Int.le_refl _, hrange, fun p hp => (hvalue p.2 (nValue_of_explicit? hp)).elim⟩
  obtain ⟨hgrows, hrange', hvalue⟩ := hcounts
  refine ⟨?_, fun kind a => ?_, hrange'⟩
  · rw [forall_mem_append]
    exact ⟨hnonneg, by simpa using fun a v hp => (hvalue (a, v) hp).1⟩
  · have hprev := hle kind a
    cases hexplicit : out.explicit? with
    | none =>
      rw [amountOf_concat_hidden hexplicit]
      omega
    | some p =>
      have hp := hvalue p hexplicit
      rw [amountOf_concat hexplicit]
      split
      · split <;> omega
      · omega

/-- A pot is an output in the clear, of one of the pools. -/
theorem potInput?_eq_some {coin : Coin} {pot : PotInput} (hpot : coin.potInput? = some pot) :
    coin.isSpent = false ∧ coin.out.explicit? = some (pot.asset, pot.value) ∧ 0 < pot.value ∧
      pot.height = coin.nHeight ∧ (potFromTxOut coin.out).isSome = true := by
  unfold Coin.potInput? at hpot
  split at hpot
  · cases hpot
  · next hspent =>
    obtain ⟨p, hp, rfl⟩ := Option.map_eq_some_iff.mp hpot
    have hterms : coin.out.explicit? = some (p.asset, p.value) ∧ 0 < p.value := by
      revert hp
      fun_cases potFromTxOut coin.out <;> intro hp <;> try cases hp
      next hexplicit hpos =>
        obtain ⟨key, -, rfl⟩ := Option.map_eq_some_iff.mp hp
        exact ⟨hexplicit, Int.not_le.mp hpos⟩
    exact ⟨by simpa using hspent, hterms.1, hterms.2, rfl, by simp [hp]⟩

theorem swept_add_brought_le (hnonneg : ∀ coin ∈ coins, ∀ p, coin.out.explicit? = some p → 0 ≤ p.2)
    (a : CAsset) :
    postedTo ((sweptPots coins).map fun pot => (pot.asset, pot.value)) a +
        postedTo (coins.filterMap Coin.brought?) a ≤
      postedTo (coins.filterMap fun coin => coin.out.explicit?) a := by
  induction coins with
  | nil => simp [sweptPots, postedTo]
  | cons coin coins ih =>
    have hrest := ih fun c hc => hnonneg c (mem_cons_of_mem _ hc)
    have hcoin := hnonneg coin mem_cons_self
    unfold sweptPots at hrest ⊢
    cases hpot : coin.potInput? with
    | some pot =>
      obtain ⟨hspent, hexplicit, -, -, hsome⟩ := potInput?_eq_some hpot
      have hbrought : coin.brought? = none := by simp [Coin.brought?, hsome]
      rw [filterMap_cons_some hpot, filterMap_cons_none hbrought,
        filterMap_cons_some (f := fun c : Coin => c.out.explicit?) hexplicit, map_cons, postedTo_cons, postedTo_cons]
      omega
    | none =>
      rw [filterMap_cons_none hpot]
      cases hexplicit : coin.out.explicit? with
      | none =>
        have hbrought : coin.brought? = none := by simp [Coin.brought?, hexplicit]
        rw [filterMap_cons_none hbrought, filterMap_cons_none (f := fun c : Coin => c.out.explicit?) hexplicit]
        exact hrest
      | some p =>
        rw [filterMap_cons_some (f := fun c : Coin => c.out.explicit?) hexplicit, postedTo_cons]
        have hp := hcoin p hexplicit
        cases hbrought : coin.brought? with
        | none =>
          rw [filterMap_cons_none hbrought]
          split <;> omega
        | some q =>
          have hq : q = p := by
            unfold Coin.brought? at hbrought
            split at hbrought
            · cases hbrought
            · split at hbrought
              · cases hbrought
              · exact Option.some.inj (hbrought.symm.trans hexplicit)
          rw [filterMap_cons_some hbrought, postedTo_cons, hq]
          omega

end

section Weights

variable {params : Params} {crypto : Crypto} {registry : StakeRegistry} {signer : CPubKey}
  {pot : PotInput}

theorem distributablePart_range {value : ℤ} (hpos : 0 < value) :
    0 ≤ distributablePart value ∧ distributablePart value ≤ value := by
  simp only [distributablePart, posSplitReserveDenom]
  omega

/-- Where the weights add up without wrapping around, a share is computed without overflow, and
is the floor of the proportional part. -/
theorem PotInput.cut_eq (hpos : 0 < pot.value) (hlt : pot.value < 2 ^ 63)
    (hfits : ((potSharers params registry signer pot.height).toList.map Prod.snd).sum < 2 ^ 64)
    {weight : ℕ}
    (hle : weight ≤ ((potSharers params registry signer pot.height).toList.map Prod.snd).sum) :
    (distributablePart pot.value).toNat * weight / pot.total params registry signer ≤
        (distributablePart pot.value).toNat ∧
      pot.cut params registry signer weight = ((distributablePart pot.value).toNat * weight /
        ((potSharers params registry signer pot.height).toList.map Prod.snd).sum : ℕ) := by
  have htotal : pot.total params registry signer =
      ((potSharers params registry signer pot.height).toList.map Prod.snd).sum := by
    rw [PotInput.total, foldl_toUint64_add, toUint64_of_lt hfits]
  have hvalue : (distributablePart pot.value).toNat * weight /
      ((potSharers params registry signer pot.height).toList.map Prod.snd).sum ≤
      (distributablePart pot.value).toNat :=
    Nat.div_le_of_le_mul (by
      rw [Nat.mul_comm]
      exact Nat.mul_le_mul_right _ hle)
  have hpart := distributablePart_range hpos
  rw [PotInput.cut, htotal]
  refine ⟨hvalue, ?_⟩
  split
  · next hzero => rw [hzero, Nat.div_zero, Nat.cast_zero]
  · rw [toInt64_of_lt (by omega), Int.max_eq_right (Int.natCast_nonneg _)]

theorem PotInput.sum_share_le (hpos : 0 < pot.value) (hlt : pot.value < 2 ^ 63)
    (hfits : ((potSharers params registry signer pot.height).toList.map Prod.snd).sum < 2 ^ 64) :
    ((potSharers params registry signer pot.height).keys.map
      (pot.share params registry signer)).sum ≤ distributablePart pot.value := by
  have hle := sum_keys_mul_div_le (potSharers params registry signer pot.height)
    (distributablePart pot.value).toNat (f := pot.share params registry signer) fun c =>
      (PotInput.cut_eq hpos hlt hfits (getD_le_sum _ c)).2
  rwa [Int.toNat_of_nonneg (distributablePart_range hpos).1] at hle

theorem PotInput.share_le (hpos : 0 < pot.value) (hlt : pot.value < 2 ^ 63)
    (hfits : ((potSharers params registry signer pot.height).toList.map Prod.snd).sum < 2 ^ 64)
    (c : CPubKey) : pot.share params registry signer c ≤ pot.value := by
  have hweight := getD_le_sum (potSharers params registry signer pot.height) c
  obtain ⟨hquotient, hcut⟩ := PotInput.cut_eq hpos hlt hfits hweight
  have hpart := distributablePart_range hpos
  rw [PotInput.total, foldl_toUint64_add, toUint64_of_lt hfits] at hquotient
  rw [PotInput.share, hcut]
  omega

end Weights

section Exact

variable {params : Params} {crypto : Crypto} {registry : StakeRegistry} {signer : CPubKey}
  {tx : CTransaction} {spentCoins coins : List Coin}

/-- The pots of a checked transaction and what the claimer brought are within the cap on
money. -/
theorem AmountsChecked.swept_le (hchecked : AmountsChecked params tx coins) (a : CAsset) :
    postedTo ((sweptPots coins).map fun pot => (pot.asset, pot.value)) a +
      postedTo (coins.filterMap Coin.brought?) a ≤ max 0 params.maxMoney := by
  have hall : amountOf tx.vout (fun _ => true) a = postedTo (tx.vout.filterMap CTxOut.explicit?) a := by
    rw [amountOf, filter_true]
  calc _ ≤ postedTo (coins.filterMap fun coin => coin.out.explicit?) a :=
        swept_add_brought_le hchecked.nonneg a
    _ ≤ postedTo (tx.vout.filterMap CTxOut.explicit?) a := hchecked.balance a
    _ ≤ max 0 params.maxMoney := hall ▸ (amountOf_le_maxMoney hchecked.transaction).2 _ a

theorem mem_sweptPots {pot : PotInput} (hpot : pot ∈ sweptPots coins) :
    0 < pot.value ∧ ∃ coin ∈ coins, coin.isSpent = false ∧ pot.height = coin.nHeight ∧
      ∃ p, potFromTxOut coin.out = some p := by
  obtain ⟨coin, hcoin, hsome⟩ := mem_filterMap.mp hpot
  obtain ⟨hspent, -, hpos, hheight, hp⟩ := potInput?_eq_some hsome
  exact ⟨hpos, coin, hcoin, hspent, hheight, Option.isSome_iff_exists.mp hp⟩

theorem brought_nonneg (hchecked : AmountsChecked params tx coins) (a : CAsset) :
    0 ≤ postedTo (coins.filterMap Coin.brought?) a := by
  refine postedTo_nonneg (fun p hp => ?_) a
  obtain ⟨coin, hcoin, hsome⟩ := mem_filterMap.mp hp
  unfold Coin.brought? at hsome
  split at hsome
  · cases hsome
  · split at hsome
    · cases hsome
    · exact hchecked.nonneg coin hcoin p hsome

theorem swept_nonneg : ∀ p ∈ (sweptPots coins).map fun pot => (pot.asset, pot.value), 0 ≤ p.2 := by
  intro p hp
  obtain ⟨pot, hpot, rfl⟩ := mem_map.mp hp
  exact (mem_sweptPots hpot).1.le

theorem AmountsChecked.value_lt (hchecked : AmountsChecked params tx coins) {pot : PotInput}
    (hpot : pot ∈ sweptPots coins) : pot.value < 2 ^ 63 := by
  have hle := le_postedTo swept_nonneg
    (mem_map_of_mem (f := fun pot : PotInput => (pot.asset, pot.value)) hpot)
  have hswept := hchecked.swept_le pot.asset
  have hbrought := brought_nonneg hchecked pot.asset
  have := params.maxMoney_lt
  dsimp only at hle
  omega

theorem WeightsFit.sum_lt (hfits : WeightsFit params registry coins)
    (hpool : ∀ coin ∈ coins, coin.isSpent = false → ∀ pot, potFromTxOut coin.out = some pot →
      pot.signer = signer) {pot : PotInput} (hpot : pot ∈ sweptPots coins) :
    ((potSharers params registry signer pot.height).toList.map Prod.snd).sum < 2 ^ 64 := by
  obtain ⟨-, coin, hcoin, hspent, hheight, p, hp⟩ := mem_sweptPots hpot
  rw [hheight, ← hpool coin hcoin hspent p hp]
  exact hfits coin hcoin p hp

theorem noOverflow_of_weightsFit (hmoney : params.maxMoney ≤ 400000000 * 100000000)
    (hchecked : AmountsChecked params tx coins) (hfits : WeightsFit params registry coins)
    (hpool : ∀ coin ∈ coins, coin.isSpent = false → ∀ pot, potFromTxOut coin.out = some pot →
      pot.signer = signer) : NoOverflow params crypto registry signer tx coins where
  product pot hpot e he := by
    have hlt := hchecked.value_lt hpot
    have hpart := distributablePart_range (mem_sweptPots hpot).1
    have hweight : e.2 ≤ ((potSharers params registry signer pot.height).toList.map Prod.snd).sum :=
      single_le_sum (fun _ _ => Nat.zero_le _) _ (mem_map_of_mem he)
    have hsum := hfits.sum_lt hpool hpot
    have hvalue : (distributablePart pot.value).toNat < 2 ^ 64 := by omega
    have hweight' : e.2 < 2 ^ 64 := by omega
    calc (distributablePart pot.value).toNat * e.2 < 2 ^ 64 * 2 ^ 64 :=
          Nat.mul_lt_mul'' hvalue hweight'
      _ = 2 ^ 128 := by decide
  quotient pot hpot e he := by
    have hlt := hchecked.value_lt hpot
    have hpos := (mem_sweptPots hpot).1
    have hpart := distributablePart_range hpos
    have hweight : e.2 ≤ ((potSharers params registry signer pot.height).toList.map Prod.snd).sum :=
      single_le_sum (fun _ _ => Nat.zero_le _) _ (mem_map_of_mem he)
    have hle := (PotInput.cut_eq hpos hlt (hfits.sum_lt hpool hpot) hweight).1
    omega
  owed c a := by
    have hshares : shareOf params registry signer (sweptPots coins) c a ≤
        postedTo ((sweptPots coins).map fun pot => (pot.asset, pot.value)) a :=
      postedTo_map_mono (fun pot hpot => PotInput.share_le (mem_sweptPots hpot).1
        (hchecked.value_lt hpot) (hfits.sum_lt hpool hpot) c) a
    have hswept := hchecked.swept_le a
    have hbrought := brought_nonneg hchecked a
    omega
  outputs kind a := by
    have hle := (amountOf_le_maxMoney hchecked.transaction).2 kind a
    omega
  brought a := by
    have hswept := hchecked.swept_le a
    have hpots : 0 ≤ postedTo ((sweptPots coins).map fun pot => (pot.asset, pot.value)) a :=
      postedTo_nonneg swept_nonneg a
    omega
  cap a := by
    have hle := (amountOf_le_maxMoney hchecked.transaction).2 (fun out =>
      !paysHolder crypto (shareholders params registry signer (sweptPots coins)) out &&
        !isPotOut out) a
    have hbrought := brought_nonneg hchecked a
    unfold withheldIn
    omega

/-- An accepted claim of the first generation pays everybody with a share exactly its shares,
which stay within the distributable parts of the pots, and withholds at most a ninety-ninth of
what it delivers; nothing overflows. The weights of the participants must add up to less than
2^64; the cap on money is at most that of the chain with the largest one. -/
theorem first_generation_claim_exact
    (haccepted : checkPosPotClaimV1 params crypto registry tx spentCoins = .ok ())
    (hmoney : params.maxMoney ≤ 400000000 * 100000000)
    (hchecked : AmountsChecked params tx (claimCoins tx spentCoins))
    (hfits : WeightsFit params registry (claimCoins tx spentCoins)) :
    sweptPots (claimCoins tx spentCoins) = [] ∨
      ∃ signer, ExactClaim params crypto registry signer tx (claimCoins tx spentCoins) := by
  rcases paysShares_of_checkPosPotClaimV1 haccepted with hnone | ⟨signer, hpays⟩
  · exact .inl hnone
  · refine .inr ⟨signer, hpays, noOverflow_of_weightsFit hmoney hchecked hfits hpays.pool, ?_⟩
    intro pot hpot
    exact PotInput.sum_share_le (mem_sweptPots hpot).1 (hchecked.value_lt hpot)
      (hfits.sum_lt hpays.pool hpot)

end Exact

deriving instance DecidableEq for PotInput

/-- The chain before the second generation of records. -/
def firstParams : Params := { sampleParams with posRecordsV2Height := 0 }

def wrappedCoins : List Coin := [⟨poolPot 3131, 1500, false⟩]

/-- The amounts of a claim on the pot that puts 3131 into its outputs are in order. -/
theorem wrappedCoins_checked {tx : CTransaction} (htx : checkTransaction firstParams tx = .ok ())
    (hasset : tx.vout.all fun out => match out.explicit? with
      | some (a, _) => a = 1
      | none => false)
    (hsum : postedTo (tx.vout.filterMap CTxOut.explicit?) 1 = 3131) :
    AmountsChecked firstParams tx wrappedCoins where
  transaction := htx
  nonneg := by decide +kernel
  balance a := by
    have hcoins : wrappedCoins.filterMap (fun coin => coin.out.explicit?) = [(1, 3131)] := by
      decide +kernel
    rw [hcoins]
    by_cases ha : 1 = a
    · subst ha
      rw [hsum]
      decide
    · rw [postedTo_eq_zero (by simpa using fun h => ha h.symm), postedTo_eq_zero]
      intro hmem
      obtain ⟨p, hp, rfl⟩ := mem_map.mp hmem
      obtain ⟨out, hout, hexplicit⟩ := mem_filterMap.mp hp
      have := all_eq_true.mp hasset out hout
      rw [hexplicit] at this
      exact ha (of_decide_eq_true this).symm

/-- A claim on the pot when its pool is the only participant. -/
def soleClaim : CTransaction where
  txid := 300
  vin := [{ prevout := ⟨10, 0⟩ }]
  vout := [poolPayment sampleController 3100, poolFee 31]

/-- The only participant is paid all that is distributable. -/
theorem first_generation_claim_exact_sole :
    deliveredIn firstParams poolCrypto poolRegistry sampleController soleClaim wrappedCoins 1 =
        3100 ∧
      ∃ signer, ExactClaim firstParams poolCrypto poolRegistry signer soleClaim
        (claimCoins soleClaim wrappedCoins) := by
  refine ⟨by decide +kernel, ?_⟩
  have haccepted : checkPosPotClaimV1 firstParams poolCrypto poolRegistry soleClaim wrappedCoins =
      .ok () := by decide +kernel
  have hchecked : AmountsChecked firstParams soleClaim wrappedCoins :=
    wrappedCoins_checked (by rfl) (by decide +kernel) (by decide +kernel)
  refine (first_generation_claim_exact haccepted (by decide) hchecked ?_).resolve_left
    (by decide +kernel)
  intro coin hcoin pot hpot
  obtain rfl : coin = ⟨poolPot 3131, 1500, false⟩ := by
    simpa [claimCoins, soleClaim, wrappedCoins] using hcoin
  have hsigner : (potFromTxOut (poolPot 3131)).map PotOut.signer = some sampleController := by
    decide +kernel
  rw [hpot] at hsigner
  have hpool : pot.signer = sampleController := Option.some.inj hsigner
  rw [hpool]
  decide +kernel

/-- The weights of the seven participants wrap around to 1860 * 2^53. The shares in the pot add
up to twice its distributable part, and more than this part is paid. -/
theorem wrapped_weights_share_too_much :
    checkPosPotClaim firstParams poolCrypto wrappedRegistry wrappedClaim wrappedCoins 1600 = .ok () ∧
      AmountsChecked firstParams wrappedClaim wrappedCoins ∧
      sweptPots (claimCoins wrappedClaim wrappedCoins) = [⟨1, 3131, 1500⟩] ∧
      distributablePart 3131 = 3100 ∧
      ((potSharers firstParams wrappedRegistry sampleController 1500).keys.map
        (PotInput.share firstParams wrappedRegistry sampleController ⟨1, 3131, 1500⟩)).sum = 6512 ∧
      deliveredIn firstParams poolCrypto wrappedRegistry sampleController wrappedClaim
        wrappedCoins 1 = 3120 := by
  refine ⟨by decide +kernel,
    wrappedCoins_checked (by rfl) (by decide +kernel) (by decide +kernel), by decide +kernel, by decide, by decide +kernel,
    by decide +kernel⟩

end Sequentia
