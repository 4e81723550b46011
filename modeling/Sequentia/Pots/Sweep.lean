import Sequentia.Amounts.Verify
import Sequentia.Lib.Checks
import Sequentia.Pots.ClaimOutputs
import Sequentia.Pots.Unconfirmed

/-!
# What a claim of the first generation sweeps and pays

The flows of a claim are sums over its coins and outputs: the pots it sweeps, what the claimer
brought, what reached the delegators with a share, and what went to fees and to the claimer. The
validator keeps them in tallies, and accepts a claim when the tallies are in order.
-/

namespace Sequentia

open Std KeyedMap Checks List

def claimCoins (tx : CTransaction) (spentCoins : List Coin) : List Coin :=
  (tx.vin.zip spentCoins).map Prod.snd

def Coin.potInput? (coin : Coin) : Option PotInput :=
  if coin.isSpent then none
  else (potFromTxOut coin.out).map fun pot => ⟨pot.asset, pot.value, coin.nHeight⟩

/-- What the claimer brings with a coin. -/
def Coin.brought? (coin : Coin) : Option (CAsset × ℤ) :=
  if coin.isSpent then none
  else if (potFromTxOut coin.out).isSome then none else coin.out.explicit?

def amountOf (outs : List CTxOut) (kind : CTxOut → Bool) (asset : CAsset) : ℤ :=
  postedTo ((outs.filter kind).filterMap CTxOut.explicit?) asset

section Shares

variable (params : Params) (crypto : Crypto) (registry : StakeRegistry) (signer : CPubKey)

/-- The total weight that a pot is shared by, as the node adds it up. -/
def PotInput.total (pot : PotInput) : ℕ :=
  (potSharers params registry signer pot.height).toList.foldl
    (fun total e => toUint64 (total + e.2)) 0

def PotInput.cut (pot : PotInput) (weight : ℕ) : ℤ :=
  if pot.total params registry signer = 0 then 0
  else max 0 (toInt64 ((distributablePart pot.value).toNat * weight /
    pot.total params registry signer))

def PotInput.share (pot : PotInput) (c : CPubKey) : ℤ :=
  pot.cut params registry signer ((potSharers params registry signer pot.height).getD c 0)

def shareOf (pots : List PotInput) (c : CPubKey) (asset : CAsset) : ℤ :=
  postedTo (pots.map fun pot => (pot.asset, pot.share params registry signer c)) asset

def shareholders (pots : List PotInput) : List CPubKey :=
  pots.flatMap fun pot => (potSharers params registry signer pot.height).keys.filter fun c =>
    0 < pot.share params registry signer c

/-- The script at which a participant is paid. -/
def payoutScript (c : CPubKey) : CScript := witnessV0KeyHashScript (c.getID crypto)

def paysHolder (holders : List CPubKey) (out : CTxOut) : Bool :=
  holders.any fun c => out.scriptPubKey = payoutScript crypto c

end Shares

def isPotOut (out : CTxOut) : Bool := (parsePotScript out.scriptPubKey).isSome

section

variable {params : Params} {crypto : Crypto} {registry : StakeRegistry} {signer : CPubKey}

theorem PotInput.cut_nonneg (pot : PotInput) (weight : ℕ) :
    0 ≤ pot.cut params registry signer weight := by
  unfold PotInput.cut
  split
  · exact Int.le_refl 0
  · exact Int.le_max_left 0 _

/-- What a pot adds to the shares. -/
def PotInput.postings (params : Params) (registry : StakeRegistry) (signer : CPubKey)
    (pot : PotInput) : List ((CPubKey × CAsset) × ℤ) :=
  ((potSharers params registry signer pot.height).toList.map fun e =>
    ((e.1, pot.asset), pot.cut params registry signer e.2)).filter fun p => 0 < p.2

theorem addPot_owed (shares : PosPotShares) (pot : PotInput) :
    (shares.addPot params registry signer pot).owed =
      (pot.postings params registry signer).foldl (fun m p => tally m p.1 p.2) shares.owed := by
  have hfold : (shares.addPot params registry signer pot).owed =
      if pot.total params registry signer = 0 then shares.owed
      else (potSharers params registry signer pot.height).toList.foldl (fun owed e =>
        if 0 < toInt64 ((distributablePart pot.value).toNat * e.2 /
          pot.total params registry signer) then
          tally owed (e.1, pot.asset) (toInt64 ((distributablePart pot.value).toNat * e.2 /
            pot.total params registry signer)) else owed) shares.owed := rfl
  have hstep : ∀ (owed : ExtTreeMap (CPubKey × CAsset) ℤ) (key : CPubKey × CAsset) (cut : ℤ),
      (if decide (0 < max 0 cut) = true then tally owed key (max 0 cut) else owed) =
        if 0 < cut then tally owed key cut else owed := by
    intro owed key cut
    by_cases hcut : 0 < cut
    · rw [Int.max_eq_right hcut.le, if_pos hcut, if_pos (decide_eq_true hcut)]
    · rw [if_neg hcut, Int.max_eq_left (Int.not_lt.mp hcut), if_neg (by decide)]
  rw [hfold, PotInput.postings, foldl_filter, foldl_map]
  unfold PotInput.cut
  split
  · simp
  · simp only [hstep]

theorem posted_postings (pot : PotInput) (c : CPubKey) (a : CAsset) :
    postedTo (pot.postings params registry signer) (c, a) =
      if pot.asset = a then pot.share params registry signer c else 0 := by
  rw [PotInput.postings, postedTo_filter_pos]
  swap
  · intro p hp
    obtain ⟨e, -, rfl⟩ := mem_map.mp hp
    exact pot.cut_nonneg _
  split
  · next ha =>
    subst ha
    unfold PotInput.share
    rw [ExtTreeMap.getD_eq_getD_getElem?]
    cases hc : (potSharers params registry signer pot.height)[c]? with
    | none =>
      rw [postedTo_eq_zero]
      · simp [PotInput.cut, toInt64_of_lt]
      · intro hmem
        rw [map_map] at hmem
        obtain ⟨e, he, heq⟩ := mem_map.mp hmem
        rw [ExtTreeMap.mem_toList_iff_getElem?_eq_some] at he
        cases heq
        rw [he] at hc
        cases hc
    | some weight =>
      have hmem : ((c, pot.asset), pot.cut params registry signer weight) ∈
          (potSharers params registry signer pot.height).toList.map fun e =>
            ((e.1, pot.asset), pot.cut params registry signer e.2) :=
        mem_map.mpr ⟨(c, weight), ExtTreeMap.mem_toList_iff_getElem?_eq_some.mpr hc, rfl⟩
      refine postedTo_of_mem ?_ hmem
      have hkeys : ((potSharers params registry signer pot.height).toList.map
          Prod.fst).Nodup := by
        rw [ExtTreeMap.map_fst_toList_eq_keys]
        exact ExtTreeMap.nodup_keys
      rw [map_map]
      have hmap := hkeys.map (f := fun c => (c, pot.asset)) fun c c' h => congrArg Prod.fst h
      rwa [map_map] at hmap
  · next ha =>
    refine postedTo_eq_zero fun hmem => ha ?_
    rw [map_map] at hmem
    obtain ⟨e, -, heq⟩ := mem_map.mp hmem
    exact congrArg Prod.snd heq

theorem mem_postings {pot : PotInput} {c : CPubKey} {a : CAsset} :
    (c, a) ∈ (pot.postings params registry signer).map Prod.fst ↔
      pot.asset = a ∧ c ∈ potSharers params registry signer pot.height ∧
        0 < pot.share params registry signer c := by
  unfold PotInput.postings PotInput.share
  simp only [mem_map, mem_filter, decide_eq_true_eq]
  constructor
  · rintro ⟨p, ⟨⟨e, he, rfl⟩, hpos⟩, heq⟩
    cases heq
    have hget := ExtTreeMap.mem_toList_iff_getElem?_eq_some.mp he
    rw [ExtTreeMap.getD_eq_getD_getElem?, hget, ExtTreeMap.mem_iff_isSome_getElem?, hget]
    exact ⟨rfl, rfl, hpos⟩
  · rintro ⟨rfl, hc, hpos⟩
    rw [ExtTreeMap.mem_iff_isSome_getElem?, Option.isSome_iff_exists] at hc
    obtain ⟨weight, hweight⟩ := hc
    rw [ExtTreeMap.getD_eq_getD_getElem?, hweight] at hpos
    exact ⟨_, ⟨⟨(c, weight), ExtTreeMap.mem_toList_iff_getElem?_eq_some.mpr hweight, rfl⟩, hpos⟩,
      rfl⟩

variable (params registry signer) in
theorem posComputePotShares_spec (pots : List PotInput) :
    (∀ c a, (posComputePotShares params registry signer pots).owed.getD (c, a) 0 =
      shareOf params registry signer pots c a) ∧
    (∀ c a, (c, a) ∈ (posComputePotShares params registry signer pots).owed ↔
      ∃ pot ∈ pots, pot.asset = a ∧ c ∈ potSharers params registry signer pot.height ∧
        0 < pot.share params registry signer c) ∧
    (∀ a, a ∈ (posComputePotShares params registry signer pots).swept ↔
      a ∈ pots.map PotInput.asset) := by
  have hgen : ∀ (pots : List PotInput) (shares : PosPotShares),
      (∀ c a, (pots.foldl (PosPotShares.addPot params registry signer) shares).owed.getD (c, a) 0 =
        shares.owed.getD (c, a) 0 + shareOf params registry signer pots c a) ∧
      (∀ c a, (c, a) ∈ (pots.foldl (PosPotShares.addPot params registry signer) shares).owed ↔
        (c, a) ∈ shares.owed ∨ ∃ pot ∈ pots, pot.asset = a ∧
          c ∈ potSharers params registry signer pot.height ∧
          0 < pot.share params registry signer c) ∧
      (∀ a, a ∈ (pots.foldl (PosPotShares.addPot params registry signer) shares).swept ↔
        a ∈ shares.swept ∨ a ∈ pots.map PotInput.asset) := by
    intro pots
    induction pots with
    | nil => simp [shareOf, postedTo]
    | cons pot pots ih =>
      intro shares
      obtain ⟨howed, hmem, hswept⟩ := ih (shares.addPot params registry signer pot)
      rw [foldl_cons]
      refine ⟨fun c a => ?_, fun c a => ?_, fun a => ?_⟩
      · rw [howed, addPot_owed, getD_foldl_tally, posted_postings]
        simp only [shareOf, map_cons, postedTo_cons]
        omega
      · rw [hmem, addPot_owed, mem_foldl_tally, mem_postings, exists_mem_cons_iff, or_assoc]
      · rw [hswept, PosPotShares.addPot, mem_tally, map_cons, mem_cons, @eq_comm _ a]
        tauto
  obtain ⟨howed, hmem, hswept⟩ := hgen pots ⟨∅, ∅⟩
  unfold posComputePotShares
  refine ⟨fun c a => ?_, fun c a => ?_, fun a => ?_⟩
  · rw [howed]
    simp
  · rw [hmem]
    simp
  · rw [hswept]
    simp

theorem mem_shareholders {pots : List PotInput} {c : CPubKey} :
    c ∈ shareholders params registry signer pots ↔
      ∃ a, (c, a) ∈ (posComputePotShares params registry signer pots).owed := by
  simp only [(posComputePotShares_spec params registry signer pots).2.1, shareholders, mem_flatMap, mem_filter,
    ExtTreeMap.mem_keys, decide_eq_true_eq]
  constructor
  · rintro ⟨pot, hpot, hc, hpos⟩
    exact ⟨pot.asset, pot, hpot, rfl, hc, hpos⟩
  · rintro ⟨a, pot, hpot, -, hc, hpos⟩
    exact ⟨pot, hpot, hc, hpos⟩

/-- What the inputs of a claim come to. -/
structure SweptInputs (coins : List Coin) (st : SweepInputs) : Prop where
  signer : ∀ coin ∈ coins, coin.isSpent = false → ∀ pot, potFromTxOut coin.out = some pot →
    st.signer = some pot.signer
  /-- Without a pool there is no pot. -/
  noPot : st.signer = none → coins.filterMap Coin.potInput? = []
  pots : st.pots = coins.filterMap Coin.potInput?
  external : ∀ a, st.external.getD a 0 = postedTo (coins.filterMap Coin.brought?) a

theorem SweptInputs.step {done : List Coin} {st st' : SweepInputs} {coin : Coin}
    (hdone : SweptInputs done st) (hok : sweepInput st coin = .ok st') :
    SweptInputs (done ++ [coin]) st' := by
  obtain ⟨hsigner, hnone, hpots, hexternal⟩ := hdone
  have hkept : (coin.isSpent = false → potFromTxOut coin.out = none) → ∀ external,
      (∀ a, external.getD a 0 = postedTo ((done ++ [coin]).filterMap Coin.brought?) a) →
      SweptInputs (done ++ [coin]) { st with external } := by
    intro hnot external hexternal
    have hpot : coin.potInput? = none := by
      cases hspent : coin.isSpent <;> simp_all [Coin.potInput?]
    refine ⟨forall_mem_append.mpr ⟨hsigner, by simp_all⟩, ?_, ?_, hexternal⟩
    · simpa [hpot] using hnone
    · simpa [hpot] using hpots
  revert hok
  fun_cases sweepInput st coin <;> rintro ⟨⟩
  · next hspent =>
    refine hkept (by simp [hspent]) _ ?_
    simpa [Coin.brought?, hspent] using hexternal
  · next hspent pot hpot hsame =>
    have hpot' : coin.potInput? = some ⟨pot.asset, pot.value, coin.nHeight⟩ := by
      simp [Coin.potInput?, hspent, hpot]
    have hbrought : coin.brought? = none := by simp [Coin.brought?, hpot]
    refine ⟨?_, by simp, by simp [hpots, hpot'], by simpa [hbrought] using hexternal⟩
    refine forall_mem_append.mpr ⟨fun c hc hunspent p hp => ?_, by simp [hpot]⟩
    rw [hsigner c hc hunspent p hp] at hsame
    have heq : p.signer = pot.signer := by simpa using hsame
    rw [heq]
  · next hspent hpot asset value hexplicit =>
    refine hkept (fun _ => hpot) _ fun a => ?_
    rw [filterMap_append, postedTo_append, getD_tally, hexternal]
    simp [Coin.brought?, hspent, hpot, hexplicit, postedTo, Int.add_comm]
  · next hspent hpot hexplicit =>
    refine hkept (fun _ => hpot) _ ?_
    simpa [Coin.brought?, hspent, hpot, hexplicit] using hexternal

/-- The delegator that an output pays; of two with one script, the first. -/
def payee? (crypto : Crypto) (holders : List CPubKey) (out : CTxOut) : Option CPubKey :=
  if isPotOut out then none
  else holders.find? fun c => payoutScript crypto c = out.scriptPubKey

/-- What the outputs of a claim come to. -/
structure SweptOutputs (crypto : Crypto) (holders : List CPubKey) (outs : List CTxOut)
    (st : Payments) : Prop where
  explicit : ∀ out ∈ outs, out.explicit?.isSome = true
  paidTo : ∀ c a, st.paidTo.getD (c, a) 0 =
    amountOf outs (fun out => payee? crypto holders out = some c) a
  /-- What delegators receive. -/
  delivered : ∀ a, st.delivered.getD a 0 =
    amountOf outs (fun out => (payee? crypto holders out).isSome) a
  /-- What goes to fees and to the claimer. -/
  withheld : ∀ a, st.fee.getD a 0 + st.keeper.getD a 0 =
    amountOf outs (fun out => !(payee? crypto holders out).isSome && !isPotOut out) a

variable {holders : List CPubKey} {outs done : List CTxOut} {kind : CTxOut → Bool} {out : CTxOut}
  {a asset : CAsset} {value : ℤ} {p p' : Payments}

theorem amountOf_concat (hexplicit : out.explicit? = some (asset, value)) :
    amountOf (outs ++ [out]) kind a =
      amountOf outs kind a + if kind out = true then (if asset = a then value else 0) else 0 := by
  unfold amountOf
  rw [filter_append, filterMap_append, postedTo_append]
  by_cases hkind : kind out = true
  · simp [hkind, hexplicit, postedTo]
  · simp [hkind, postedTo]

theorem amountOf_concat_hidden (hhidden : out.explicit? = none) :
    amountOf (outs ++ [out]) kind a = amountOf outs kind a := by
  unfold amountOf
  rw [filter_append, filterMap_append, postedTo_append]
  by_cases hkind : kind out = true
  · simp [hkind, hhidden, postedTo]
  · simp [hkind, postedTo]

theorem isPotOut_of_isFee (hfee : out.isFee = true) : isPotOut out = false := by
  rw [isPotOut, scriptPubKey_of_isFee hfee]
  decide

theorem SweptOutputs.explicit_concat (hdone : SweptOutputs crypto holders done p)
    (hexplicit : out.explicit? = some (asset, value)) :
    ∀ o ∈ done ++ [out], o.explicit?.isSome = true := by
  rw [forall_mem_append]
  exact ⟨hdone.explicit, by simp [hexplicit]⟩

theorem SweptOutputs.unpaid (hdone : SweptOutputs crypto holders done p)
    (hexplicit : out.explicit? = some (asset, value)) (hpayee : payee? crypto holders out = none)
    (hpaidTo : p'.paidTo = p.paidTo) (hdelivered : p'.delivered = p.delivered)
    (hwithheld : ∀ a, p'.fee.getD a 0 + p'.keeper.getD a 0 = p.fee.getD a 0 + p.keeper.getD a 0 +
      if isPotOut out then 0 else if asset = a then value else 0) :
    SweptOutputs crypto holders (done ++ [out]) p' := by
  refine ⟨hdone.explicit_concat hexplicit, fun c a => ?_, fun a => ?_, fun a => ?_⟩
  · rw [amountOf_concat hexplicit, hpaidTo, hdone.paidTo]
    simp [hpayee]
  · rw [amountOf_concat hexplicit, hdelivered, hdone.delivered]
    simp [hpayee]
  · rw [amountOf_concat hexplicit, hwithheld, hdone.withheld, hpayee]
    cases isPotOut out <;> rfl

theorem SweptOutputs.step {owed : ExtTreeMap (CPubKey × CAsset) ℤ} {st st' : SweepOutputs}
    (hdone : SweptOutputs crypto (owed.keys.map Prod.fst) done st.payments)
    (hok : sweepOutput crypto signer owed st out = .ok st') :
    SweptOutputs crypto (owed.keys.map Prod.fst) (done ++ [out]) st'.payments := by
  revert hok
  fun_cases sweepOutput crypto signer owed st out <;> rintro ⟨⟩
  · next asset value hexplicit hfee =>
    refine hdone.unpaid hexplicit ?_ rfl rfl fun a => ?_
    · rw [payee?, isPotOut_of_isFee hfee, scriptPubKey_of_isFee hfee]
      simp [payoutScript, witnessV0KeyHashScript]
    · rw [getD_tally, isPotOut_of_isFee hfee, if_neg Bool.false_ne_true]
      dsimp only
      omega
  · next asset value hexplicit _ pot hpot _ _ =>
    have hpotOut : isPotOut out = true := by simp [isPotOut, hpot]
    exact hdone.unpaid hexplicit (by simp [payee?, hpotOut]) rfl rfl fun a => by simp [hpotOut]
  · next asset value hexplicit _ hpot payee =>
    have hpotOut : isPotOut out = false := by simp [isPotOut, hpot]
    have hfind : payee = payee? crypto (owed.keys.map Prod.fst) out := by
      rw [payee?, hpotOut]
      rfl
    cases hpayee : payee? crypto (owed.keys.map Prod.fst) out with
    | some c₀ =>
      rw [hfind, hpayee]
      refine ⟨hdone.explicit_concat hexplicit, fun c a => ?_, fun a => ?_, fun a => ?_⟩
      · rw [amountOf_concat hexplicit, Payments.pay, getD_tally, hdone.paidTo]
        simp only [hpayee, Prod.mk.injEq, Option.some.injEq, decide_eq_true_eq, ite_and]
        omega
      · rw [amountOf_concat hexplicit, Payments.pay, getD_tally, hdone.delivered]
        simp only [hpayee, Option.isSome_some, if_true]
        omega
      · rw [amountOf_concat hexplicit, Payments.pay, ← hdone.withheld]
        simp [hpayee]
    | none =>
      rw [hfind, hpayee]
      refine hdone.unpaid hexplicit hpayee rfl rfl fun a => ?_
      rw [Payments.pay, getD_tally, hpotOut, if_neg Bool.false_ne_true]
      dsimp only
      omega

end

end Sequentia
