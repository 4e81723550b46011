import Sequentia.ScriptTokens

/-!
# The hashed timelock of a swap

Both legs of a cross-chain swap are locked by one script: a hashlock branch that pays whoever
reveals the secret, and a timelock branch that pays the locker back. The script is built from its
terms and read back from what a counterparty funded. The module says exactly which terms survive
the round trip and which of the scripts the parser accepts are the ones the builder makes.
-/

namespace Sequentia

def opIf : UInt8 := 0x63

def opElse : UInt8 := 0x67

def opEndIf : UInt8 := 0x68

def opSize : UInt8 := 0x82

def opSha256 : UInt8 := 0xa8

structure HtlcTerms where
  hash : Bytes
  claimPub : Bytes
  refundPub : Bytes
  /-- `locktime`, an unsigned 32-bit number. -/
  locktime : ℕ
  deriving DecidableEq

/-- The test `BuildHtlcRedeemScript` makes of both keys. -/
def htlcKeyOk (pk : Bytes) : Bool :=
  pk.length == 33 && (CPubKey.ofBytes pk).isFullyValid && (CPubKey.ofBytes pk).isCompressed

def buildHtlcRedeemScript (terms : HtlcTerms) : Option CScript :=
  if terms.hash.length ≠ 32 then none
  else if !htlcKeyOk terms.claimPub || !htlcKeyOk terms.refundPub then none
  else some (
    [opIf] ++
    [opSize] ++ pushBytes (scriptNumSerialize 32) ++ [opEqualVerify] ++
    [opSha256] ++ pushBytes terms.hash ++ [opEqualVerify] ++
    pushBytes terms.claimPub ++ [opCheckSig] ++
    [opElse] ++
    pushBytes (scriptNumSerialize terms.locktime) ++ [opCheckLockTimeVerify] ++ [opDrop] ++
    pushBytes terms.refundPub ++ [opCheckSig] ++
    [opEndIf])

/-- `CScriptNum::getint`: numbers beyond 32 bits are clamped. -/
def scriptNumGetInt (value : ℤ) : ℤ :=
  if 2 ^ 31 - 1 < value then 2 ^ 31 - 1 else if value < -2 ^ 31 then -2 ^ 31 else value

/-- The locktime of `ParseHtlcRedeemScript`, converted to an unsigned number; `none` where
`CScriptNum` throws. -/
def htlcLocktime (data : Bytes) : Option ℕ :=
  if scriptNumMinimal data 5 then some (scriptNumGetInt (decodeScriptInt data) % 2 ^ 32).toNat
  else none

def parseHtlcRedeemScript (redeem : CScript) : Option HtlcTerms :=
  match readTokens 32 redeem with
  | some [t0, t1, t2, t3, t4, t5, t6, t7, t8, t9, t10, t11, t12, t13, t14, t15] =>
    if t0 = opToken opIf ∧ t1 = opToken opSize ∧ t2.2 = [32] ∧ t3 = opToken opEqualVerify ∧
        t4 = opToken opSha256 ∧ t5.2.length = 32 ∧ t6 = opToken opEqualVerify ∧
        t7.2.length = 33 ∧ t8 = opToken opCheckSig ∧ t9 = opToken opElse ∧ t10.2 ≠ [] ∧
        t11 = opToken opCheckLockTimeVerify ∧ t12 = opToken opDrop ∧ t13.2.length = 33 ∧
        t14 = opToken opCheckSig ∧ t15 = opToken opEndIf then
      (htlcLocktime t10.2).map fun locktime => ⟨t5.2, t7.2, t13.2, locktime⟩
    else none
  | _ => none

/-- The tokens of the script, given the five pushes. -/
def htlcTokens (size hash claim locktime refund : Token) : List Token :=
  [opToken opIf, opToken opSize, size, opToken opEqualVerify, opToken opSha256, hash,
    opToken opEqualVerify, claim, opToken opCheckSig, opToken opElse, locktime,
    opToken opCheckLockTimeVerify, opToken opDrop, refund, opToken opCheckSig, opToken opEndIf]

theorem direct_htlcTokens {size hash claim locktime refund : Token} (hsize : size.Direct)
    (hhash : hash.Direct) (hclaim : claim.Direct) (hlocktime : locktime.Direct)
    (hrefund : refund.Direct) :
    ∀ token ∈ htlcTokens size hash claim locktime refund, token.Direct := by
  have hop : ∀ opcode : UInt8, ¬ opcode ≤ opPushData4 → (opToken opcode).Direct :=
    fun _ => direct_opToken
  intro token htoken
  simp only [htlcTokens, List.mem_cons, List.not_mem_nil, or_false] at htoken
  rcases htoken with rfl | rfl | rfl | rfl | rfl | rfl | rfl | rfl | rfl | rfl | rfl | rfl |
    rfl | rfl | rfl | rfl
  all_goals first | assumption | exact hop _ (by decide)

/-- The number pushed for the length of the secret. -/
theorem scriptNumSerialize_32 : scriptNumSerialize 32 = [32] := by
  exact scriptNumSerialize_eq (n := 32) (show scriptNumMinimal [32] 4 = true by decide) (by decide)
    (by decide)

/-- A locktime is pushed in at most five bytes. -/
theorem length_locktime {locktime : ℕ} (hlt : locktime < 2 ^ 32) :
    (scriptNumSerialize locktime).length ≤ 5 := by
  rcases Nat.eq_zero_or_pos locktime with rfl | hpos
  · simp [scriptNumSerialize]
  · exact (scriptNumSerialize_spec hpos (show locktime < 128 * 256 ^ (5 - 1) by omega)
      (by decide)).2.1

variable {terms : HtlcTerms} {script : CScript}

theorem buildHtlcRedeemScript_eq (hlocktime : terms.locktime < 2 ^ 32) :
    buildHtlcRedeemScript terms = some script ↔
      terms.hash.length = 32 ∧ htlcKeyOk terms.claimPub = true ∧
      htlcKeyOk terms.refundPub = true ∧
      script = writeTokens (htlcTokens (pushToken [32]) (pushToken terms.hash)
        (pushToken terms.claimPub) (pushToken (scriptNumSerialize terms.locktime))
        (pushToken terms.refundPub)) := by
  unfold buildHtlcRedeemScript
  by_cases hhash : terms.hash.length = 32
  · by_cases hclaim : htlcKeyOk terms.claimPub = true
    · by_cases hrefund : htlcKeyOk terms.refundPub = true
      · have hlen33 : ∀ {pk : Bytes}, htlcKeyOk pk = true → pk.length < 76 := by
          intro pk hpk
          simp only [htlcKeyOk, Bool.and_eq_true, beq_iff_eq] at hpk
          omega
        have hshort := length_locktime hlocktime
        rw [if_neg (by simpa using hhash), if_neg (by simp [hclaim, hrefund]),
          scriptNumSerialize_32, pushBytes_eq_write (by decide),
          pushBytes_eq_write (show terms.hash.length < 76 by omega),
          pushBytes_eq_write (hlen33 hclaim), pushBytes_eq_write (by omega),
          pushBytes_eq_write (hlen33 hrefund)]
        simp only [hhash, hclaim, hrefund, true_and, Option.some.injEq]
        refine eq_comm.trans (iff_of_eq (congrArg (script = ·) ?_))
        simp [writeTokens, htlcTokens, Token.write, opToken]
      · simp [hhash, hclaim, hrefund]
    · simp [hhash, hclaim]
  · simp [hhash]

theorem parseHtlcRedeemScript_eq {size hash claim locktime refund : Token}
    (hread : readTokens 32 script = some (htlcTokens size hash claim locktime refund))
    (hsize : size.2 = [32]) (hhash : hash.2.length = 32) (hclaim : claim.2.length = 33)
    (hrefund : refund.2.length = 33) :
    parseHtlcRedeemScript script =
      if locktime.2 = [] then none
      else (htlcLocktime locktime.2).map fun value => ⟨hash.2, claim.2, refund.2, value⟩ := by
  unfold parseHtlcRedeemScript
  rw [hread]
  by_cases hne : locktime.2 = []
  · simp [htlcTokens, hsize, hhash, hclaim, hrefund, hne]
  · simp [htlcTokens, hsize, hhash, hclaim, hrefund, hne]

theorem tokens_of_parse (hparse : parseHtlcRedeemScript script = some terms) :
    ∃ size hash claim locktime refund : Token,
      readTokens 32 script = some (htlcTokens size hash claim locktime refund) ∧
      size.2 = [32] ∧ hash.2 = terms.hash ∧ claim.2 = terms.claimPub ∧
      refund.2 = terms.refundPub ∧ locktime.2 ≠ [] ∧
      htlcLocktime locktime.2 = some terms.locktime ∧ terms.hash.length = 32 ∧
      terms.claimPub.length = 33 ∧ terms.refundPub.length = 33 := by
  revert hparse
  fun_cases parseHtlcRedeemScript script <;> intro hparse <;> try cases hparse
  next t0 t1 t2 t3 t4 t5 t6 t7 t8 t9 t10 t11 t12 t13 t14 t15 hread hshape =>
    obtain ⟨rfl, rfl, h2, rfl, rfl, h5, rfl, h7, rfl, rfl, h10, rfl, rfl, h13, rfl, rfl⟩ := hshape
    obtain ⟨value, hvalue, rfl⟩ := Option.map_eq_some_iff.mp hparse
    exact ⟨t2, t5, t7, t10, t13, hread, h2, rfl, rfl, rfl, h10, hvalue, h5, h7, h13⟩

/-- The locktime read back from its push. -/
theorem htlcLocktime_serialize {locktime : ℕ} (hpos : 0 < locktime) (hlt : locktime < 2 ^ 32) :
    scriptNumSerialize locktime ≠ [] ∧ decodeScriptInt (scriptNumSerialize locktime) = locktime ∧
      htlcLocktime (scriptNumSerialize locktime) = some (min locktime (2 ^ 31 - 1)) := by
  obtain ⟨hne, -, hminimal, hvalue⟩ := scriptNumSerialize_spec hpos
    (show locktime < 128 * 256 ^ (5 - 1) by omega) (by decide)
  refine ⟨hne, hvalue, ?_⟩
  unfold htlcLocktime scriptNumGetInt
  rw [if_pos hminimal, hvalue]
  congr 1
  split
  · omega
  · rw [if_neg (by omega)]
    omega

/-- Terms are read back from their script exactly if the locktime is a positive signed 32-bit
number. -/
theorem parse_build_iff (hlocktime : terms.locktime < 2 ^ 32)
    (hbuild : buildHtlcRedeemScript terms = some script) :
    parseHtlcRedeemScript script = some terms ↔
      0 < terms.locktime ∧ terms.locktime < 2 ^ 31 := by
  obtain ⟨hhash, hclaim, hrefund, rfl⟩ := (buildHtlcRedeemScript_eq hlocktime).mp hbuild
  simp only [htlcKeyOk, Bool.and_eq_true, beq_iff_eq] at hclaim hrefund
  have hshort := length_locktime hlocktime
  have hdirect := direct_htlcTokens (direct_pushToken (show [(32 : UInt8)].length < 76 by decide))
    (direct_pushToken (show terms.hash.length < 76 by omega))
    (direct_pushToken (show terms.claimPub.length < 76 by omega))
    (direct_pushToken (show (scriptNumSerialize terms.locktime).length < 76 by omega))
    (direct_pushToken (show terms.refundPub.length < 76 by omega))
  rw [parseHtlcRedeemScript_eq (readTokens_writeTokens hdirect (by simp [htlcTokens])) rfl hhash hclaim.1.1
    hrefund.1.1]
  rcases Nat.eq_zero_or_pos terms.locktime with hzero | hpos
  · simp [hzero, pushToken, scriptNumSerialize]
  · obtain ⟨hne, -, hread⟩ := htlcLocktime_serialize hpos hlocktime
    simp only [pushToken, hne, if_false, hread, Option.map_some, Option.some.injEq]
    constructor
    · intro heq
      have := congrArg HtlcTerms.locktime heq
      dsimp only at this
      omega
    · rintro ⟨-, hlt⟩
      rw [Nat.min_eq_left (by omega)]

/-- The script is written as the builder writes it: every push in its direct form, both keys
valid, and a positive locktime that fits a signed 32-bit number. -/
def HtlcCanonical (script : CScript) : Prop :=
  ∃ size hash claim locktime refund : Token,
    readTokens 32 script = some (htlcTokens size hash claim locktime refund) ∧
    (size.Direct ∧ hash.Direct ∧ claim.Direct ∧ locktime.Direct ∧ refund.Direct) ∧
    htlcKeyOk claim.2 = true ∧ htlcKeyOk refund.2 = true ∧
    0 < decodeScriptInt locktime.2 ∧ decodeScriptInt locktime.2 < 2 ^ 31

theorem Token.Direct.eq_pushToken {token : Token} (hdirect : token.Direct) (hdata : token.2 ≠ []) :
    token = pushToken token.2 := by
  unfold Direct at hdirect
  split at hdirect
  · rw [pushToken, ← hdirect.2, UInt8.ofNat_toNat]
  · exact absurd hdirect hdata

/-- A script the parser accepts is the one built from the terms it returns exactly if it is
canonical. -/
theorem build_parse_iff (hparse : parseHtlcRedeemScript script = some terms) :
    buildHtlcRedeemScript terms = some script ↔ HtlcCanonical script := by
  obtain ⟨size, hash, claim, locktime, refund, hread, hsize, hhash, hclaim, hrefund, hne, hvalue,
    hhash32, hclaim33, hrefund33⟩ := tokens_of_parse hparse
  have hlt : terms.locktime < 2 ^ 32 := by
    unfold htlcLocktime at hvalue
    split at hvalue
    · have := Option.some.inj hvalue
      omega
    · cases hvalue
  constructor
  · intro hbuild
    obtain ⟨hpos, hlt31⟩ := (parse_build_iff hlt hbuild).mp hparse
    obtain ⟨-, hclaimOk, hrefundOk, hscript⟩ := (buildHtlcRedeemScript_eq hlt).mp hbuild
    have hshort := length_locktime hlt
    have hpushes := And.intro (direct_pushToken (show [(32 : UInt8)].length < 76 by decide))
      (And.intro (direct_pushToken (show terms.hash.length < 76 by omega))
      (And.intro (direct_pushToken (show terms.claimPub.length < 76 by omega))
      (And.intro (direct_pushToken (show (scriptNumSerialize terms.locktime).length < 76 by omega))
        (direct_pushToken (show terms.refundPub.length < 76 by omega)))))
    refine ⟨_, _, _, _, _, ?_, hpushes, hclaimOk, hrefundOk, ?_, ?_⟩
    · rw [hscript]
      exact readTokens_writeTokens (direct_htlcTokens hpushes.1 hpushes.2.1 hpushes.2.2.1
        hpushes.2.2.2.1 hpushes.2.2.2.2) (by simp [htlcTokens])
    · rw [pushToken, (htlcLocktime_serialize hpos hlt).2.1]
      omega
    · rw [pushToken, (htlcLocktime_serialize hpos hlt).2.1]
      omega
  · rintro ⟨size', hash', claim', locktime', refund', hread', hdirect, hclaimOk, hrefundOk, hpos,
      hlt31⟩
    -- Both descriptions are of the same tokens.
    have hsame := Option.some.inj (hread.symm.trans hread')
    simp only [htlcTokens, List.cons.injEq, and_true, true_and] at hsame
    obtain ⟨rfl, rfl, rfl, rfl, rfl⟩ := hsame
    obtain ⟨n, hn⟩ : ∃ n : ℕ, decodeScriptInt locktime.2 = n :=
      ⟨(decodeScriptInt locktime.2).toNat, by omega⟩
    have hminimal : scriptNumMinimal locktime.2 5 = true := by
      by_contra hnot
      rw [htlcLocktime, if_neg hnot] at hvalue
      cases hvalue
    have hserialize : scriptNumSerialize n = locktime.2 :=
      scriptNumSerialize_eq hminimal hn (by omega)
    have hterms : terms.locktime = n := by
      rw [htlcLocktime, if_pos hminimal, scriptNumGetInt, if_neg (by omega), if_neg (by omega),
        hn] at hvalue
      have := Option.some.inj hvalue
      omega
    have hfilled : ∀ {data : Bytes} {k : ℕ}, data.length = k + 1 → data ≠ [] := by
      rintro data k hlength rfl
      cases hlength
    refine (buildHtlcRedeemScript_eq hlt).mpr ⟨hhash32, hclaim ▸ hclaimOk, hrefund ▸ hrefundOk, ?_⟩
    rw [writeTokens_of_readTokens hread (direct_htlcTokens hdirect.1 hdirect.2.1 hdirect.2.2.1
      hdirect.2.2.2.1 hdirect.2.2.2.2), hterms, hserialize, ← hhash, ← hclaim, ← hrefund,
      ← hsize, ← hdirect.1.eq_pushToken (by simp [hsize]),
      ← hdirect.2.1.eq_pushToken (hfilled (hhash ▸ hhash32)),
      ← hdirect.2.2.1.eq_pushToken (hfilled (hclaim ▸ hclaim33)),
      ← hdirect.2.2.2.1.eq_pushToken hne,
      ← hdirect.2.2.2.2.eq_pushToken (hfilled (hrefund ▸ hrefund33))]

/-- Terms with a 32-byte hash, valid compressed keys and a 32-bit locktime are returned by the
parser exactly if the locktime is positive and below `2 ^ 31`; a script the parser accepts is
rebuilt byte for byte exactly if it is canonical. -/
theorem htlc_round_trips (terms : HtlcTerms) :
    (terms.hash.length = 32 → htlcKeyOk terms.claimPub = true →
      htlcKeyOk terms.refundPub = true → terms.locktime < 2 ^ 32 →
      ∃ script, buildHtlcRedeemScript terms = some script ∧
        (parseHtlcRedeemScript script = some terms ↔
          0 < terms.locktime ∧ terms.locktime < 2 ^ 31)) ∧
    ∀ script, parseHtlcRedeemScript script = some terms →
      (buildHtlcRedeemScript terms = some script ↔ HtlcCanonical script) := by
  refine ⟨fun hhash hclaim hrefund hlocktime => ?_, fun script => build_parse_iff⟩
  have hbuild := (buildHtlcRedeemScript_eq hlocktime).mpr ⟨hhash, hclaim, hrefund, rfl⟩
  exact ⟨_, hbuild, parse_build_iff hlocktime hbuild⟩

/-- Terms of a swap with the generator as both keys. -/
def sampleHtlcTerms (locktime : ℕ) : HtlcTerms :=
  let key := 2 :: beBytes 32 0x79be667ef9dcbbac55a06295ce870b07029bfcdb2dce28d959f2815b16f81798
  ⟨List.replicate 32 7, key, key, locktime⟩

/-- A locktime of ordinary size survives both round trips. -/
theorem htlc_round_trips_block_height :
    ∃ script, buildHtlcRedeemScript (sampleHtlcTerms 800000) = some script ∧
      parseHtlcRedeemScript script = some (sampleHtlcTerms 800000) ∧ HtlcCanonical script := by
  have htrips := htlc_round_trips (sampleHtlcTerms 800000)
  obtain ⟨script, hbuild, hparse⟩ := htrips.1 (by decide) (by decide +kernel) (by decide +kernel)
    (by decide)
  have hparsed := hparse.mpr ⟨by decide, by decide⟩
  exact ⟨script, hbuild, hparsed, (htrips.2 script hparsed).mp hbuild⟩

/-- The locktime `2 ^ 31` is read back as `2 ^ 31 - 1`, and the locktime `0` is refused. -/
theorem htlc_locktime_clamped :
    (buildHtlcRedeemScript (sampleHtlcTerms (2 ^ 31))).bind parseHtlcRedeemScript =
      some (sampleHtlcTerms (2 ^ 31 - 1)) ∧
    ((buildHtlcRedeemScript (sampleHtlcTerms 0)).isSome = true ∧
      (buildHtlcRedeemScript (sampleHtlcTerms 0)).bind parseHtlcRedeemScript = none) := by
  decide +kernel

end Sequentia
