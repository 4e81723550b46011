import Sequentia.Committee.Vrf
import Sequentia.Lib.KeyedMap
import Sequentia.Lib.Runs

/-!
# Signing sessions

A member signs in two rounds. `MuSigSessionNonce` draws a secret nonce and keeps it under an id of
the caller's choice, with the signer and a fingerprint of the member set and the message;
`MuSigSessionPartialSign` takes the session out of the table and signs. Sessions expire and can be
aborted. After the locked part a call works on its own copy of the session, so a call is one event.
A nonce stands for the number of its draw.
-/

namespace Sequentia

open Std KeyedMap List

/-- A private key: whether it is one, and its public key. -/
structure CKey where
  isValid : Bool
  getPubKey : CPubKey

/-- Calls into the curve library. -/
inductive SecpCall
  | pubkeyAgg | nonceGen | nonceAgg | nonceProcess | keypairCreate | partialSign | serialize

/-- What both rounds are called with. -/
structure MuSigCall where
  sessionId : String
  key : CKey
  pubkeys : List CPubKey
  msg32 : Bytes

/-- `PendingSession`. The call that opened the session is not in the source. -/
structure PendingSession where
  secnonce : ℕ
  signer : CPubKey
  fingerprint : Bytes
  created : ℤ
  opening : MuSigCall

/-- A partial signature: its nonce, and the calls that drew the nonce and signed. -/
structure MuSigSignature where
  secnonce : ℕ
  opening : MuSigCall
  signing : MuSigCall

/-- The sessions of a node, the number of nonces it drew, and what it signed. -/
structure MuSigNode where
  sessions : ExtTreeMap String PendingSession := ∅
  generated : ℕ := 0
  signed : List MuSigSignature := []

/-- What `SessionFingerprint` hashes: the members in the order of their bytes, and the message. -/
def sessionPreimage (pubkeys : List CPubKey) (msg32 : Bytes) : Bytes :=
  ((pubkeys.map CPubKey.vch).mergeSort fun a b => (compare a b).isLE).flatten ++ msg32

def sessionFingerprint (crypto : Crypto) (pubkeys : List CPubKey) (msg32 : Bytes) : Bytes :=
  crypto.sha256 (sessionPreimage pubkeys msg32)

/-- `AggKey` succeeds. -/
def aggKey (lib : SecpCall → Bool) (pubkeys : List CPubKey) : Bool :=
  !pubkeys.isEmpty && pubkeys.all CPubKey.isFullyValid && lib .pubkeyAgg

/-- `AggregateNonces` succeeds. -/
def aggregateNonces (lib : SecpCall → Bool) (pubnonces : List Bytes) (expected : ℕ) : Bool :=
  !pubnonces.isEmpty && pubnonces.length == expected && pubnonces.all (·.length == 66) &&
    lib .nonceAgg

def purgeExpiredSessions (now : ℤ) (sessions : ExtTreeMap String PendingSession) :
    ExtTreeMap String PendingSession :=
  sessions.filter fun _ sess => now - sess.created ≤ 600

def failing (checks : List (Bool × String)) : Option String :=
  (checks.find? fun check => !check.1).map Prod.snd

variable (crypto : Crypto) (n : MuSigNode) (lib : SecpCall → Bool) (call : MuSigCall)

/-- `MuSigSessionNonce` up to the end of its locked part. -/
def musigSessionNonce (created now : ℤ) : MuSigNode × Except String ℕ :=
  match failing [
    (call.msg32.length == 32, "message must be 32 bytes"),
    (call.key.isValid, "invalid signing key"),
    (aggKey lib call.pubkeys, "could not aggregate the member set"),
    (call.pubkeys.contains call.key.getPubKey, "the signing key is not in the member set"),
    (eckeyPubkeyParse call.key.getPubKey.vch, "invalid signer public key"),
    (lib .nonceGen, "nonce generation failed")] with
  | some error => (n, .error error)
  | none =>
    let sess : PendingSession := ⟨n.generated, call.key.getPubKey,
      sessionFingerprint crypto call.pubkeys call.msg32, created, call⟩
    let purged := purgeExpiredSessions now n.sessions
    let drawn := { n with generated := n.generated + 1, sessions := purged }
    match failing [
      (!purged.contains call.sessionId,
        "a signing session with this id already exists (refusing to reuse a secret nonce)"),
      (purged.size < 10000, "too many pending signing sessions; retry later")] with
    | some error => (drawn, .error error)
    | none => ({ drawn with sessions := purged.insert call.sessionId sess }, .ok n.generated)

def musigSessionPartialSign (pubnonces : List Bytes) : MuSigNode × Except String ℕ :=
  match failing [
    (call.msg32.length == 32, "message must be 32 bytes"),
    (call.key.isValid, "invalid signing key"),
    (pubnonces.length == call.pubkeys.length,
      "need exactly one round-1 pubnonce per member")], n.sessions[call.sessionId]? with
  | some error, _ => (n, .error error)
  | none, none => (n, .error
      "no round-1 session with this id (call the nonce step first; each session signs once)")
  | none, some sess =>
    match failing [
      (sess.fingerprint == sessionFingerprint crypto call.pubkeys call.msg32,
        "member set or message does not match this session's round 1"),
      (sess.signer == call.key.getPubKey,
        "signing key does not match the key that started this session")] with
    | some error => (n, .error error)
    | none =>
      let taken := { n with sessions := n.sessions.erase call.sessionId }
      match failing [
        (aggKey lib call.pubkeys, "could not aggregate the member set"),
        (aggregateNonces lib pubnonces call.pubkeys.length,
          "could not aggregate the public nonces"),
        (lib .nonceProcess, "nonce processing failed"),
        (lib .keypairCreate, "invalid keypair"),
        (lib .partialSign, "partial signing failed")] with
      | some error => (taken, .error error)
      | none =>
        ({ taken with signed := ⟨sess.secnonce, sess.opening, call⟩ :: n.signed },
          if lib .serialize then .ok sess.secnonce
          else .error "could not serialize partial signature")

/-- What happens to the table of sessions. -/
inductive MuSigEvent
  | nonce (call : MuSigCall) (lib : SecpCall → Bool) (created now : ℤ)
  /-- The public nonce of round one could not be serialized. -/
  | unserialized (sessionId : String)
  | partialSign (call : MuSigCall) (lib : SecpCall → Bool) (pubnonces : List Bytes)
  /-- `MuSigSessionAbort`. -/
  | abort (sessionId : String) (now : ℤ)

def musigMachine : Machine MuSigNode MuSigEvent where
  init n := n = {}
  next n
    | .nonce call lib created now => some (musigSessionNonce crypto n lib call created now).1
    | .unserialized id => some { n with sessions := n.sessions.erase id }
    | .partialSign call lib pubnonces =>
      some (musigSessionPartialSign crypto n lib call pubnonces).1
    | .abort id now =>
      some { n with sessions := purgeExpiredSessions now (n.sessions.erase id) }

theorem CPubKey.exists_header {vch : Bytes} (hvalid : validSize vch = true) :
    ∃ chHeader rest, vch = chHeader :: rest ∧ getLen chHeader = rest.length + 1 := by
  cases vch with
  | nil => cases hvalid
  | cons chHeader rest => exact ⟨chHeader, rest, rfl, by simpa [validSize] using hvalid⟩

/-- Keys that stand before a message can be read off one after the other. -/
theorem flatten_append_inj {keys keys' : List Bytes} {msg msg' : Bytes}
    (hkeys : ∀ k ∈ keys, CPubKey.validSize k = true)
    (hkeys' : ∀ k ∈ keys', CPubKey.validSize k = true) (hmsg : msg.length = msg'.length)
    (heq : keys.flatten ++ msg = keys'.flatten ++ msg') : keys = keys' ∧ msg = msg' := by
  have hlengths := congrArg List.length heq
  induction keys generalizing keys' with
  | nil =>
    cases keys' with
    | nil => exact ⟨rfl, heq⟩
    | cons k' keys' =>
      obtain ⟨b', rest', rfl, -⟩ := CPubKey.exists_header (hkeys' k' mem_cons_self)
      simp at hlengths
      omega
  | cons k keys ih =>
    obtain ⟨b, rest, rfl, hlen⟩ := CPubKey.exists_header (hkeys k mem_cons_self)
    cases keys' with
    | nil =>
      simp at hlengths
      omega
    | cons k' keys' =>
      obtain ⟨b', rest', rfl, hlen'⟩ := CPubKey.exists_header (hkeys' k' mem_cons_self)
      simp only [flatten_cons, append_assoc, cons_append, List.cons.injEq] at heq
      obtain ⟨rfl, heq⟩ := heq
      obtain ⟨rfl, hrest⟩ := append_inj heq (by omega)
      rw [forall_mem_cons] at hkeys hkeys'
      obtain ⟨rfl, hmsg⟩ := ih hkeys.2 hkeys'.2 hrest (congrArg List.length hrest)
      exact ⟨rfl, hmsg⟩

/-- The members are keys and the message has its length. -/
structure MuSigCall.Accepted (call : MuSigCall) : Prop where
  pubkeys : ∀ key ∈ call.pubkeys, CPubKey.validSize key.vch = true
  msg32 : call.msg32.length = 32

/-- The same members, in any order, and the same message, unless the different preimages of the two
fingerprints have the same hash. -/
def MuSigCall.SameRound (call call' : MuSigCall) : Prop :=
  call.pubkeys.Perm call'.pubkeys ∧ call.msg32 = call'.msg32 ∨
    sessionPreimage call.pubkeys call.msg32 ≠ sessionPreimage call'.pubkeys call'.msg32 ∧
      crypto.sha256 (sessionPreimage call.pubkeys call.msg32) =
        crypto.sha256 (sessionPreimage call'.pubkeys call'.msg32)

variable {crypto n lib call} {call' : MuSigCall}

theorem MuSigCall.Accepted.sameRound (hcall : call.Accepted) (hcall' : call'.Accepted)
    (heq : sessionFingerprint crypto call.pubkeys call.msg32 =
      sessionFingerprint crypto call'.pubkeys call'.msg32) : call.SameRound crypto call' := by
  by_cases hpre : sessionPreimage call.pubkeys call.msg32 =
    sessionPreimage call'.pubkeys call'.msg32
  · left
    have hvalid : ∀ {c : MuSigCall}, c.Accepted → ∀ k ∈ (c.pubkeys.map CPubKey.vch).mergeSort
        fun a b => (compare a b).isLE, CPubKey.validSize k = true := by
      intro c hc k hk
      obtain ⟨key, hkey, rfl⟩ := mem_map.mp (mem_mergeSort.mp hk)
      exact hc.pubkeys key hkey
    obtain ⟨hkeys, hmsg⟩ := flatten_append_inj (hvalid hcall) (hvalid hcall')
      (hcall.msg32.trans hcall'.msg32.symm) hpre
    have hperm := (mergeSort_perm _ _).symm.trans (hkeys ▸ mergeSort_perm _ _)
    exact ⟨((map_perm_map_iff fun _ _ => congrArg CPubKey.mk).mp hperm).symm, hmsg⟩
  · exact .inr ⟨hpre, heq⟩

theorem failing_eq_none {checks : List (Bool × String)} :
    failing checks = none ↔ ∀ check ∈ checks, check.1 = true := by
  simp [failing, List.find?_eq_none]

theorem MuSigCall.accepted (hmsg : call.msg32.length = 32)
    (hagg : aggKey lib call.pubkeys = true) : call.Accepted := by
  refine ⟨fun key hkey => ?_, hmsg⟩
  simp only [aggKey, Bool.and_eq_true, all_eq_true] at hagg
  exact CPubKey.validSize_of_isFullyValid (hagg.1.2 key hkey)

/-- A session that the table may hold: it is what its opening asked for, and has not signed. -/
structure PendingSession.Open (crypto : Crypto) (generated : ℕ) (signed : List MuSigSignature)
    (sess : PendingSession) : Prop where
  accepted : sess.opening.Accepted
  signer : sess.signer = sess.opening.key.getPubKey
  fingerprint : sess.fingerprint =
    sessionFingerprint crypto sess.opening.pubkeys sess.opening.msg32
  drawn : sess.secnonce < generated
  unused : ∀ sig ∈ signed, sig.secnonce ≠ sess.secnonce

/-- A signature is what the opening of its session asked for. -/
structure MuSigSignature.Bound (crypto : Crypto) (generated : ℕ) (sig : MuSigSignature) : Prop where
  drawn : sig.secnonce < generated
  key : sig.signing.key.getPubKey = sig.opening.key.getPubKey
  sameRound : sig.opening.SameRound crypto sig.signing

/-- Every nonce is in one session at most, or has signed once. -/
structure MuSigNode.Inv (crypto : Crypto) (n : MuSigNode) : Prop where
  held {id : String} {sess : PendingSession} : n.sessions[id]? = some sess →
    sess.Open crypto n.generated n.signed
  apart {id id' : String} {sess sess' : PendingSession} : n.sessions[id]? = some sess →
    n.sessions[id']? = some sess' → sess.secnonce = sess'.secnonce → id = id'
  bound : ∀ sig ∈ n.signed, sig.Bound crypto n.generated
  nodup : (n.signed.map MuSigSignature.secnonce).Nodup

namespace MuSigNode.Inv

variable (hinv : n.Inv crypto)
include hinv

/-- Sessions may go and nonces may be wasted. -/
theorem shrink {sessions : ExtTreeMap String PendingSession} {generated : ℕ}
    (hsub : ∀ {id : String} {sess}, sessions[id]? = some sess → n.sessions[id]? = some sess)
    (hle : n.generated ≤ generated) :
    Inv crypto { n with sessions := sessions, generated := generated } where
  held h := { hinv.held (hsub h) with drawn := (hinv.held (hsub h)).drawn.trans_le hle }
  apart h h' := hinv.apart (hsub h) (hsub h')
  bound sig hsig := { hinv.bound sig hsig with
    drawn := (hinv.bound sig hsig).drawn.trans_le hle }
  nodup := hinv.nodup

theorem erase (id : String) : Inv crypto { n with sessions := n.sessions.erase id } :=
  hinv.shrink (fun h => by
    rw [getElem?_erase_eq] at h
    exact (Option.ite_none_left_eq_some.mp h).2) le_rfl

theorem purge (now : ℤ) {generated : ℕ} (hle : n.generated ≤ generated) :
    Inv crypto { n with sessions := purgeExpiredSessions now n.sessions, generated := generated } :=
  hinv.shrink (fun h => by
    rw [purgeExpiredSessions, ExtTreeMap.getElem?_filter'] at h
    exact (Option.filter_eq_some_iff.mp h).1) hle

/-- Round one. -/
theorem sessionNonce (lib : SecpCall → Bool) (call : MuSigCall) (created now : ℤ) :
    Inv crypto (musigSessionNonce crypto n lib call created now).1 := by
  unfold musigSessionNonce
  split
  · exact hinv
  · next hchecks =>
    have hpurged := hinv.purge now (Nat.le_succ n.generated)
    -- a kept nonce was drawn earlier
    have hold : ∀ {id : String} {sess : PendingSession},
        (purgeExpiredSessions now n.sessions)[id]? = some sess → sess.secnonce ≠ n.generated :=
      fun h => ((hinv.purge now le_rfl).held h).drawn.ne
    dsimp only
    split
    · exact hpurged
    · simp only [failing_eq_none, forall_mem_cons, beq_iff_eq] at hchecks
      refine ⟨fun h => ?_, fun h h' heq => ?_, hpurged.bound, hinv.nodup⟩
      · rw [getElem?_insert_eq] at h
        split at h
        · cases h
          exact ⟨call.accepted hchecks.1 hchecks.2.2.1, rfl, rfl, Nat.lt_succ_self _,
            fun sig hsig => (hinv.bound sig hsig).drawn.ne⟩
        · exact { hpurged.held h with }
      · rw [getElem?_insert_eq] at h h'
        split at h <;> split at h'
        · next hid hid' => exact hid.symm.trans hid'
        · cases h
          exact absurd heq.symm (hold h')
        · cases h'
          exact absurd heq (hold h)
        · exact hpurged.apart h h' heq

/-- Round two. -/
theorem sessionPartialSign (lib : SecpCall → Bool) (call : MuSigCall) (pubnonces : List Bytes) :
    Inv crypto (musigSessionPartialSign crypto n lib call pubnonces).1 := by
  have htaken := hinv.erase call.sessionId
  unfold musigSessionPartialSign
  split
  · exact hinv
  · exact hinv
  · next sess hchecks hsess =>
    split
    · exact hinv
    · next hmatches =>
      dsimp only
      split
      · exact htaken
      · next hsigns =>
        simp only [failing_eq_none, forall_mem_cons, beq_iff_eq] at hchecks hmatches hsigns
        have hopen := hinv.held hsess
        refine ⟨fun {id sess'} h => { htaken.held h with unused := ?_ }, htaken.apart, ?_,
          nodup_cons.mpr ⟨fun hmem => ?_, hinv.nodup⟩⟩
        · refine forall_mem_cons.mpr ⟨fun heq => ?_, (htaken.held h).unused⟩
          rw [getElem?_erase_eq] at h
          obtain ⟨hne, h⟩ := Option.ite_none_left_eq_some.mp h
          exact hne (hinv.apart hsess h heq)
        · refine forall_mem_cons.mpr ⟨⟨hopen.drawn, hmatches.2.1.symm.trans hopen.signer,
            hopen.accepted.sameRound (call.accepted hchecks.1 hsigns.1)
              (hopen.fingerprint.symm.trans hmatches.1)⟩,
            fun sig hsig => { hinv.bound sig hsig with }⟩
        · obtain ⟨sig, hsig, heq⟩ := mem_map.mp hmem
          exact hopen.unused sig hsig heq

end MuSigNode.Inv

/-- In every run each secret nonce takes part in at most one partial signature. The signature is by
the key that opened the session, for the member set and the message it was opened for, and a
fingerprint stands for one member set and message, unless the hash collides on the two. -/
theorem nonce_signs_once (hreach : (musigMachine crypto).Reachable (fun _ _ => True) n) :
    (n.signed.map MuSigSignature.secnonce).Nodup ∧
    (∀ sig ∈ n.signed, sig.secnonce < n.generated ∧
      sig.signing.key.getPubKey = sig.opening.key.getPubKey ∧
      sig.opening.SameRound crypto sig.signing) ∧
    ∀ call call' : MuSigCall, call.Accepted → call'.Accepted →
      sessionFingerprint crypto call.pubkeys call.msg32 =
        sessionFingerprint crypto call'.pubkeys call'.msg32 → call.SameRound crypto call' := by
  have hinv : n.Inv crypto := by
    refine hreach.invariant ?_ fun n event t hinv _ hnext => ?_
    · rintro _ rfl
      exact ⟨fun h => by simp at h, fun h => by simp at h, nofun, nodup_nil⟩
    · cases event <;> cases hnext
      · exact hinv.sessionNonce _ _ _ _
      · exact hinv.erase _
      · exact hinv.sessionPartialSign _ _ _
      · exact (hinv.erase _).purge _ le_rfl
  exact ⟨hinv.nodup, fun sig hsig => let h := hinv.bound sig hsig
    ⟨h.drawn, h.key, h.sameRound⟩, fun _ _ h h' => h.sameRound h'⟩

/-- A call by the only member, the base point. -/
def soloCall : MuSigCall :=
  let key : CPubKey :=
    ⟨2 :: beBytes 32 0x79be667ef9dcbbac55a06295ce870b07029bfcdb2dce28d959f2815b16f81798⟩
  ⟨"solo", ⟨true, key⟩, [key], beBytes 32 7⟩

/-- Both rounds of a session. -/
theorem nonce_signs_once_solo : ∃ n, (musigMachine domainCrypto).Reachable (fun _ _ => True) n ∧
    n.signed.map MuSigSignature.secnonce = [0] ∧
    ∀ sig ∈ n.signed, sig.opening.SameRound domainCrypto sig.signing := by
  have hsigns : ∃ n, (musigMachine domainCrypto).run {} [.nonce soloCall (fun _ => true) 0 0,
      .partialSign soloCall (fun _ => true) [List.replicate 66 0]] = some n ∧
      n.signed.map MuSigSignature.secnonce = [0] := Machine.exists_run (by decide +kernel)
  obtain ⟨n, hrun, hsigned⟩ := hsigns
  have hreach : (musigMachine domainCrypto).Reachable (fun _ _ => True) n :=
    .run (.init rfl) (by simp [Machine.Allows]) hrun
  exact ⟨n, hreach, hsigned, fun sig hsig => ((nonce_signs_once hreach).2.1 sig hsig).2.2⟩

end Sequentia
