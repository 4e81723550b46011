import Sequentia.Crypto
import Sequentia.ScriptReader
import Mathlib.Data.Nat.Digits.Lemmas

/-!
# Writing a record script and reading it back

The node builds record scripts with `CScript::operator<<`: opcodes, byte vectors and numbers. What
was written token by token is read back token by token, whatever follows it.
-/

namespace Sequentia

theorem leNat_leBytes (n v : ℕ) : leNat (leBytes n v) = v % 256 ^ n := by
  induction n generalizing v with
  | zero => simp [leBytes, leNat, Nat.mod_one]
  | succ n ih =>
    have hbyte : (UInt8.ofNat v).toNat = v % 256 := by simp
    rw [leBytes, leNat, ih, hbyte, Nat.pow_succ', Nat.mod_mul]

theorem beNat_beBytes (n v : ℕ) : beNat (beBytes n v) = v % 256 ^ n := by
  have hreverse : ∀ bs : Bytes, beNat bs.reverse = leNat bs := by
    intro bs
    rw [beNat, List.foldl_reverse]
    induction bs with
    | nil => rfl
    | cons b bs ih =>
      rw [List.foldr_cons, ih, leNat]
      omega
  rw [beBytes, hreverse, leNat_leBytes]

theorem length_leBytes (n v : ℕ) : (leBytes n v).length = n := by
  induction n generalizing v with
  | zero => rfl
  | succ n ih => rw [leBytes, List.length_cons, ih]

/-- A hash is read back from its bytes. -/
theorem Uint256.ofBytes_bytes (h : Uint256) : Uint256.ofBytes h.bytes = h := by
  obtain ⟨v⟩ := h
  rw [Uint256.bytes, Uint256.ofBytes, beNat_beBytes]
  congr 1
  apply BitVec.eq_of_toNat_eq
  rw [BitVec.toNat_ofNat, show 256 ^ 32 = 2 ^ 256 by decide, Nat.mod_mod,
    Nat.mod_eq_of_lt v.isLt]

theorem leNat_append (a b : Bytes) : leNat (a ++ b) = leNat a + 256 ^ a.length * leNat b := by
  induction a with
  | nil => simp [leNat]
  | cons x a ih =>
    rw [List.cons_append, leNat, leNat, ih, List.length_cons, Nat.pow_succ']
    ring

theorem leNat_lt (bs : Bytes) : leNat bs < 256 ^ bs.length := by
  induction bs with
  | nil => simp [leNat]
  | cons b bs ih =>
    have hb : b.toNat < 256 := b.toNat_lt
    rw [leNat, List.length_cons, Nat.pow_succ']
    omega

variable {n size : ℕ} {data : Bytes} {opcode : UInt8}

/-- The bytes of a positive number without leading zeros: the highest byte and the others. -/
theorem exists_top_digit (hpos : 0 < n) : ∃ low : Bytes, ∃ top : UInt8,
    (Nat.digits 256 n).map UInt8.ofNat = low ++ [top] ∧ top ≠ 0 ∧
      n = leNat low + 256 ^ low.length * top.toNat := by
  have hvalue : ∀ l : List ℕ, (∀ d ∈ l, d < 256) →
      leNat (l.map UInt8.ofNat) = Nat.ofDigits 256 l := by
    intro l hl
    induction l with
    | nil => rfl
    | cons d l ih =>
      have hd : d % 256 = d := Nat.mod_eq_of_lt (hl d List.mem_cons_self)
      rw [List.map_cons, leNat, ih fun e he => hl e (List.mem_cons_of_mem d he),
        Nat.ofDigits_cons]
      simp [hd]
  have hdigits : ∀ d ∈ Nat.digits 256 n, d < 256 := fun d => Nat.digits_lt_base (by decide)
  have hne : Nat.digits 256 n ≠ [] := Nat.digits_ne_nil_iff_ne_zero.mpr hpos.ne'
  have hlast := Nat.getLast_digit_ne_zero 256 hpos.ne'
  refine ⟨(Nat.digits 256 n).dropLast.map UInt8.ofNat,
    UInt8.ofNat ((Nat.digits 256 n).getLast hne), ?_, ?_, ?_⟩
  · rw [← List.map_singleton, ← List.map_append, List.dropLast_append_getLast hne]
  · intro hzero
    have htop := congrArg UInt8.toNat hzero
    rw [UInt8.toNat_ofNat', Nat.mod_eq_of_lt (hdigits _ (List.getLast_mem hne))] at htop
    exact hlast htop
  · have hsplit := hvalue _ hdigits
    rw [Nat.ofDigits_digits, ← List.dropLast_append_getLast hne, List.map_append,
      leNat_append] at hsplit
    simpa [leNat] using hsplit.symm

/-- `CScriptNum::serialize`. -/
def scriptNumSerialize (n : ℤ) : Bytes :=
  let bytes := (Nat.digits 256 n.natAbs).map UInt8.ofNat
  match bytes.getLast? with
  | none => []
  | some b =>
    if b &&& 0x80 != 0 then bytes ++ [if n < 0 then 0x80 else 0]
    else if n < 0 then bytes.dropLast ++ [b ||| 0x80]
    else bytes

/-- `CScript::operator<<` of a number. -/
def pushInt64 (n : ℤ) : CScript :=
  if n = -1 ∨ 1 ≤ n ∧ n ≤ 16 then [UInt8.ofNat (n + 0x50).toNat]
  else if n = 0 then [op0]
  else pushBytes (scriptNumSerialize n)

theorem sign_bit (b : UInt8) : (b &&& 0x80 ≠ 0 ↔ 128 ≤ b.toNat) ∧
    (b &&& 0x80 = 0 → b ≠ 0 → b &&& 0x7f ≠ 0) := by
  have hall : ∀ k < 256, (UInt8.ofNat k &&& 0x80 ≠ 0 ↔ 128 ≤ k) ∧
      (UInt8.ofNat k &&& 0x80 = 0 → UInt8.ofNat k ≠ 0 → UInt8.ofNat k &&& 0x7f ≠ 0) := by
    decide +kernel
  have hb := hall b.toNat b.toNat_lt
  rwa [UInt8.ofNat_toNat] at hb

/-- A positive number that fits is written minimally and read back. -/
theorem scriptNumSerialize_spec (hpos : 0 < n) (hlt : n < 128 * 256 ^ (size - 1))
    (hsize : 0 < size) :
    scriptNumSerialize n ≠ [] ∧ (scriptNumSerialize n).length ≤ size ∧
      scriptNumMinimal (scriptNumSerialize n) size = true ∧
      decodeScriptInt (scriptNumSerialize n) = n := by
  obtain ⟨low, top, hbytes, htop, hn⟩ := exists_top_digit hpos
  have hnonneg : ¬ (n : ℤ) < 0 := by omega
  have hserialize : scriptNumSerialize n =
      if top &&& 0x80 != 0 then (low ++ [top]) ++ [0] else low ++ [top] := by
    simp only [scriptNumSerialize, Int.natAbs_natCast, hbytes, List.getLast?_append,
      List.getLast?_singleton, Option.some_or, if_neg hnonneg]
  obtain ⟨hhigh, hlow⟩ := sign_bit top
  have htopNat : 0 < top.toNat := by
    refine Nat.pos_of_ne_zero fun hzero => htop ?_
    rw [← UInt8.toNat_inj]
    exact hzero
  rw [hserialize]
  by_cases hsign : top &&& 0x80 = 0
  · have hmagnitude := hlow hsign htop
    have hlength : low.length + 1 ≤ size := by
      by_contra hlong
      have hpow : 256 ^ size ≤ 256 ^ low.length := Nat.pow_le_pow_right (by decide) (by omega)
      have hmul : 256 ^ low.length ≤ 256 ^ low.length * top.toNat :=
        Nat.le_mul_of_pos_right _ htopNat
      have hsplit : 256 ^ size = 256 * 256 ^ (size - 1) := by
        rw [← Nat.pow_succ']
        congr 1
        omega
      omega
    have hvalue : leNat (low ++ [top]) = n := by
      rw [leNat_append, hn]
      simp [leNat]
    rw [if_neg (by simpa using hsign)]
    refine ⟨by simp, by simpa using hlength, ?_, ?_⟩
    · cases hrev : low.reverse with
      | nil => simp [scriptNumMinimal, hrev, hmagnitude, hlength]
      | cons b rest => simp [scriptNumMinimal, hrev, hmagnitude, hlength]
    · simp only [decodeScriptInt, List.getLast?_append, List.getLast?_singleton, Option.some_or,
        hsign, bne_self_eq_false, Bool.false_eq_true, if_false, hvalue]
  · have hbig := hhigh.mp hsign
    have hlength : low.length + 2 ≤ size := by
      by_contra hlong
      have hpow : 256 ^ (size - 1) ≤ 256 ^ low.length :=
        Nat.pow_le_pow_right (by decide) (by omega)
      have hmul : 256 ^ low.length * 128 ≤ 256 ^ low.length * top.toNat :=
        Nat.mul_le_mul_left _ hbig
      omega
    have hvalue : leNat (low ++ [top] ++ [0]) = n := by
      rw [leNat_append, leNat_append, hn]
      simp [leNat]
    rw [if_pos (by simpa using hsign)]
    refine ⟨by simp, by simpa using hlength, ?_, ?_⟩
    · simp [scriptNumMinimal, hsign, hlength]
    · simp only [decodeScriptInt, List.getLast?_append, List.getLast?_singleton, Option.some_or]
      rw [if_neg (by decide), hvalue]

theorem leNat_eq_ofDigits (bs : Bytes) : leNat bs = Nat.ofDigits 256 (bs.map UInt8.toNat) := by
  induction bs with
  | nil => rfl
  | cons b bs ih => rw [leNat, ih, List.map_cons, Nat.ofDigits_cons]

theorem digits_leNat (low : Bytes) {top : UInt8} (htop : top ≠ 0) :
    (Nat.digits 256 (leNat (low ++ [top]))).map UInt8.ofNat = low ++ [top] := by
  rw [leNat_eq_ofDigits, Nat.digits_ofDigits 256 (by decide)]
  · rw [List.map_map]
    exact (List.map_congr_left fun b _ => UInt8.ofNat_toNat).trans (List.map_id _)
  · intro d hd
    obtain ⟨b, -, rfl⟩ := List.mem_map.mp hd
    exact b.toNat_lt
  · intro _
    simp only [List.map_append, List.map_cons, List.map_nil, List.getLast_append_singleton]
    exact fun h => htop (UInt8.toNat_inj.mp h)

/-- A positive number has one minimal form. -/
theorem scriptNumSerialize_eq (hminimal : scriptNumMinimal data size = true)
    (hn : decodeScriptInt data = n) (hpos : 0 < n) : scriptNumSerialize n = data := by
  rcases List.eq_nil_or_concat data with rfl | ⟨low, top, rfl⟩
  · simp [decodeScriptInt] at hn
    omega
  rw [List.concat_eq_append] at *
  have hsign : top &&& 0x80 = 0 := by
    by_contra hsign
    simp [decodeScriptInt, hsign] at hn
    omega
  have hvalue : leNat (low ++ [top]) = n := by
    simpa [decodeScriptInt, hsign] using hn
  have hnonneg : ¬ (n : ℤ) < 0 := by omega
  by_cases htop : top = 0
  · -- The zero keeps the sign bit of the byte before it from being read as the sign.
    subst htop
    simp only [scriptNumMinimal, List.reverse_append, List.reverse_cons, List.reverse_nil,
      List.nil_append, List.cons_append, Bool.and_eq_true] at hminimal
    rcases List.eq_nil_or_concat low with rfl | ⟨low, b, rfl⟩
    · exact absurd hminimal.2 (by decide)
    · rw [List.concat_eq_append] at *
      have hb : b &&& 0x80 ≠ 0 := by simpa using hminimal.2
      have hb0 : b ≠ 0 := by
        rintro rfl
        exact hb (by decide)
      have hdigits : leNat (low ++ [b] ++ [0]) = leNat (low ++ [b]) := by
        rw [leNat_append (low ++ [b]) [0]]
        simp [leNat]
      have hbytes := digits_leNat low hb0
      rw [← hdigits, hvalue] at hbytes
      simp only [scriptNumSerialize, Int.natAbs_natCast, hbytes]
      simp [hb, hnonneg]
  · have hbytes := digits_leNat low htop
    rw [hvalue] at hbytes
    simp only [scriptNumSerialize, Int.natAbs_natCast, hbytes]
    simp [hsign, hnonneg]
open ScriptReader List Option

theorem getScriptOp_opcode (hop : ¬ opcode ≤ opPushData4) (rest : CScript) :
    getScriptOp (opcode :: rest) = some (opcode, [], rest) := by
  rw [getScriptOp, if_neg hop]

theorem getScriptOp_push {pc data rest : CScript} (hop : opcode ≤ opPushData4)
    (hsize : pushSize opcode pc = some (data.length, data ++ rest)) :
    getScriptOp (opcode :: pc) = some (opcode, data, rest) := by
  rw [getScriptOp, if_pos hop, hsize]
  simp

/-- A byte vector is read back; only the empty one is `OP_0`. -/
theorem getScriptOp_pushBytes (hlength : data.length < 2 ^ 32) (rest : CScript) :
    ∃ opcode, opcode ≤ opPushData4 ∧ (opcode = op0 → data = []) ∧
      getScriptOp (pushBytes data ++ rest) = some (opcode, data, rest) := by
  unfold pushBytes
  split
  · next hshort =>
    have hsmall : data.length < 76 := hshort
    have hmod : data.length % 256 = data.length := Nat.mod_eq_of_lt (by omega)
    have hopcode : (UInt8.ofNat data.length).toNat = data.length := by
      rw [UInt8.toNat_ofNat']
      exact hmod
    have hlt : UInt8.ofNat data.length < opPushData1 := by
      rw [UInt8.lt_iff_toNat_lt, hopcode]
      exact hshort
    refine ⟨UInt8.ofNat data.length, ?_, fun hzero => ?_, getScriptOp_push ?_ ?_⟩
    · rw [UInt8.le_iff_toNat_le, hopcode]
      exact Nat.le_of_lt (Nat.lt_of_lt_of_le hshort (by decide))
    · have := congrArg UInt8.toNat hzero
      rw [hopcode] at this
      exact length_eq_zero_iff.mp this
    · rw [UInt8.le_iff_toNat_le, hopcode]
      exact Nat.le_of_lt (Nat.lt_of_lt_of_le hshort (by decide))
    · unfold pushSize
      rw [if_pos hlt, hopcode]
      rfl
  · split
    · next hshort =>
      refine ⟨opPushData1, by decide, fun h => absurd h (by decide),
        getScriptOp_push (by decide) ?_⟩
      have hbyte : (UInt8.ofNat data.length).toNat = data.length := by
        rw [UInt8.toNat_ofNat']
        exact Nat.mod_eq_of_lt (by omega)
      simp [pushSize, leBytes, hbyte]
    · split
      · next hshort =>
        refine ⟨opPushData2, by decide, fun h => absurd h (by decide),
          getScriptOp_push (by decide) ?_⟩
        have hsum : (UInt8.ofNat data.length).toNat +
            256 * (UInt8.ofNat (data.length / 256)).toNat = data.length := by
          rw [UInt8.toNat_ofNat', UInt8.toNat_ofNat']
          omega
        unfold pushSize
        rw [if_neg (by decide), if_neg (by decide), if_pos rfl]
        simp only [leBytes, cons_append, nil_append, append_eq, hsum]
      · refine ⟨opPushData4, by decide, fun h => absurd h (by decide),
          getScriptOp_push (by decide) ?_⟩
        have hsum : (UInt8.ofNat data.length).toNat +
            256 * (UInt8.ofNat (data.length / 256)).toNat +
            65536 * (UInt8.ofNat (data.length / 256 / 256)).toNat +
            16777216 * (UInt8.ofNat (data.length / 256 / 256 / 256)).toNat = data.length := by
          simp only [UInt8.toNat_ofNat']
          omega
        unfold pushSize
        rw [if_neg (by decide), if_neg (by decide), if_neg (by decide)]
        simp only [leBytes, cons_append, nil_append, append_eq, hsum]

/-- How a number of at most so many bytes is written: as a small integer opcode, or as a minimal
push. -/
inductive NumberToken (size : ℕ) : ℕ → UInt8 → Bytes → Prop
  | zero : NumberToken size 0 op0 []
  | small {n : ℕ} {opcode : UInt8} (hop : op1 ≤ opcode ∧ opcode ≤ op16)
      (hn : opcode.toNat - 0x50 = n) (hpos : 0 < n) : NumberToken size n opcode []
  | push {n : ℕ} {opcode : UInt8} {data : Bytes} (hop : opcode ≤ opPushData4)
      (hne : opcode ≠ op0) (hdata : data ≠ []) (hlength : data.length ≤ size)
      (hminimal : scriptNumMinimal data size = true) (hn : decodeScriptInt data = n)
      (hpos : 0 < n) : NumberToken size n opcode data

theorem getScriptOp_pushInt64 (hlt : n < 128 * 256 ^ (size - 1)) (hsize : 0 < size)
    (hsize32 : size < 2 ^ 32) (rest : CScript) :
    ∃ opcode data, getScriptOp (pushInt64 n ++ rest) = some (opcode, data, rest) ∧
      NumberToken size n opcode data := by
  rcases Nat.eq_zero_or_pos n with rfl | hpos
  · exact ⟨op0, [], rfl, .zero⟩
  by_cases hsmall : n ≤ 16
  · have hall : ∀ k : ℕ, k ≤ 16 → 0 < k → pushInt64 k = [UInt8.ofNat (k + 0x50)] ∧
        ¬ UInt8.ofNat (k + 0x50) ≤ opPushData4 ∧ op1 ≤ UInt8.ofNat (k + 0x50) ∧
        UInt8.ofNat (k + 0x50) ≤ op16 ∧ (UInt8.ofNat (k + 0x50)).toNat - 0x50 = k := by
      decide
    obtain ⟨hpush, hop, hlow, hhigh, hn⟩ := hall n hsmall hpos
    rw [hpush]
    exact ⟨_, [], getScriptOp_opcode hop rest, .small ⟨hlow, hhigh⟩ hn hpos⟩
  · have hpush : pushInt64 n = pushBytes (scriptNumSerialize n) := by
      rw [pushInt64, if_neg (by omega), if_neg (by omega)]
    obtain ⟨hne, hlength, hminimal, hn⟩ := scriptNumSerialize_spec hpos hlt hsize
    obtain ⟨opcode, hop, hzero, hread⟩ :=
      getScriptOp_pushBytes (Nat.lt_of_le_of_lt hlength hsize32) rest
    rw [hpush]
    exact ⟨opcode, _, hread, .push hop (fun h => hne (hzero h)) hne hlength hminimal hn hpos⟩

theorem NumberToken.readScriptNumToken (htoken : NumberToken size n opcode data) :
    Sequentia.readScriptNumToken opcode data size = some (n : ℤ) := by
  cases htoken with
  | zero => rfl
  | small hop hn hpos =>
    have hne : opcode ≠ op0 := by
      rintro rfl
      exact absurd hop.1 (by decide)
    rw [Sequentia.readScriptNumToken, if_neg hne, if_pos hop, hn]
  | push hop hne hdata hlength hminimal hn hpos =>
    have hrange : ¬ (op1 ≤ opcode ∧ opcode ≤ op16) := fun h =>
      absurd (UInt8.le_trans h.1 hop) (by decide)
    rw [Sequentia.readScriptNumToken, if_neg hne, if_neg hrange,
      if_neg (by rw [not_or]; exact ⟨hdata, Nat.not_lt.mpr hlength⟩), if_pos hminimal, hn]

namespace ScriptReader

variable {α β : Type}

def Reads (reader : ScriptReader α) (written : CScript) (a : α) : Prop :=
  ∀ rest, reader (written ++ rest) = some (a, rest)

variable {reader : ScriptReader α} {next : α → ScriptReader β} {written script : CScript} {a : α}
  {opcode : UInt8} {data : Bytes} {accept : UInt8 → Bytes → Option α} {key : CPubKey} {P : α → Prop}

/-- One token after the other. -/
theorem Reads.bind {written' : CScript} {b : β} (hreader : Reads reader written a)
    (hnext : Reads (next a) written' b) : Reads (reader >>= next) (written ++ written') b := by
  intro rest
  rw [append_assoc]
  exact bind_eq_some_iff.mpr ⟨_, hreader _, hnext rest⟩

/-- The last token. -/
theorem Reads.bind_pure {f : α → β} (hreader : Reads reader written a) :
    Reads (reader >>= fun a => pure (f a)) written (f a) := by
  intro rest
  exact bind_eq_some_iff.mpr ⟨_, hreader rest, rfl⟩

theorem Reads.parse (hreader : Reads reader written a) (hscript : script = written) :
    ScriptReader.parse reader script = some a := by
  have hread := hreader []
  rw [append_nil, ← hscript] at hread
  rw [ScriptReader.parse, hread]

theorem getOp_of_getScriptOp {pc pc' : CScript} (hop : getScriptOp pc = some (opcode, data, pc')) :
    getOp pc = some ((opcode, data), pc') := by
  rw [getOp, token, hop]
  rfl

theorem reads_token
    (hwritten : ∀ rest, ∃ opcode data, getScriptOp (written ++ rest) = some (opcode, data, rest) ∧
      accept opcode data = some a) : Reads (token accept) written a := by
  intro rest
  obtain ⟨opcode, data, hop, haccept⟩ := hwritten rest
  rw [token, hop]
  simp [haccept]

theorem reads_expectOp (hop : ¬ opcode ≤ opPushData4) : Reads (expectOp opcode) [opcode] () :=
  reads_token fun rest => ⟨opcode, [], getScriptOp_opcode hop rest, if_pos rfl⟩

theorem Reads.op {next : ScriptReader α} (hnext : Reads next written a)
    (hop : ¬ opcode ≤ opPushData4 := by decide) :
    Reads (expectOp opcode >>= fun _ => next) ([opcode] ++ written) a :=
  (reads_expectOp hop).bind hnext

theorem Reads.lastOp (hop : ¬ opcode ≤ opPushData4 := by decide) :
    Reads (expectOp opcode >>= fun _ => pure a) [opcode] a :=
  (reads_expectOp hop).bind_pure

theorem reads_push {accept : Bytes → Option α} (hlength : data.length < 2 ^ 32)
    (haccept : accept data = some a) :
    Reads (token fun _ data => accept data) (pushBytes data) a := by
  refine reads_token fun rest => ?_
  obtain ⟨opcode, -, -, hop⟩ := getScriptOp_pushBytes hlength rest
  exact ⟨opcode, data, hop, haccept⟩

theorem Reads.marker {next : ScriptReader α} (hnext : Reads next written a)
    (hlength : data.length < 2 ^ 32 := by decide) :
    Reads (expectData data >>= fun _ => next) (pushBytes data ++ written) a :=
  (reads_push hlength (if_pos rfl)).bind hnext

theorem acceptKey_vch (hvalid : key.isFullyValid = true) : acceptKey key.vch = some key := by
  have hof : CPubKey.ofBytes key.vch = key := if_pos (CPubKey.validSize_of_isFullyValid hvalid)
  have hne : key.vch.isEmpty = false := by
    cases hvch : key.vch.isEmpty with
    | false => rfl
    | true => simp [CPubKey.isFullyValid, hvch] at hvalid
  simp only [acceptKey, hne, Bool.false_eq_true, if_false, hof, hvalid, if_true]

theorem reads_getKey (hvalid : key.isFullyValid = true) : Reads getKey (pushBytes key.vch) key := by
  refine reads_push ?_ (acceptKey_vch hvalid)
  rcases CPubKey.length_of_isFullyValid hvalid with h | h <;> omega

theorem reads_number {n : ℕ} (size : ℕ) (hlt : n < 128 * 256 ^ (size - 1)) (hsize : 0 < size)
    (hsize32 : size < 2 ^ 32)
    (haccept : ∀ opcode data, NumberToken size n opcode data → accept opcode data = some a) :
    Reads (token accept) (pushInt64 n) a := by
  refine reads_token fun rest => ?_
  obtain ⟨opcode, data, hop, htoken⟩ := getScriptOp_pushInt64 hlt hsize hsize32 rest
  exact ⟨opcode, data, hop, haccept opcode data htoken⟩

def Yields (reader : ScriptReader α) (P : α → Prop) : Prop :=
  ∀ pc a pc', reader pc = some (a, pc') → P a

theorem yields_pure (ha : P a) : Yields (pure a) P := by
  intro pc a' pc' hread
  obtain ⟨rfl, -⟩ := Prod.mk.inj (Option.some.inj hread)
  exact ha

theorem Yields.bind {Q : β → Prop} (hreader : Yields reader P)
    (hnext : ∀ a, P a → Yields (next a) Q) : Yields (reader >>= next) Q := by
  intro pc b pc' hread
  obtain ⟨⟨a, pc₁⟩, hfirst, hrest⟩ := bind_eq_some_iff.mp hread
  exact hnext a (hreader pc a pc₁ hfirst) pc₁ b pc' hrest

theorem yields_token (haccept : ∀ opcode data a, accept opcode data = some a → P a) :
    Yields (token accept) P := by
  intro pc a pc' hread
  obtain ⟨opcode, data, -, ha⟩ := token_eq_some hread
  exact haccept opcode data a ha

/-- A token that is only tested. -/
theorem Yields.skip {Q : β → Prop} {first : ScriptReader α} {rest : ScriptReader β}
    (hrest : Yields rest Q) : Yields (first >>= fun _ => rest) Q :=
  Yields.bind (P := fun _ => True) (fun _ _ _ _ => trivial) fun _ _ => hrest

theorem acceptKey_spec (haccept : acceptKey data = some key) :
    key.isFullyValid = true ∧ key.vch = data := by
  revert haccept
  fun_cases acceptKey data <;> rintro ⟨⟩
  next hvalid =>
    refine ⟨hvalid, (CPubKey.vch_ofBytes data).resolve_right fun hempty => ?_⟩
    rw [CPubKey.isFullyValid, hempty] at hvalid
    cases hvalid

theorem yields_getKey : Yields getKey fun key => key.isFullyValid = true :=
  yields_token fun _ _ _ haccept => (acceptKey_spec haccept).1

/-- What is accepted as a whole script has the property. -/
theorem Yields.parse (hreader : Yields reader P)
    (hparse : ScriptReader.parse reader script = some a) : P a := by
  exact hreader _ _ _ (ScriptReader.read_of_parse hparse)

end ScriptReader

end Sequentia
