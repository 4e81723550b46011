import Sequentia.ScriptWriter

/-!
# A script as its tokens

Code that looks at a whole script reads it token by token with `GetOp`. A token written the
shortest way, an opcode alone or a direct push, is read back as it is; and a script all of whose
tokens have that form is determined by them.
-/

namespace Sequentia

open List

/-- What `GetOp` returns: an opcode and the data it pushes. -/
abbrev Token := UInt8 × Bytes

/-- The bytes of a token in its direct form. -/
def Token.write (token : Token) : CScript := token.1 :: token.2

/-- The token is an opcode alone, or a push whose opcode is the length of its data. -/
def Token.Direct (token : Token) : Prop :=
  if token.1 ≤ opPushData4 then token.1 < opPushData1 ∧ token.1.toNat = token.2.length
  else token.2 = []

instance (token : Token) : Decidable token.Direct :=
  inferInstanceAs (Decidable (if token.1 ≤ opPushData4 then
    token.1 < opPushData1 ∧ token.1.toNat = token.2.length else token.2 = []))

/-- The loop that collects the tokens of a script, up to a number of them. -/
def readTokens : ℕ → CScript → Option (List Token)
  | _, [] => some []
  | 0, _ :: _ => none
  | n + 1, b :: pc =>
    match getScriptOp (b :: pc) with
    | some (opcode, data, rest) => (readTokens n rest).map ((opcode, data) :: ·)
    | none => none

/-- The bytes of tokens in their direct forms. -/
def writeTokens (tokens : List Token) : CScript := tokens.flatMap Token.write

/-- The token of a byte vector. -/
def pushToken (data : Bytes) : Token := (UInt8.ofNat data.length, data)

def opToken (opcode : UInt8) : Token := (opcode, [])

theorem direct_opToken {opcode : UInt8} (hop : ¬ opcode ≤ opPushData4) :
    (opToken opcode).Direct := by
  unfold Token.Direct
  rw [if_neg (by exact hop)]
  rfl

theorem direct_pushToken {data : Bytes} (hlength : data.length < 76) :
    (pushToken data).Direct := by
  have hopcode : (UInt8.ofNat data.length).toNat = data.length := by
    rw [UInt8.toNat_ofNat']
    exact Nat.mod_eq_of_lt (by omega)
  have hlt : UInt8.ofNat data.length < opPushData1 := by
    rw [UInt8.lt_iff_toNat_lt, hopcode]
    exact hlength
  unfold Token.Direct pushToken
  rw [if_pos]
  · exact ⟨hlt, hopcode⟩
  · rw [UInt8.le_iff_toNat_le, hopcode]
    exact (show data.length ≤ 78 by omega)

/-- A short byte vector is pushed directly. -/
theorem pushBytes_eq_write {data : Bytes} (hlength : data.length < 76) :
    pushBytes data = (pushToken data).write := by
  unfold pushBytes
  rw [if_pos (by exact hlength)]
  rfl

theorem Token.Direct.getScriptOp {token : Token} (hdirect : token.Direct) (rest : CScript) :
    Sequentia.getScriptOp (token.write ++ rest) = some (token.1, token.2, rest) := by
  unfold Direct at hdirect
  split at hdirect
  · next hop =>
    refine getScriptOp_push hop ?_
    unfold pushSize
    rw [if_pos hdirect.1, hdirect.2]
    rfl
  · next hop =>
    unfold write
    rw [hdirect]
    exact getScriptOp_opcode hop rest

theorem Token.Direct.eq_of_getScriptOp {token : Token} {script rest : CScript}
    (hdirect : token.Direct)
    (hread : Sequentia.getScriptOp script = some (token.1, token.2, rest)) :
    script = token.write ++ rest := by
  obtain ⟨opcode, data⟩ := token
  cases script with
  | nil => cases hread
  | cons b pc =>
    rw [Sequentia.getScriptOp] at hread
    by_cases hop : b ≤ opPushData4
    · rw [if_pos hop] at hread
      cases hsize : pushSize b pc with
      | none =>
        rw [hsize] at hread
        cases hread
      | some sized =>
        obtain ⟨nSize, pc'⟩ := sized
        rw [hsize] at hread
        dsimp only at hread
        split at hread
        · cases hread
        next hlong =>
        obtain ⟨rfl, hdata, hrest⟩ : b = opcode ∧ pc'.take nSize = data ∧
            pc'.drop nSize = rest := by simpa using hread
        unfold Direct at hdirect
        rw [if_pos (by exact hop)] at hdirect
        unfold pushSize at hsize
        rw [if_pos hdirect.1] at hsize
        obtain ⟨-, hpc⟩ := Prod.mk.inj (Option.some.inj hsize)
        rw [write, ← hdata, ← hrest, cons_append, take_append_drop, hpc]
    · rw [if_neg hop] at hread
      obtain ⟨rfl, rfl, rfl⟩ : b = opcode ∧ [] = data ∧ pc = rest := by simpa using hread
      rfl

theorem readTokens_writeTokens {tokens : List Token} {limit : ℕ}
    (hdirect : ∀ token ∈ tokens, token.Direct) (hlimit : tokens.length ≤ limit) :
    readTokens limit (writeTokens tokens) = some tokens := by
  induction tokens generalizing limit with
  | nil => cases limit <;> rfl
  | cons token tokens ih =>
    obtain ⟨n, rfl⟩ : ∃ n, limit = n + 1 := ⟨limit - 1, by simp at hlimit; omega⟩
    have hread := (hdirect token mem_cons_self).getScriptOp (writeTokens tokens)
    show readTokens (n + 1) (token.1 :: (token.2 ++ writeTokens tokens)) = _
    rw [readTokens]
    have hfront : token.1 :: (token.2 ++ writeTokens tokens) =
        token.write ++ writeTokens tokens := rfl
    rw [hfront, hread]
    dsimp only
    rw [ih (fun t ht => hdirect t (mem_cons_of_mem token ht)) (by simpa using hlimit)]
    rfl

theorem writeTokens_of_readTokens {tokens : List Token} {limit : ℕ} {script : CScript}
    (hread : readTokens limit script = some tokens) (hdirect : ∀ token ∈ tokens, token.Direct) :
    script = writeTokens tokens := by
  induction limit generalizing script tokens with
  | zero =>
    cases script with
    | nil =>
      cases hread
      rfl
    | cons b pc => cases hread
  | succ n ih =>
    cases script with
    | nil =>
      cases hread
      rfl
    | cons b pc =>
      rw [readTokens] at hread
      cases hop : getScriptOp (b :: pc) with
      | none =>
        rw [hop] at hread
        cases hread
      | some read =>
        obtain ⟨opcode, data, rest⟩ := read
        rw [hop] at hread
        obtain ⟨tokens', hrest, rfl⟩ := Option.map_eq_some_iff.mp hread
        have htoken : Token.Direct (opcode, data) := hdirect _ mem_cons_self
        rw [htoken.eq_of_getScriptOp hop,
          ih hrest fun t ht => hdirect t (mem_cons_of_mem _ ht)]
        rfl

end Sequentia
