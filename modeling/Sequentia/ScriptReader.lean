import Sequentia.PubKey

/-!
# Reading a record script token by token

The record parsers of the node walk over a script with `GetOp` and give up at the first
token that does not fit. A reader is a function of the remaining script; what matters
later is how many bytes a successful read can have consumed, because a script that some
parser accepts is short enough to stay in the UTXO set.
-/

namespace Sequentia

open List

/-- A computation that reads a script from the front and may give up. -/
abbrev ScriptReader := StateT CScript Option

namespace ScriptReader

/-- `script.GetOp(pc, opcode, data)` followed by a test of the token. -/
def token {α : Type} (accept : UInt8 → Bytes → Option α) : ScriptReader α := fun pc =>
  match getScriptOp pc with
  | none => none
  | some (opcode, data, pc) => (accept opcode data).map fun a => (a, pc)

/-- `script.GetOp(pc, opcode, data)` with the token kept for later. -/
def getOp : ScriptReader (UInt8 × Bytes) := token fun opcode data => some (opcode, data)

/-- A token that must be the given opcode. -/
def expectOp (expected : UInt8) : ScriptReader Unit :=
  token fun opcode _ => if opcode = expected then some () else none

/-- A token that must push the given bytes. -/
def expectData (expected : Bytes) : ScriptReader Unit :=
  token fun _ data => if data = expected then some () else none

/-- The data of a token as a fully valid public key. -/
def acceptKey (data : Bytes) : Option CPubKey :=
  if data.isEmpty then none
  else if (CPubKey.ofBytes data).isFullyValid then some (CPubKey.ofBytes data)
  else none

/-- A token that must push a fully valid public key. -/
def getKey : ScriptReader CPubKey := token fun _ data => acceptKey data

/-- Read a whole script: `pc != script.end()` after the last token is a failure. -/
def parse {α : Type} (reader : ScriptReader α) (script : CScript) : Option α :=
  match reader script with
  | some (a, []) => some a
  | _ => none

/-- A successful read consumes at most `n` bytes. -/
def Consumes {α : Type} (n : ℕ) (reader : ScriptReader α) : Prop :=
  ∀ pc a pc', reader pc = some (a, pc') → pc.length ≤ n + pc'.length

variable {α β : Type}

theorem consumes_pure (a : α) : Consumes 0 (pure a : ScriptReader α) := by
  intro pc a' pc' hread
  obtain ⟨-, rfl⟩ := Prod.mk.inj (Option.some.inj hread)
  omega

variable {n m : ℕ} {reader : ScriptReader α} {next : α → ScriptReader β} {opcode expected : UInt8}
  {pc pc' script : CScript} {data : Bytes} {accept : UInt8 → Bytes → Option α}

theorem Consumes.bind (hreader : Consumes n reader) (hnext : ∀ a, Consumes m (next a)) :
    Consumes (n + m) (reader >>= next) := by
  intro pc b pc' hread
  obtain ⟨⟨a, pc₁⟩, hfirst, hrest⟩ := Option.bind_eq_some_iff.mp hread
  have h₁ := hreader pc a pc₁ hfirst
  have h₂ := hnext a pc₁ b pc' hrest
  omega

theorem Consumes.mono (hreader : Consumes n reader) (hle : n ≤ m) : Consumes m reader := by
  intro pc a pc' hread
  have := hreader pc a pc' hread
  omega

theorem length_pushSize {nSize : ℕ} (hsize : pushSize opcode pc = some (nSize, pc')) :
    pc.length ≤ 4 + pc'.length := by
  revert hsize
  fun_cases pushSize opcode pc <;> rintro ⟨⟩ <;> grind

/-- A token takes at most five bytes beside the data it pushes. -/
theorem length_getScriptOp (hop : getScriptOp pc = some (opcode, data, pc')) :
    pc.length ≤ 5 + data.length + pc'.length := by
  cases pc with
  | nil => simp
  | cons b pc =>
    rw [getScriptOp] at hop
    split at hop
    · split at hop
      · next nSize pc₁ hsize =>
        split at hop
        · cases hop
        · obtain ⟨-, hdata, hpc⟩ : _ ∧ _ ∧ _ := by simpa using hop
          have hlength := length_pushSize hsize
          rw [← hdata, ← hpc, length_take, length_drop, length_cons]
          omega
      · cases hop
    · obtain ⟨-, -, rfl⟩ : _ ∧ _ ∧ _ := by simpa using hop
      simp only [length_cons]
      omega

def PushesNothing (opcode : UInt8) : Prop := opcode = op0 ∨ ¬ opcode ≤ opPushData4

theorem pushesNothing_of_op1_le (hle : op1 ≤ opcode) : PushesNothing opcode :=
  Or.inr fun hpush => absurd (UInt8.le_trans hle hpush) (by decide)

/-- The token read is the one at the front. -/
theorem head_getScriptOp (hop : getScriptOp pc = some (opcode, data, pc')) :
    pc.head? = some opcode ∧ (PushesNothing opcode → data = []) := by
  cases pc with
  | nil => cases hop
  | cons b pc =>
    rw [getScriptOp] at hop
    split at hop
    · next hpush =>
      split at hop
      · next nSize pc₁ hsize =>
        split at hop
        · cases hop
        · obtain ⟨rfl, rfl, -⟩ : _ ∧ _ ∧ _ := by simpa using hop
          refine ⟨rfl, ?_⟩
          rintro (rfl | hpush')
          · have hzero : nSize = 0 := by
              simp only [pushSize, op0, opPushData1] at hsize
              exact (Prod.mk.inj (Option.some.inj hsize)).1.symm
            simp [hzero]
          · exact absurd hpush hpush'
      · cases hop
    · obtain ⟨rfl, rfl, -⟩ : _ ∧ _ ∧ _ := by simpa using hop
      exact ⟨rfl, fun _ => rfl⟩

theorem token_eq_some {a : α} (hread : token accept pc = some (a, pc')) :
    ∃ opcode data, getScriptOp pc = some (opcode, data, pc') ∧ accept opcode data = some a := by
  unfold token at hread
  split at hread
  · cases hread
  · next opcode data pc₁ hop =>
    obtain ⟨a', haccept, heq⟩ := Option.map_eq_some_iff.mp hread
    obtain ⟨rfl, rfl⟩ := Prod.mk.inj heq
    exact ⟨opcode, data, hop, haccept⟩

theorem consumes_token (hbound : ∀ opcode data a, accept opcode data = some a →
      (PushesNothing opcode → data = []) → data.length ≤ n) : Consumes (5 + n) (token accept) := by
  intro pc a pc' hread
  obtain ⟨opcode, data, hop, haccept⟩ := token_eq_some hread
  have hlength := length_getScriptOp hop
  have hdata := hbound opcode data a haccept (head_getScriptOp hop).2
  omega

/-- A token that is kept for later is bounded by what is required of it then. -/
theorem consumes_getOp_bind {next : UInt8 × Bytes → ScriptReader β}
    (hbound : ∀ opcode data pc b pc', (PushesNothing opcode → data = []) →
      next (opcode, data) pc = some (b, pc') → data.length ≤ n ∧ pc.length ≤ m + pc'.length) :
    Consumes (5 + n + m) (getOp >>= next) := by
  intro pc b pc' hread
  obtain ⟨⟨⟨opcode, data⟩, pc₁⟩, hfirst, hrest⟩ := Option.bind_eq_some_iff.mp hread
  obtain ⟨opcode', data', hop, haccept⟩ := token_eq_some hfirst
  obtain ⟨rfl, rfl⟩ := Prod.mk.inj (Option.some.inj haccept)
  have hlength := length_getScriptOp hop
  have := hbound opcode' data' pc₁ b pc' (head_getScriptOp hop).2 hrest
  omega

theorem consumes_expectOp (hexpected : ¬ expected ≤ opPushData4) :
    Consumes 5 (expectOp expected) := by
  refine consumes_token (n := 0) fun opcode data a haccept hdata => ?_
  split at haccept
  · next heq => simp [hdata (Or.inr (heq ▸ hexpected))]
  · cases haccept

theorem Consumes.op {next : ScriptReader β} (hnext : Consumes n next)
    (hexpected : ¬ expected ≤ opPushData4 := by decide) :
    Consumes (5 + n) (expectOp expected >>= fun _ => next) :=
  (consumes_expectOp hexpected).bind fun _ => hnext

theorem consumes_expectData (expected : Bytes) :
    Consumes (5 + expected.length) (expectData expected) := by
  refine consumes_token fun opcode data a haccept _ => ?_
  split at haccept
  · next heq => rw [heq]
  · cases haccept

theorem length_of_acceptKey {key : CPubKey} (haccept : acceptKey data = some key) :
    data.length ≤ 65 := by
  revert haccept
  fun_cases acceptKey data <;> rintro ⟨⟩
  next hvalid => exact CPubKey.length_le_of_ofBytes_isFullyValid hvalid

theorem consumes_getKey : Consumes 70 getKey :=
  consumes_token fun _ _ _ haccept _ => length_of_acceptKey haccept

theorem read_of_parse {reader : ScriptReader β} {b : β} (hparse : parse reader script = some b) :
    reader script = some (b, []) := by
  revert hparse
  fun_cases parse reader script <;> rintro ⟨⟩
  assumption

theorem getScriptOp_of_parse {marker : Bytes} {next : Unit → ScriptReader β} {b : β}
    (hparse : parse (expectData marker >>= next) script = some b) :
    ∃ opcode pc, getScriptOp script = some (opcode, marker, pc) := by
  obtain ⟨⟨⟨⟩, pc⟩, hfirst, -⟩ := Option.bind_eq_some_iff.mp (read_of_parse hparse)
  obtain ⟨opcode, data, hop, haccept⟩ := token_eq_some hfirst
  split at haccept
  · next heq => exact ⟨opcode, pc, heq ▸ hop⟩
  · cases haccept

/-- A script that is read to its end by a bounded number of tokens, the first of which is
not `OP_RETURN`, can be spent, so that its output enters the UTXO set. -/
theorem isUnspendable_of_parse {b : β} (hconsumes : Consumes n (token accept >>= next))
    (hn : n ≤ maxScriptSize) (hreturn : accept opReturn [] = none)
    (hparse : parse (token accept >>= next) script = some b) : isUnspendable script = false := by
  have hread := read_of_parse hparse
  have hlength := hconsumes script _ [] hread
  obtain ⟨⟨a, pc₁⟩, hfirst, -⟩ := Option.bind_eq_some_iff.mp hread
  obtain ⟨opcode, data, hop, haccept⟩ := token_eq_some hfirst
  obtain ⟨hhead, hdata⟩ := head_getScriptOp hop
  have hopcode : opcode ≠ opReturn := by
    rintro rfl
    rw [hdata (Or.inr (by decide)), hreturn] at haccept
    cases haccept
  have hnonempty : script ≠ [] := by
    rintro rfl
    cases hhead
  simp only [length_nil, Nat.add_zero] at hlength
  have hsize : ¬ maxScriptSize < script.length := by omega
  simp [isUnspendable, hhead, hopcode, hsize, hnonempty]

end ScriptReader

end Sequentia
