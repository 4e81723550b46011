import Sequentia.ScriptWriter

/-!
# The asset directory

Labels come from the operator, from the chain's own name for its native asset, from aliases and
from a remote registry; precisions come from the registry and from the chain. `CAssetsDir` keeps
both in two maps, and `GetAssetFromString` looks a string up as a label before it reads it as an
asset id.
-/

namespace Sequentia

def hexDigit (c : Char) : Option ℕ :=
  if '0' ≤ c ∧ c ≤ '9' then some (c.toNat - 48)
  else if 'a' ≤ c ∧ c ≤ 'f' then some (c.toNat - 87)
  else if 'A' ≤ c ∧ c ≤ 'F' then some (c.toNat - 55)
  else none

def isHex (s : String) : Bool :=
  s.toList.all (fun c => (hexDigit c).isSome) && (0 < s.length && s.length % 2 == 0)

def isSpace (c : Char) : Bool := [32, 12, 10, 13, 9, 11].contains c.toNat

/-- The digits a string starts with. -/
def leadingDigits : List Char → List ℕ
  | [] => []
  | c :: cs => match hexDigit c with
    | some digit => digit :: leadingDigits cs
    | none => []

/-- The bytes that digits spell, the last digit of the text first. -/
def nibbleBytes : List ℕ → Bytes
  | low :: high :: digits => UInt8.ofNat (low + 16 * high) :: nibbleBytes digits
  | [low] => [UInt8.ofNat low]
  | [] => []

/-- The text `SetHex` reads digits from: leading spaces and a `0x` are skipped. -/
def hexText (text : List Char) : List Char :=
  match text.dropWhile isSpace with
  | '0' :: x :: rest => if x.toLower = 'x' then rest else '0' :: x :: rest
  | text => text

/-- `uint256S`: the digits up to the first other character; the last 64 of them are the bytes, the
last byte first. -/
def uint256S (s : String) : Uint256 :=
  let bytes := (nibbleBytes (leadingDigits (hexText s.toList)).reverse).take 32
  Uint256.ofBytes (bytes ++ List.replicate (32 - bytes.length) 0)

/-- The text of an asset id: `IsHex` and 64 characters long. -/
def isAssetHex (s : String) : Bool := isHex s && s.length == 64

theorem hexDigit_digitChar : ∀ d < 16, hexDigit (Nat.digitChar d) = some d ∧
    isSpace (Nat.digitChar d) = false ∧ (Nat.digitChar d).toLower ≠ 'x' := by
  decide

/-- The two characters that write a byte. -/
theorem toList_hexDigits (b : UInt8) : (hexDigits 2 b.toNat).toList =
    [Nat.digitChar (b.toNat / 16), Nat.digitChar (b.toNat % 16)] := by
  have hlt := b.toNat_lt
  rw [hexDigits, String.toList_ofList]
  rcases Nat.lt_or_ge b.toNat 16 with hsmall | hlarge
  · simp [Nat.toDigits_of_lt_base hsmall, Nat.div_eq_of_lt hsmall, Nat.mod_eq_of_lt hsmall]
  · rw [Nat.toDigits_of_base_le (by decide) hlarge, Nat.toDigits_of_lt_base (by omega)]
    simp

/-- The characters of a hash, byte by byte. -/
theorem toList_getHex (h : Uint256) : h.getHex.toList = h.bytes.reverse.flatMap fun b =>
    [Nat.digitChar (b.toNat / 16), Nat.digitChar (b.toNat % 16)] := by
  rw [Uint256.getHex, String.toList_join, List.flatMap_map]
  simp only [toList_hexDigits]

theorem leadingDigits_flatMap (bs : Bytes) :
    leadingDigits (bs.flatMap fun b =>
      [Nat.digitChar (b.toNat / 16), Nat.digitChar (b.toNat % 16)]) =
    bs.flatMap fun b => [b.toNat / 16, b.toNat % 16] := by
  induction bs with
  | nil => rfl
  | cons b bs ih =>
    have hlt := b.toNat_lt
    simp [leadingDigits, ih, (hexDigit_digitChar (b.toNat / 16) (by omega)).1,
      (hexDigit_digitChar (b.toNat % 16) (by omega)).1]

theorem nibbleBytes_flatMap (bs : Bytes) :
    nibbleBytes (bs.flatMap fun b => [b.toNat % 16, b.toNat / 16]) = bs := by
  induction bs with
  | nil => rfl
  | cons b bs ih =>
    rw [List.flatMap_cons, List.cons_append, List.cons_append, List.nil_append, nibbleBytes, ih,
      Nat.mod_add_div, UInt8.ofNat_toNat]

theorem Uint256.length_bytes (h : Uint256) : h.bytes.length = 32 := by
  rw [bytes, beBytes, List.length_reverse, length_leBytes]

/-- Nothing is skipped before digits. -/
theorem hexText_cons {c x : Char} (hspace : isSpace c = false) (hx : x.toLower ≠ 'x')
    (rest : List Char) : hexText (c :: x :: rest) = c :: x :: rest := by
  rw [hexText, List.dropWhile_cons_of_neg (by simp [hspace])]
  split
  · next heq =>
    cases heq
    exact if_neg hx
  · rfl

/-- A hash is read back from its text. -/
theorem uint256S_getHex (h : Uint256) : uint256S h.getHex = h := by
  have hlength := h.length_bytes
  have htext : hexText h.getHex.toList = h.getHex.toList := by
    obtain ⟨b, bs, hbytes⟩ : ∃ b bs, h.bytes.reverse = b :: bs :=
      List.exists_cons_of_length_pos (by rw [List.length_reverse]; omega)
    have hlt := b.toNat_lt
    rw [toList_getHex, hbytes]
    exact hexText_cons (hexDigit_digitChar (b.toNat / 16) (by omega)).2.1
      (hexDigit_digitChar (b.toNat % 16) (by omega)).2.2 _
  have hread : nibbleBytes (leadingDigits h.getHex.toList).reverse = h.bytes := by
    rw [toList_getHex, leadingDigits_flatMap, List.reverse_flatMap, List.reverse_reverse]
    exact nibbleBytes_flatMap h.bytes
  rw [uint256S, htext, hread, List.take_of_length_le hlength.le, hlength, Nat.sub_self,
    List.replicate_zero, List.append_nil, h.ofBytes_bytes]

/-- The text of a hash is that of an asset id. -/
theorem isAssetHex_getHex (h : Uint256) : isAssetHex h.getHex = true := by
  have hlength : h.getHex.length = 64 := by
    rw [← String.length_toList, toList_getHex]
    simp [List.length_flatMap, h.length_bytes]
  have hdigits : h.getHex.toList.all (fun c => (hexDigit c).isSome) = true := by
    rw [toList_getHex, List.all_flatMap, List.all_eq_true]
    intro b _
    have hlt := b.toNat_lt
    simp [(hexDigit_digitChar (b.toNat / 16) (by omega)).1,
      (hexDigit_digitChar (b.toNat % 16) (by omega)).1]
  simp [isAssetHex, isHex, hlength, hdigits]

def defaultAssetPrecision : UInt8 := 8

def maxAssetPrecision : UInt8 := 18

/-- A precision out of range is replaced by the default. -/
def clampPrecision (precision : UInt8) : UInt8 :=
  if maxAssetPrecision < precision then defaultAssetPrecision else precision

inductive PrecisionSource where
  | default
  | registry
  | chain
  deriving DecidableEq

/-- The order of authority. -/
def PrecisionSource.rank : PrecisionSource → ℕ
  | default => 0
  | registry => 1
  | chain => 2

structure AssetMetadata where
  label : String
  precision : UInt8 := defaultAssetPrecision
  precisionSource : PrecisionSource := .default
  registryListed : Bool := false

/-- `AssetMetadata::SetPrecision`: a lower authority changes nothing. -/
def AssetMetadata.setPrecision (m : AssetMetadata) (precision : UInt8)
    (source : PrecisionSource) : AssetMetadata :=
  if source.rank < m.precisionSource.rank then m
  else { m with precision, precisionSource := source }

def AssetMetadata.markRegistryListed (m : AssetMetadata) : AssetMetadata :=
  { m with registryListed := true }

structure AssetRegistryEntry where
  idHex : String
  label : String
  precision : UInt8

structure CAssetsDir where
  mapAssetMetadata : CAsset → Option AssetMetadata
  mapAssets : String → Option CAsset

namespace CAssetsDir

/-- The directory of a node that starts. -/
def empty : CAssetsDir := ⟨fun _ => none, fun _ => none⟩

/-- `GetAsset`: the null asset for an unknown label. -/
def getAsset (d : CAssetsDir) (label : String) : CAsset := (d.mapAssets label).getD 0

def getMetadata (d : CAssetsDir) (asset : CAsset) : AssetMetadata :=
  (d.mapAssetMetadata asset).getD { label := "" }

/-- `GetIdentifier`: the label, or the id where there is none. -/
def getIdentifier (d : CAssetsDir) (asset : CAsset) : String :=
  if (d.getMetadata asset).label ≠ "" then (d.getMetadata asset).label else asset.getHex

def getAssetFromString (d : CAssetsDir) (s : String) : CAsset :=
  if (d.getAsset s).isNull && isAssetHex s then uint256S s else d.getAsset s

/-- `mapAssets[label] = asset`. -/
def name (d : CAssetsDir) (label : String) (asset : CAsset) : CAssetsDir :=
  { d with mapAssets := Function.update d.mapAssets label (some asset) }

/-- `mapAssetMetadata[asset] = m`. -/
def record (d : CAssetsDir) (asset : CAsset) (m : AssetMetadata) : CAssetsDir :=
  { d with mapAssetMetadata := Function.update d.mapAssetMetadata asset (some m) }

def set (d : CAssetsDir) (asset : CAsset) (m : AssetMetadata) : Except String CAssetsDir :=
  if asset.isNull then
    .error ("label '" ++ m.label ++ "' cannot be assigned to the null asset")
  else if (d.getMetadata asset).label ≠ "" then
    .error ("duplicated asset '" ++ asset.getHex ++ "'")
  else if d.getAsset m.label ≠ 0 then .error ("duplicated label '" ++ m.label ++ "'")
  else .ok ((d.name m.label asset).record asset m)

/-- Labels neither the operator nor the registry may use. -/
def protectedLabels : List String := ["", "*", "bitcoin", "Bitcoin", "btc"]

def setHex (d : CAssetsDir) (assetHex label : String) : Except String CAssetsDir :=
  if !isAssetHex assetHex then .error "The asset must be hex string of length 64"
  else if label ∈ protectedLabels then .error ("'" ++ label ++ "' label is protected")
  else d.set (uint256S assetHex) { label }

def setAlias (d : CAssetsDir) (label : String) (asset : CAsset) : CAssetsDir :=
  if asset.isNull || label = "" || (d.mapAssets label).isSome then d else d.name label asset

/-- One turn of the loop of `Merge`, with the number of labels added so far. -/
def mergeEntry (s : CAssetsDir × ℕ) (entry : AssetRegistryEntry) : CAssetsDir × ℕ :=
  let (d, added) := s
  let asset := uint256S entry.idHex
  let precision := clampPrecision entry.precision
  if !isAssetHex entry.idHex || asset.isNull || entry.label ∈ protectedLabels then s
  else match d.mapAssetMetadata asset with
    | some m =>
      let m := m.setPrecision precision .registry
      -- a record that the chain's precision made has no label yet
      if m.label = "" ∧ d.mapAssets entry.label = none then
        ((d.name entry.label asset).record asset
          (AssetMetadata.mk entry.label m.precision m.precisionSource false).markRegistryListed,
          added + 1)
      else (d.record asset m.markRegistryListed, added)
    | none =>
      if (d.mapAssets entry.label).isSome then
        (d.record asset
          (({ label := "" } : AssetMetadata).setPrecision precision .registry).markRegistryListed,
          added)
      else
        ((d.name entry.label asset).record asset
          (AssetMetadata.mk entry.label precision .registry false).markRegistryListed, added + 1)

def merge (d : CAssetsDir) (entries : List AssetRegistryEntry) : CAssetsDir × ℕ :=
  entries.foldl mergeEntry (d, 0)

def setChainPrecision (d : CAssetsDir) (asset : CAsset) (precision : UInt8) : CAssetsDir :=
  d.record asset ((d.getMetadata asset).setPrecision (clampPrecision precision) .chain)

/-- What changes the directory: an operator's `-assetdir` label, the name of the chain's native
asset, an alias, a fetch of the registry, an issuance seen on the chain. -/
inductive Op where
  | assetdir (assetHex label : String)
  | native (asset : CAsset) (label : String)
  | secondName (label : String) (asset : CAsset)
  | registry (entries : List AssetRegistryEntry)
  | chain (asset : CAsset) (precision : UInt8)

/-- A change; one that throws leaves the directory as it was. -/
def step (d : CAssetsDir) : Op → CAssetsDir
  | .assetdir assetHex label => (d.setHex assetHex label).toOption.getD d
  | .native asset label => (d.set asset { label }).toOption.getD d
  | .secondName label asset => d.setAlias label asset
  | .registry entries => (d.merge entries).1
  | .chain asset precision => d.setChainPrecision asset precision

/-- A name in the form of an asset id names the asset it spells. -/
def Spells (label : String) (asset : CAsset) : Prop :=
  isAssetHex label = true → uint256S label = asset

/-- The names a change asks for do not spell another asset, and the operator names no asset whose
precision the chain has recorded. -/
def Op.Fits (d : CAssetsDir) : Op → Prop
  | .assetdir assetHex label => Spells label (uint256S assetHex) ∧
      (d.getMetadata (uint256S assetHex)).precisionSource ≠ .chain
  | .native asset label => Spells label asset ∧ (d.getMetadata asset).precisionSource ≠ .chain
  | .secondName label asset => Spells label asset
  | .registry entries => ∀ entry ∈ entries, Spells entry.label (uint256S entry.idHex)
  | .chain _ _ => True

/-- Every change of a sequence fits the directory it meets. -/
def Fit (d : CAssetsDir) : List Op → Prop
  | [] => True
  | op :: ops => op.Fits d ∧ Fit (d.step op) ops

/-- A directory in order, and what it kept of an earlier one; `recorded` are the precisions the
chain recorded in between. -/
structure Since (before : CAssetsDir) (recorded : CAsset → UInt8 → Prop) (d : CAssetsDir) :
    Prop where
  ne_zero : ∀ s a, d.mapAssets s = some a → a ≠ 0
  spells : ∀ s a, d.mapAssets s = some a → Spells s a
  label : ∀ a m, d.mapAssetMetadata a = some m → m.label ≠ "" → d.mapAssets m.label = some a
  bound : ∀ s a, before.mapAssets s = some a → d.mapAssets s = some a
  chain : ∀ a m, before.mapAssetMetadata a = some m → m.precisionSource = .chain →
    ∃ m', d.mapAssetMetadata a = some m' ∧ m'.precisionSource = .chain ∧
      (m'.precision = m.precision ∨ recorded a m'.precision)

variable {before d : CAssetsDir} {recorded : CAsset → UInt8 → Prop} {asset : CAsset}
  {label : String} {m : AssetMetadata}

theorem Since.name (h : Since before recorded d) (hnone : d.mapAssets label = none)
    (hasset : asset ≠ 0) (hspells : Spells label asset) :
    Since before recorded (d.name label asset) := by
  have hkeep : ∀ s a, d.mapAssets s = some a → (d.name label asset).mapAssets s = some a := by
    intro s a hs
    have hne : s ≠ label := by
      rintro rfl
      rw [hnone] at hs
      cases hs
    exact (Function.update_of_ne hne _ _).trans hs
  have hcases : ∀ s a, (d.name label asset).mapAssets s = some a →
      d.mapAssets s = some a ∨ s = label ∧ a = asset := by
    intro s a hs
    simp only [CAssetsDir.name, Function.update_apply] at hs
    split_ifs at hs with heq
    · exact .inr ⟨heq, (Option.some.inj hs).symm⟩
    · exact .inl hs
  refine ⟨?_, ?_, fun a m hm hlabel => hkeep _ _ (h.label a m hm hlabel),
    fun s a hs => hkeep s a (h.bound s a hs), h.chain⟩
  · intro s a hs
    rcases hcases s a hs with hs | ⟨-, rfl⟩
    exacts [h.ne_zero s a hs, hasset]
  · intro s a hs
    rcases hcases s a hs with hs | ⟨rfl, rfl⟩
    exacts [h.spells s a hs, hspells]

/-- A record whose label is the asset's takes the place of one that is not the chain's, or that
keeps what the chain recorded. -/
theorem Since.record (h : Since before recorded d)
    (hlabel : m.label ≠ "" → d.mapAssets m.label = some asset)
    (hchain : ∀ old, d.mapAssetMetadata asset = some old → old.precisionSource = .chain →
      m.precisionSource = .chain ∧ (m.precision = old.precision ∨ recorded asset m.precision)) :
    Since before recorded (d.record asset m) := by
  refine { h with label := ?_, chain := ?_ }
  · intro a m' hm
    rcases eq_or_ne a asset with rfl | hne
    · cases (Function.update_self ..).symm.trans hm
      exact hlabel
    · exact h.label a m' ((Function.update_of_ne hne _ _).symm.trans hm)
  · intro a m₀ hm₀ hsource
    obtain ⟨old, hold, hsource', hprecision⟩ := h.chain a m₀ hm₀ hsource
    rcases eq_or_ne a asset with rfl | hne
    · obtain ⟨hnew, hkept⟩ := hchain old hold hsource'
      refine ⟨m, Function.update_self .., hnew, ?_⟩
      rcases hkept with hkept | hkept
      · exact hprecision.imp hkept.trans fun hrec => hkept ▸ hrec
      · exact .inr hkept
    · exact ⟨old, (Function.update_of_ne hne _ _).trans hold, hsource', hprecision⟩

theorem label_setPrecision (m : AssetMetadata) (precision : UInt8) (source : PrecisionSource) :
    (m.setPrecision precision source).label = m.label := by
  unfold AssetMetadata.setPrecision
  split <;> rfl

theorem setPrecision_registry (hsource : m.precisionSource = .chain) (precision : UInt8) :
    (m.setPrecision precision .registry).precisionSource = .chain ∧
      (m.setPrecision precision .registry).precision = m.precision := by
  rw [AssetMetadata.setPrecision, hsource, if_pos (by decide)]
  exact ⟨hsource, rfl⟩

theorem Since.label_getMetadata (h : Since before recorded d)
    (hlabel : (d.getMetadata asset).label ≠ "") :
    d.mapAssets (d.getMetadata asset).label = some asset := by
  unfold getMetadata at hlabel ⊢
  cases hm : d.mapAssetMetadata asset with
  | none => simp [hm] at hlabel
  | some m =>
    rw [hm] at hlabel
    exact h.label asset m hm hlabel

theorem Since.bind (h : Since before recorded d) (hnone : d.mapAssets m.label = none)
    (hnull : ¬asset.isNull = true) (hspells : Spells m.label asset)
    (hchain : ∀ old, d.mapAssetMetadata asset = some old → old.precisionSource = .chain →
      m.precisionSource = .chain ∧ m.precision = old.precision) :
    Since before recorded ((d.name m.label asset).record asset m) := by
  have hasset : asset ≠ 0 := by simpa [Uint256.isNull] using hnull
  refine (h.name hnone hasset hspells).record (fun _ => Function.update_self ..) ?_
  intro old hold hsource
  obtain ⟨hnew, hkept⟩ := hchain old hold hsource
  exact ⟨hnew, .inl hkept⟩

theorem Since.set (h : Since before recorded d) (hspells : Spells m.label asset)
    (hsource : (d.getMetadata asset).precisionSource ≠ .chain) :
    Since before recorded ((d.set asset m).toOption.getD d) := by
  fun_cases CAssetsDir.set d asset m
  case case4 hnull _ hfree =>
    have hnone : d.mapAssets m.label = none := by
      rw [Option.eq_none_iff_forall_ne_some]
      intro a hget
      rw [getAsset, hget] at hfree
      exact h.ne_zero _ _ hget (not_not.mp hfree)
    refine h.bind hnone hnull hspells ?_
    intro old hold hchain
    rw [getMetadata, hold] at hsource
    exact absurd hchain hsource
  all_goals exact h

/-- A turn of `Merge`. -/
theorem Since.mergeEntry {s : CAssetsDir × ℕ} (h : Since before recorded s.1)
    {entry : AssetRegistryEntry} (hspells : Spells entry.label (uint256S entry.idHex)) :
    Since before recorded (mergeEntry s entry).1 := by
  fun_cases CAssetsDir.mergeEntry s entry
  case case1 => exact h
  case case2 hvalid m hm m' hfree =>
    simp only [Bool.or_eq_true, not_or] at hvalid
    refine h.bind hfree.2 hvalid.1.2 hspells ?_
    intro old hold hsource
    cases hm.symm.trans hold
    exact setPrecision_registry hsource _
  case case3 m hm m' _ =>
    refine h.record ?_ ?_
    · simpa [m', AssetMetadata.markRegistryListed, label_setPrecision] using h.label _ m hm
    · intro old hold hsource
      cases hm.symm.trans hold
      exact (setPrecision_registry hsource _).imp_right .inl
  case case4 hm _ =>
    refine h.record (absurd (label_setPrecision ..)) ?_
    intro old hold
    cases hm.symm.trans hold
  case case5 hvalid hm hlabel =>
    simp only [Bool.or_eq_true, not_or] at hvalid
    refine h.bind (Option.not_isSome_iff_eq_none.mp hlabel) hvalid.1.2 hspells ?_
    intro old hold
    cases hm.symm.trans hold

theorem Since.merge (h : Since before recorded d) {entries : List AssetRegistryEntry}
    (hspells : ∀ entry ∈ entries, Spells entry.label (uint256S entry.idHex)) :
    Since before recorded (d.merge entries).1 := by
  rw [CAssetsDir.merge]
  generalize hs : (d, 0) = s
  have h : Since before recorded s.1 := hs ▸ h
  clear hs
  induction entries generalizing s with
  | nil => exact h
  | cons entry entries ih =>
    rw [List.forall_mem_cons] at hspells
    exact ih hspells.2 _ (h.mergeEntry hspells.1)

theorem Since.setAlias (h : Since before recorded d) (hspells : Spells label asset) :
    Since before recorded (d.setAlias label asset) := by
  unfold CAssetsDir.setAlias
  split_ifs with hskip
  · exact h
  · simp only [Bool.or_eq_true, not_or] at hskip
    exact h.name (by simpa using hskip.2) (by simpa [Uint256.isNull] using hskip.1.1) hspells

theorem Since.setChainPrecision (h : Since before recorded d) {precision : UInt8}
    (hrec : recorded asset (clampPrecision precision)) :
    Since before recorded (d.setChainPrecision asset precision) := by
  have hset : (d.getMetadata asset).setPrecision (clampPrecision precision) .chain =
      { d.getMetadata asset with
        precision := clampPrecision precision, precisionSource := .chain } := by
    refine if_neg (Nat.not_lt.mpr ?_)
    cases (d.getMetadata asset).precisionSource <;> decide
  refine h.record ?_ fun _ _ _ => ?_
  · rw [label_setPrecision]
    exact h.label_getMetadata
  · rw [hset]
    exact ⟨rfl, .inr hrec⟩

/-- A change that fits keeps the directory in order. -/
theorem Since.step (h : Since before recorded d) {op : Op} (hfits : op.Fits d)
    (hrec : ∀ a p, op = .chain a p → recorded a (clampPrecision p)) :
    Since before recorded (d.step op) := by
  cases op with
  | assetdir assetHex label =>
    simp only [CAssetsDir.step, setHex]
    split_ifs
    · exact h
    · exact h
    · exact h.set hfits.1 hfits.2
  | native asset label => exact h.set hfits.1 hfits.2
  | secondName label asset => exact h.setAlias hfits
  | registry entries => exact h.merge hfits
  | chain asset precision => exact h.setChainPrecision (hrec asset precision rfl)

/-- So does a sequence of them. -/
theorem Since.run {ops : List Op} (h : Since before recorded d) (hfit : Fit d ops)
    (hrec : ∀ a p, .chain a p ∈ ops → recorded a (clampPrecision p)) :
    Since before recorded (ops.foldl CAssetsDir.step d) := by
  induction ops generalizing d with
  | nil => exact h
  | cons op ops ih =>
    refine ih (h.step hfit.1 ?_) hfit.2 fun a p hmem => hrec a p (List.mem_cons_of_mem op hmem)
    rintro a p rfl
    exact hrec a p List.mem_cons_self

theorem fit_append {first second : List Op} (hfit : Fit d (first ++ second)) :
    Fit d first ∧ Fit (first.foldl CAssetsDir.step d) second := by
  induction first generalizing d with
  | nil => exact ⟨trivial, hfit⟩
  | cons op first ih =>
    obtain ⟨hop, hrest⟩ := hfit
    exact ⟨⟨hop, (ih hrest).1⟩, (ih hrest).2⟩

/-- The text of an asset id is read as that id. -/
theorem Since.getAssetFromString_hex (h : Since before recorded d) {s : String}
    (hs : isAssetHex s = true) : d.getAssetFromString s = uint256S s := by
  unfold getAssetFromString
  split_ifs with hnull
  · rfl
  · cases hget : d.mapAssets s with
    | none => simp [getAsset, hget, hs, Uint256.isNull] at hnull
    | some a =>
      rw [getAsset, hget]
      exact (h.spells s a hget hs).symm

theorem Since.getAssetFromString_getIdentifier (h : Since before recorded d) (a : CAsset) :
    d.getAssetFromString (d.getIdentifier a) = a := by
  unfold getIdentifier
  split_ifs with hlabel
  · have hget := h.label_getMetadata hlabel
    have hne := h.ne_zero _ _ hget
    simp [getAssetFromString, getAsset, hget, hne, Uint256.isNull]
  · rw [h.getAssetFromString_hex (isAssetHex_getHex a), uint256S_getHex]

/-- In every sequence of changes that fit, after any of them: the text of an asset id is read as
that asset, what is shown for an asset is read back as the asset, a label keeps the asset it was
bound to, and a precision recorded from the chain gives way only to the chain's own. -/
theorem directory_consistent (earlier later : List Op) (hfit : Fit empty (earlier ++ later)) :
    let before := earlier.foldl CAssetsDir.step empty
    let d := later.foldl CAssetsDir.step before
    (∀ s, isAssetHex s = true → d.getAssetFromString s = uint256S s) ∧
    (∀ a : CAsset, d.getAssetFromString a.getHex = a) ∧
    (∀ a, d.getAssetFromString (d.getIdentifier a) = a) ∧
    (∀ s a, before.mapAssets s = some a → d.mapAssets s = some a) ∧
    ∀ a m, before.mapAssetMetadata a = some m → m.precisionSource = .chain →
      ∃ m', d.mapAssetMetadata a = some m' ∧ m'.precisionSource = .chain ∧
        (m'.precision = m.precision ∨
          ∃ p, .chain a p ∈ later ∧ m'.precision = clampPrecision p) := by
  intro before d
  obtain ⟨hearlier, hlater⟩ := fit_append hfit
  have hempty : Since empty (fun _ _ => True) empty := by
    constructor <;> intro _ _ h <;> cases h
  have hbefore : Since empty (fun _ _ => True) before :=
    hempty.run hearlier fun _ _ _ => trivial
  have hself : Since before (fun a v => ∃ p, .chain a p ∈ later ∧ v = clampPrecision p) before :=
    { hbefore with
      bound := fun _ _ h => h
      chain := fun a m hm hsource => ⟨m, hm, hsource, .inl rfl⟩ }
  have h := hself.run hlater fun a p hmem => ⟨p, hmem, rfl⟩
  refine ⟨fun s => h.getAssetFromString_hex, ?_, h.getAssetFromString_getIdentifier, h.bound,
    h.chain⟩
  intro a
  rw [h.getAssetFromString_hex (isAssetHex_getHex a), uint256S_getHex]

theorem not_mem_protectedLabels {s : String} (hs : isAssetHex s = true) :
    s ∉ protectedLabels := by
  have hnone : ∀ s ∈ protectedLabels, isAssetHex s = false := by decide
  intro hmem
  rw [hnone s hmem] at hs
  cases hs

/-- An operator's label, then the chain's precision, then a registry that gives another. -/
theorem directory_consistent_gold :
    let ops := [Op.assetdir (Uint256.getHex 1) "GOLD"]
    let later := [Op.chain 1 2, .registry [⟨Uint256.getHex 1, "SILVER", 5⟩]]
    Fit empty (ops ++ later) ∧
      ((ops ++ later).foldl CAssetsDir.step empty).getAssetFromString (Uint256.getHex 1) = 1 := by
  have hgold : isAssetHex "GOLD" = false := by decide
  have hsilver : isAssetHex "SILVER" = false := by decide
  have hfit : Fit empty ([Op.assetdir (Uint256.getHex 1) "GOLD"] ++
      [Op.chain 1 2, .registry [⟨Uint256.getHex 1, "SILVER", 5⟩]]) := by
    simp [Fit, Op.Fits, Spells, hgold, hsilver, empty, getMetadata]
  exact ⟨hfit, (directory_consistent _ _ hfit).2.1 1⟩

/-- A registry entry whose ticker is the id of another asset takes that id over, and an operator's
label put on an asset whose precision the chain has recorded drops that precision. -/
theorem registry_ticker_hides_id :
    (empty.step (.registry [⟨Uint256.getHex 1, Uint256.getHex 2, 8⟩])).getAssetFromString
      (Uint256.getHex 2) = 1 ∧
    let d := empty.step (.chain 1 2)
    (d.getMetadata 1).precisionSource = .chain ∧ (d.getMetadata 1).precision = 2 ∧
      ((d.step (.assetdir (Uint256.getHex 1) "GOLD")).getMetadata 1).precision = 8 := by
  have hticker := not_mem_protectedLabels (isAssetHex_getHex 2)
  have hgold : "GOLD" ∉ protectedLabels := by decide
  have hone : Uint256.isNull 1 = false := by decide
  constructor
  · simp [CAssetsDir.step, CAssetsDir.merge, CAssetsDir.mergeEntry, isAssetHex_getHex,
      uint256S_getHex, hone, hticker, empty, getAssetFromString, getAsset, CAssetsDir.name,
      CAssetsDir.record]
  · simp [CAssetsDir.step, CAssetsDir.setHex, CAssetsDir.set, isAssetHex_getHex, getMetadata,
      uint256S_getHex, hone, hgold, empty, getAsset, CAssetsDir.name, CAssetsDir.record,
      CAssetsDir.setChainPrecision, AssetMetadata.setPrecision, clampPrecision,
      maxAssetPrecision, PrecisionSource.rank, defaultAssetPrecision, Except.toOption]

end CAssetsDir

end Sequentia
