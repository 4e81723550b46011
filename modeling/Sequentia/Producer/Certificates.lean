import Sequentia.Lib.Runs
import Sequentia.Lib.KeyedMap
import Sequentia.Script
import Sequentia.Transaction

/-!
# The certificates a producer knows

A quorum certificate that is verified from a peer pins its height: the producer signs no rival
there, and it answers other members' queries for the certificate. Three bounded maps hold what is
known, keyed by block and by height. They are filled when a certificate is received and when one
is assembled, pruned when the tip passes a height and cut back when they grow too large.
-/

namespace Sequentia.Producer

open Std ExtTreeMap

/-- A certified header: the block and the certificate, which its hash does not cover. -/
structure CertHeader where
  hash : Uint256
  /-- The certificate in the proof solution. -/
  solution : Bytes
  deriving DecidableEq

/-- The certificate maps of `PosProducer`. -/
structure CertNode where
  certified : ExtTreeMap Uint256 CertHeader := ∅
  certifiedHeights : ExtTreeMap ℕ Uint256 := ∅
  recentCerts : ExtTreeMap Uint256 CertHeader := ∅

/-- The bound of the three maps. -/
def certsMax : ℕ := 100

/-- `m.erase(m.begin())`, if the map is too large. -/
def eraseFirst {κ ν : Type} [Ord κ] [TransOrd κ] (m : ExtTreeMap κ ν) : ExtTreeMap κ ν :=
  if certsMax < m.size then
    match m.keys.head? with
    | some k => m.erase k
    | none => m
  else m

namespace CertNode

/-- One turn of the loop that evicts the lowest height, for that height and its block. -/
def dropHeight (n : CertNode) (height : ℕ) (hash : Uint256) : CertNode where
  certified := n.certified.erase hash
  certifiedHeights := n.certifiedHeights.erase height
  recentCerts := n.recentCerts.erase hash

/-- The loop of `OnCertificate` that evicts the lowest height; every turn removes one, so the
number of heights bounds the turns. -/
def evictLowest : ℕ → CertNode → CertNode
  | 0, n => n
  | turns + 1, n =>
    if certsMax < n.certified.size then
      match n.certifiedHeights.keys.head? with
      | none => n
      | some height =>
        match n.certifiedHeights[height]? with
        | none => n
        | some hash => (n.dropHeight height hash).evictLowest turns
    else n

variable (heightOf : Uint256 → ℕ)

/-- The part of `OnCertificate` that enters a verified certificate. -/
def enter (n : CertNode) (header : CertHeader) : CertNode where
  certified := n.certified.insert header.hash header
  certifiedHeights := n.certifiedHeights.insert (heightOf header.hash) header.hash
  recentCerts := n.recentCerts.insert header.hash header

/-- `OnCertificate` for a verified quorum certificate: a block's height is fixed by its hash. -/
def onCertificate (n : CertNode) (header : CertHeader) : CertNode :=
  let n := n.enter heightOf header
  let n := n.evictLowest n.certifiedHeights.size
  { certified := eraseFirst n.certified
    certifiedHeights := eraseFirst n.certifiedHeights
    recentCerts := eraseFirst n.recentCerts }

/-- The part of `DriveRound` that keeps a certificate it has assembled. -/
def assembled (n : CertNode) (header : CertHeader) : CertNode :=
  { n with recentCerts := eraseFirst (n.recentCerts.insert header.hash header) }

/-- The loop of `Step` that prunes the heights the chain has passed. -/
def prune (tipHeight : ℕ) : ℕ → CertNode → CertNode
  | 0, n => n
  | turns + 1, n =>
    match n.certifiedHeights.keys.head? with
    | none => n
    | some height =>
      match n.certifiedHeights[height]? with
      | none => n
      | some hash =>
        if height ≤ tipHeight then
          prune tipHeight turns
            { n with
              certified := n.certified.erase hash
              certifiedHeights := n.certifiedHeights.erase height }
        else n

def getCertificate (n : CertNode) (hash : Uint256) : Option CertHeader := n.recentCerts[hash]?

end CertNode

/-- What happens to the maps. -/
inductive CertEvent where
  /-- A certificate from a peer is verified. -/
  | onCertificate (header : CertHeader)
  | assembled (header : CertHeader)
  /-- The producer looks at the tip. -/
  | step (tipHeight : ℕ)

variable (heightOf : Uint256 → ℕ)

/-- The state after an event. -/
def CertNode.next (n : CertNode) : CertEvent → CertNode
  | .onCertificate header => n.onCertificate heightOf header
  | .assembled header => n.assembled header
  | .step tipHeight => n.prune tipHeight n.certifiedHeights.size

/-- The producer's certificates from its start on. -/
def certMachine : Machine CertNode CertEvent where
  init n := n = {}
  next n e := some (n.next heightOf e)

/-- No certificate is verified for a height that is pinned to another block. -/
def NoRival (n : CertNode) : CertEvent → Prop
  | .onCertificate header =>
    ∀ hash, n.certifiedHeights[heightOf header.hash]? = some hash → hash = header.hash
  | _ => True

/-- A new certificate leaves room in `m_recent_certs` for a block's, or there is a block with a
smaller hash to drop. -/
def SparesRecent (hash : Uint256) (n : CertNode) (header : CertHeader) : Prop :=
  certsMax ≤ n.recentCerts.size → header.hash ∉ n.recentCerts →
    compare header.hash hash = .lt ∨ ∃ k ∈ n.recentCerts, compare k hash = .lt

/-- A new certificate leaves room in `m_certified` for a block's, or there is a lower height to
drop. -/
def SparesCertified (hash : Uint256) (n : CertNode) (header : CertHeader) : Prop :=
  certsMax ≤ n.certified.size → header.hash ∉ n.certified →
    heightOf header.hash < heightOf hash ∨ ∃ k ∈ n.certifiedHeights, k < heightOf hash

def Spares (hash : Uint256) (n : CertNode) : CertEvent → Prop
  | .onCertificate header => SparesRecent hash n header ∧ SparesCertified heightOf hash n header
  | .assembled header => SparesRecent hash n header
  | .step tipHeight => tipHeight < heightOf hash

/-- A block's certificate pins its height and is served. -/
structure Holds (n : CertNode) (hash : Uint256) : Prop where
  pinned : n.certifiedHeights[heightOf hash]? = some hash
  certified : hash ∈ n.certified
  /-- Queries are answered. -/
  served : (n.getCertificate hash).isSome = true

variable {heightOf} {n m : CertNode} {header : CertHeader} {hash : Uint256} {κ ν : Type}

/-- The map by block and the map by height say the same. -/
structure Agree (heightOf : Uint256 → ℕ) (n : CertNode) : Prop where
  mem_iff : ∀ k, k ∈ n.certified ↔ n.certifiedHeights[heightOf k]? = some k
  height : ∀ h k, n.certifiedHeights[h]? = some k → heightOf k = h
  size_eq : n.certifiedHeights.size = n.certified.size

theorem mem_iff_isSome [Ord κ] [TransOrd κ] (t : ExtTreeMap κ ν) (k : κ) :
    k ∈ t ↔ ∃ v, t[k]? = some v := by
  rw [← isSome_getElem?_iff_mem, Option.isSome_iff_exists]

theorem Agree.enter (hagree : Agree heightOf n) (hrival : NoRival heightOf n (.onCertificate header)) :
    Agree heightOf (n.enter heightOf header) where
  mem_iff k := by
    simp only [CertNode.enter, mem_insert, KeyedMap.getElem?_insert_eq,
      LawfulEqOrd.compare_eq_iff_eq]
    by_cases hk : header.hash = k
    · simp [hk]
    · by_cases hheight : heightOf header.hash = heightOf k
      · simp only [hk, false_or, if_pos hheight, Option.some.injEq, iff_false, hagree.mem_iff k]
        intro hpinned
        exact hk (hrival k (hheight ▸ hpinned)).symm
      · simp [hk, hheight, hagree.mem_iff k]
  height h k hpinned := by
    simp only [CertNode.enter, KeyedMap.getElem?_insert_eq] at hpinned
    split at hpinned
    · next hheight =>
      cases hpinned
      exact hheight
    · exact hagree.height h k hpinned
  size_eq := by
    have hsame : n.certifiedHeights.contains (heightOf header.hash) =
        n.certified.contains header.hash := by
      rw [Bool.eq_iff_iff, contains_iff_mem, contains_iff_mem,
        hagree.mem_iff, mem_iff_isSome]
      exact ⟨fun ⟨k, hk⟩ => hrival k hk ▸ hk, fun hk => ⟨_, hk⟩⟩
    simp only [CertNode.enter, size_insert, hsame, hagree.size_eq]

theorem Agree.dropHeight (hagree : Agree heightOf n) {h : ℕ} {k : Uint256}
    (hpinned : n.certifiedHeights[h]? = some k) : Agree heightOf (n.dropHeight h k) where
  mem_iff a := by
    simp only [CertNode.dropHeight, mem_erase, ne_eq, KeyedMap.getElem?_erase_eq,
      LawfulEqOrd.compare_eq_iff_eq]
    by_cases hk : k = a
    · simp [hk, ← hagree.height h k hpinned]
    · by_cases hh : h = heightOf a
      · have hne : ¬n.certifiedHeights[heightOf a]? = some a := by
          rw [← hh, hpinned]
          exact fun heq => hk (Option.some.inj heq)
        simp [hk, hh, hagree.mem_iff a, hne]
      · simp [hk, hh, hagree.mem_iff a]
  height a b hab := by
    simp only [CertNode.dropHeight, KeyedMap.getElem?_erase_eq] at hab
    split at hab
    · cases hab
    · exact hagree.height a b hab
  size_eq := by
    have hh : n.certifiedHeights.contains h = true :=
      contains_iff_mem.mpr ((mem_iff_isSome _ h).mpr ⟨k, hpinned⟩)
    have hk : n.certified.contains k = true := by
      rw [contains_iff_mem, hagree.mem_iff, hagree.height h k hpinned]
      exact hpinned
    simp only [CertNode.dropHeight, size_erase, if_pos hh, if_pos hk, hagree.size_eq]

/-- What agreement and the bounds give between events. -/
structure Inv (heightOf : Uint256 → ℕ) (n : CertNode) : Prop extends Agree heightOf n where
  certified_le : n.certified.size ≤ certsMax
  recent_le : n.recentCerts.size ≤ certsMax

theorem inv_empty : Inv heightOf {} where
  mem_iff k := by simp
  height h k hk := by simp at hk
  size_eq := rfl
  certified_le := by simp
  recent_le := by simp

theorem head?_keys_eq_some [Ord κ] [TransOrd κ] [LawfulEqOrd κ] {t : ExtTreeMap κ ν}
    {k : κ} : t.keys.head? = some k ↔ k ∈ t ∧ ∀ a ∈ t, (compare k a).isLE = true := by
  rw [← ExtTreeMap.minKey?_eq_head?_keys, ExtTreeMap.minKey?_eq_some_iff_mem_and_forall]

theorem head?_keys_eq_none [Ord κ] [TransOrd κ] {t : ExtTreeMap κ ν} :
    t.keys.head? = none ↔ t = ∅ := by
  rw [← ExtTreeMap.minKey?_eq_head?_keys, ExtTreeMap.minKey?_eq_none_iff]

/-- A map that is not too large is left alone. -/
theorem eraseFirst_of_le [Ord κ] [TransOrd κ] {t : ExtTreeMap κ ν}
    (hle : t.size ≤ certsMax) : eraseFirst t = t := if_neg (Nat.not_lt.mpr hle)

/-- Cutting back a map that is one too large makes it fit. -/
theorem size_eraseFirst [Ord κ] [TransOrd κ] [LawfulEqOrd κ] {t : ExtTreeMap κ ν}
    (hle : t.size ≤ certsMax + 1) : (eraseFirst t).size ≤ certsMax := by
  unfold eraseFirst
  split
  · cases hmin : t.keys.head? with
    | none =>
      rw [head?_keys_eq_none.mp hmin]
      simp
    | some k =>
      have hk : t.contains k = true := contains_iff_mem.mpr ((head?_keys_eq_some.mp hmin).1)
      simp only [size_erase, if_pos hk]
      omega
  · omega

/-- An entry survives if another one comes first. -/
theorem mem_eraseFirst [Ord κ] [TransOrd κ] [LawfulEqOrd κ] {t : ExtTreeMap κ ν}
    {k : κ} (hk : k ∈ t) (hspared : certsMax < t.size → ∃ first ∈ t, compare first k = .lt) :
    k ∈ eraseFirst t := by
  fun_cases eraseFirst t <;> try exact hk
  next hlt least hmin =>
    obtain ⟨first, hfirst, hless⟩ := hspared hlt
    refine mem_erase.mpr ⟨fun heq => ?_, hk⟩
    have hle := (head?_keys_eq_some.mp hmin).2 first hfirst
    rw [LawfulEqOrd.compare_eq_iff_eq] at heq
    rw [heq, OrientedOrd.eq_swap, hless] at hle
    cases hle

theorem evictLowest_eq (hagree : Agree heightOf n) (hle : n.certified.size ≤ certsMax + 1) :
    n.evictLowest n.certifiedHeights.size = n ∧ n.certified.size ≤ certsMax ∨
      ∃ h k, certsMax < n.certified.size ∧ n.certifiedHeights.keys.head? = some h ∧
        n.certifiedHeights[h]? = some k ∧
        n.evictLowest n.certifiedHeights.size = n.dropHeight h k := by
  rcases Nat.lt_or_ge certsMax n.certified.size with hlt | hsmall
  · right
    have hsize : n.certifiedHeights.size = certsMax + 1 := by
      rw [hagree.size_eq]
      omega
    cases hmin : n.certifiedHeights.keys.head? with
    | none =>
      rw [head?_keys_eq_none.mp hmin] at hsize
      simp [certsMax] at hsize
    | some h =>
      obtain ⟨k, hk⟩ := (mem_iff_isSome _ h).mp ((head?_keys_eq_some.mp hmin).1)
      refine ⟨h, k, hlt, rfl, hk, ?_⟩
      have hdropped : (n.dropHeight h k).certified.size ≤ certsMax := by
        have hsize' := (hagree.dropHeight hk).size_eq
        have hh : n.certifiedHeights.contains h = true :=
          contains_iff_mem.mpr ((head?_keys_eq_some.mp hmin).1)
        rw [← hsize']
        simp only [CertNode.dropHeight, size_erase, if_pos hh]
        omega
      rw [hsize, CertNode.evictLowest, if_pos hlt, hmin]
      simp only [hk]
      unfold certsMax
      rw [CertNode.evictLowest, if_neg (Nat.not_lt.mpr hdropped)]
  · left
    refine ⟨?_, hsmall⟩
    cases hsize : n.certifiedHeights.size with
    | zero => rfl
    | succ turns => rw [CertNode.evictLowest, if_neg (Nat.not_lt.mpr hsmall)]

theorem served_iff : (n.getCertificate hash).isSome = true ↔ hash ∈ n.recentCerts :=
  isSome_getElem?_iff_mem

/-- Entering one more key makes a map at most one larger. -/
theorem size_insert_le [Ord κ] [TransOrd κ] {t : ExtTreeMap κ ν} (k : κ) (v : ν)
    (hle : t.size ≤ certsMax) : (t.insert k v).size ≤ certsMax + 1 := by
  rw [size_insert]
  split <;> omega

/-- A map that is too large after a key was entered was full and did not have the key. -/
theorem full_of_size_insert [Ord κ] [TransOrd κ] {t : ExtTreeMap κ ν} {k : κ} {v : ν}
    (hle : t.size ≤ certsMax) (hlt : certsMax < (t.insert k v).size) :
    certsMax ≤ t.size ∧ k ∉ t := by
  rw [size_insert] at hlt
  split at hlt
  · omega
  · next hnot => exact ⟨by omega, fun hk => hnot (contains_iff_mem.mpr hk)⟩

/-- A certificate that is entered, and every one that was held, is held before anything is
dropped. -/
theorem holds_enter (hinv : Inv heightOf n) (hrival : NoRival heightOf n (.onCertificate header))
    (hheld : hash = header.hash ∨ Holds heightOf n hash) :
    Holds heightOf (n.enter heightOf header) hash := by
  have hagree := hinv.toAgree.enter hrival
  have hpinned : (n.enter heightOf header).certifiedHeights[heightOf hash]? = some hash := by
    simp only [CertNode.enter, KeyedMap.getElem?_insert_eq]
    rcases hheld with rfl | hheld
    · simp
    · split
      · next hheight => rw [hrival hash (hheight ▸ hheld.pinned)]
      · exact hheld.pinned
  refine ⟨hpinned, (hagree.mem_iff hash).mpr hpinned, served_iff.mpr ?_⟩
  rw [CertNode.enter, mem_insert, LawfulEqOrd.compare_eq_iff_eq]
  exact hheld.imp Eq.symm fun h => served_iff.mp h.served

theorem dropHeight_spares (hinv : Inv heightOf n) {h : ℕ} {k : Uint256}
    (hspares : SparesCertified heightOf hash n header)
    (hlt : certsMax < (n.enter heightOf header).certified.size)
    (hmin : (n.enter heightOf header).certifiedHeights.keys.head? = some h)
    (hk : heightOf k = h) : k ≠ hash := by
  rintro rfl
  obtain ⟨hfull, hfresh⟩ := full_of_size_insert hinv.certified_le hlt
  have hleast := (head?_keys_eq_some.mp hmin).2
  have hlower : ∃ a ∈ (n.enter heightOf header).certifiedHeights, a < h := by
    simp only [CertNode.enter, mem_insert, LawfulEqOrd.compare_eq_iff_eq]
    rcases hspares hfull hfresh with hless | ⟨a, ha, hless⟩
    · exact ⟨_, .inl rfl, hk ▸ hless⟩
    · exact ⟨a, .inr ha, hk ▸ hless⟩
  obtain ⟨a, ha, hless⟩ := hlower
  have hle : h ≤ a := Nat.isLE_compare.mp (hleast a ha)
  omega

/-- Receiving a certificate: the maps stay in agreement and within their bounds, and every block
that is spared is held afterwards if it was held or is the one received. -/
theorem onCertificate_spec (hinv : Inv heightOf n)
    (hrival : NoRival heightOf n (.onCertificate header)) :
    Inv heightOf (n.onCertificate heightOf header) ∧
      ∀ hash, Spares heightOf hash n (.onCertificate header) →
        (hash = header.hash ∨ Holds heightOf n hash) →
        Holds heightOf (n.onCertificate heightOf header) hash := by
  have hagree := hinv.toAgree.enter hrival
  have hcertified := size_insert_le header.hash header hinv.certified_le
  have hrecent := size_insert_le header.hash header hinv.recent_le
  -- The smaller hash that `SparesRecent` names is in the map after the entry.
  have hsmaller : ∀ hash, SparesRecent hash n header →
      certsMax < (n.enter heightOf header).recentCerts.size →
      ∃ first ∈ (n.enter heightOf header).recentCerts, compare first hash = .lt := by
    intro hash hspares hlt
    obtain ⟨hfull, hfresh⟩ := full_of_size_insert hinv.recent_le hlt
    simp only [CertNode.enter, mem_insert, LawfulEqOrd.compare_eq_iff_eq]
    rcases hspares hfull hfresh with hless | ⟨k, hk, hless⟩
    · exact ⟨_, .inl rfl, hless⟩
    · exact ⟨k, .inr hk, hless⟩
  unfold CertNode.onCertificate
  dsimp only
  rcases evictLowest_eq hagree hcertified with ⟨heq, hle⟩ | ⟨h, k, hlt, hmin, hk, heq⟩
  · have hheights : (n.enter heightOf header).certifiedHeights.size ≤ certsMax :=
      hagree.size_eq ▸ hle
    rw [heq, eraseFirst_of_le hle, eraseFirst_of_le hheights]
    refine ⟨⟨{ hagree with }, hle, size_eraseFirst hrecent⟩,
      fun hash hspares hheld => ?_⟩
    have hentered := holds_enter hinv hrival hheld
    exact ⟨hentered.pinned, hentered.certified, served_iff.mpr
      (mem_eraseFirst (served_iff.mp hentered.served) (hsmaller hash hspares.1))⟩
  · have hdropped := hagree.dropHeight hk
    have hh : (n.enter heightOf header).certifiedHeights.contains h = true :=
      contains_iff_mem.mpr ((head?_keys_eq_some.mp hmin).1)
    have hheights : ((n.enter heightOf header).dropHeight h k).certifiedHeights.size ≤ certsMax := by
      simp only [CertNode.dropHeight, size_erase, if_pos hh, hagree.size_eq]
      exact Nat.sub_le_of_le_add hcertified
    have hle : ((n.enter heightOf header).dropHeight h k).certified.size ≤ certsMax :=
      hdropped.size_eq ▸ hheights
    have hrecent' : ((n.enter heightOf header).dropHeight h k).recentCerts.size ≤ certsMax + 1 := by
      simp only [CertNode.dropHeight, size_erase]
      split
      · exact (Nat.sub_le _ _).trans hrecent
      · exact hrecent
    rw [heq, eraseFirst_of_le hle, eraseFirst_of_le hheights]
    refine ⟨⟨{ hdropped with }, hle, size_eraseFirst hrecent'⟩, fun hash hspares hheld => ?_⟩
    have hentered := holds_enter hinv hrival hheld
    have hne := dropHeight_spares hinv hspares.2 hlt hmin (hagree.height h k hk)
    have hpinned : ((n.enter heightOf header).dropHeight h k).certifiedHeights[heightOf hash]? =
        some hash := by
      simp only [CertNode.dropHeight, KeyedMap.getElem?_erase_eq]
      rw [if_neg, hentered.pinned]
      rintro rfl
      exact hne (Option.some.inj (hk.symm.trans hentered.pinned))
    refine ⟨hpinned, (hdropped.mem_iff hash).mpr hpinned, served_iff.mpr (mem_eraseFirst ?_ ?_)⟩
    · refine mem_erase.mpr ⟨fun hcmp => hne ?_, served_iff.mp hentered.served⟩
      exact LawfulEqOrd.compare_eq_iff_eq.mp hcmp
    · -- The map is still too large only if the dropped block was not in it.
      intro hlarge
      simp only [CertNode.dropHeight, size_erase] at hlarge
      split at hlarge
      · exact absurd hlarge (by have := hrecent; simp only [CertNode.enter]; omega)
      · next habsent =>
        obtain ⟨first, hfirst, hless⟩ := hsmaller hash hspares.1 hlarge
        refine ⟨first, mem_erase.mpr ⟨fun hcmp => habsent ?_, hfirst⟩, hless⟩
        rw [LawfulEqOrd.compare_eq_iff_eq.mp hcmp]
        exact contains_iff_mem.mpr hfirst

theorem assembled_spec (hinv : Inv heightOf n) (header : CertHeader) :
    Inv heightOf (n.assembled header) ∧
      ∀ hash, SparesRecent hash n header → Holds heightOf n hash →
        Holds heightOf (n.assembled header) hash := by
  refine ⟨{ hinv with
    recent_le := size_eraseFirst (size_insert_le header.hash header hinv.recent_le) },
    fun hash hspares hheld => ?_⟩
  refine ⟨hheld.pinned, hheld.certified, served_iff.mpr (mem_eraseFirst ?_ fun hlt => ?_)⟩
  · exact mem_insert.mpr (.inr (served_iff.mp hheld.served))
  · obtain ⟨hfull, hfresh⟩ := full_of_size_insert hinv.recent_le hlt
    simp only [mem_insert, LawfulEqOrd.compare_eq_iff_eq]
    rcases hspares hfull hfresh with hless | ⟨k, hk, hless⟩
    · exact ⟨_, .inl rfl, hless⟩
    · exact ⟨k, .inr hk, hless⟩

theorem prune_spec (tipHeight turns : ℕ) (hinv : Inv heightOf n) :
    Inv heightOf (n.prune tipHeight turns) ∧
      ∀ hash, tipHeight < heightOf hash → Holds heightOf n hash →
        Holds heightOf (n.prune tipHeight turns) hash := by
  induction turns generalizing n with
  | zero => exact ⟨hinv, fun _ _ hheld => hheld⟩
  | succ turns ih =>
    rw [CertNode.prune]
    split
    · exact ⟨hinv, fun _ _ hheld => hheld⟩
    · next h hmin =>
      split
      · exact ⟨hinv, fun _ _ hheld => hheld⟩
      · next k hk =>
        split
        · next hpassed =>
          have hdropped := hinv.toAgree.dropHeight hk
          have hle : (n.certified.erase k).size ≤ certsMax := by
            rw [size_erase]
            split
            · exact (Nat.sub_le _ _).trans hinv.certified_le
            · exact hinv.certified_le
          have hinv' : Inv heightOf { n with
              certified := n.certified.erase k
              certifiedHeights := n.certifiedHeights.erase h } :=
            ⟨{ hdropped with }, hle, hinv.recent_le⟩
          refine ⟨(ih hinv').1, fun hash habove hheld => (ih hinv').2 hash habove ?_⟩
          have hpinned : (n.certifiedHeights.erase h)[heightOf hash]? = some hash := by
            rw [KeyedMap.getElem?_erase_eq, if_neg (by omega), hheld.pinned]
          exact ⟨hpinned, (hinv'.mem_iff hash).mpr hpinned, hheld.served⟩
        · exact ⟨hinv, fun _ _ hheld => hheld⟩

theorem Inv.next {e : CertEvent} (hinv : Inv heightOf n) (hrival : NoRival heightOf n e) :
    Inv heightOf (n.next heightOf e) := by
  cases e with
  | onCertificate header => exact (onCertificate_spec hinv hrival).1
  | assembled header => exact (assembled_spec hinv header).1
  | step tipHeight => exact (prune_spec tipHeight _ hinv).1

theorem inv_of_reachable (hreach : (certMachine heightOf).Reachable (NoRival heightOf) n) :
    Inv heightOf n := by
  refine hreach.invariant ?_ fun _ _ _ hinv hrival hnext => Option.some.inj hnext ▸ hinv.next hrival
  rintro _ rfl
  exact inv_empty

theorem Holds.next {e : CertEvent} (hheld : Holds heightOf n hash) (hinv : Inv heightOf n)
    (hrival : NoRival heightOf n e) (hspares : Spares heightOf hash n e) :
    Holds heightOf (n.next heightOf e) hash := by
  cases e with
  | onCertificate header => exact (onCertificate_spec hinv hrival).2 hash hspares (.inr hheld)
  | assembled header => exact (assembled_spec hinv header).2 hash hspares hheld
  | step tipHeight => exact (prune_spec tipHeight _ hinv).2 hash hspares hheld

theorem Holds.run {events : List CertEvent} (hheld : Holds heightOf n hash)
    (hinv : Inv heightOf n)
    (hallows : (certMachine heightOf).Allows
      (fun n e => NoRival heightOf n e ∧ Spares heightOf hash n e) n events)
    (hrun : (certMachine heightOf).run n events = some m) : Holds heightOf m hash := by
  induction events generalizing n with
  | nil =>
    cases hrun
    exact hheld
  | cons e events ih =>
    obtain ⟨⟨hrival, hspares⟩, hrest⟩ := hallows
    exact ih (hheld.next hinv hrival hspares) (hinv.next hrival) (hrest _ rfl) hrun

/-- Every event can happen. -/
theorem run_eq_foldl (n : CertNode) (events : List CertEvent) :
    (certMachine heightOf).run n events = some (events.foldl (CertNode.next heightOf) n) := by
  induction events generalizing n with
  | nil => rfl
  | cons e events ih => exact ih (n.next heightOf e)

/-- Block 1 is at height 1000, every other block at the height of its number. -/
def sampleHeight (hash : Uint256) : ℕ := if hash = 1 then 1000 else hash.val.toNat

end Sequentia.Producer
