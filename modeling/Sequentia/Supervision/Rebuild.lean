import Sequentia.Supervision.Live

/-!
# Rebuilding the registry

A node that starts reads the declarations and records from the UTXO set in no particular
order. Freezes are counted; rotations are replayed as they fit. The replay completes, and
ends in the registry of the chain, unless a key was left in two directions.
-/

namespace Sequentia

open Std KeyedMap Replay SupervisionScript SupervisionRegistry ExtTreeMap Option
open scoped List

/-- Carry out a rotation record. -/
def rotateRecord (r : SupervisionRegistry) (record : SupervisionRecord) :
    Option SupervisionRegistry :=
  r.rotate record.asset record.operationalRole record.oldKey record.newKey

theorem rotatePass_eq (r : SupervisionRegistry) (records : List SupervisionRecord) :
    rotatePass r records = pass rotateRecord r records := by
  induction records generalizing r with
  | nil => rfl
  | cons record records ih =>
    rw [rotatePass, Replay.pass]
    unfold rotateRecord
    cases r.rotate record.asset record.operationalRole record.oldKey record.newKey with
    | some r' => exact ih r'
    | none =>
      dsimp only
      rw [ih]
      rfl

theorem rotateAll_eq (n : ℕ) (r : SupervisionRegistry) (records : List SupervisionRecord) :
    rotateAll n r records = passes rotateRecord n r records := by
  induction n generalizing r records with
  | zero => rfl
  | succ n ih =>
    rw [rotateAll, Replay.passes, rotatePass_eq]
    dsimp only
    rw [ih]

def recordKeys (a : CAsset) (role : Bool) (record : SupervisionRecord) :
    Option (XOnlyPubKey × XOnlyPubKey) :=
  if record.asset = a ∧ record.operationalRole = role then some (record.oldKey, record.newKey)
  else none

/-- The rotations left lead from one registry to another. -/
structure LeadsTo (goal r : SupervisionRegistry) (records : List SupervisionRecord) : Prop where
  /-- Terms and counters agree. -/
  frame : ∀ a : CAsset, r[a]?.map (fun e => (e.descriptor, e.frozen)) =
    goal[a]?.map fun e => (e.descriptor, e.frozen)
  keys : ∀ (a : CAsset) (e e' : SupervisionEntry), r[a]? = some e → goal[a]? = some e' →
    ∀ role, Leads (e.key role) (records.filterMap (recordKeys a role)) (e'.key role)
  /-- No key is left in two directions. -/
  forward : ∀ a role, Forward (records.filterMap (recordKeys a role))
  supervised : ∀ record ∈ records, record.asset ∈ r

section Replaying

variable {goal r r' : SupervisionRegistry} {records records' : List SupervisionRecord}
  {record : SupervisionRecord}

theorem LeadsTo.perm (hleads : LeadsTo goal r records) (hperm : records ~ records') :
    LeadsTo goal r records' where
  frame := hleads.frame
  keys a e e' he he' role := (hleads.keys a e e' he he' role).perm (hperm.filterMap _)
  forward a role := (hleads.forward a role).subset (hperm.filterMap _).symm.subset
  supervised record hrecord := hleads.supervised record (hperm.symm.subset hrecord)

theorem key_setKey (entry : SupervisionEntry) (role role' : Bool) (newKey : XOnlyPubKey) :
    (entry.setKey role newKey).key role' = if role = role' then newKey else entry.key role' := by
  cases role <;> cases role' <;> rfl

theorem frame_setKey (entry : SupervisionEntry) (role : Bool) (newKey : XOnlyPubKey) :
    (entry.setKey role newKey).descriptor = entry.descriptor ∧
      (entry.setKey role newKey).frozen = entry.frozen := by
  cases role <;> exact ⟨rfl, rfl⟩

/-- A rotation that fits brings the registry closer. -/
theorem LeadsTo.step (hleads : LeadsTo goal r (record :: records))
    (hrotate : rotateRecord r record = some r') : LeadsTo goal r' records := by
  obtain ⟨entry', hentry', rfl⟩ := map_eq_some_iff.mp hrotate
  obtain ⟨entry, hentry, hrotate⟩ := bind_eq_some_iff.mp hentry'
  obtain ⟨hkey, ⟨⟩⟩ := ite_none_right_eq_some.mp hrotate
  have hsub : ∀ a role, records.filterMap (recordKeys a role) ⊆
      (record :: records).filterMap (recordKeys a role) := fun a role =>
    ((List.sublist_cons_self _ _).filterMap _).subset
  refine ⟨?_, ?_, fun a role => (hleads.forward a role).subset (hsub a role), ?_⟩
  · intro a
    rw [← hleads.frame a, getElem?_insert_eq]
    split
    · next heq =>
      subst heq
      rw [hentry, map_some, map_some, (frame_setKey entry _ _).1,
        (frame_setKey entry _ _).2]
    · rfl
  · intro a e e' he he' role
    rw [getElem?_insert_eq] at he
    by_cases heq : record.asset = a
    · subst heq
      rw [if_pos rfl] at he
      obtain rfl := Option.some.inj he
      have hold := hleads.keys _ entry e' hentry he' role
      rw [key_setKey]
      by_cases hrole : record.operationalRole = role
      · subst hrole
        have hcons : (record :: records).filterMap
            (recordKeys record.asset record.operationalRole) = (record.oldKey, record.newKey) ::
              records.filterMap (recordKeys record.asset record.operationalRole) := by
          rw [List.filterMap_cons, recordKeys, if_pos ⟨rfl, rfl⟩]
        have hforward := hleads.forward record.asset record.operationalRole
        rw [hcons] at hold hforward
        rw [hkey] at hold
        rw [if_pos rfl]
        exact hold.tail hforward
      · rw [List.filterMap_cons, recordKeys, if_neg fun h => hrole h.2] at hold
        rw [if_neg hrole]
        exact hold
    · rw [if_neg heq] at he
      have hold := hleads.keys a e e' he he' role
      rw [List.filterMap_cons, recordKeys, if_neg fun h => heq h.1] at hold
      exact hold
  · intro record' hrecord'
    exact mem_insert.mpr
      (Or.inr (hleads.supervised record' (List.mem_cons_of_mem _ hrecord')))

/-- As long as rotations are left, one of them fits. -/
theorem LeadsTo.progress (hleads : LeadsTo goal r records) (hne : records ≠ []) :
    ∃ record ∈ records, (rotateRecord r record).isSome = true := by
  obtain ⟨record, hrecord⟩ := List.exists_mem_of_ne_nil records hne
  obtain ⟨entry, hentry⟩ := isSome_iff_exists.mp
    (mem_iff_isSome_getElem?.mp (hleads.supervised record hrecord))
  have hframe := hleads.frame record.asset
  rw [hentry, map_some] at hframe
  obtain ⟨entry', hentry', -⟩ := map_eq_some_iff.mp hframe.symm
  have hkeys := hleads.keys record.asset entry entry' hentry hentry' record.operationalRole
  have hmem : (record.oldKey, record.newKey) ∈
      records.filterMap (recordKeys record.asset record.operationalRole) :=
    List.mem_filterMap.mpr ⟨record, hrecord, if_pos ⟨rfl, rfl⟩⟩
  obtain ⟨newKey, hnext⟩ := hkeys.exists_mem (List.ne_nil_of_mem hmem)
  obtain ⟨next, hnextMem, hkeysNext⟩ := List.mem_filterMap.mp hnext
  obtain ⟨⟨hasset, hrole⟩, heq⟩ := ite_none_right_eq_some.mp hkeysNext
  refine ⟨next, hnextMem, ?_⟩
  have hold : entry.key next.operationalRole = next.oldKey := by
    rw [hrole, (Prod.mk.inj (Option.some.inj heq)).1]
  rw [rotateRecord, SupervisionRegistry.rotate, hasset, hentry, bind_some,
    SupervisionEntry.rotate, if_pos hold]
  rfl

/-- With no rotations left, the registry is reached. -/
theorem LeadsTo.eq (hleads : LeadsTo goal r []) : r = goal := by
  refine ext_getElem? fun a => ?_
  have hframe := hleads.frame a
  cases he : r[a]? with
  | none =>
    rw [he, map_none] at hframe
    exact (map_eq_none_iff.mp hframe.symm).symm
  | some e =>
    rw [he, map_some] at hframe
    obtain ⟨e', he', heq⟩ := map_eq_some_iff.mp hframe.symm
    rw [he']
    have hkeys := fun role => leads_nil_iff.mp (hleads.keys a e e' he he' role)
    obtain ⟨hdescriptor, hfrozen⟩ := Prod.mk.inj heq
    exact congrArg some
      (SupervisionEntry.ext hdescriptor.symm (hkeys true) (hkeys false) hfrozen.symm)

/-- The replay of rotations that lead to a registry reaches it. -/
theorem LeadsTo.rotateAll (hleads : LeadsTo goal r records) :
    rotateAll records.length r records = (goal, []) := by
  obtain ⟨hnil, hfinal⟩ := passes_complete (LeadsTo goal)
    (fun _ _ _ hperm hinv => hinv.perm hperm) (fun _ _ _ _ hinv hstep => hinv.step hstep)
    (fun _ _ hinv hne => hinv.progress hne) (Nat.le_refl records.length) hleads
  rw [rotateAll_eq]
  exact Prod.ext hfinal.eq hnil

end Replaying

section Reading

variable {params : Params} {cursor : List (COutPoint × Coin)}

theorem readScript_of_isSpent {coin : Coin} (hspent : coin.isSpent = true) :
    readScript coin.out.scriptPubKey = .other := by
  have hempty : coin.out.scriptPubKey = [] := by
    simp only [Coin.isSpent, CTxOut.isNull, Bool.and_eq_true, List.isEmpty_iff] at hspent
    exact hspent.2
  rw [hempty]
  rfl

theorem filterMap_liveScripts {β : Type*} (f : SupervisionScript → Option β)
    (hother : f .other = none) :
    (liveScripts params cursor).filterMap (fun script => f (readScript script)) =
      (liveOf params cursor).filterMap f := by
  unfold liveScripts liveOf
  induction cursor with
  | nil => rfl
  | cons e cursor ih =>
    rw [List.flatMap_cons, List.filterMap_append, ← ih, List.filter_cons]
    rw [filterMap_liveScript f hother]
    by_cases hactive : params.supervisionActive e.2.nHeight = true
    · by_cases hspent : e.2.isSpent = true
      · simp [hactive, hspent, readScript_of_isSpent hspent, hother]
      · cases hf : f (readScript e.2.out.scriptPubKey) <;> simp [hactive, hspent, hf]
    · simp [hactive]

def SupervisionScript.declaration? : SupervisionScript → Option SupervisionDeclaration
  | .declaration decl => some decl
  | _ => none

theorem parseSupervisionScript_eq (script : CScript) :
    parseSupervisionScript script = (readScript script).declaration? := by
  fun_cases readScript script <;> simp [SupervisionScript.declaration?, *]

variable {live : List SupervisionScript} {decl : SupervisionDeclaration}
  {decls : List SupervisionDeclaration}

theorem mem_filterMap_declaration :
    decl ∈ live.filterMap declaration? ↔ .declaration decl ∈ live := by
  rw [List.mem_filterMap]
  constructor
  · rintro ⟨s, hs, heq⟩
    cases s with
    | declaration decl' => cases heq; exact hs
    | _ => cases heq
  · exact fun hmem => ⟨_, hmem, rfl⟩

theorem map_asset_declarations (live : List SupervisionScript) :
    (live.filterMap declaration?).map SupervisionDeclaration.asset =
      live.filterMap declares := by
  rw [List.map_filterMap]
  refine List.filterMap_congr fun s _ => ?_
  cases s <;> rfl

theorem foldl_addAsset_eq (decls : List SupervisionDeclaration) (r : SupervisionRegistry) :
    decls.foldl addAsset r =
      ((decls.map declaration).filterMap create).foldl
        act r := by
  induction decls generalizing r with
  | nil => rfl
  | cons decl decls ih => exact ih (r.addAsset decl)

theorem getElem?_foldl_addAsset (hnodup : (decls.map SupervisionDeclaration.asset).Nodup)
    (hmem : decl ∈ decls) :
    (decls.foldl addAsset ∅)[decl.asset]? = some decl.entry := by
  have hdeclares : (decls.map declaration).filterMap
      declares = decls.map SupervisionDeclaration.asset := by
    rw [List.filterMap_map]
    exact congrFun List.filterMap_eq_map' decls
  rw [foldl_addAsset_eq]
  refine getElem?_create_declared (hdeclares ▸ hnodup) (List.mem_map_of_mem hmem) (by simp) ?_ ?_
  · intro s hs
    obtain ⟨decl', -, rfl⟩ := List.mem_map.mp hs
    rfl
  · intro s hs role
    obtain ⟨decl', -, rfl⟩ := List.mem_map.mp hs
    rfl

theorem getElem?_foldl_addAsset_none {a : CAsset}
    (hnone : a ∉ decls.map SupervisionDeclaration.asset) (r : SupervisionRegistry) :
    (decls.foldl addAsset r)[a]? = r[a]? := by
  induction decls generalizing r with
  | nil => rfl
  | cons decl decls ih =>
    rw [List.map_cons, List.mem_cons, not_or] at hnone
    rw [List.foldl_cons, ih hnone.2]
    exact (getElem?_insert_eq _ _ _ _).trans (if_neg (Ne.symm hnone.1))

def recordTarget (a : CAsset) (record : SupervisionRecord) : Option Uint256 :=
  if record.asset = a then some record.target else none

theorem getElem?_foldl_addFreeze (records : List SupervisionRecord) (r : SupervisionRegistry)
    (a : CAsset) :
    (records.foldl (fun r record => r.addFreeze record.asset record.target) r)[a]? =
      r[a]?.map fun e => { e with frozen :=
        (records.filterMap (recordTarget a)).foldl (fun m t => addAt m t 1) e.frozen } := by
  induction records generalizing r with
  | nil => cases h : r[a]? <;> simp [h]
  | cons record records ih =>
    rw [List.foldl_cons, ih, SupervisionRegistry.addFreeze, getElem?_modify_eq,
      List.filterMap_cons, recordTarget]
    by_cases heq : record.asset = a
    · rw [if_pos heq, if_pos heq, Option.map_map]
      rfl
    · rw [if_neg heq, if_neg heq]

theorem records_eq (scripts : List CScript) :
    (scripts.filter fun script => (parseSupervisionScript script).isNone).filterMap
      parseSupervisionRecordScript = scripts.filterMap parseSupervisionRecordScript := by
  rw [List.filterMap_filter]
  refine List.filterMap_congr fun script _ => ?_
  cases hdecl : parseSupervisionScript script with
  | none => rfl
  | some decl => rw [parseSupervisionRecordScript_of_declaration hdecl]; rfl

theorem filterMap_recordTarget (params : Params) (cursor : List (COutPoint × Coin)) (a : CAsset) :
    (((liveScripts params cursor).filterMap parseSupervisionRecordScript).filter
      fun record => !record.isRotation).filterMap (recordTarget a) =
      (liveOf params cursor).filterMap (freezes a) := by
  rw [← filterMap_liveScripts _ rfl, List.filterMap_filter, List.filterMap_filterMap]
  refine List.filterMap_congr fun script _ => ?_
  cases hrecord : parseSupervisionRecordScript script with
  | some record =>
    rw [readScript_of_record hrecord]
    by_cases hrotation : record.isRotation = true
    · simp [hrotation, freezes]
    · simp [hrotation, freezes, recordTarget]
  | none =>
    rw [readScript, hrecord]
    cases parseSupervisionScript script <;> rfl

theorem filterMap_recordKeys (params : Params) (cursor : List (COutPoint × Coin)) (a : CAsset)
    (role : Bool) :
    (((liveScripts params cursor).filterMap parseSupervisionRecordScript).filter
      SupervisionRecord.isRotation).filterMap (recordKeys a role) =
      (liveOf params cursor).filterMap (rotates a role) := by
  rw [← filterMap_liveScripts _ rfl, List.filterMap_filter, List.filterMap_filterMap]
  refine List.filterMap_congr fun script _ => ?_
  cases hrecord : parseSupervisionRecordScript script with
  | some record =>
    rw [readScript_of_record hrecord]
    by_cases hrotation : record.isRotation = true
    · simp [hrotation, rotates, recordKeys]
    · simp [hrotation, rotates]
  | none =>
    rw [readScript, hrecord]
    cases parseSupervisionScript script <;> rfl

/-- A registry before its rotations: the entries are as declared, with the freezes counted. -/
def BeforeRotations (r before : SupervisionRegistry) (live : List SupervisionScript)
    (a : CAsset) : Prop :=
  (r[a]? = none ∧ before[a]? = none) ∨
    ∃ (decl : SupervisionDeclaration) (entry : SupervisionEntry), decl.asset = a ∧
      r[a]? = some entry ∧ Tracks decl entry live ∧
      before[a]? = some { decl.entry with frozen := entry.frozen }

theorem beforeRotations_of_toldBy {r : SupervisionRegistry} (htold : ToldBy r live)
    {freezing : List SupervisionRecord} (hfreezes : ∀ a, freezing.filterMap (recordTarget a) =
      live.filterMap (freezes a)) (a : CAsset) :
    BeforeRotations r (freezing.foldl (fun r record => r.addFreeze record.asset record.target)
      ((live.filterMap declaration?).foldl addAsset ∅))
      live a := by
  unfold BeforeRotations
  rw [getElem?_foldl_addFreeze, hfreezes]
  cases hentry : r[a]? with
  | none =>
    left
    have hnot : a ∉ live.filterMap declares := by
      rw [← htold.mem_iff, mem_iff_isSome_getElem?, hentry]
      simp
    rw [← map_asset_declarations] at hnot
    rw [getElem?_foldl_addAsset_none hnot]
    simp
  | some entry =>
    right
    have hmem : a ∈ live.filterMap declares := by
      rw [← htold.mem_iff, mem_iff_isSome_getElem?, hentry]
      rfl
    rw [← map_asset_declarations] at hmem
    obtain ⟨decl, hdecl, rfl⟩ := List.mem_map.mp hmem
    have htracks := htold.entry decl entry (mem_filterMap_declaration.mp hdecl) hentry
    refine ⟨decl, entry, rfl, rfl, htracks, ?_⟩
    rw [getElem?_foldl_addAsset (map_asset_declarations _ ▸ htold.nodup) hdecl, map_some]
    have hcounts := counts_empty.foldl_addAt
      (live.filterMap (freezes decl.asset))
    have hsame := (hcounts.eq_iff htracks.frozen).mpr (by simp [freezeCount, funext_iff])
    exact congrArg (fun m => some { decl.entry with frozen := m }) hsame

theorem leadsTo_of_toldBy {r before : SupervisionRegistry} (htold : ToldBy r live)
    (hbefore : ∀ a, BeforeRotations r before live a)
    (hforward : ∀ a role, Forward (live.filterMap (rotates a role)))
    {rotations : List SupervisionRecord}
    (hrotations : ∀ a role, rotations.filterMap (recordKeys a role) =
      live.filterMap (rotates a role)) : LeadsTo r before rotations where
  frame a := by
    rcases hbefore a with ⟨hnone, hnone'⟩ | ⟨decl, entry, -, hentry, htracks, hentry'⟩
    · rw [hnone, hnone']
    · rw [hentry, hentry', map_some, map_some, htracks.descriptor]
      rfl
  keys a e e' he he' role := by
    rcases hbefore a with ⟨hnone, -⟩ | ⟨decl, entry, hasset, hentry, htracks, hentry'⟩
    · rw [hnone] at he'
      cases he'
    · rw [hentry] at he'
      rw [hentry'] at he
      cases he
      cases he'
      subst hasset
      rw [hrotations]
      cases role
      · exact htracks.keys false
      · exact htracks.keys true
  forward a role := by
    rw [hrotations]
    exact hforward a role
  supervised record hrecord := by
    have hmem : (record.oldKey, record.newKey) ∈
        live.filterMap (rotates record.asset record.operationalRole) := by
      rw [← hrotations]
      exact List.mem_filterMap.mpr ⟨record, hrecord, if_pos ⟨rfl, rfl⟩⟩
    obtain ⟨s, hs, hrotates⟩ := List.mem_filterMap.mp hmem
    rcases hbefore record.asset with ⟨hnone, -⟩ | ⟨decl, entry, -, -, -, hentry'⟩
    · have hnot : record.asset ∉ r := by
        rw [mem_iff_isSome_getElem?, hnone]
        simp
      rw [(htold.silent _ hnot s hs).2] at hrotates
      cases hrotates
    · rw [mem_iff_isSome_getElem?, hentry']
      rfl

/-- Coins that tell a registry, and leave no key in two directions, rebuild it. -/
theorem rebuild_of_toldBy {r : SupervisionRegistry} (htold : ToldBy r (liveOf params cursor))
    (hforward : ∀ a role, Forward ((liveOf params cursor).filterMap
      (rotates a role))) :
    rebuildSupervisionRegistry params cursor = some r := by
  have hdecls : (liveScripts params cursor).filterMap parseSupervisionScript =
      (liveOf params cursor).filterMap declaration? := by
    rw [← filterMap_liveScripts _ rfl, funext parseSupervisionScript_eq]
  have hbefore := beforeRotations_of_toldBy htold (filterMap_recordTarget params cursor)
  have hleads := leadsTo_of_toldBy htold hbefore hforward (filterMap_recordKeys params cursor)
  unfold rebuildSupervisionRegistry
  dsimp only
  rw [records_eq, hdecls, hleads.rotateAll, if_pos rfl]

end Reading

end Sequentia
