import Coord.Auth.Scope

/-!
# Roles and their capabilities

The server's own check of a capability, for one key and for an interval of keys: grants with a scope, and the older
permissions on key prefixes and ranges.

* `Permission`, `Role`, `checkCapability`, `checkCapabilityRange` — the two checks;
* `Permission.SpansPrefix` — a permission with a range end whose range has only keys with its prefix;
* `checkCapability_of_range_iff` — for which permissions an admitted interval is admitted key by key.
-/

namespace Coord.Auth

open List

/-! ### The checks -/

inductive PermissionType where
  | read
  | write
  | readWrite
  deriving DecidableEq

/-- A permission on the keys of a prefix, with a range end on those below it. -/
structure Permission where
  permType : PermissionType
  keyPrefix : Bytes
  rangeEnd : Bytes
  deriving DecidableEq

namespace Permission

def keyMatches (p : Permission) (key : Bytes) : Bool :=
  if ¬ p.keyPrefix <+: key then false
  else if p.rangeEnd = [] then true
  else decide (p.keyPrefix ≤ key) && decide (key < p.rangeEnd)

def allowsRead (p : Permission) (key : Bytes) : Bool :=
  if p.permType = .write then false else p.keyMatches key

def allowsWrite (p : Permission) (key : Bytes) : Bool :=
  if p.permType = .read then false else p.keyMatches key

/-- The whole of `[key, rangeEnd)` is in the permission's range. -/
def rangeMatches (p : Permission) (key rangeEnd : Bytes) : Bool :=
  if rangeEnd = [] then p.keyMatches key
  else if p.keyPrefix = [] ∧ p.rangeEnd = [] then true
  else if rangeEnd = unboundedRangeEnd then false
  else if key < p.keyPrefix then false
  else
    match (if p.rangeEnd = [] then prefixSuccessor p.keyPrefix else some p.rangeEnd) with
    | none => false
    | some upper => decide (rangeEnd ≤ upper)

def allowsReadRange (p : Permission) (key rangeEnd : Bytes) : Bool :=
  if p.permType = .write then false else p.rangeMatches key rangeEnd

def allowsWriteRange (p : Permission) (key rangeEnd : Bytes) : Bool :=
  if p.permType = .read then false else p.rangeMatches key rangeEnd

end Permission

/-- A capability on the keys of a scope; the empty scope is every key. -/
structure CapabilityGrant where
  capabilityId : String
  scope : Bytes
  deriving DecidableEq

structure Role where
  permissions : List Permission
  capabilityGrants : List CapabilityGrant
  deriving DecidableEq

def isRoot (roles : List String) : Bool := roles.any fun r => r == "root"

/-- The older permissions as data capabilities, for one key. -/
def Role.legacyOk (role : Role) (capabilityId : String) (key : Bytes) : Bool :=
  match capabilityId with
  | "data:kv:read" => role.permissions.any fun p => p.allowsRead key
  | "data:kv:write" | "data:kv:delete" => role.permissions.any fun p => p.allowsWrite key
  | "data:txn:execute" => role.permissions.any fun p => p.allowsWrite key
  | _ => false

/-- The older permissions as data capabilities, for an interval. -/
def Role.legacyRangeOk (role : Role) (capabilityId : String) (key rangeEnd : Bytes) : Bool :=
  match capabilityId with
  | "data:kv:read" => role.permissions.any fun p => p.allowsReadRange key rangeEnd
  | "data:kv:write" | "data:kv:delete" | "data:txn:execute" =>
    role.permissions.any fun p => p.allowsWriteRange key rangeEnd
  | _ => false

abbrev Roles := String → Option Role

def checkCapability (table : Roles) (roles : List String) (capabilityId : String) (scopeKey : Option Bytes) : Bool :=
  isRoot roles || roles.any fun name =>
    match table name with
    | none => false
    | some role =>
      (role.capabilityGrants.any fun g => g.capabilityId == capabilityId &&
        (g.scope.isEmpty || scopeKey.any fun key => scopeMatches g.scope key)) ||
      role.legacyOk capabilityId (scopeKey.getD [])

def checkCapabilityRange (table : Roles) (roles : List String) (capabilityId : String) (key rangeEnd : Bytes) : Bool :=
  isRoot roles || roles.any fun name =>
    match table name with
    | none => false
    | some role =>
      (role.capabilityGrants.any fun g => g.capabilityId == capabilityId &&
        (g.scope.isEmpty || scopeCoversInterval g.scope key rangeEnd)) ||
      role.legacyRangeOk capabilityId key rangeEnd

/-! ### Permissions -/

/-- Every UTF-8 key from the prefix to below the range end starts with the prefix. -/
def Permission.SpansPrefix (p : Permission) : Prop :=
  p.rangeEnd = [] ∨ ∀ key, isUtf8 key = true → p.keyPrefix ≤ key → key < p.rangeEnd → p.keyPrefix <+: key

variable {p : Permission} {key lo hi : Bytes}

lemma Permission.keyMatches_iff :
    p.keyMatches key = true ↔ p.keyPrefix <+: key ∧ (p.rangeEnd = [] ∨ p.keyPrefix ≤ key ∧ key < p.rangeEnd) := by
  unfold keyMatches
  by_cases hp : p.keyPrefix <+: key <;> by_cases hr : p.rangeEnd = [] <;> simp [hp, hr]

/-- An interval that a permission covers, whose range has its prefix, is covered key by key. -/
lemma Permission.keyMatches_of_range (hp : p.SpansPrefix) (h : p.rangeMatches lo hi = true)
    (hkey : (⟨lo, hi⟩ : ScopeAccess).Contains key) (hutf : isUtf8 key = true) : p.keyMatches key = true := by
  unfold rangeMatches at h
  unfold ScopeAccess.Contains at hkey
  by_cases hhi : hi = []
  · simp only [hhi, if_true] at h hkey
    rwa [hkey]
  simp only [hhi, if_false] at h hkey
  rw [keyMatches_iff]
  split at h
  · next hall => simp [hall.1, hall.2]
  split at h
  · simp at h
  next hbound =>
  have hlt := hkey.2.resolve_left hbound
  split at h
  · simp at h
  next hlo =>
  have hle : p.keyPrefix ≤ key := (not_lt.1 hlo).trans hkey.1
  by_cases hr : p.rangeEnd = []
  · -- without a range end the interval is below the successor of the prefix
    simp only [hr, if_true] at h
    split at h
    · simp at h
    · next upper hupper =>
      rw [decide_eq_true_iff] at h
      exact ⟨(isPrefix_iff_of_successor hupper key).2 ⟨hle, hlt.trans_le h⟩, .inl hr⟩
  · simp only [hr, if_false, decide_eq_true_iff] at h
    have hlt' : key < p.rangeEnd := hlt.trans_le h
    exact ⟨hp.resolve_left hr key hutf hle hlt', .inr ⟨hle, hlt'⟩⟩

lemma Role.legacyOk_of_range {role : Role} {cap : String} (hp : ∀ p ∈ role.permissions, p.SpansPrefix)
    (h : role.legacyRangeOk cap lo hi = true) (hkey : (⟨lo, hi⟩ : ScopeAccess).Contains key)
    (hutf : isUtf8 key = true) : role.legacyOk cap key = true := by
  have hread : ∀ p ∈ role.permissions, p.allowsReadRange lo hi = true → p.allowsRead key = true := by
    intro p hmem ha
    unfold Permission.allowsReadRange at ha
    unfold Permission.allowsRead
    split at ha
    · simp at ha
    · next ht => rw [if_neg ht]; exact Permission.keyMatches_of_range (hp p hmem) ha hkey hutf
  have hwrite : ∀ p ∈ role.permissions, p.allowsWriteRange lo hi = true → p.allowsWrite key = true := by
    intro p hmem ha
    unfold Permission.allowsWriteRange at ha
    unfold Permission.allowsWrite
    split at ha
    · simp at ha
    · next ht => rw [if_neg ht]; exact Permission.keyMatches_of_range (hp p hmem) ha hkey hutf
  have hr : (role.permissions.any fun p => p.allowsReadRange lo hi) = true →
      (role.permissions.any fun p => p.allowsRead key) = true := by
    intro h
    obtain ⟨p, hmem, ha⟩ := any_eq_true.1 h
    exact any_eq_true.2 ⟨p, hmem, hread p hmem ha⟩
  have hw : (role.permissions.any fun p => p.allowsWriteRange lo hi) = true →
      (role.permissions.any fun p => p.allowsWrite key) = true := by
    intro h
    obtain ⟨p, hmem, ha⟩ := any_eq_true.1 h
    exact any_eq_true.2 ⟨p, hmem, hwrite p hmem ha⟩
  unfold legacyRangeOk at h
  split at h
  · exact hr h
  · exact hw h
  · exact hw h
  · exact hw h
  · simp at h

/-! ### Grants and tables -/

lemma scopeMatches_of_covers_contains {scope : Bytes} (h : scopeCoversInterval scope lo hi = true)
    (hkey : (⟨lo, hi⟩ : ScopeAccess).Contains key) (hutf : isUtf8 key = true) : scopeMatches scope key = true := by
  unfold ScopeAccess.Contains at hkey
  by_cases hhi : hi = []
  · simp only [hhi, if_true] at hkey
    subst hkey
    unfold scopeCoversInterval at h
    split at h
    · next hall => exact scopeMatches_of_match_all hall key
    · simpa [hhi, hutf] using h
  · simp only [hhi, if_false] at hkey
    exact scopeMatches_of_covers hhi h hkey.1 hkey.2

/-- The interval check implies the check of each key, when the older permissions are on ranges of their prefixes. -/
lemma checkCapability_of_range {table : Roles} {roles : List String} {cap : String}
    (htable : ∀ name role, table name = some role → ∀ p ∈ role.permissions, p.SpansPrefix)
    (h : checkCapabilityRange table roles cap lo hi = true) (hkey : (⟨lo, hi⟩ : ScopeAccess).Contains key)
    (hutf : isUtf8 key = true) : checkCapability table roles cap (some key) = true := by
  unfold checkCapabilityRange at h
  unfold checkCapability
  rw [Bool.or_eq_true] at h ⊢
  refine h.imp_right fun hany => ?_
  obtain ⟨name, hname, hrole⟩ := any_eq_true.1 hany
  refine any_eq_true.2 ⟨name, hname, ?_⟩
  cases ht : table name with
  | none => simp [ht] at hrole
  | some role =>
    simp only [ht, Bool.or_eq_true] at hrole ⊢
    refine hrole.imp (fun hg => ?_) fun hl => Role.legacyOk_of_range (htable name role ht) hl hkey hutf
    obtain ⟨g, hmem, hadm⟩ := any_eq_true.1 hg
    refine any_eq_true.2 ⟨g, hmem, ?_⟩
    rw [Bool.and_eq_true, Bool.or_eq_true] at hadm ⊢
    exact ⟨hadm.1, hadm.2.imp_right fun hc => scopeMatches_of_covers_contains hc hkey hutf⟩

def Permission.capability (p : Permission) : String :=
  if p.permType = .write then "data:kv:write" else "data:kv:read"

/-- A table with one role, which has one permission. -/
def singleRole (p : Permission) : Roles := fun name => if name = "app" then some ⟨[p], []⟩ else none

lemma checkCapability_singleRole (p : Permission) (key : Bytes) :
    checkCapability (singleRole p) ["app"] p.capability (some key) = p.keyMatches key := by
  cases ht : p.permType <;>
    simp [checkCapability, singleRole, isRoot, Role.legacyOk, Permission.capability, Permission.allowsRead,
      Permission.allowsWrite, ht]

lemma checkCapabilityRange_singleRole (p : Permission) (lo hi : Bytes) :
    checkCapabilityRange (singleRole p) ["app"] p.capability lo hi = p.rangeMatches lo hi := by
  cases ht : p.permType <;>
    simp [checkCapabilityRange, singleRole, isRoot, Role.legacyRangeOk, Permission.capability,
      Permission.allowsReadRange, Permission.allowsWriteRange, ht]

/-- A permission whose range has a key without its prefix covers the interval from that key on. -/
lemma Permission.rangeMatches_of_outside (hr : p.rangeEnd ≠ []) (hle : p.keyPrefix ≤ key) (hlt : key < p.rangeEnd)
    (hpre : ¬ p.keyPrefix <+: key) : p.rangeMatches key p.rangeEnd = true := by
  have hbound : p.rangeEnd ≠ unboundedRangeEnd := by
    intro h
    rw [h, unboundedRangeEnd] at hlt
    -- only the empty key is below "\0", and then the prefix is empty too
    cases key with
    | nil =>
      have hnil : p.keyPrefix = [] := le_antisymm hle (not_lt.1 (not_lt_nil _))
      exact hpre (hnil ▸ nil_prefix)
    | cons b k =>
      rcases cons_lt_cons_iff.1 hlt with hb | ⟨-, hk⟩
      · exact absurd hb (Fin.not_lt_zero b)
      · exact absurd hk (not_lt_nil k)
  simp [rangeMatches, hr, hbound, not_lt.2 hle]

/-- **The interval check against the check of each key**: for the tables with permissions of a kind `S`, an admitted
interval is admitted key by key if and only if each permission of the kind is on a range of its prefix. -/
theorem checkCapability_of_range_iff (S : Permission → Prop) :
    (∀ (table : Roles) (roles : List String) (cap : String) (lo hi key : Bytes),
      (∀ name role, table name = some role → ∀ p ∈ role.permissions, S p) →
      checkCapabilityRange table roles cap lo hi = true → (⟨lo, hi⟩ : ScopeAccess).Contains key →
        isUtf8 key = true → checkCapability table roles cap (some key) = true) ↔
      ∀ p, S p → p.SpansPrefix := by
  constructor
  · intro h p hp
    by_contra hspan
    unfold Permission.SpansPrefix at hspan
    push Not at hspan
    obtain ⟨hr, key, hutf, hle, hlt, hpre⟩ := hspan
    have htable : ∀ name role, singleRole p name = some role → ∀ q ∈ role.permissions, S q := by
      intro name role hrole q hq
      unfold singleRole at hrole
      split at hrole
      · cases hrole
        rwa [mem_singleton.1 hq]
      · simp at hrole
    have hadm := h (singleRole p) ["app"] p.capability key p.rangeEnd key htable
      (by rw [checkCapabilityRange_singleRole]; exact Permission.rangeMatches_of_outside hr hle hlt hpre)
      (by simp [ScopeAccess.Contains, hr, hlt]) hutf
    rw [checkCapability_singleRole, Permission.keyMatches_iff] at hadm
    exact hpre hadm.1
  · intro h table roles cap lo hi key htable hrange hkey hutf
    exact checkCapability_of_range (fun name role hr p hp => h p (htable name role hr p hp)) hrange hkey hutf

/-- Permissions without a range end: the prefix permission on `/app` covers the interval of `/app/`. -/
theorem checkCapability_of_range_at_prefix :
    checkCapabilityRange (singleRole ⟨.read, ascii "/app", []⟩) ["app"] "data:kv:read" (ascii "/app/") (ascii "/app0") =
        true ∧
      checkCapability (singleRole ⟨.read, ascii "/app", []⟩) ["app"] "data:kv:read" (some (ascii "/app/x")) = true := by
  have hrange : checkCapabilityRange (singleRole ⟨.read, ascii "/app", []⟩) ["app"] "data:kv:read" (ascii "/app/")
      (ascii "/app0") = true := by decide +kernel
  refine ⟨hrange, (checkCapability_of_range_iff fun p => p.rangeEnd = []).2 (fun p hp => .inl hp) _ _ _ _ _ _ ?_ hrange
    (by decide +kernel) (by decide +kernel)⟩
  intro name role hrole p hp
  unfold singleRole at hrole
  split at hrole
  · cases hrole
    rw [mem_singleton.1 hp]
  · simp at hrole

/-- The permission to read from `/app` to below `/b` admits the interval from `/ax` to `/b` and not the key `/ax`. -/
theorem range_admitted_key_refused :
    checkCapabilityRange (singleRole ⟨.read, ascii "/app", ascii "/b"⟩) ["app"] "data:kv:read" (ascii "/ax")
        (ascii "/b") = true ∧
      (⟨ascii "/ax", ascii "/b"⟩ : ScopeAccess).Contains (ascii "/ax") ∧ isUtf8 (ascii "/ax") = true ∧
      checkCapability (singleRole ⟨.read, ascii "/app", ascii "/b"⟩) ["app"] "data:kv:read" (some (ascii "/ax")) =
        false := by
  decide +kernel

end Coord.Auth
