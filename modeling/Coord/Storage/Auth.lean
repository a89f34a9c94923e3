import Coord.Storage.Kv

/-!
# Users, roles, sessions and tokens

Every operation leaves an empty changelog entry at its log index, by which a replay is noticed.  All of them depend
on the entry and the store alone, except that the record of a revoked token takes the wall clock of the node that
applies the entry.
-/

namespace Coord.Storage

inductive AuthOp where
  | userAdd (name hash : Text) (roles : List Text)
  | userDelete (name : Text)
  | userSetPassword (name hash : Text)
  | userGrantRole (name role : Text)
  | userRevokeRole (name role : Text)
  | roleAdd (role : Text)
  | roleDelete (role : Text)
  | roleGrantPermission (role : Text) (permType : ℕ) (key rangeEnd : Bytes)
  | roleRevokePermission (role : Text) (key rangeEnd : Bytes)
  | revokeJti (jti : Text)
  | issueSession (hashHex username : Text) (expiresAtUnix : ℕ) (isRefresh : Bool)
  | consumeSession (hashHex : Text)
  | roleGrantCapability (role capabilityId scope : Text)
  | roleRevokeCapability (role capabilityId scope : Text)
  | issueBootstrapToken (id hashHex label createdBy : Text) (createdAtUnix expiresAtUnix : ℕ)
  | consumeBootstrapToken (id : Text) (consumedAtUnix : ℕ)
  | revokeBootstrapToken (id : Text)
  | consumeSessions (hashHexes : List Text)
  deriving DecidableEq

namespace AuthRows

def updateUser (a : AuthRows) (name : Text) (f : AuthUserRecord → AuthUserRecord) : AuthRows :=
  match a.users.get name with
  | some rec => { a with users := a.users.insert name (f rec) }
  | none => a

/-- Rewrite the record of a role that exists, unless `f` keeps it. -/
def updateRole (a : AuthRows) (role : Text) (f : AuthRoleRecord → Option AuthRoleRecord) : AuthRows :=
  match (a.roles.get role).bind f with
  | some rec => { a with roles := a.roles.insert role rec }
  | none => a

/-- The users without `role`. -/
def dropRole (a : AuthRows) (role : Text) : AuthRows :=
  { a with users := a.users.mapVal fun rec => { rec with roles := rec.roles.filter fun r => decide (r ≠ role) } }

/-- The rows after an operation; `nowMs` is the wall clock of the node. -/
def write (nowMs : ℤ) (a : AuthRows) : AuthOp → AuthRows
  | .userAdd name hash roles => { a with users := a.users.insert name ⟨name, hash, roles⟩ }
  | .userDelete name => { a with users := a.users.erase name }
  | .userSetPassword name hash => a.updateUser name fun rec => { rec with passwordHash := hash }
  | .userGrantRole name role =>
    a.updateUser name fun rec => { rec with roles := if role ∈ rec.roles then rec.roles else rec.roles ++ [role] }
  | .userRevokeRole name role =>
    a.updateUser name fun rec => { rec with roles := rec.roles.filter fun r => decide (r ≠ role) }
  | .roleAdd role =>
    if a.roles.has role then a else { a with roles := a.roles.insert role ⟨role, [], [], false⟩ }
  | .roleDelete role => { a with roles := a.roles.erase role }.dropRole role
  | .roleGrantPermission role permType key rangeEnd =>
    a.updateRole role fun rec =>
      if ⟨permType, key, rangeEnd⟩ ∈ rec.permissions then none
      else some { rec with permissions := rec.permissions ++ [⟨permType, key, rangeEnd⟩] }
  | .roleRevokePermission role key rangeEnd =>
    a.updateRole role fun rec =>
      let kept := rec.permissions.filter fun p => !decide (p.keyPrefix = key ∧ p.rangeEnd = rangeEnd)
      some { rec with permissions := kept }
  | .revokeJti jti =>
    if a.revoked.has jti then a else { a with revoked := a.revoked.insert jti ⟨jti, nowMs.tdiv 1000⟩ }
  | .issueSession hashHex username expiresAtUnix isRefresh =>
    { a with sessions := a.sessions.insert hashHex ⟨username, expiresAtUnix, isRefresh⟩ }
  | .consumeSession hashHex => { a with sessions := a.sessions.erase hashHex }
  | .consumeSessions hashHexes => { a with sessions := hashHexes.foldl (fun t h => t.erase h) a.sessions }
  | .roleGrantCapability role capabilityId scope =>
    a.updateRole role fun rec =>
      if ⟨capabilityId, scope⟩ ∈ rec.capabilityGrants then none
      else some { rec with capabilityGrants := rec.capabilityGrants ++ [⟨capabilityId, scope⟩] }
  | .roleRevokeCapability role capabilityId scope =>
    a.updateRole role fun rec =>
      let kept := rec.capabilityGrants.filter fun g => !decide (g.capabilityId = capabilityId ∧ g.scope = scope)
      some { rec with capabilityGrants := kept }
  | .issueBootstrapToken id hashHex label createdBy createdAtUnix expiresAtUnix =>
    if a.bootstrap.has id then a
    else
      let token : AuthBootstrapTokenRecord :=
        ⟨id, hashHex, label, createdBy, createdAtUnix, expiresAtUnix, none⟩
      { a with bootstrap := a.bootstrap.insert id token }
  | .consumeBootstrapToken id consumedAtUnix =>
    match (a.bootstrap.get id).filter fun rec => rec.consumedAtUnix.isNone with
    | some rec => { a with bootstrap := a.bootstrap.insert id { rec with consumedAtUnix := some consumedAtUnix } }
    | none => a
  | .revokeBootstrapToken id => { a with bootstrap := a.bootstrap.erase id }

end AuthRows

namespace Store

def applyAuthOp (mode : RevisionMode) (nowMs : ℤ) (s : Store) (op : AuthOp) (revision : ℕ)
    (applied : AppliedLogId) : Store × ApplyOutcome :=
  if s.changelog.has revision then (s, ⟨true⟩)
  else
    let s := s.noteLogIndexRevision mode revision
    ({ s with auth := s.auth.write nowMs op }.writeChangelog ⟨revision, [], .put⟩ applied, ⟨false⟩)

end Store

end Coord.Storage
