import Blackboard.Spec.Base
import Blackboard.Lib.Json

/-! Authentication and role checks: a caller presents a token, and its tenant and roles come from
nothing else. `jwt` is what the library makes of a token, with the algorithm, the audience and the
issuer that `decode_token` names: the claims of one that is signed and in time, and no others. -/

namespace Blackboard.Security

inductive Role
  | viewer | responder | approver | admin | ingest
deriving DecidableEq

def Role.name : Role → String
  | .viewer => "viewer"
  | .responder => "responder"
  | .approver => "approver"
  | .admin => "admin"
  | .ingest => "ingest"

/-- `ROLE_RANK`; the service roles have no rank. -/
def Role.rank : Role → Option ℕ
  | .viewer => some 1
  | .responder => some 2
  | .approver => some 3
  | .admin => some 4
  | .ingest => none

def ALL_ROLES : List Role := [.viewer, .responder, .approver, .admin, .ingest]

/-- The claims of a token; the library requires `sub`, and that it is a string. -/
structure Claims where
  sub : String
  tenant : Option Json
  roles : Option Json

structure Principal where
  subject : String
  tenantId : String
  roles : List Role
deriving DecidableEq

def Principal.has (p : Principal) (role : Role) : Bool :=
  match role.rank with
  | none => p.roles.contains role
  | some needed => p.roles.any fun r => needed ≤ r.rank.getD 0

/-- `frozenset(roles) & ALL_ROLES` -/
def rolesOf (names : List String) : List Role := ALL_ROLES.filter fun r => names.contains r.name

/-- A list of strings, and nothing else. -/
def strings? : Json → Option (List String)
  | .arr xs => xs.mapM Json.asStr?
  | _ => none

variable (jwt : String → Except String Claims)

def decodeToken (token : String) : Except String Principal := do
  let claims ← jwt token
  match claims.tenant with
  | some (.str tenant) =>
    if tenant = "" then throw "token has no tenant"
    match claims.roles.bind strings? with
    | some names => return { subject := claims.sub, tenantId := tenant, roles := rolesOf names }
    | none => throw "token has no valid roles claim"
  | _ => throw "token has no tenant"

def authenticate : Option String → Except Err Principal
  | none => throw (.http 401 "missing bearer token")
  | some token =>
    match decodeToken jwt token with
    | .ok principal => return principal
    | .error _ => throw (.http 401 "invalid token")

def require (role : Role) (credentials : Option String) : Except Err Principal := do
  let principal ← authenticate jwt credentials
  if !principal.has role then throw (.http 403 ("requires role " ++ role.name))
  return principal

end Blackboard.Security
