import Mathlib.Data.Prod.Lex
import Mathlib.Order.Lattice.Nat
import MonadBft.Types

/-! # Messages of state sync

The request and response types of `monad-executor-glue` that a syncing node and its
servers exchange. Versions and requests are ordered field by field, as `derive(Ord)`
does.
-/

namespace MonadBft

structure StateSyncVersion where
  major : Nat
  minor : Nat
deriving DecidableEq, Repr

namespace StateSyncVersion

instance : LinearOrder StateSyncVersion :=
  LinearOrder.lift' (fun v => toLex (v.major, v.minor)) fun v w same => by
    obtain ⟨major, minor⟩ := Prod.mk.inj (toLex.injective same)
    cases v
    cases w
    cases major
    cases minor
    rfl

/-- `STATESYNC_VERSION_V2`: the client sends completions. -/
def v2 : StateSyncVersion := ⟨1, 2⟩

def self : StateSyncVersion := v2

def min : StateSyncVersion := ⟨1, 0⟩

def isCompatible (v : StateSyncVersion) : Bool := min ≤ v ∧ v ≤ self

end StateSyncVersion

structure StateSyncRequest where
  version : StateSyncVersion
  statePrefix : Nat
  prefixBytes : Nat
  target : Nat
  fromBlock : Nat
  untilBlock : Nat
  oldTarget : Nat
deriving DecidableEq, Repr

namespace StateSyncRequest

instance : LinearOrder StateSyncRequest :=
  LinearOrder.lift' (fun r => toLex (r.version, toLex (r.statePrefix, toLex (r.prefixBytes, toLex (r.target,
    toLex (r.fromBlock, toLex (r.untilBlock, r.oldTarget))))))) fun r q same => by
    cases r
    cases q
    simpa [Prod.ext_iff] using same

def withVersion (r : StateSyncRequest) (version : StateSyncVersion) : StateSyncRequest := { r with version }

/-- Equal up to the version. -/
def Same (r q : StateSyncRequest) : Prop := r.withVersion q.version = q

@[simp] theorem same_withVersion (r : StateSyncRequest) (version : StateSyncVersion) : (r.withVersion version).Same r :=
    rfl

theorem Same.refl (r : StateSyncRequest) : r.Same r := rfl

theorem Same.trans {r q t : StateSyncRequest} (h : r.Same q) (h' : q.Same t) : r.Same t := by
  unfold Same at h h'
  rw [← h', ← h]
  rfl

end StateSyncRequest

inductive StateSyncUpsertType where
  | code
  | account
  | storage
  | accountDelete
  | storageDelete
  | header
deriving DecidableEq, Repr

structure StateSyncUpsert where
  upsertType : StateSyncUpsertType
  data : Bytes
deriving DecidableEq, Repr

structure StateSyncResponse where
  version : StateSyncVersion
  nonce : Nat
  responseIndex : Nat
  request : StateSyncRequest
  response : List StateSyncUpsert
  /-- Zero in every response but the last of a request. -/
  responseN : Nat
deriving DecidableEq, Repr

structure StateSyncBadVersion where
  minVersion : StateSyncVersion
  maxVersion : StateSyncVersion
deriving DecidableEq, Repr

end MonadBft
