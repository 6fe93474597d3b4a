import Mathlib.Algebra.GroupWithZero.Nat

/-!
# User and group ids of a process

A process has a real, an effective, a saved and a file-system id, for its user and for its group.
`setresuid` and `setresgid` set the first three, each to any id if the process has the capability
for it and only to one of the three otherwise; `setfsuid` and `setfsgid` set the last one. The
file-system id follows the effective one whenever that is set.

## Capabilities

Only the two capabilities matter that these calls ask for. They are lost when the last of the three
user ids stops being `0`, and a process whose effective user id stops being `0` cannot use them
until it is `0` again. These are the rules for a process without special securebits.

## Main results

* `Credentials.Ids.setres_real` — whether the real id can be set
* `Credentials.Cred.setresuid_real`, `Credentials.Cred.setresuid_all` — what setting the real user
  id or all three does
-/

namespace Credentials

/-- An id. The number above the last one means "no id" in a call. -/
abbrev Id := Fin 4294967295

/-- There are ids, so that a numeral can stand for one. -/
instance neZero_ids : NeZero 4294967295 := ⟨by decide⟩

/-- The id a number of type `uid_t` or `gid_t` stands for. -/
def idOf (n : UInt32) : Option Id :=
  if h : n.toNat < 4294967295 then some ⟨n.toNat, h⟩ else none

theorem val_of_idOf {n : UInt32} {id : Id} (h : idOf n = some id) : id.val = n.toNat := by
  rw [idOf] at h
  split at h
  · cases h
    rfl
  · cases h

theorem toNat_of_idOf {n : UInt32} (h : idOf n = none) : n.toNat = 4294967295 := by
  rw [idOf] at h
  split at h
  · cases h
  · have hlt : n.toNat < 2 ^ 32 := n.toNat_lt
    omega

/-- The ids of one kind, user or group. -/
structure Ids where
  real : Id
  effective : Id
  saved : Id
  fs : Id
  deriving DecidableEq

namespace Ids

/-- One of the three ids a process without privileges may choose from. -/
def Own (ids : Ids) (id : Id) : Prop :=
  id = ids.real ∨ id = ids.effective ∨ id = ids.saved

instance (ids : Ids) (id : Id) : Decidable (ids.Own id) := inferInstanceAs (Decidable (_ ∨ _))

/-- An argument that needs no privileges. -/
def accepts (ids : Ids) (arg : Option Id) : Bool := arg.all fun id => decide (ids.Own id)

/-- Set the three ids; `none` leaves one as it is. -/
def setres (ids : Ids) (privileged : Bool) (real effective saved : Option Id) : Option Ids :=
  if privileged || [real, effective, saved].all ids.accepts then
    some { real := real.getD ids.real
           effective := effective.getD ids.effective
           saved := saved.getD ids.saved
           fs := effective.getD ids.effective }
  else none

/-- Set the file-system id. The call does not say whether it did. -/
def setfs (ids : Ids) (privileged : Bool) (id : Option Id) : Ids :=
  match id with
  | none => ids
  | some id => if privileged ∨ ids.Own id ∨ id = ids.fs then { ids with fs := id } else ids

/-- The ids behind `execve` of a file without special mode bits. -/
def exec (ids : Ids) : Ids := { ids with saved := ids.effective, fs := ids.effective }

variable {ids : Ids} {privileged : Bool} {id : Id}

/-- Whether the real id can be set. -/
theorem setres_real (ids : Ids) (privileged : Bool) (id : Id) :
    ids.setres privileged (some id) none none =
      if privileged ∨ ids.Own id then some { ids with real := id, fs := ids.effective }
      else none := by
  simp [setres, accepts]

/-- Whether all three ids can be set to one. -/
theorem setres_all (ids : Ids) (privileged : Bool) (id : Id) :
    ids.setres privileged (some id) (some id) (some id) =
      if privileged ∨ ids.Own id then some ⟨id, id, id, id⟩ else none := by
  simp [setres, accepts]

@[simp] theorem setfs_real (ids : Ids) (privileged : Bool) :
    ∀ id, (ids.setfs privileged id).real = ids.real
  | none => rfl
  | some _ => by rw [setfs]; split <;> rfl

/-- Setting the file-system id to what it is changes nothing. -/
@[simp] theorem setfs_self (ids : Ids) (privileged : Bool) :
    ids.setfs privileged (some ids.fs) = ids := by
  simp [setfs]

end Ids

/-- The capabilities to set user ids and group ids. -/
structure Caps where
  setuid : Bool
  setgid : Bool
  deriving DecidableEq

/-- No capability. -/
def Caps.none : Caps := ⟨false, false⟩

/-- The credentials of a process. -/
structure Cred where
  uid : Ids
  gid : Ids
  /-- The capabilities the process may use when its effective user id is `0` again. -/
  permitted : Caps
  /-- The capabilities it can use. -/
  effective : Caps
  deriving DecidableEq

namespace Cred

/-- One of the three user ids is `0`. -/
def Rooted (ids : Ids) : Prop := ids.Own 0

instance (ids : Ids) : Decidable (Rooted ids) := inferInstanceAs (Decidable (ids.Own 0))

/-- The credentials with other user ids, and what this does to the capabilities. -/
def withUids (c : Cred) (uid : Ids) : Cred :=
  let c := if Rooted c.uid ∧ ¬ Rooted uid then
      { c with permitted := .none, effective := .none } else c
  let effective :=
    if c.uid.effective = 0 ∧ uid.effective ≠ 0 then .none
    else if c.uid.effective ≠ 0 ∧ uid.effective = 0 then c.permitted
    else c.effective
  { c with uid := uid, effective := effective }

/-- `setresuid`. -/
def setresuid (c : Cred) (real effective saved : Option Id) : Option Cred :=
  (c.uid.setres c.effective.setuid real effective saved).map c.withUids

/-- `setresgid`. -/
def setresgid (c : Cred) (real effective saved : Option Id) : Option Cred :=
  (c.gid.setres c.effective.setgid real effective saved).map fun gid => { c with gid := gid }

/-- `setfsuid`. -/
def setfsuid (c : Cred) (id : Option Id) : Cred :=
  { c with uid := c.uid.setfs c.effective.setuid id }

/-- `setfsgid`. -/
def setfsgid (c : Cred) (id : Option Id) : Cred :=
  { c with gid := c.gid.setfs c.effective.setgid id }

/-- `execve` of a file without special mode bits. -/
def execve (c : Cred) : Cred := { c with uid := c.uid.exec, gid := c.gid.exec }

@[simp] theorem withUids_uid (c : Cred) (uid : Ids) : (c.withUids uid).uid = uid := rfl

@[simp] theorem withUids_gid (c : Cred) (uid : Ids) : (c.withUids uid).gid = c.gid := by
  rw [withUids]
  split <;> rfl

/-- As long as the effective user id stays, so do the capabilities, unless the last `0` goes. -/
theorem withUids_effective {c : Cred} {uid : Ids} (h : uid.effective = c.uid.effective) :
    (c.withUids uid).effective =
      if Rooted c.uid ∧ ¬ Rooted uid then .none else c.effective := by
  rw [withUids]
  split
  · simp [h]
  · simp [h]

/-- Setting the real user id. -/
theorem setresuid_real (c : Cred) (id : Id) :
    c.setresuid (some id) none none =
      if c.effective.setuid ∨ c.uid.Own id then
        some (c.withUids { c.uid with real := id, fs := c.uid.effective })
      else none := by
  rw [setresuid, Ids.setres_real]
  split <;> rfl

/-- Setting the real group id. -/
theorem setresgid_real (c : Cred) (id : Id) :
    c.setresgid (some id) none none =
      if c.effective.setgid ∨ c.gid.Own id then
        some { c with gid := { c.gid with real := id, fs := c.gid.effective } }
      else none := by
  rw [setresgid, Ids.setres_real]
  split <;> rfl

/-- Setting all three user ids to one. -/
theorem setresuid_all (c : Cred) (id : Id) :
    c.setresuid (some id) (some id) (some id) =
      if c.effective.setuid ∨ c.uid.Own id then some (c.withUids ⟨id, id, id, id⟩) else none := by
  rw [setresuid, Ids.setres_all]
  split <;> rfl

/-- Setting none of the user ids. -/
theorem setresuid_none (c : Cred) :
    c.setresuid none none none = some (c.withUids { c.uid with fs := c.uid.effective }) := by
  simp [setresuid, Ids.setres, Ids.accepts]

end Cred

end Credentials
