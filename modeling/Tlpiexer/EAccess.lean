import Tlpiexer.Constants
import Tlpiexer.Foundations.CString
import Tlpiexer.Foundations.Credentials

/-!
# Checking permissions for the effective ids

`eaccess_x` of `src/imp/15-04.c`. `access` asks for the permissions of the real user and group, so
the function makes the effective ids the real ones, calls `access` and puts the real ids back. The
second part needs an id that the process no longer has among its own, unless it is also the
effective or the saved one or the process is privileged.

## Main results

* `eaccess_x_keeps_ids_iff` — in which processes all ids are restored
-/

namespace Tlpiexer

namespace EAccess

open CString Credentials

/-- `eaccess_x(fpath, mode)`: what it returns, and the credentials behind it. The answer of `access`
depends on the credentials it is called with. -/
def eaccess_x (access : Cred → Bytes → ℕ → ℤ) (c : Cred) (fpath : Bytes) (mode : ℕ) : ℤ × Cred :=
  let uid := c.uid.real
  let euid := c.uid.effective
  let gid := c.gid.real
  let egid := c.gid.effective
  match c.setresuid (some euid) none none with
  | none => (retFailure, c)
  | some c₁ =>
    match c₁.setresgid (some egid) none none with
    | none => (retFailure, c₁)
    | some c₂ =>
      let ok := access c₂ fpath mode
      match c₂.setresuid (some uid) none none with
      | none => (retFailure, c₂)
      | some c₃ =>
        match c₃.setresgid (some gid) none none with
        | none => (retFailure, c₃)
        | some c₄ => (ok, c₄)

/-- The real, effective and saved ids are the same. -/
def SameIds (c c' : Cred) : Prop :=
  c'.uid.real = c.uid.real ∧ c'.uid.effective = c.uid.effective ∧ c'.uid.saved = c.uid.saved ∧
    c'.gid.real = c.gid.real ∧ c'.gid.effective = c.gid.effective ∧ c'.gid.saved = c.gid.saved

instance (c c' : Cred) : Decidable (SameIds c c') := inferInstanceAs (Decidable (_ ∧ _))

/-! ### Giving up the real ids -/

/-- The process while it calls `access`. -/
def borrowed (c : Cred) : Cred :=
  { c.withUids { c.uid with real := c.uid.effective, fs := c.uid.effective } with
    gid := { c.gid with real := c.gid.effective, fs := c.gid.effective } }

theorem setresuid_effective (c : Cred) :
    c.setresuid (some c.uid.effective) none none =
      some (c.withUids { c.uid with real := c.uid.effective, fs := c.uid.effective }) := by
  rw [Cred.setresuid_real, if_pos (.inr (.inr (.inl rfl)))]

theorem setresgid_effective (c : Cred) :
    c.setresgid (some c.gid.effective) none none =
      some { c with gid := { c.gid with real := c.gid.effective, fs := c.gid.effective } } := by
  rw [Cred.setresgid_real, if_pos (.inr (.inr (.inl rfl)))]

/-- The first half of `eaccess_x` always succeeds. -/
theorem eaccess_x_eq (access : Cred → Bytes → ℕ → ℤ) (c : Cred) (fpath : Bytes) (mode : ℕ) :
    eaccess_x access c fpath mode =
      match (borrowed c).setresuid (some c.uid.real) none none with
      | none => (retFailure, borrowed c)
      | some c₃ =>
        match c₃.setresgid (some c.gid.real) none none with
        | none => (retFailure, c₃)
        | some c₄ => (access (borrowed c) fpath mode, c₄) := by
  have hgid := setresgid_effective
    (c.withUids { c.uid with real := c.uid.effective, fs := c.uid.effective })
  rw [Cred.withUids_gid] at hgid
  simp only [eaccess_x, setresuid_effective, hgid]
  rfl

/-- The process gives up the last `0` among its user ids, and its capabilities with it. -/
def Lost (c : Cred) : Prop := c.uid.real = 0 ∧ c.uid.effective ≠ 0 ∧ c.uid.saved ≠ 0

instance (c : Cred) : Decidable (Lost c) := inferInstanceAs (Decidable (_ ∧ _))

/-- What is left of the capabilities. -/
theorem borrowed_effective (c : Cred) :
    (borrowed c).effective = if Lost c then .none else c.effective := by
  have heff : (c.withUids { c.uid with real := c.uid.effective, fs := c.uid.effective }).effective =
      _ := Cred.withUids_effective rfl
  refine heff.trans (if_congr ?_ rfl rfl)
  simp only [Cred.Rooted, Ids.Own, Lost]
  grind

/-! ### Putting them back -/

/-- The real user id can be set again. -/
def UidRestorable (c : Cred) : Prop :=
  c.uid.real = c.uid.effective ∨ c.uid.real = c.uid.saved ∨
    (c.effective.setuid = true ∧ (c.uid.real ≠ 0 ∨ c.uid.effective = 0 ∨ c.uid.saved = 0))

/-- The real ids can be set again once they have been given up: they are among the other ids, or the
process has the capability to set them. It loses this capability by giving up a real user id `0`
that is its last `0`. -/
def Restorable (c : Cred) : Prop :=
  UidRestorable c ∧
    (c.gid.real = c.gid.effective ∨ c.gid.real = c.gid.saved ∨ c.effective.setgid = true)

theorem UidRestorable.not_lost {c : Cred} (h : UidRestorable c) : ¬ Lost c := by
  rintro ⟨hreal, heff, hsaved⟩
  rcases h with h | h | ⟨-, h | h | h⟩
  · exact heff (h ▸ hreal)
  · exact hsaved (h ▸ hreal)
  · exact h hreal
  · exact heff h
  · exact hsaved h

theorem setuid_back_iff (c : Cred) :
    ((borrowed c).effective.setuid = true ∨ (borrowed c).uid.Own c.uid.real) ↔
      UidRestorable c := by
  have hown : (borrowed c).uid.Own c.uid.real ↔
      c.uid.real = c.uid.effective ∨ c.uid.real = c.uid.saved := by
    simp [Ids.Own, borrowed]
  rw [hown, borrowed_effective]
  constructor
  · rintro (hcap | hreal | hsaved)
    · by_cases hlost : Lost c
      · rw [if_pos hlost] at hcap
        cases hcap
      · rw [if_neg hlost] at hcap
        refine .inr (.inr ⟨hcap, ?_⟩)
        by_contra hzero
        simp only [not_or, not_not] at hzero
        exact hlost hzero
    · exact .inl hreal
    · exact .inr (.inl hsaved)
  · intro h
    rw [if_neg h.not_lost]
    rcases h with h | h | ⟨hcap, -⟩
    · exact .inr (.inl h)
    · exact .inr (.inr h)
    · exact .inl hcap

/-- The process once its real user id is back. -/
def uidBack (c : Cred) : Cred :=
  (borrowed c).withUids
    { (borrowed c).uid with real := c.uid.real, fs := (borrowed c).uid.effective }

theorem uidBack_effective {c : Cred} (h : UidRestorable c) :
    (uidBack c).effective = c.effective := by
  have heff : (uidBack c).effective = _ := Cred.withUids_effective rfl
  rw [heff, if_neg, borrowed_effective, if_neg h.not_lost]
  rintro ⟨hrooted, hnot⟩
  refine hnot ?_
  rcases hrooted with h | h | h
  · exact .inr (.inl h)
  · exact .inr (.inl h)
  · exact .inr (.inr h)

theorem setgid_back_iff {c : Cred} (h : UidRestorable c) :
    ((uidBack c).effective.setgid = true ∨ (uidBack c).gid.Own c.gid.real) ↔
      c.gid.real = c.gid.effective ∨ c.gid.real = c.gid.saved ∨ c.effective.setgid = true := by
  have hown : (uidBack c).gid.Own c.gid.real ↔
      c.gid.real = c.gid.effective ∨ c.gid.real = c.gid.saved := by
    simp [Ids.Own, uidBack, borrowed]
  rw [uidBack_effective h, hown, or_comm, or_assoc]

/-- **All ids are restored** exactly when both real ids can be set again. -/
theorem eaccess_x_keeps_ids_iff (access : Cred → Bytes → ℕ → ℤ) (c : Cred) (fpath : Bytes)
    (mode : ℕ) : SameIds c (eaccess_x access c fpath mode).2 ↔ Restorable c := by
  rw [eaccess_x_eq, Cred.setresuid_real]
  by_cases huid : UidRestorable c
  · rw [if_pos ((setuid_back_iff c).mpr huid)]
    change SameIds c (match (uidBack c).setresgid (some c.gid.real) none none with
        | none => (retFailure, uidBack c)
        | some c₄ => (access (borrowed c) fpath mode, c₄)).2 ↔ _
    rw [Cred.setresgid_real]
    by_cases hgid : (uidBack c).effective.setgid = true ∨ (uidBack c).gid.Own c.gid.real
    · rw [if_pos hgid]
      refine iff_of_true ?_ ⟨huid, (setgid_back_iff huid).mp hgid⟩
      simp [SameIds, uidBack, borrowed]
    · rw [if_neg hgid]
      rw [setgid_back_iff huid] at hgid
      refine iff_of_false (fun hsame => hgid (.inl ?_)) fun h => hgid h.2
      exact (hsame.2.2.2.1.symm.trans (by simp [uidBack, borrowed]))
  · rw [if_neg (mt (setuid_back_iff c).mp huid)]
    refine iff_of_false (fun hsame => huid (.inl ?_)) fun h => huid h.1
    exact hsame.1.symm

/-- Any file is readable. -/
def readable : Cred → Bytes → ℕ → ℤ := fun _ _ _ => 0

/-- A program with the set-user-ID bit, owned by user 1001 and started by user 1000. -/
def setUserId : Cred where
  uid := { real := 1000, effective := 1001, saved := 1001, fs := 1001 }
  gid := { real := 100, effective := 100, saved := 100, fs := 100 }
  permitted := .none
  effective := .none

/-- The real user id is lost, and the call fails although the file is readable. -/
theorem eaccess_x_setUserId :
    ¬ SameIds setUserId (eaccess_x readable setUserId [] 4).2 ∧
      (eaccess_x readable setUserId [] 4).1 = -1 ∧
      (eaccess_x readable setUserId [] 4).2.uid.real = 1001 := by
  decide

end EAccess

end Tlpiexer
