import Tlpiexer.Constants
import Tlpiexer.Foundations.CString
import Tlpiexer.Foundations.Credentials

/-!
# Signing in

`signin` of `src/lib/61-05.c` and `req_handle` of `src/imp/61-05-server.c`. The server runs as root.
For each connection a child process reads a request with a user name, a password and a command,
signs in as the user, and has the command executed by a child of its own.

## Pointers into the request

The fields of a request need not end with a NUL; only the last byte of the command is made one. A
string argument is therefore given by all bytes from its first one on, and `signin`, which
overwrites the password with zeros, returns those bytes as it leaves them. A password without a NUL
in its field goes on in the command, and the zeros do, too.

## The account database

`getpwnam`, `getspnam` and `crypt` are any functions. The ids of an account are numbers of type
`uid_t` and `gid_t`; the largest one is not an id, and stands for "leave it as it is" in
`setresuid`.

## Main results

* `req_handle_served` — which process executes the command
* `signin_correct_iff` — for which accounts it has the ids of the user
-/

namespace Tlpiexer

namespace SignIn

open CString Credentials

/-! ### The account database -/

/-- `struct passwd`, as far as it is used. -/
structure Passwd where
  pw_passwd : Bytes
  pw_uid : UInt32
  pw_gid : UInt32

/-- What the system knows about accounts and passwords. -/
structure System where
  getpwnam : Bytes → Option Passwd
  /-- `sp_pwdp` of the entry that is found. -/
  getspnam : Bytes → Option Bytes
  crypt : Bytes → Bytes → Option Bytes

/-- The encrypted password of an account: the one in the shadow file, if there is one. -/
def System.stored (sys : System) (usrname : Bytes) (pwd : Passwd) : Bytes :=
  (sys.getspnam usrname).getD pwd.pw_passwd

/-! ### `signin` -/

/-- What `signin` returns and leaves. -/
structure Result where
  status : ℤ
  cred : Cred
  /-- The bytes at `pass`. -/
  pass : Bytes

/-- The loop that overwrites the password. -/
def wipe (pass : Bytes) : Bytes :=
  List.replicate (cstr pass).length 0 ++ pass.drop (cstr pass).length

/-- `signin(usrname, pass)` in a process with the credentials `c`. -/
def signin (sys : System) (c : Cred) (usrname pass : Bytes) : Result :=
  match sys.getpwnam (cstr usrname) with
  | none => ⟨fnEr, c, pass⟩
  | some pwd =>
    let pw_passwd := sys.stored (cstr usrname) pwd
    match sys.crypt (cstr pass) pw_passwd with
    | none => ⟨fnEr, c, wipe pass⟩
    | some crypt_pwd =>
      if strcmp crypt_pwd pw_passwd ≠ 0 then ⟨fnEr, c, wipe pass⟩
      else
        match c.setresuid (idOf pwd.pw_uid) (idOf pwd.pw_uid) (idOf pwd.pw_uid) with
        | none => ⟨fnEr, c, wipe pass⟩
        | some c' =>
          ⟨fnOk, (c'.setfsuid (idOf pwd.pw_uid)).setfsgid (idOf pwd.pw_gid), wipe pass⟩

/-! ### `req_handle` -/

/-- `USRNAME_MAX` and `PASSWD_MAX`. -/
def usrnameMax : ℕ := 32

@[inherit_doc usrnameMax]
def passwdMax : ℕ := 32

/-- `CMD_MAX`. -/
def cmdMax : ℕ := 1024

/-- `sizeof(struct msg_req)`. -/
def sizeofReq : ℕ := usrnameMax + passwdMax + cmdMax

/-- What the system calls of `req_handle` do. -/
structure Env where
  /-- The two calls of `signal` succeed. -/
  sigterm : Bool
  sigint : Bool
  /-- What `read` delivers, `none` when it fails. -/
  read : Option Bytes
  fork : Bool
  /-- `/bin/sh` can be executed. -/
  execl : Bool

/-- How `req_handle` ends. -/
inductive Handled
  | error
  /-- The child exits, and the grandchild has gone on to execute a command. -/
  | served (executed : Option (Bytes × Cred))

/-- `req_handle(pfd)`. -/
def req_handle (sys : System) (c : Cred) (env : Env) : Handled :=
  if ¬ env.sigterm then .error
  else if ¬ env.sigint then .error
  else match env.read with
    | none => .error
    | some data =>
      if data.length ≠ sizeofReq then .error
      else
        let req := data.set (sizeofReq - 1) 0
        let res := signin sys c req (req.drop usrnameMax)
        if res.status = fnEr then .error
        else if ¬ env.fork then .error
        else if env.execl then .served (some (cstr (res.pass.drop passwdMax), res.cred.execve))
        else .served none

/-! ### Correctness -/

/-- All ids are those of the account. -/
def HasIds (pwd : Passwd) (c : Cred) : Prop :=
  (∀ id ∈ [c.uid.real, c.uid.effective, c.uid.saved, c.uid.fs], id.val = pwd.pw_uid.toNat) ∧
    ∀ id ∈ [c.gid.real, c.gid.effective, c.gid.saved, c.gid.fs], id.val = pwd.pw_gid.toNat

/-- The password is the one of the account. -/
def Matches (sys : System) (usrname pass : Bytes) (pwd : Passwd) : Prop :=
  ∃ crypted, sys.crypt (cstr pass) (sys.stored (cstr usrname) pwd) = some crypted ∧
    cstr crypted = cstr (sys.stored (cstr usrname) pwd)

/-- What `signin` is for: behind a success the process that executes the command has the ids of the
account, behind an error it has the ids it had. -/
def Correct (sys : System) (c : Cred) (usrname pass : Bytes) : Prop :=
  ((signin sys c usrname pass).status = fnOk →
      ∃ pwd, sys.getpwnam (cstr usrname) = some pwd ∧ Matches sys usrname pass pwd ∧
        HasIds pwd (signin sys c usrname pass).cred ∧
        HasIds pwd (signin sys c usrname pass).cred.execve) ∧
    ((signin sys c usrname pass).status = fnEr →
      (signin sys c usrname pass).cred.uid = c.uid ∧ (signin sys c usrname pass).cred.gid = c.gid)

/-! ### What `signin` does -/

section SignIn

variable {sys : System} {c : Cred} {usrname pass : Bytes}

/-- **The two ways in which `signin` ends.** -/
theorem signin_cases (sys : System) (c : Cred) (usrname pass : Bytes) :
    (∃ pwd c', sys.getpwnam (cstr usrname) = some pwd ∧ Matches sys usrname pass pwd ∧
        c.setresuid (idOf pwd.pw_uid) (idOf pwd.pw_uid) (idOf pwd.pw_uid) = some c' ∧
        signin sys c usrname pass =
          ⟨fnOk, (c'.setfsuid (idOf pwd.pw_uid)).setfsgid (idOf pwd.pw_gid), wipe pass⟩) ∨
      ((signin sys c usrname pass).status = fnEr ∧ (signin sys c usrname pass).cred = c ∧
        ∀ pwd, sys.getpwnam (cstr usrname) = some pwd → Matches sys usrname pass pwd →
          c.setresuid (idOf pwd.pw_uid) (idOf pwd.pw_uid) (idOf pwd.pw_uid) = none) := by
  cases hpwd : sys.getpwnam (cstr usrname) with
  | none =>
    simp only [signin, hpwd]
    exact .inr ⟨trivial, trivial, nofun⟩
  | some pwd =>
    by_cases hmatch : Matches sys usrname pass pwd
    · obtain ⟨crypted, hcrypt, heq⟩ := hmatch
      have hcmp : ¬ strcmp crypted (sys.stored (cstr usrname) pwd) ≠ 0 :=
        not_not.mpr ((strcmp_eq_zero_iff _ _).mpr heq)
      cases hset : c.setresuid (idOf pwd.pw_uid) (idOf pwd.pw_uid) (idOf pwd.pw_uid) with
      | none =>
        simp only [signin, hpwd, hcrypt, if_neg hcmp, hset]
        refine .inr ⟨trivial, trivial, ?_⟩
        rintro _ ⟨⟩ -
        exact hset
      | some c' =>
        refine .inl ⟨pwd, c', rfl, ⟨crypted, hcrypt, heq⟩, hset, ?_⟩
        simp only [signin, hpwd, hcrypt, if_neg hcmp, hset]
    · have hend : signin sys c usrname pass = ⟨fnEr, c, wipe pass⟩ := by
        simp only [signin, hpwd]
        cases hcrypt : sys.crypt (cstr pass) (sys.stored (cstr usrname) pwd) with
        | none => rfl
        | some crypted =>
          refine if_pos fun hcmp => hmatch ⟨crypted, hcrypt, ?_⟩
          exact (strcmp_eq_zero_iff _ _).mp hcmp
      rw [hend]
      refine .inr ⟨rfl, rfl, ?_⟩
      rintro _ ⟨⟩ hm
      exact absurd hm hmatch

/-- The command is executed with the credentials that `signin` leaves. -/
theorem req_handle_served {env : Env} {cmd : Bytes} {cred : Cred}
    (h : req_handle sys c env = .served (some (cmd, cred))) :
    ∃ usrname pass, (signin sys c usrname pass).status = fnOk ∧
      cred = (signin sys c usrname pass).cred.execve := by
  cases hread : env.read with
  | none => simp [req_handle, hread] at h
  | some data =>
    simp only [req_handle, hread] at h
    set req := data.set (sizeofReq - 1) 0
    rcases signin_cases sys c req (req.drop usrnameMax) with ⟨_, _, _, _, _, hok⟩ | ⟨her, -⟩
    · refine ⟨req, req.drop usrnameMax, by rw [hok], ?_⟩
      split_ifs at h
      · cases h
        rfl
      · cases h
    · simp [her] at h

/-- The ids of root. -/
def rootIds : Ids := ⟨0, 0, 0, 0⟩

/-- The ids behind a successful `signin`. -/
theorem hasIds_iff {pwd : Passwd} {c' : Cred} (huid : c.uid = rootIds) (hgid : c.gid = rootIds)
    (h : c.setresuid (idOf pwd.pw_uid) (idOf pwd.pw_uid) (idOf pwd.pw_uid) = some c') :
    HasIds pwd ((c'.setfsuid (idOf pwd.pw_uid)).setfsgid (idOf pwd.pw_gid)) ∧
        HasIds pwd ((c'.setfsuid (idOf pwd.pw_uid)).setfsgid (idOf pwd.pw_gid)).execve ↔
      pwd.pw_gid = 0 ∧ idOf pwd.pw_uid ≠ none := by
  cases hid : idOf pwd.pw_uid with
  | none =>
    -- nothing is set, and the number of the account is no id
    rw [hid, Cred.setresuid_none] at h
    cases h
    refine iff_of_false ?_ (by simp)
    rintro ⟨⟨huids, -⟩, -⟩
    have hreal := huids c.uid.real (by simp [Cred.setfsuid, Cred.setfsgid])
    rw [huid, toNat_of_idOf hid] at hreal
    exact absurd hreal (by decide)
  | some id =>
    rw [hid, Cred.setresuid_all] at h
    split at h
    · cases h
      set cred := ((c.withUids ⟨id, id, id, id⟩).setfsuid (some id)).setfsgid (idOf pwd.pw_gid)
        with hcred
      have hcuid : cred.uid = ⟨id, id, id, id⟩ := Ids.setfs_self ⟨id, id, id, id⟩ _
      obtain ⟨privileged, hcgid⟩ :
          ∃ privileged, cred.gid = rootIds.setfs privileged (idOf pwd.pw_gid) := by
        rw [← hgid, ← Cred.withUids_gid c ⟨id, id, id, id⟩]
        exact ⟨_, rfl⟩
      constructor
      · rintro ⟨⟨-, hgids⟩, -⟩
        have hreal := hgids cred.gid.real (by simp)
        rw [hcgid, Ids.setfs_real] at hreal
        exact ⟨UInt32.toNat_inj.mp hreal.symm, Option.some_ne_none id⟩
      · rintro ⟨hzero, -⟩
        have hroot : cred.gid = rootIds := by
          rw [hcgid, hzero]
          exact Ids.setfs_self rootIds _
        have hval := val_of_idOf hid
        simp [HasIds, Cred.execve, Ids.exec, hcuid, hroot, hval, hzero, rootIds]
    · cases h

/-- The condition under which `signin` is correct: an account that can be signed in to belongs to
group 0, and its user id is an id. -/
def GroupZero (sys : System) (c : Cred) (usrname pass : Bytes) : Prop :=
  ∀ pwd, sys.getpwnam (cstr usrname) = some pwd → Matches sys usrname pass pwd →
    (c.effective.setuid = true ∨ pwd.pw_uid = 0 ∨ idOf pwd.pw_uid = none) →
    pwd.pw_gid = 0 ∧ idOf pwd.pw_uid ≠ none

/-- To which user ids root can switch. -/
theorem setresuid_root (huid : c.uid = rootIds) (n : UInt32) :
    c.setresuid (idOf n) (idOf n) (idOf n) ≠ none ↔
      c.effective.setuid = true ∨ n = 0 ∨ idOf n = none := by
  cases hid : idOf n with
  | none => simp [Cred.setresuid_none]
  | some id =>
    have hown : c.uid.Own id ↔ n = 0 := by
      have hval := val_of_idOf hid
      rw [huid, Ids.Own, rootIds, or_self, or_self, ← UInt32.toNat_inj, ← hval, Fin.ext_iff]
      rfl
    rw [Cred.setresuid_all]
    by_cases hcap : c.effective.setuid = true ∨ c.uid.Own id
    · rw [if_pos hcap]
      exact iff_of_true (Option.some_ne_none _) (hcap.imp_right fun h => .inl (hown.mp h))
    · rw [if_neg hcap]
      refine iff_of_false (fun h => h rfl) ?_
      rintro (h | h | h)
      · exact hcap (.inl h)
      · exact hcap (.inr (hown.mpr h))
      · cases h

/-- **`signin` gives the process the ids of the account** exactly for accounts of group 0: the group
ids are not set at all, and `setfsgid` comes after the capability for it is lost. -/
theorem signin_correct_iff (sys : System) (c : Cred) (usrname pass : Bytes)
    (huid : c.uid = rootIds) (hgid : c.gid = rootIds) :
    Correct sys c usrname pass ↔ GroupZero sys c usrname pass := by
  rcases signin_cases sys c usrname pass with
    ⟨pwd, c', hpwd, hmatch, hset, hok⟩ | ⟨her, hcred, hnone⟩
  · have hreach := (setresuid_root huid pwd.pw_uid).mp (by simp [hset])
    have hids := hasIds_iff huid hgid hset
    rw [Correct, hok]
    constructor
    · rintro ⟨hcorrect, -⟩ pwd' hpwd' - -
      obtain ⟨_, hpwd'', -, hhas⟩ := hcorrect rfl
      rw [hpwd] at hpwd' hpwd''
      cases hpwd'
      cases hpwd''
      exact hids.mp hhas
    · intro hzero
      refine ⟨fun _ => ⟨pwd, hpwd, hmatch, hids.mpr (hzero pwd hpwd hmatch hreach)⟩, ?_⟩
      exact fun (hstatus : fnOk = fnEr) => absurd hstatus (by decide)
  · refine iff_of_true ⟨fun hstatus => ?_, fun _ => by simp [hcred]⟩ ?_
    · rw [her] at hstatus
      exact absurd hstatus (by decide)
    · intro pwd hpwd hmatch hreach
      exact absurd (hnone pwd hpwd hmatch) ((setresuid_root huid pwd.pw_uid).mpr hreach)

/-! ### An account that is not in group 0 -/

/-- A server that runs as root. -/
def root : Cred := ⟨rootIds, rootIds, ⟨true, true⟩, ⟨true, true⟩⟩

/-- One account, `me`, with the given group and the password `pw`, which is stored as it is. -/
def oneAccount (gid : UInt32) : System where
  getpwnam name := if name = [109, 101] then some ⟨[112, 119], 1000, gid⟩ else none
  getspnam _ := none
  crypt pass _ := some pass

theorem signin_correct_iff_groupZero :
    (signin (oneAccount 0) root [109, 101] [112, 119]).status = fnOk ∧
      Correct (oneAccount 0) root [109, 101] [112, 119] := by
  refine ⟨by decide, (signin_correct_iff _ root _ _ rfl rfl).mpr ?_⟩
  intro pwd hpwd _ _
  cases hpwd
  exact ⟨rfl, by decide⟩

/-- The user of group 100 gets a process that is still in group 0, for files as for all else. -/
theorem signin_group100 :
    (signin (oneAccount 100) root [109, 101] [112, 119]).status = fnOk ∧
      (signin (oneAccount 100) root [109, 101] [112, 119]).cred.execve.gid = rootIds ∧
      ¬ HasIds ⟨[112, 119], 1000, 100⟩
        (signin (oneAccount 100) root [109, 101] [112, 119]).cred.execve := by
  refine ⟨by decide, by decide, fun h => ?_⟩
  exact absurd (h.2 0 (by decide)) (by decide)

end SignIn

end SignIn

end Tlpiexer
