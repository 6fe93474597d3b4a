import Tlpiexer.Nftw.Walk

/-!
# The script of a walk

What `fwalk` does next depends on the file system, which stays as it is, and not on how its calls
turn out: if one goes wrong, the walk is over. The whole walk therefore comes down to a list of
events (`Env.walkScript`), and `fwalk_follows` says that `fwalk` carries it out until one of them
goes wrong, for every file system, every pattern of failing calls and every callback.

The recursion of the script is over the number of directories that may still be opened. This is what
ends it when the links that are followed lead back.

## Main results

* `Nftw.Env.fwalk_follows` — `fwalk` carries out its script
* `Nftw.Env.nftw_terminates` — the walk ends, with at most `nfd + 1` open directories
* `Nftw.Env.nftw_overflows` — unless a path is written past its buffer
-/

namespace Tlpiexer

namespace Nftw

open CString Path FileSystem Script

namespace Env

/-- What is done in a walk, or what becomes of it. -/
inductive Event
  | stop (x : Stop)
  /-- A call of the kernel, and what it does; nothing if the file system does not allow it. -/
  | kernel (f : Option Effect)
  /-- The `chdir` that goes back. -/
  | restore (d : Loc)
  | clear
  | check
  | callback (c : Call)
  deriving DecidableEq

variable (e : Env)

/-- One event: the process after it, and how the walk ends if it goes wrong. -/
def perform (s : Proc) : Event → Proc × Option Stop
  | .stop x => (s, some x)
  | .kernel none => (e.refuse s, some .failure)
  | .kernel (some f) =>
    if e.fails s.ticks then (e.refuse s, some .failure) else (f.apply e s, none)
  | .restore d =>
    if e.restoreFails s.ticks then (e.refuse s, some .failure)
    else ((Effect.enter d).apply e s, none)
  | .clear => ({ s with errno := 0 }, none)
  | .check => (s, if s.errno ≠ 0 then some .failure else none)
  | .callback c =>
    (e.called c s, if (e.callback (s.calls ++ [c]) s.errno).1 ≠ 0 then some .failure else none)

/-- The process after an event that goes right. -/
def after (s : Proc) : Event → Proc
  | .kernel (some f) => f.apply e s
  | .restore d => (Effect.enter d).apply e s
  | .clear => { s with errno := 0 }
  | .callback c => e.called c s
  | _ => s

section Perform

variable {e} {s : Proc} {as : List Event}

theorem perform_of_none {x : Event} (h : (e.perform s x).2 = none) :
    (e.perform s x).1 = e.after s x := by
  cases x with
  | stop => cases h
  | kernel f =>
    cases f with
    | none => cases h
    | some f =>
      rw [perform] at h ⊢
      split_ifs at h ⊢
      rfl
  | restore d =>
    rw [perform] at h ⊢
    split_ifs at h ⊢
    rfl
  | clear => rfl
  | check => rfl
  | callback => rfl

/-- The process after events that all go right. -/
theorem run_of_none (h : (run e.perform s as).2 = none) :
    (run e.perform s as).1 = as.foldl e.after s := by
  induction as generalizing s with
  | nil => rfl
  | cons x as ih =>
    cases hx : (e.perform s x).2 with
    | none =>
      rw [run_cons_of_none hx] at h ⊢
      rw [ih h, perform_of_none hx, List.foldl_cons]
    | some y =>
      rw [run_cons_of_some hx, hx] at h
      cases h

/-- Only a path that does not fit is written past `fpath`. -/
theorem eq_stop_of_overflow {x : Event} (h : (e.perform s x).2 = some .overflow) :
    x = .stop .overflow := by
  cases x with
  | stop x =>
    cases h
    rfl
  | kernel f =>
    cases f with
    | none => cases h
    | some f =>
      rw [perform] at h
      split_ifs at h
      cases h
  | restore d =>
    rw [perform] at h
    split_ifs at h
    cases h
  | clear => cases h
  | check =>
    rw [perform] at h
    split_ifs at h
    cases h
  | callback c =>
    rw [perform] at h
    split_ifs at h
    cases h

end Perform

/-! ### Scripts -/

/-- The events of `visit`, for a process at `c`. -/
def visitScript (walk : Bytes → List Event) (c : Loc) (dstatus : Option Stat) (level : ℕ)
    (d_name : Bytes) (d_type : DType) (fpath : Bytes) : List Event :=
  match e.fs.lstat e.depth c fpath with
  | none => [.kernel none]
  | some status =>
    .kernel (some .look) ::
      if e.elsewhere dstatus status.stat then []
      else if status.isDir then
        (if !e.post then [.callback ⟨d_name, status.stat, .st_mode, level⟩] else []) ++
          (walk fpath ++
            (if e.post then [.callback ⟨d_name, status.stat, .st_mode, level⟩] else []))
      else [.callback ⟨d_name, status.stat, .d_type d_type, level⟩]

/-- The events of `entry`. -/
def entryScript (walk : Bytes → List Event) (c : Loc) (dirpath : Bytes) (dstatus : Option Stat)
    (level : ℕ) (d_name : Bytes) (d_type : DType) : List Event :=
  if d_name = dot ∨ d_name = dotdot then []
  else if pathMax ≤ (e.fpath dirpath d_name).length then [.stop .overflow]
  else if e.followed d_type then
    match (e.fs.resolve e.depth true c (e.fpath dirpath d_name)).bind fun l => sized l.path with
    | none => [.kernel none]
    | some lpath =>
      .kernel (some .probe) :: e.visitScript walk c dstatus level d_name d_type lpath
  else e.visitScript walk c dstatus level d_name d_type (e.fpath dirpath d_name)

/-- The events of `entries`. -/
def entriesScript (walk : Bytes → List Event) (c : Loc) (dirpath : Bytes) (dstatus : Option Stat)
    (level : ℕ) : List (Bytes × DType) → List Event
  | [] => [.kernel (some .look)]
  | (d_name, d_type) :: rest =>
    .kernel (some .look) :: (e.entryScript walk c dirpath dstatus level d_name d_type ++
      entriesScript walk c dirpath dstatus level rest)

/-- Where the process is while it reads the entries of `d`. -/
def inside (c d : Loc) : Loc := if e.chdir then d else c

/-- What `dstatus` holds: nothing that matters without `FTW_MOUNT`. -/
def dstatus (c : Loc) (dirpath : Bytes) : Option (Option Stat) :=
  if e.mount then (e.fs.stat e.depth c dirpath).map some else some none

/-- The directory a path leads to. -/
def directory (c : Loc) (dirpath : Bytes) : Option (Loc × Listing) :=
  (e.fs.resolve e.depth true c dirpath).bind fun d => (e.fs.listing d).map fun es => (d, es)

/-- The events of `fwalk` from `opendir` on. -/
def bodyScript (walk : Loc → Bytes → List Event) (c : Loc) (dirpath : Bytes)
    (dstatus : Option Stat) (level : ℕ) : List Event :=
  match e.directory c dirpath with
  | none => [.kernel none]
  | some (d, es) =>
    .kernel (some .open) ::
      match sized c.path with
      | none => [.kernel none]
      | some _ =>
        .kernel (some .probe) :: ((if e.chdir then [.kernel (some (.enter d))] else []) ++
          (.clear :: (e.entriesScript (walk (e.inside c d)) (e.inside c d) dirpath dstatus level
              es.dirents ++
            (.check :: .kernel (some .close) :: (if e.chdir then [.restore c] else [])))))

/-- The events of `fwalk` for a process at `c`, when `k` more directories may be opened. -/
def walkScript : ℕ → ℕ → Loc → Bytes → List Event
  | 0, _, _, _ => [.stop .failure]
  | k + 1, level, c, dirpath =>
    match e.dstatus c dirpath with
    | none => [.kernel none]
    | some dstatus =>
      (if e.mount then [.kernel (some .look)] else []) ++
        e.bodyScript (walkScript k (level + 1)) c dirpath dstatus level

/-! ### `fwalk` carries out its script -/

section Follows

variable {e} {c : Loc} {dirpath : Bytes} {dstatus : Option Stat} {level : ℕ} {d_name : Bytes}
  {d_type : DType} {walk : Bytes → Attempt Proc Stop Unit} {script : Bytes → List Event}

/-- The process is at `c`. -/
def At (c : Loc) (s : Proc) : Prop := s.cwd = c

theorem follows_kernel {α : Type} {answer : Proc → Option α} {effect : α → Effect} {a : α}
    {c' : Loc} (h : ∀ s, At c s → answer s = some a)
    (hc : ∀ s, At c s → At c' ((effect a).apply e s)) :
    Follows e.perform (At c) (e.kernel e.fails answer effect) [.kernel (some (effect a))] a
      (At c') := by
  refine .action (fun s hs => ?_) fun s hs => ?_
  · rw [kernel, h s hs, perform]
    dsimp only
    split_ifs <;> rfl
  · rw [perform]
    split_ifs
    · exact fun h => by cases h
    · exact fun _ => hc s hs

theorem fails_kernel {α : Type} {answer : Proc → Option α} {effect : α → Effect}
    {pattern : ℕ → Bool} (h : ∀ s, At c s → answer s = none) :
    Fails e.perform (At c) (e.kernel pattern answer effect) [.kernel none] := by
  refine .action fun s hs => ⟨.failure, rfl, ?_⟩
  rw [kernel, h s hs]
  rfl

theorem follows_call (x : Call) :
    Follows e.perform (At c) (e.call x) [.callback x] () (At c) := by
  refine .action (fun s _ => ?_) fun s hs _ => hs
  rw [call, perform, ofRun]
  split_ifs <;> rfl

theorem follows_visit (hwalk : ∀ p, Follows e.perform (At c) (walk p) (script p) () (At c))
    (fpath : Bytes) :
    Follows e.perform (At c) (e.visit walk dstatus level d_name d_type fpath)
      (e.visitScript script c dstatus level d_name d_type fpath) () (At c) := by
  rw [visit, visitScript]
  cases hstat : e.fs.lstat e.depth c fpath with
  | none => exact (fails_kernel fun s hs => by rw [hs, hstat]).bind.follows
  | some status =>
    have hlook : Follows e.perform (At c) (e.lstat fpath) [.kernel (some .look)] status (At c) :=
      follows_kernel (fun s hs => by rw [hs, hstat]) fun _ hs => hs
    refine hlook.bind_cons ?_
    by_cases helse : e.elsewhere dstatus status.stat
    · simp only [helse, if_true]
      exact .pure fun _ hs => hs
    · by_cases hdir : status.isDir
      · simp only [helse, hdir, if_true]
        have hcall : ∀ b : Bool, Follows e.perform (At c)
            (Attempt.whenever b (e.call ⟨d_name, status.stat, .st_mode, level⟩))
            (if b then [.callback ⟨d_name, status.stat, .st_mode, level⟩] else []) () (At c) :=
          fun b => .whenever (fun _ => follows_call _) fun _ _ hs => hs
        exact (hcall (!e.post)).bind ((hwalk fpath).bind (hcall e.post))
      · simp only [helse, hdir]
        exact follows_call _

theorem follows_entry (hwalk : ∀ p, Follows e.perform (At c) (walk p) (script p) () (At c)) :
    Follows e.perform (At c) (e.entry walk dirpath dstatus level d_name d_type)
      (e.entryScript script c dirpath dstatus level d_name d_type) () (At c) := by
  rw [entry, entryScript]
  by_cases hdots : d_name = dot ∨ d_name = dotdot
  · rw [if_pos hdots, if_pos hdots]
    exact .pure fun _ hs => hs
  rw [if_neg hdots, if_neg hdots]
  by_cases hfit : pathMax ≤ (e.fpath dirpath d_name).length
  · rw [if_pos hfit, if_pos hfit]
    exact Fails.follows (.action fun s _ => ⟨.overflow, rfl, rfl⟩)
  rw [if_neg hfit, if_neg hfit]
  by_cases hlink : e.followed d_type
  · rw [if_pos hlink, if_pos hlink]
    cases hreal : (e.fs.resolve e.depth true c (e.fpath dirpath d_name)).bind
        fun l => sized l.path with
    | none => exact (fails_kernel fun s hs => by rw [hs, hreal]).bind.follows
    | some lpath =>
      have hlook : Follows e.perform (At c) (e.realpath (e.fpath dirpath d_name))
          [.kernel (some .probe)] lpath (At c) :=
        follows_kernel (fun s hs => by rw [hs, hreal]) fun _ hs => hs
      exact hlook.bind_cons (follows_visit hwalk lpath)
  · rw [if_neg hlink, if_neg hlink]
    exact follows_visit hwalk _

theorem follows_readdir : Follows e.perform (At c) e.readdir [.kernel (some .look)] () (At c) :=
  follows_kernel (fun _ _ => rfl) fun _ hs => hs

theorem follows_entries (hwalk : ∀ p, Follows e.perform (At c) (walk p) (script p) () (At c))
    (ds : List (Bytes × DType)) :
    Follows e.perform (At c) (e.entries walk dirpath dstatus level ds)
      (e.entriesScript script c dirpath dstatus level ds) () (At c) := by
  induction ds with
  | nil => exact follows_readdir
  | cons d ds ih => exact follows_readdir.bind_cons ((follows_entry hwalk).bind ih)

theorem directory_eq_some {d : Loc} {es : Listing} :
    e.directory c dirpath = some (d, es) ↔
      e.fs.resolve e.depth true c dirpath = some d ∧ e.fs.listing d = some es := by
  rw [directory, Option.bind_eq_some_iff]
  constructor
  · rintro ⟨d', hd, hmap⟩
    obtain ⟨es', hes, heq⟩ := Option.map_eq_some_iff.mp hmap
    cases heq
    exact ⟨hd, hes⟩
  · rintro ⟨hd, hes⟩
    exact ⟨d, hd, by rw [hes]; rfl⟩

theorem opendir_eq : e.fs.opendir e.depth c dirpath = (e.directory c dirpath).map Prod.snd := by
  rw [FS.opendir, directory]
  cases e.fs.resolve e.depth true c dirpath with
  | none => rfl
  | some d => cases hd : e.fs.listing d <;> simp [hd]

theorem chdir_eq_some {d : Loc} {es : Listing} (h : e.directory c dirpath = some (d, es)) :
    e.fs.chdir e.depth c dirpath = some d := by
  obtain ⟨hd, hes⟩ := directory_eq_some.mp h
  rw [FS.chdir, hd, Option.bind_some, hes]
  rfl

/-- The script for a path that leads to a directory. -/
theorem walkScript_succ {d : Loc} {es : Listing} {st : Stat} {k : ℕ}
    (h : e.fs.resolve e.depth true c dirpath = some d) (hnode : e.fs.node d = some (.dir st es)) :
    e.walkScript (k + 1) level c dirpath =
      (if e.mount then [.kernel (some .look)] else []) ++
        e.bodyScript (e.walkScript k (level + 1)) c dirpath (if e.mount then some st else none)
          level := by
  have hstat : e.dstatus c dirpath = some (if e.mount then some st else none) := by
    rw [Env.dstatus, FS.stat, h, Option.bind_some, hnode]
    split_ifs <;> rfl
  rw [walkScript, hstat]

/-- The path of an entry leads where its name does, seen from the directory. -/
theorem resolve_fpath {d : Loc} {follow : Bool} {x : FileName}
    (h : e.fs.resolve e.depth true c dirpath = some d) :
    e.fs.resolve e.depth follow (e.inside c d) (e.fpath dirpath x.val) =
      e.fs.resolve e.depth follow d x.val := by
  rw [fpath, inside]
  split_ifs
  · rfl
  · exact FS.resolve_append h x.property.1.1 (FS.head?_ne_slash x)

/-- The script of an entry whose path fits. -/
theorem entryScript_of_fits {x : FileName} (hfit : (e.fpath dirpath x.val).length < pathMax) :
    e.entryScript script c dirpath dstatus level x.val d_type =
      if e.followed d_type then
        match (e.fs.resolve e.depth true c (e.fpath dirpath x.val)).bind fun l => sized l.path with
        | none => [.kernel none]
        | some lpath =>
          .kernel (some .probe) :: e.visitScript script c dstatus level x.val d_type lpath
      else e.visitScript script c dstatus level x.val d_type (e.fpath dirpath x.val) := by
  rw [entryScript, if_neg (FS.not_dot_or_dotdot x), if_neg (by omega)]

/-- The way into a directory. -/
theorem follows_chdir {d : Loc} {es : Listing} (h : e.directory c dirpath = some (d, es)) :
    Follows e.perform (At c) (do let _ ← e.chdirTo e.fails dirpath) [.kernel (some (.enter d))] ()
      (At d) := by
  have hchdir : Follows e.perform (At c) (e.chdirTo e.fails dirpath) [.kernel (some (.enter d))] d
      (At d) := follows_kernel (fun s hs => by rw [hs, chdir_eq_some h]) fun _ _ => rfl
  exact hchdir.bind_cons (.pure fun _ hs => hs)

/-- The way back: the path `getcwd` has delivered leads there. -/
theorem follows_restore {d : Loc} {es : Listing} (hdepth : 0 < e.depth)
    (hc : e.fs.listing c = some es) :
    Follows e.perform (At d) (do let _ ← e.chdirTo e.restoreFails c.path) [.restore c] ()
      (At c) := by
  obtain ⟨st, hnode⟩ := FS.listing_eq_some.mp hc
  obtain ⟨n, hn⟩ := Nat.exists_eq_succ_of_ne_zero hdepth.ne'
  have hanswer : e.fs.chdir e.depth d c.path = some c := by
    rw [FS.chdir, hn, FS.resolve_path hnode (fun _ _ h => by cases h), Option.bind_some, hc]
    rfl
  have hchdir : Follows e.perform (At d) (e.chdirTo e.restoreFails c.path) [.restore c] c
      (At c) := by
    refine .action (fun s hs => ?_) fun s _ => ?_
    · rw [chdirTo, kernel, hs, hanswer, perform]
      dsimp only
      split_ifs <;> rfl
    · rw [perform]
      split_ifs
      · exact fun h => by cases h
      · exact fun _ => rfl
  exact hchdir.bind_cons (.pure fun _ hs => hs)

theorem follows_clear : Follows e.perform (At c) clearErrno [.clear] () (At c) :=
  .action (fun _ _ => rfl) fun _ hs _ => hs

theorem follows_check : Follows e.perform (At c) checkErrno [.check] () (At c) := by
  refine .action (fun s _ => ?_) fun _ hs _ => hs
  rw [checkErrno, perform, ofRun]
  split_ifs <;> rfl

theorem follows_closedir : Follows e.perform (At c) e.closedir [.kernel (some .close)] () (At c) :=
  follows_kernel (fun _ _ => rfl) fun _ hs => hs

/-- What `fwalk` does from `opendir` on. -/
def body (e : Env) (walk : Bytes → Attempt Proc Stop Unit) (dirpath : Bytes)
    (dstatus : Option Stat) (level : ℕ) : Attempt Proc Stop Unit := do
  let dir ← e.opendir dirpath
  let cwd ← e.getcwd
  Attempt.whenever e.chdir (do let _ ← e.chdirTo e.fails dirpath)
  clearErrno
  e.entries walk dirpath dstatus level dir.dirents
  checkErrno
  e.closedir
  Attempt.whenever e.chdir (do let _ ← e.chdirTo e.restoreFails cwd)

theorem follows_body {walks : Loc → Bytes → List Event} {es₀ : Listing}
    (hc : e.fs.listing c = some es₀)
    (hwalk : ∀ c' es', e.fs.listing c' = some es' → ∀ p,
      Follows e.perform (At c') (walk p) (walks c' p) () (At c')) :
    Follows e.perform (At c) (e.body walk dirpath dstatus level)
      (e.bodyScript walks c dirpath dstatus level) () (At c) := by
  rw [body, bodyScript]
  cases hdir : e.directory c dirpath with
  | none => exact (fails_kernel fun s hs => by rw [hs, opendir_eq, hdir]; rfl).bind.follows
  | some p =>
    obtain ⟨d, es⟩ := p
    obtain ⟨hresolve, hes⟩ := directory_eq_some.mp hdir
    have hopen : Follows e.perform (At c) (e.opendir dirpath) [.kernel (some .open)] es (At c) :=
      follows_kernel (fun s hs => by rw [hs, opendir_eq, hdir]; rfl) fun _ hs => hs
    refine hopen.bind_cons ?_
    cases hcwd : sized c.path with
    | none => exact (fails_kernel fun s hs => by rw [hs, hcwd]).bind.follows
    | some cwd =>
      have hgetcwd : Follows e.perform (At c) e.getcwd [.kernel (some .probe)] cwd (At c) :=
        follows_kernel (fun s hs => by rw [hs, hcwd]) fun _ hs => hs
      obtain rfl : c.path = cwd := by
        rw [sized] at hcwd
        split_ifs at hcwd
        exact Option.some.inj hcwd
      -- with `FTW_CHDIR` the process goes to `d` and comes back, otherwise it stays at `c`
      have henter : Follows e.perform (At c)
          (Attempt.whenever e.chdir (do let _ ← e.chdirTo e.fails dirpath))
          (if e.chdir then [.kernel (some (.enter d))] else []) () (At (e.inside c d)) := by
        refine .whenever (fun h => ?_) fun h s hs => ?_
        · rw [inside, if_pos h]
          exact follows_chdir hdir
        · rwa [inside, h, if_neg (by simp)]
      have hleave : Follows e.perform (At (e.inside c d))
          (Attempt.whenever e.chdir (do let _ ← e.chdirTo e.restoreFails c.path))
          (if e.chdir then [.restore c] else []) () (At c) := by
        refine .whenever (fun h => ?_) fun h s hs => ?_
        · exact follows_restore (FS.ne_nil_of_resolve hresolve).2 hc
        · rwa [inside, h, if_neg (by simp)] at hs
      obtain ⟨es', hes'⟩ : ∃ es', e.fs.listing (e.inside c d) = some es' := by
        rw [inside]
        split_ifs
        · exact ⟨es, hes⟩
        · exact ⟨es₀, hc⟩
      exact hgetcwd.bind_cons (henter.bind (follows_clear.bind_cons
        ((follows_entries (hwalk _ es' hes') _).bind
          (follows_check.bind_cons (follows_closedir.bind_cons hleave)))))

/-- **`fwalk` carries out its script**, if it may call itself often enough. -/
theorem fwalk_follows {es₀ : Listing} {fuel : ℕ} {nfd : ℤ} (hfuel : (nfd + 1).toNat < fuel)
    (hc : e.fs.listing c = some es₀) :
    Follows e.perform (At c) (e.fwalk fuel dirpath nfd level)
      (e.walkScript (nfd + 1).toNat level c dirpath) () (At c) := by
  induction fuel generalizing nfd level c dirpath es₀ with
  | zero => omega
  | succ fuel ih =>
    rw [fwalk]
    by_cases hneg : nfd < 0
    · rw [if_pos hneg, show (nfd + 1).toNat = 0 by omega]
      exact Fails.follows (.action fun s _ => ⟨.failure, rfl, rfl⟩)
    · obtain ⟨k, hk⟩ : ∃ k : ℕ, (nfd + 1).toNat = k + 1 := ⟨nfd.toNat, by omega⟩
      have hk' : (nfd - 1 + 1).toNat = k := by omega
      rw [if_neg hneg, hk, walkScript]
      have hbody : ∀ dstatus : Option Stat, Follows e.perform (At c)
          (e.body (fun fpath => e.fwalk fuel fpath (nfd - 1) (level + 1)) dirpath dstatus level)
          (e.bodyScript (e.walkScript k (level + 1)) c dirpath dstatus level) () (At c) := by
        refine fun dstatus => follows_body hc fun c' es' hc' p => ?_
        rw [← hk']
        exact ih (by omega) hc'
      rw [Env.dstatus]
      by_cases hmount : e.mount
      · rw [if_pos hmount, if_pos hmount]
        cases hstat : e.fs.stat e.depth c dirpath with
        | none => exact (fails_kernel fun s hs => by rw [hs, hstat]; rfl).bind.follows
        | some st =>
          have hlook : Follows e.perform (At c) (e.stat dirpath) [.kernel (some .look)] (some st)
              (At c) := follows_kernel (fun s hs => by rw [hs, hstat]; rfl) fun _ hs => hs
          rw [if_pos hmount]
          exact hlook.bind (hbody (some st))
      · rw [if_neg hmount, if_neg hmount]
        simp only [hmount]
        exact Follows.bind (.pure fun _ hs => hs) (hbody none)

/-- The events of `nftw`. -/
def nftwScript (e : Env) (nfd : ℤ) (c : Loc) (dirpath : Bytes) : List Event :=
  e.walkScript (nfd + 1).toNat 0 c dirpath

theorem nftw_eq {es : Listing} {fuel : ℕ} {nfd : ℤ} {s : Proc} (hfuel : (nfd + 1).toNat < fuel)
    (hcwd : e.fs.listing s.cwd = some es) (dirpath : Bytes) :
    e.nftw fuel dirpath nfd s = ofRun () (run e.perform s (e.nftwScript nfd s.cwd dirpath)) ∧
      ((run e.perform s (e.nftwScript nfd s.cwd dirpath)).2 = none →
        (run e.perform s (e.nftwScript nfd s.cwd dirpath)).1.cwd = s.cwd) :=
  fwalk_follows hfuel hcwd s rfl

end Follows

/-! ### Properties of scripts -/

/-- A property of scripts that reading a directory does not spoil. -/
structure Closed (C : List Event → Prop) : Prop where
  nil : C []
  append : ∀ as bs, C as → C bs → C (as ++ bs)
  stop : ∀ x, C [.stop x]
  refused : C [.kernel none]
  look : C [.kernel (some .look)]
  probe : C [.kernel (some .probe)]
  callback : ∀ c, C [.callback c]

section Closed

variable {e} {C : List Event → Prop} {c : Loc} {dirpath : Bytes} {dstatus : Option Stat}
  {level : ℕ} {script : Bytes → List Event}

theorem Closed.cons (hC : Closed C) {x : Event} {as : List Event} (hx : C [x]) (has : C as) :
    C (x :: as) := hC.append [x] as hx has

theorem Closed.whenever (hC : Closed C) {b : Bool} {as : List Event} (h : C as) :
    C (if b then as else []) := by
  split_ifs
  · exact h
  · exact hC.nil

theorem Closed.visitScript (hC : Closed C) (hwalk : ∀ p, C (script p)) (d_name : Bytes)
    (d_type : DType) (fpath : Bytes) :
    C (e.visitScript script c dstatus level d_name d_type fpath) := by
  rw [Env.visitScript]
  cases e.fs.lstat e.depth c fpath with
  | none => exact hC.refused
  | some status =>
    refine hC.cons hC.look ?_
    split_ifs
    · exact hC.nil
    · exact hC.append _ _ (hC.callback _) (hC.append _ _ (hwalk _) (hC.callback _))
    · exact hC.append _ _ (hC.callback _) (hC.append _ _ (hwalk _) hC.nil)
    · exact hC.append _ _ hC.nil (hC.append _ _ (hwalk _) (hC.callback _))
    · exact hC.append _ _ hC.nil (hC.append _ _ (hwalk _) hC.nil)
    · exact hC.callback _

theorem Closed.entryScript (hC : Closed C) (hwalk : ∀ p, C (script p)) (d_name : Bytes)
    (d_type : DType) : C (e.entryScript script c dirpath dstatus level d_name d_type) := by
  rw [Env.entryScript]
  split_ifs
  · exact hC.nil
  · exact hC.stop _
  · cases (e.fs.resolve e.depth true c (e.fpath dirpath d_name)).bind fun l => sized l.path with
    | none => exact hC.refused
    | some lpath => exact hC.cons hC.probe (hC.visitScript hwalk _ _ _)
  · exact hC.visitScript hwalk _ _ _

theorem Closed.entriesScript (hC : Closed C) (hwalk : ∀ p, C (script p))
    (ds : List (Bytes × DType)) : C (e.entriesScript script c dirpath dstatus level ds) := by
  induction ds with
  | nil => exact hC.look
  | cons d ds ih => exact hC.cons hC.look (hC.append _ _ (hC.entryScript hwalk _ _) ih)

end Closed

/-! ### Open directories -/

section Peak

variable {e} {bound : ℕ}

/-- No more directories than `bound` have been open at any time. -/
def Bounded (bound : ℕ) (s : Proc) : Prop := s.peak ≤ bound

/-- Moreover, `m` are open now. -/
def Open (bound m : ℕ) (s : Proc) : Prop := s.opened = m ∧ s.peak ≤ bound

/-- An event that opens and closes nothing. -/
theorem keeps_open {m : ℕ} {x : Event}
    (h : ∀ s, (e.perform s x).1.opened = s.opened ∧ (e.perform s x).1.peak = s.peak) :
    Keeps e.perform (Bounded bound) (Open bound m) [x] (Open bound m) := by
  refine .action (fun s hs => ?_) fun s hs _ => ?_
  · exact (h s).2.le.trans hs.2
  · exact ⟨(h s).1.trans hs.1, (h s).2.le.trans hs.2⟩

theorem closed_open (m : ℕ) :
    Closed fun as => Keeps e.perform (Bounded bound) (Open bound m) as (Open bound m) where
  nil := .nil fun _ hs => hs.2
  append _ _ h h' := h.append h'
  stop _ := keeps_open fun _ => ⟨rfl, rfl⟩
  refused := keeps_open fun _ => ⟨rfl, rfl⟩
  look := keeps_open fun s => by rw [perform]; split_ifs <;> exact ⟨rfl, rfl⟩
  probe := keeps_open fun s => by rw [perform]; split_ifs <;> exact ⟨rfl, rfl⟩
  callback _ := keeps_open fun _ => ⟨rfl, rfl⟩

theorem keeps_opendir {m : ℕ} (h : m < bound) :
    Keeps e.perform (Bounded bound) (Open bound m) [.kernel (some .open)]
      (Open bound (m + 1)) := by
  have hpeak : ∀ s, Open bound m s → max s.peak (s.opened + 1) ≤ bound := fun s hs =>
    max_le hs.2 (by rw [hs.1]; exact h)
  refine .action (fun s hs => ?_) fun s hs => ?_
  · rw [perform]
    split_ifs
    · exact hs.2
    · exact hpeak s hs
  · rw [perform]
    split_ifs
    · exact fun h => by cases h
    · exact fun _ => ⟨congrArg (· + 1) hs.1, hpeak s hs⟩

theorem keeps_closedir {m : ℕ} :
    Keeps e.perform (Bounded bound) (Open bound (m + 1)) [.kernel (some .close)]
      (Open bound m) := by
  refine .action (fun s hs => ?_) fun s hs => ?_
  · rw [perform]
    split_ifs <;> exact hs.2
  · rw [perform]
    split_ifs
    · exact fun h => by cases h
    · exact fun _ => ⟨by rw [Effect.apply, hs.1]; rfl, hs.2⟩

/-- A walk that may open `k` directories leaves as many open as before, and at no time more than
`k` more, however it ends. -/
theorem keeps_walkScript {k m level : ℕ} {c : Loc} {dirpath : Bytes} (h : m + k ≤ bound) :
    Keeps e.perform (Bounded bound) (Open bound m) (e.walkScript k level c dirpath)
      (Open bound m) := by
  induction k generalizing m level c dirpath with
  | zero => exact (closed_open m).stop _
  | succ k ih =>
    have hC : ∀ m, Closed fun as =>
        Keeps e.perform (Bounded bound) (Open bound m) as (Open bound m) := closed_open
    rw [walkScript]
    cases e.dstatus c dirpath with
    | none => exact (hC m).refused
    | some dstatus =>
      refine (hC m).append _ _ ((hC m).whenever (hC m).look) ?_
      rw [bodyScript]
      cases e.directory c dirpath with
      | none => exact (hC m).refused
      | some p =>
        refine (keeps_opendir (by omega)).cons ?_
        cases sized c.path with
        | none => exact .action (fun _ hs => hs.2) fun _ _ h => by cases h
        | some _ =>
          have henter : Keeps e.perform (Bounded bound) (Open bound (m + 1))
              [.kernel (some (.enter p.1))] (Open bound (m + 1)) :=
            keeps_open fun s => by rw [perform]; split_ifs <;> exact ⟨rfl, rfl⟩
          have hrestore : Keeps e.perform (Bounded bound) (Open bound m) [.restore c]
              (Open bound m) :=
            keeps_open fun s => by rw [perform]; split_ifs <;> exact ⟨rfl, rfl⟩
          have hentries : Keeps e.perform (Bounded bound) (Open bound (m + 1))
              (e.entriesScript (e.walkScript k (level + 1) (e.inside c p.1)) (e.inside c p.1)
                dirpath dstatus level p.2.dirents) (Open bound (m + 1)) :=
            (hC (m + 1)).entriesScript (fun q => ih (by omega)) _
          have hclear : Keeps e.perform (Bounded bound) (Open bound (m + 1)) [.clear]
              (Open bound (m + 1)) := keeps_open fun _ => ⟨rfl, rfl⟩
          have hcheck : Keeps e.perform (Bounded bound) (Open bound (m + 1)) [.check]
              (Open bound (m + 1)) := keeps_open fun _ => ⟨rfl, rfl⟩
          exact (hC (m + 1)).probe.cons (((hC (m + 1)).whenever henter).append (hclear.cons
            (hentries.append (hcheck.cons (keeps_closedir.cons ((hC m).whenever hrestore))))))

/-! ### Paths that do not fit -/

/-- `e.Builds k c dirpath p`: a walk over `dirpath` from `c` that may open `k` directories builds
the path `p` in `fpath`, if nothing ends it before. -/
inductive Builds (e : Env) : ℕ → Loc → Bytes → Bytes → Prop
  /-- The path of an entry. -/
  | entry {k : ℕ} {c d : Loc} {dirpath d_name : Bytes} {d_type : DType} {es : Listing}
      (hdir : e.directory c dirpath = some (d, es)) (hmem : (d_name, d_type) ∈ es.dirents)
      (hdots : ¬(d_name = dot ∨ d_name = dotdot)) :
      Builds e (k + 1) c dirpath (e.fpath dirpath d_name)
  /-- What is built below an entry. -/
  | child {k : ℕ} {c d : Loc} {dirpath d_name p : Bytes} {d_type : DType} {es : Listing}
      (hdir : e.directory c dirpath = some (d, es)) (hmem : (d_name, d_type) ∈ es.dirents)
      (hfollow : e.followed d_type = false)
      (hp : Builds e k (e.inside c d) (e.fpath dirpath d_name) p) : Builds e (k + 1) c dirpath p
  /-- What is built below the file that a followed link leads to. -/
  | linked {k : ℕ} {c d l : Loc} {dirpath d_name p : Bytes} {d_type : DType} {es : Listing}
      (hdir : e.directory c dirpath = some (d, es)) (hmem : (d_name, d_type) ∈ es.dirents)
      (hfollow : e.followed d_type = true)
      (hreal : e.fs.resolve e.depth true (e.inside c d) (e.fpath dirpath d_name) = some l)
      (hp : Builds e k (e.inside c d) l.path p) : Builds e (k + 1) c dirpath p

theorem overflow_mem_visitScript {script : Bytes → List Event} {c : Loc} {dstatus : Option Stat}
    {level : ℕ} {d_name fpath : Bytes} {d_type : DType}
    (h : .stop .overflow ∈ e.visitScript script c dstatus level d_name d_type fpath) :
    .stop .overflow ∈ script fpath := by
  rw [visitScript] at h
  cases hstat : e.fs.lstat e.depth c fpath with
  | none => simp [hstat] at h
  | some status =>
    rw [hstat] at h
    dsimp only at h
    split_ifs at h <;> simp at h <;> exact h

/-- A path that does not fit is that of the entry itself or comes up in the walk over it. -/
theorem overflow_mem_entryScript {script : Bytes → List Event} {c : Loc} {dirpath : Bytes}
    {dstatus : Option Stat} {level : ℕ} {d_name : Bytes} {d_type : DType}
    (h : .stop .overflow ∈ e.entryScript script c dirpath dstatus level d_name d_type) :
    (¬(d_name = dot ∨ d_name = dotdot) ∧ pathMax ≤ (e.fpath dirpath d_name).length) ∨
    (e.followed d_type = false ∧ .stop .overflow ∈ script (e.fpath dirpath d_name)) ∨
    (e.followed d_type = true ∧ ∃ l, e.fs.resolve e.depth true c (e.fpath dirpath d_name) = some l ∧
      .stop .overflow ∈ script l.path) := by
  rw [entryScript] at h
  by_cases hdots : d_name = dot ∨ d_name = dotdot
  · simp [hdots] at h
  rw [if_neg hdots] at h
  by_cases hlong : pathMax ≤ (e.fpath dirpath d_name).length
  · exact .inl ⟨hdots, hlong⟩
  rw [if_neg hlong] at h
  cases hfollow : e.followed d_type with
  | false =>
    rw [hfollow, if_neg (by simp)] at h
    exact .inr (.inl ⟨rfl, overflow_mem_visitScript h⟩)
  | true =>
    rw [hfollow, if_pos rfl] at h
    cases hreal : e.fs.resolve e.depth true c (e.fpath dirpath d_name) with
    | none => simp [hreal] at h
    | some l =>
      rw [hreal, Option.bind_some, sized] at h
      by_cases hfit : l.path.length < pathMax
      · rw [if_pos hfit] at h
        have hvisit : .stop .overflow ∈
            e.visitScript script c dstatus level d_name d_type l.path := by simpa using h
        exact .inr (.inr ⟨rfl, l, rfl, overflow_mem_visitScript hvisit⟩)
      · rw [if_neg hfit] at h
        simp at h

theorem overflow_mem_entriesScript {script : Bytes → List Event} {c : Loc} {dirpath : Bytes}
    {dstatus : Option Stat} {level : ℕ} {ds : List (Bytes × DType)}
    (h : .stop .overflow ∈ e.entriesScript script c dirpath dstatus level ds) :
    ∃ d ∈ ds, .stop .overflow ∈ e.entryScript script c dirpath dstatus level d.1 d.2 := by
  induction ds with
  | nil => simp [entriesScript] at h
  | cons d ds ih =>
    rw [entriesScript, List.mem_cons, List.mem_append] at h
    rcases h with h | h | h
    · cases h
    · exact ⟨d, List.mem_cons_self, h⟩
    · obtain ⟨d', hd', h'⟩ := ih h
      exact ⟨d', List.mem_cons_of_mem _ hd', h'⟩

/-- **What is written past `fpath`** is a path that the walk builds. -/
theorem exists_builds {k level : ℕ} {c : Loc} {dirpath : Bytes}
    (h : .stop .overflow ∈ e.walkScript k level c dirpath) :
    ∃ p, e.Builds k c dirpath p ∧ pathMax ≤ p.length := by
  induction k generalizing level c dirpath with
  | zero => simp [walkScript] at h
  | succ k ih =>
    rw [walkScript] at h
    cases hstat : e.dstatus c dirpath with
    | none => simp [hstat] at h
    | some dstatus =>
      rw [hstat] at h
      dsimp only at h
      rw [bodyScript] at h
      cases hdir : e.directory c dirpath with
      | none => simp [hdir, apply_ite (Event.stop Stop.overflow ∈ ·)] at h
      | some p =>
        obtain ⟨d, es⟩ := p
        rw [hdir] at h
        dsimp only at h
        -- only the loop over the entries comes to such a path
        have hentries : .stop .overflow ∈ e.entriesScript
            (e.walkScript k (level + 1) (e.inside c d)) (e.inside c d) dirpath dstatus level
            es.dirents := by
          cases hcwd : sized c.path with
          | none => simp [hcwd, apply_ite (Event.stop Stop.overflow ∈ ·)] at h
          | some _ => simpa [hcwd, apply_ite (Event.stop Stop.overflow ∈ ·)] using h
        obtain ⟨⟨d_name, d_type⟩, hmem, hentry⟩ := overflow_mem_entriesScript hentries
        rcases overflow_mem_entryScript hentry with ⟨hdots, hlong⟩ | ⟨hfollow, hwalk⟩ |
          ⟨hfollow, l, hreal, hwalk⟩
        · exact ⟨_, .entry hdir hmem hdots, hlong⟩
        · obtain ⟨p, hp, hlong⟩ := ih hwalk
          exact ⟨p, .child hdir hmem hfollow hp, hlong⟩
        · obtain ⟨p, hp, hlong⟩ := ih hwalk
          exact ⟨p, .linked hdir hmem hfollow hreal hp, hlong⟩

/-- `doc`. -/
def doc : FileName := ⟨[100, 111, 99], by decide⟩

/-- `src`. -/
def src : FileName := ⟨[115, 114, 99], by decide⟩

/-- `log`. -/
def log : FileName := ⟨[108, 111, 103], by decide⟩

/-- The file `src` and a link to `/doc`. -/
def docEntries : Listing :=
  .file src ⟨1, 4⟩ <| .link log ⟨1, 5⟩ ⟨[47, 100, 111, 99], by decide⟩ .nil

/-- The directory `doc` with these entries: the link leads to the directory it is in. -/
def sampleFS : FS where
  rootStat := ⟨1, 2⟩
  entries := .dots false <| .dots true <| .dir doc ⟨1, 3⟩ docEntries .nil
  distinct := by decide

/-- No call of the kernel fails, and every callback does the same. -/
def sampleEnv (flags : ℕ) (callback : ℤ → ℤ × ℤ) : Env where
  fs := sampleFS
  depth := 2
  flags := flags
  callback := fun _ errno => callback errno
  fails := fun _ => false
  restoreFails := fun _ => false
  errnos := fun _ => ⟨5, by decide⟩
  -- `EINVAL`
  leaves := fun _ _ => 22

/-- A process in the root. -/
def home : Proc := ⟨[], 0, 0, [], 0, 0⟩

/-- The paths of a walk over `doc` in which the link is followed. -/
theorem builds_sampleEnv {callback : ℤ → ℤ × ℤ} {k : ℕ} {dirpath p : Bytes}
    (hdir : dirpath = doc.val ∨ dirpath = slash :: doc.val)
    (h : (sampleEnv 0 callback).Builds k [] dirpath p) : p.length < pathMax := by
  induction k generalizing dirpath with
  | zero => cases h
  | succ k ih =>
    have hdoc : (sampleEnv 0 callback).directory [] dirpath = some ([doc], docEntries) := by
      rcases hdir with rfl | rfl <;> rfl
    have hchdir : (sampleEnv 0 callback).chdir = false :=
      (by decide : (0 &&& ftwChdir == ftwChdir) = false)
    have hpath : ∀ d_name, (sampleEnv 0 callback).fpath dirpath d_name =
        dirpath ++ slash :: d_name := fun d_name => by rw [fpath, hchdir, if_neg (by simp)]
    have hinside : (sampleEnv 0 callback).inside [] [doc] = [] := by
      rw [inside, hchdir, if_neg (by simp)]
    have hnames : ∀ {d_name : Bytes} {d_type : DType}, (d_name, d_type) ∈ docEntries.dirents →
        (d_name = src.val ∧ d_type = .file) ∨ (d_name = log.val ∧ d_type = .lnk) := by
      simp [docEntries, Listing.dirents]
    cases h with
    | entry hdir' hmem hdots =>
      cases hdoc.symm.trans hdir'
      rw [hpath]
      rcases hnames hmem with ⟨rfl, -⟩ | ⟨rfl, -⟩ <;> rcases hdir with rfl | rfl <;> decide
    | child hdir' hmem hfollow hp =>
      cases hdoc.symm.trans hdir'
      rw [hpath, hinside] at hp
      rcases hnames hmem with ⟨rfl, -⟩ | ⟨-, rfl⟩
      · -- there is no directory at `src`
        have hopen : sampleFS.opendir 2 [] (dirpath ++ slash :: src.val) = none := by
          rcases hdir with rfl | rfl <;> decide
        have hsrc : (sampleEnv 0 callback).directory [] (dirpath ++ slash :: src.val) = none :=
          Option.map_eq_none_iff.mp (opendir_eq.symm.trans hopen)
        cases hp with
        | entry h _ _ => cases hsrc.symm.trans h
        | child h _ _ _ => cases hsrc.symm.trans h
        | linked h _ _ _ _ => cases hsrc.symm.trans h
      · have hlnk : (sampleEnv 0 callback).followed .lnk = true :=
          (by decide : (DType.lnk == .lnk && !(0 &&& ftwPhys != 0)) = true)
        cases hfollow.symm.trans hlnk
    | linked hdir' hmem hfollow hreal hp =>
      cases hdoc.symm.trans hdir'
      rw [hpath, hinside] at hreal
      rw [hinside] at hp
      rcases hnames hmem with ⟨-, rfl⟩ | ⟨rfl, -⟩
      · cases hfollow
      · have hlog : sampleFS.resolve 2 true [] (dirpath ++ slash :: log.val) = some [doc] := by
          rcases hdir with rfl | rfl <;> decide
        cases hlog.symm.trans hreal
        exact ih (.inr rfl) hp

/-- The path `doc/././.`, with the given number of dots. -/
def dotted : ℕ → Bytes
  | 0 => doc.val
  | n + 1 => dotted n ++ slash :: dot

theorem length_dotted (n : ℕ) : (dotted n).length = 3 + 2 * n := by
  induction n with
  | zero => rfl
  | succ n ih =>
    rw [dotted, List.length_append, ih]
    change 3 + 2 * n + 2 = _
    omega

theorem resolve_dotted (n : ℕ) : sampleFS.resolve 2 true [] (dotted n) = some [doc] := by
  induction n with
  | zero => decide
  | succ n ih =>
    rw [dotted, FS.resolve_append ih (by decide) (by decide)]
    decide

/-- A walk over `doc` ends with its first entry if the path to it is long. -/
theorem overflow_of_long {p : Bytes} (hleads : sampleFS.resolve 2 true [] p = some [doc])
    (hlong : pathMax ≤ p.length + 4) :
    ∃ t, (sampleEnv 0 fun _ => (0, 0)).nftw 2 p 0 home = .stop .overflow t := by
  have hcwd : sampleFS.listing home.cwd = some sampleFS.entries := rfl
  have hnode : sampleFS.node [doc] = some (.dir ⟨1, 3⟩ docEntries) := rfl
  have hlisting : sampleFS.listing [doc] = some docEntries := rfl
  have hdir : (sampleEnv 0 fun _ => (0, 0)).directory [] p = some ([doc], docEntries) :=
    directory_eq_some.mpr ⟨hleads, hlisting⟩
  have hfirst : ∀ (script : Bytes → List Event) (c : Loc),
      (sampleEnv 0 fun _ => (0, 0)).entryScript script c p none 0 src.val .file =
        [.stop .overflow] := by
    intro script c
    have hpath : pathMax ≤ ((sampleEnv 0 fun _ => (0, 0)).fpath p src.val).length := by
      rw [fpath, if_neg (by decide), List.length_append]
      exact hlong
    rw [entryScript, if_neg (by decide), if_pos hpath]
  obtain ⟨post, hscript⟩ : ∃ post, (sampleEnv 0 fun _ => (0, 0)).nftwScript 0 home.cwd p =
      [.kernel (some .open), .kernel (some .probe), .clear, .kernel (some .look)] ++
        .stop .overflow :: post := by
    have hwalk : (sampleEnv 0 fun _ => (0, 0)).nftwScript 0 home.cwd p = _ :=
      walkScript_succ hleads hnode
    rw [hwalk, if_neg (by decide), if_neg (by decide), bodyScript, show home.cwd = [] from rfl,
      hdir]
    dsimp only [docEntries, Listing.dirents]
    rw [entriesScript, hfirst]
    exact ⟨_, rfl⟩
  rw [(nftw_eq (show (0 + 1 : ℤ).toNat < 2 by decide) hcwd p).1, hscript, run_of_stop rfl rfl]
  exact ⟨_, rfl⟩

end Peak

end Env

end Nftw

end Tlpiexer
