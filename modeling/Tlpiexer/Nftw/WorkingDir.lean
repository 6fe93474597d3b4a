import Tlpiexer.Nftw.Errno

/-!
# The working directory of a walk

With `FTW_CHDIR`, `fwalk` goes into the directory it reads, and back at its normal end. Every other
way out of it leaves the process where it is, and the calls of `fwalk` above return at once as well.
So the working directory is the old one if nothing goes wrong in the whole walk, or if something
does before the first directory is gone into.

## Walks through the starting directory

A walk may come to the directory it was started in, from above or through a link, and be ended
there; then the working directory is the old one by accident. `nftw_restores` says that the
condition is enough for every walk, and necessary for those that do not go into the starting
directory.

## Main results

* `Nftw.Env.run_eq_none_iff_undisturbed` — when the events of a walk all go right
* `Nftw.Env.nftw_restores` — when the working directory is the old one afterwards
-/

namespace Tlpiexer

namespace Nftw

open CString Path FileSystem Script

namespace Env

variable {e : Env} {s : Proc} {as : List Event}

/-! ### Walks in which nothing goes wrong -/

/-- The number of calls of the kernel among the events. -/
def kernelCalls (as : List Event) : ℕ :=
  as.countP fun
    | .kernel (some _) => true
    | .restore _ => true
    | _ => false

/-- **Nothing goes wrong.** No directory lies too deep, every path fits and leads somewhere, no call
of the kernel fails, callbacks return 0 and `errno` is 0 at the end of every directory. The calls
are counted by the events before them. -/
structure Undisturbed (e : Env) (s : Proc) (as : List Event) : Prop where
  stop : ∀ x, Event.stop x ∉ as
  refused : Event.kernel none ∉ as
  fails : ∀ pre f post, as = pre ++ .kernel (some f) :: post →
    e.fails (s.ticks + kernelCalls pre) = false
  restoreFails : ∀ pre d post, as = pre ++ .restore d :: post →
    e.restoreFails (s.ticks + kernelCalls pre) = false
  callback : ∀ pre c post, as = pre ++ .callback c :: post →
    (e.callback (s.calls ++ callbacks pre ++ [c]) (e.errnoAfter s pre)).1 = 0
  errno : ∀ pre post, as = pre ++ .check :: post → e.errnoAfter s pre = 0

theorem ticks_foldl (as : List Event) (s : Proc) :
    (as.foldl e.after s).ticks = s.ticks + kernelCalls as := by
  induction as generalizing s with
  | nil => rfl
  | cons x as ih =>
    rw [List.foldl_cons, ih, kernelCalls, kernelCalls, List.countP_cons]
    cases x with
    | kernel f =>
      cases f with
      | none => rfl
      | some f => cases f <;> exact Nat.add_right_comm _ _ _
    | restore d => exact Nat.add_right_comm _ _ _
    | _ => rfl

/-- The events of a walk all go right if and only if nothing goes wrong. -/
theorem run_eq_none_iff_undisturbed :
    (run e.perform s as).2 = none ↔ Undisturbed e s as := by
  constructor
  · intro h
    -- every event goes right in the state that those before it lead to
    have hright : ∀ pre x post, as = pre ++ x :: post →
        (e.perform (pre.foldl e.after s) x).2 = none := by
      rintro pre x post rfl
      obtain ⟨hpre, hx⟩ := of_run_append_cons h
      rwa [run_of_none hpre] at hx
    refine ⟨(unbarred_of_run h).stop, (unbarred_of_run h).refused, ?_, ?_, ?_, ?_⟩
    · intro pre f post hsplit
      have hx := hright pre _ post hsplit
      rw [perform, ticks_foldl] at hx
      split_ifs at hx with hfails
      simpa using hfails
    · intro pre d post hsplit
      have hx := hright pre _ post hsplit
      rw [perform, ticks_foldl] at hx
      split_ifs at hx with hfails
      simpa using hfails
    · intro pre c post hsplit
      have hx := hright pre _ post hsplit
      rw [perform, calls_foldl] at hx
      by_contra hne
      rw [errnoAfter] at hne
      rw [if_pos hne] at hx
      cases hx
    · intro pre post hsplit
      have hx := hright pre _ post hsplit
      rw [perform] at hx
      by_contra hne
      rw [errnoAfter] at hne
      rw [if_pos hne] at hx
      cases hx
  · intro h
    cases hrun : (run e.perform s as).2 with
    | none => rfl
    | some y =>
      obtain ⟨pre, x, post, hsplit, hpre, hx, -⟩ := exists_of_run_eq_some hrun
      rw [run_of_none hpre] at hx
      cases x with
      | stop z => exact absurd (by simp [hsplit]) (h.stop z)
      | kernel f =>
        cases f with
        | none => exact absurd (by simp [hsplit]) h.refused
        | some f =>
          rw [perform, ticks_foldl, h.fails pre f post hsplit] at hx
          cases hx
      | restore d =>
        rw [perform, ticks_foldl, h.restoreFails pre d post hsplit] at hx
        cases hx
      | clear => cases hx
      | check =>
        have herrno := h.errno pre post hsplit
        rw [errnoAfter] at herrno
        rw [perform, herrno] at hx
        cases hx
      | callback c =>
        have hzero := h.callback pre c post hsplit
        rw [errnoAfter] at hzero
        rw [perform, calls_foldl, hzero] at hx
        cases hx

/-! ### Where the process is -/

/-- The event leads to the directory `d`. -/
def Event.Leads (x : Event) (d : Loc) : Prop := x = .kernel (some (.enter d)) ∨ x = .restore d

/-- None of the events leads anywhere. -/
def Still (as : List Event) : Prop := ∀ x ∈ as, ∀ d, ¬ x.Leads d

theorem cwd_after {x : Event} {d : Loc} (h : x.Leads d) : (e.after s x).cwd = d := by
  rcases h with rfl | rfl <;> rfl

theorem cwd_after_of_still {x : Event} (h : ∀ d, ¬ x.Leads d) : (e.after s x).cwd = s.cwd := by
  cases x with
  | kernel f =>
    cases f with
    | none => rfl
    | some f =>
      cases f with
      | enter d => exact absurd (.inl rfl) (h d)
      | _ => rfl
  | restore d => exact absurd (.inr rfl) (h d)
  | _ => rfl

/-- The process stays where it is, or is where some event has led it. -/
theorem cwd_foldl (as : List Event) (s : Proc) :
    (Still as ∧ (as.foldl e.after s).cwd = s.cwd) ∨ ∃ x ∈ as, x.Leads (as.foldl e.after s).cwd := by
  induction as generalizing s with
  | nil => exact .inl ⟨by simp [Still], rfl⟩
  | cons x as ih =>
    rw [List.foldl_cons]
    rcases ih (e.after s x) with ⟨hstill, hcwd⟩ | ⟨y, hy, hleads⟩
    · by_cases hx : ∃ d, x.Leads d
      · obtain ⟨d, hd⟩ := hx
        refine .inr ⟨x, List.mem_cons_self, ?_⟩
        rwa [hcwd, cwd_after hd]
      · push Not at hx
        refine .inl ⟨?_, hcwd.trans (cwd_after_of_still hx)⟩
        rintro y hy
        rcases List.mem_cons.mp hy with rfl | hy
        · exact hx
        · exact hstill y hy
    · exact .inr ⟨y, List.mem_cons_of_mem _ hy, hleads⟩

/-- An event that goes wrong leads nowhere. -/
theorem cwd_perform_of_some {x : Event} {y : Stop} (h : (e.perform s x).2 = some y) :
    (e.perform s x).1.cwd = s.cwd := by
  cases x with
  | kernel f =>
    cases f with
    | none => rfl
    | some f =>
      rw [perform] at h ⊢
      split_ifs at h ⊢
      rfl
  | restore d =>
    rw [perform] at h ⊢
    split_ifs at h ⊢
    rfl
  | stop => rfl
  | clear => rfl
  | check => rfl
  | callback => rfl

/-! ### Into a directory and back -/

section Shape

variable {k level : ℕ} {c : Loc} {dirpath : Bytes}

theorem closed_still : Closed Still where
  nil := by simp [Still]
  append as bs h h' x hx := (List.mem_append.mp hx).elim (h x) (h' x)
  stop := by simp [Still, Event.Leads]
  refused := by simp [Still, Event.Leads]
  look := by simp [Still, Event.Leads]
  probe := by simp [Still, Event.Leads]
  callback := by simp [Still, Event.Leads]

/-- Without `FTW_CHDIR` the process stays where it is. -/
theorem still_walkScript (h : e.chdir = false) : Still (e.walkScript k level c dirpath) := by
  have hC := closed_still
  have hone : ∀ x : Event, (∀ d, ¬ x.Leads d) → Still [x] := by simp [Still]
  induction k generalizing level c dirpath with
  | zero => exact hC.stop _
  | succ k ih =>
    rw [walkScript]
    cases e.dstatus c dirpath with
    | none => exact hC.refused
    | some dstatus =>
      refine hC.append _ _ (hC.whenever hC.look) ?_
      rw [bodyScript]
      cases e.directory c dirpath with
      | none => exact hC.refused
      | some p =>
        refine hC.cons (hone _ (by simp [Event.Leads])) ?_
        cases sized c.path with
        | none => exact hC.refused
        | some _ =>
          simp only [h]
          have hclear : Still [.clear] := hone _ (by simp [Event.Leads])
          have hcheck : Still [.check] := hone _ (by simp [Event.Leads])
          have hclose : Still [.kernel (some .close)] := hone _ (by simp [Event.Leads])
          exact hC.cons hC.probe (hC.cons hclear (hC.append _ _ (hC.entriesScript (fun q => ih) _)
            (hC.cons hcheck (hC.cons hclose hC.nil))))

/-- Every way back leads to `c`, or to a directory that was gone into. -/
def Returns (c : Loc) (as : List Event) : Prop :=
  ∀ d, .restore d ∈ as → d = c ∨ .kernel (some (.enter d)) ∈ as

theorem closed_returns (c : Loc) : Closed (Returns c) where
  nil := by simp [Returns]
  append as bs h h' d hd := by
    rcases List.mem_append.mp hd with hd | hd
    · exact (h d hd).imp_right (List.mem_append_left _)
    · exact (h' d hd).imp_right (List.mem_append_right _)
  stop := by simp [Returns]
  refused := by simp [Returns]
  look := by simp [Returns]
  probe := by simp [Returns]
  callback := by simp [Returns]

/-- **The shape of a walk**: it leads nowhere, or it leads into a directory and, with its last
event, back; in between, every way back leads to a directory that was gone into. -/
def Shaped (c : Loc) (as : List Event) : Prop :=
  Still as ∨ ∃ pre d mid, as = pre ++ .kernel (some (.enter d)) :: mid ++ [.restore c] ∧
    Still pre ∧ ∀ d', .restore d' ∈ mid → .kernel (some (.enter d')) ∈ as

theorem Shaped.returns {as : List Event} (h : Shaped c as) : Returns c as := by
  intro d hd
  rcases h with hstill | ⟨pre, d₀, mid, rfl, hpre, hmid⟩
  · exact absurd (.inr rfl) (hstill _ hd d)
  · rcases List.mem_append.mp hd with hd | hd
    · rcases List.mem_append.mp hd with hd | hd
      · exact absurd (.inr rfl) (hpre _ hd d)
      · rcases List.mem_cons.mp hd with hd | hd
        · cases hd
        · exact .inr (hmid d hd)
    · cases List.mem_singleton.mp hd
      exact .inl rfl

theorem shaped_walkScript : Shaped c (e.walkScript k level c dirpath) := by
  cases hchdir : e.chdir with
  | false => exact .inl (still_walkScript hchdir)
  | true =>
    have hC := closed_still
    induction k generalizing level c dirpath with
    | zero => exact .inl (hC.stop _)
    | succ k ih =>
      rw [walkScript]
      cases e.dstatus c dirpath with
      | none => exact .inl hC.refused
      | some dstatus =>
        dsimp only
        have hlook : Still (if e.mount then [.kernel (some .look)] else []) := hC.whenever hC.look
        have hopen : Still [.kernel (some .open)] := by simp [Still, Event.Leads]
        rw [bodyScript]
        cases e.directory c dirpath with
        | none => exact .inl (hC.append _ _ hlook hC.refused)
        | some p =>
          obtain ⟨d, es⟩ := p
          dsimp only
          cases sized c.path with
          | none => exact .inl (hC.append _ _ hlook (hC.cons hopen hC.refused))
          | some _ =>
            dsimp only
            rw [hchdir, if_pos rfl, if_pos rfl]
            have hinside : e.inside c d = d := by rw [inside, hchdir, if_pos rfl]
            have hwalk : ∀ p, Returns d (e.walkScript k (level + 1) (e.inside c d) p) := by
              rw [hinside]
              exact fun p => ih.returns
            have hentries : Returns d (e.entriesScript (e.walkScript k (level + 1) (e.inside c d))
                (e.inside c d) dirpath dstatus level es.dirents) :=
              (closed_returns d).entriesScript hwalk _
            refine .inr ⟨(if e.mount then [.kernel (some .look)] else []) ++
              [.kernel (some .open), .kernel (some .probe)], d, .clear ::
                (e.entriesScript (e.walkScript k (level + 1) (e.inside c d)) (e.inside c d) dirpath
                  dstatus level es.dirents ++ [.check, .kernel (some .close)]), by simp,
              hC.append _ _ hlook (hC.cons hopen hC.probe), fun d' hd' => ?_⟩
            have hmem : .restore d' ∈ e.entriesScript (e.walkScript k (level + 1) (e.inside c d))
                (e.inside c d) dirpath dstatus level es.dirents := by simpa using hd'
            rcases hentries d' hmem with rfl | henter
            · simp
            · simp [henter]

end Shape

/-! ### The working directory afterwards -/

/-- **What the working directory needs**: nothing goes wrong in the whole walk, or something does
before the first directory has been gone into. -/
def Settled (e : Env) (s : Proc) (as : List Event) : Prop :=
  Undisturbed e s as ∨ ∀ pre d post, as = pre ++ .kernel (some (.enter d)) :: post →
    ¬ Undisturbed e s (pre ++ [.kernel (some (.enter d))])

/-- A walk that is ended has gone through the events before, and has stayed where they have led
it. -/
theorem exists_of_failure {t : Proc} (h : run e.perform s as = (t, some .failure)) :
    ∃ pre x post, as = pre ++ x :: post ∧ (run e.perform s pre).2 = none ∧
      (e.perform (run e.perform s pre).1 x).2 = some .failure ∧
      t.cwd = (pre.foldl e.after s).cwd := by
  obtain ⟨pre, x, post, hsplit, hpre, hx, hrun⟩ := exists_of_run_eq_some (congrArg Prod.snd h)
  refine ⟨pre, x, post, hsplit, hpre, hx, ?_⟩
  rw [← run_of_none hpre, ← cwd_perform_of_some hx, ← hrun, h]

/-- If a walk has gone into no directory, it has left none either. -/
theorem Shaped.still {c : Loc} {pre post : List Event} (h : Shaped c (pre ++ post))
    (hpre : ∀ d, .kernel (some (.enter d)) ∉ pre) : Still pre := by
  rcases h with hstill | ⟨p, d, mid, hsplit, hp, -⟩
  · exact fun x hx => hstill x (List.mem_append_left _ hx)
  · rw [List.append_assoc, List.append_eq_append_iff] at hsplit
    rcases hsplit with ⟨q, rfl, -⟩ | ⟨q, rfl, hq⟩
    · exact fun x hx => hp x (List.mem_append_left _ hx)
    · cases q with
      | nil => rwa [List.append_nil]
      | cons x q =>
        obtain ⟨rfl, -⟩ := List.cons.inj hq
        exact absurd (by simp) (hpre d)

/-- Before its last event, a walk has only gone back to directories that it goes into. -/
theorem Shaped.mem_of_restore {c d : Loc} {pre post : List Event} {x : Event}
    (h : Shaped c (pre ++ x :: post)) (hd : .restore d ∈ pre) :
    .kernel (some (.enter d)) ∈ pre ++ x :: post := by
  rcases h with hstill | ⟨p, d₀, mid, hsplit, hp, hmid⟩
  · exact absurd (.inr rfl) (hstill _ (List.mem_append_left _ hd) d)
  · refine hmid d ?_
    have hinit : pre ++ (x :: post).dropLast = p ++ .kernel (some (.enter d₀)) :: mid := by
      rw [← List.dropLast_append_of_ne_nil (by simp), hsplit, List.dropLast_concat]
    have hmem : .restore d ∈ p ++ .kernel (some (.enter d₀)) :: mid :=
      hinit ▸ List.mem_append_left _ hd
    rcases List.mem_append.mp hmem with hmem | hmem
    · exact absurd (.inr rfl) (hp _ hmem d)
    · rcases List.mem_cons.mp hmem with hmem | hmem
      · cases hmem
      · exact hmem

/-- What has gone right belongs to what was done before the event that went wrong. -/
theorem mem_of_undisturbed {pre post pre' post' : List Event} {x y : Event} {z : Stop}
    (hsplit : pre ++ x :: post = pre' ++ y :: post') (hpre : (run e.perform s pre).2 = none)
    (hx : (e.perform (run e.perform s pre).1 x).2 = some z)
    (h : Undisturbed e s (pre' ++ [y])) : y ∈ pre := by
  rw [← run_eq_none_iff_undisturbed] at h
  rw [List.append_eq_append_iff] at hsplit
  rcases hsplit with ⟨q, rfl, hq⟩ | ⟨q, rfl, hq⟩
  · -- the event that goes wrong would be one of those that went right
    cases q with
    | nil =>
      obtain ⟨rfl, -⟩ := List.cons.inj hq
      rw [List.append_nil] at h
      cases (of_run_append_cons h).2.symm.trans hx
    | cons w q =>
      obtain ⟨rfl, -⟩ := List.cons.inj hq
      rw [List.append_assoc, List.cons_append] at h
      cases (of_run_append_cons h).2.symm.trans hx
  · cases q with
    | nil =>
      obtain ⟨rfl, -⟩ := List.cons.inj hq
      rw [List.append_nil] at hpre hx
      cases (of_run_append_cons h).2.symm.trans hx
    | cons w q =>
      obtain ⟨rfl, -⟩ := List.cons.inj hq
      simp

/-- **The working directory after `nftw` has returned** is the one before, if nothing goes wrong, or
something does before the first directory has been gone into. For a walk that does not go into the
starting directory this is also necessary. -/
theorem nftw_restores {nfd : ℤ} {fuel : ℕ} {es : Listing} {dirpath : Bytes} {t : Proc}
    (hfuel : (nfd + 1).toNat < fuel) (hcwd : e.fs.listing s.cwd = some es)
    (h : e.nftw fuel dirpath nfd s = .value () t ∨ e.nftw fuel dirpath nfd s = .stop .failure t) :
    (Settled e s (e.nftwScript nfd s.cwd dirpath) → t.cwd = s.cwd) ∧
    ((∀ d, .kernel (some (.enter d)) ∈ e.nftwScript nfd s.cwd dirpath → d ≠ s.cwd) →
      t.cwd = s.cwd → Settled e s (e.nftwScript nfd s.cwd dirpath)) := by
  obtain ⟨hnftw, hreturn⟩ := nftw_eq hfuel hcwd dirpath
  have hshape : Shaped s.cwd (e.nftwScript nfd s.cwd dirpath) := shaped_walkScript
  rw [hnftw, ofRun_eq_value_iff, ofRun_eq_stop_iff, and_iff_right rfl] at h
  rcases h with hvalue | hstop
  · have hnone : (run e.perform s (e.nftwScript nfd s.cwd dirpath)).2 = none := by rw [hvalue]
    have hback := hreturn hnone
    rw [hvalue] at hback
    exact ⟨fun _ => hback, fun _ _ => .inl (run_eq_none_iff_undisturbed.mp hnone)⟩
  · obtain ⟨pre, x, post, hsplit, hpre, hx, ht⟩ := exists_of_failure hstop
    rw [hsplit] at hshape ⊢
    rw [ht]
    constructor
    · rintro (hall | hnever)
      · have hx' := (of_run_append_cons (run_eq_none_iff_undisturbed.mpr hall)).2
        cases hx'.symm.trans hx
      · have hstill : Still pre := by
          refine hshape.still fun d hd => ?_
          obtain ⟨p, q, rfl⟩ := List.append_of_mem hd
          rw [List.append_cons] at hpre
          exact hnever p d (q ++ x :: post) (by simp)
            (run_eq_none_iff_undisturbed.mp (of_run_append hpre))
        rcases cwd_foldl (e := e) pre s with ⟨-, hcwd⟩ | ⟨y, hy, hleads⟩
        · exact hcwd
        · exact absurd hleads (hstill y hy _)
    · intro hhome hcwd
      refine .inr fun pre' d post' hsplit' hright => ?_
      have hmem : .kernel (some (.enter d)) ∈ pre := mem_of_undisturbed hsplit' hpre hx hright
      rcases cwd_foldl (e := e) pre s with ⟨hstill, -⟩ | ⟨y, hy, hleads⟩
      · exact hstill _ hmem d (.inl rfl)
      · rw [hcwd] at hleads
        rcases hleads with rfl | rfl
        · exact hhome s.cwd (List.mem_append_left _ hy) rfl
        · exact hhome s.cwd (hshape.mem_of_restore hy) rfl

/-- A walk over `doc` that goes into it and comes back. -/
theorem nftw_restores_doc :
    ∃ t, (sampleEnv (ftwChdir + ftwPhys) fun errno => (0, errno)).nftw 2 doc.val 0 home =
        .value () t ∧
      Settled (sampleEnv (ftwChdir + ftwPhys) fun errno => (0, errno)) home
        ((sampleEnv (ftwChdir + ftwPhys) fun errno => (0, errno)).nftwScript 0 home.cwd doc.val) ∧
      t.cwd = home.cwd := by
  have hcwd : sampleFS.listing home.cwd = some sampleFS.entries := rfl
  have hsettled : Settled (sampleEnv (ftwChdir + ftwPhys) fun errno => (0, errno)) home
      ((sampleEnv (ftwChdir + ftwPhys) fun errno => (0, errno)).nftwScript 0 home.cwd doc.val) :=
    .inl (run_eq_none_iff_undisturbed.mp rfl)
  exact ⟨_, rfl, hsettled,
    (nftw_restores (show (0 + 1 : ℤ).toNat < 2 by decide) hcwd (.inl rfl)).1 hsettled⟩

/-- A callback for `/doc/src` ends the walk in `/doc`. -/
theorem nftw_stays_in_doc : ∃ t,
    (sampleEnv ftwChdir fun errno => (1, errno)).nftw 3 doc.val 1 home = .stop .failure t ∧
      home.cwd = [] ∧ t.cwd = [doc] :=
  ⟨_, rfl, rfl, rfl⟩

end Env

end Nftw

end Tlpiexer
