import Tlpiexer.Constants
import Tlpiexer.Foundations.Descriptors

/-!
# Sockets for the first address that works

`isock_connect` and `isock_listen` of `src/lib/59-04-isock.c`. Both go through the addresses that
`getaddrinfo` returns. For each of them they create a socket and take some steps with it; the first
socket with which all steps succeed is returned, and the others are closed.

## What is recorded

The addresses themselves are only handed on to the kernel, whose answers are given for each position
in the list and each step. What a call does is recorded: every system call next to the position of
the address it is made for and the descriptor it is about.

## Main results

* `isock_picks_first` — the descriptor that is returned, and what is left open
-/

namespace Tlpiexer

namespace Isock

open Descriptors

/-- The system calls that are made for an address. -/
inductive Step
  | socket
  | setsockopt
  | bind
  | listen
  | connect
  deriving DecidableEq

/-- A system call, the position of the address it is made for, and the descriptor it is about or
returns. -/
structure Event where
  address : ℕ
  step : Step
  fd : Option ℕ
  deriving DecidableEq

/-- Which steps succeed at which address. -/
abbrev Answers := ℕ → Step → Bool

/-- How the loop over the addresses ends: the descriptor it is left with, if any, the table, and
what it has done. -/
structure Tried where
  fd : Option ℕ
  table : Finset ℕ
  events : List Event

/-! ### The functions -/

/-- The steps that are made with a socket, up to the first that fails. -/
def steps (ok : Answers) (i fd : ℕ) : List Step → Bool × List Event
  | [] => (true, [])
  | step :: rest =>
    if ok i step then
      let r := steps ok i fd rest
      (r.1, ⟨i, step, some fd⟩ :: r.2)
    else (false, [⟨i, step, some fd⟩])

/-- The loop over the addresses from position `i` on. -/
def tryAddrs {α : Type*} (ok : Answers) (todo : List Step) : List α → ℕ → Finset ℕ → Tried
  | [], _, table => ⟨none, table, []⟩
  | _ :: addrs, i, table =>
    if ok i .socket then
      let lfd := lowest table
      let r := steps ok i lfd todo
      if r.1 then ⟨some lfd, insert lfd table, ⟨i, .socket, some lfd⟩ :: r.2⟩
      else
        -- `close(lfd)`
        let next := tryAddrs ok todo addrs (i + 1) ((insert lfd table).erase lfd)
        { next with events := ⟨i, .socket, some lfd⟩ :: (r.2 ++ next.events) }
    else
      let next := tryAddrs ok todo addrs (i + 1) table
      { next with events := ⟨i, .socket, none⟩ :: next.events }

/-- A call that has to find an address: an error of `getaddrinfo` is returned as it is. -/
def withAddrs {α : Type*} (ok : Answers) (todo : List Step) (getaddrinfo : Except ℤ (List α))
    (table : Finset ℕ) : ℤ × Tried :=
  match getaddrinfo with
  | .error tres => (tres, ⟨none, table, []⟩)
  | .ok addrs =>
    let r := tryAddrs ok todo addrs 0 table
    (r.fd.elim fnEr (↑·), r)

/-- `isock_connect`. -/
def isock_connect {α : Type*} (ok : Answers) (getaddrinfo : Except ℤ (List α))
    (table : Finset ℕ) : ℤ × Tried :=
  withAddrs ok [.connect] getaddrinfo table

/-- `isock_listen`. -/
def isock_listen {α : Type*} (ok : Answers) (getaddrinfo : Except ℤ (List α))
    (table : Finset ℕ) : ℤ × Tried :=
  withAddrs ok [.setsockopt, .bind, .listen] getaddrinfo table

/-! ### The first address that works -/

/-- All steps succeed at a position. -/
def works (ok : Answers) (todo : List Step) (i : ℕ) : Bool := (Step.socket :: todo).all (ok i)

/-- All steps that are made for an address on a socket, `socket` being the first of them. -/
def allSteps (todo : List Step) (i fd : ℕ) : List Event :=
  (Step.socket :: todo).map fun step => ⟨i, step, some fd⟩

/-- What is expected of a call for `n` addresses: the socket of the first one at which all steps
succeed is returned and is the only one that is new in the table, what is done for this address are
all the steps on this socket, and nothing is done for any address behind it; without such an address
there is an error and no new socket. -/
def PicksFirst (ok : Answers) (todo : List Step) (n : ℕ) (table : Finset ℕ) (r : ℤ × Tried) :
    Prop :=
  match (List.range n).find? (works ok todo) with
  | some i => ∃ fd : ℕ, r.1 = fd ∧
      (r.2.events.filter fun e => e.address = i) = allSteps todo i fd ∧ fd ∉ table ∧
      r.2.table = insert fd table ∧ ∀ e ∈ r.2.events, e.address ≤ i
  | none => r.1 = fnEr ∧ r.2.table = table

section Loop

variable {ok : Answers} {todo : List Step} {table : Finset ℕ}

theorem steps_fst (ok : Answers) (i fd : ℕ) (todo : List Step) :
    (steps ok i fd todo).1 = todo.all (ok i) := by
  induction todo with
  | nil => rfl
  | cons step rest ih =>
    rw [steps, List.all_cons]
    cases ok i step with
    | true => exact ih
    | false => rfl

theorem address_of_mem_steps {i fd : ℕ} : ∀ e ∈ (steps ok i fd todo).2, e.address = i := by
  induction todo with
  | nil => exact nofun
  | cons step rest ih =>
    rw [steps]
    split
    · rw [List.forall_mem_cons]
      exact ⟨rfl, ih⟩
    · simp

theorem steps_snd {i fd : ℕ} (h : (steps ok i fd todo).1 = true) :
    (steps ok i fd todo).2 = todo.map fun step => ⟨i, step, some fd⟩ := by
  induction todo with
  | nil => rfl
  | cons step rest ih =>
    rw [steps] at h ⊢
    by_cases hok : ok i step = true
    · rw [if_pos hok] at h ⊢
      rw [List.map_cons, ← ih h]
    · rw [if_neg hok] at h
      cases h

/-- What the loop from position `i` on leaves. -/
structure Picked (ok : Answers) (todo : List Step) (n i : ℕ) (table : Finset ℕ) (r : Tried) :
    Prop where
  found : ∀ fd, r.fd = some fd → fd ∉ table ∧ r.table = insert fd table ∧
    ∃ k < n, works ok todo (i + k) = true ∧ (∀ j < k, works ok todo (i + j) = false) ∧
      (r.events.filter fun e => e.address = i + k) = allSteps todo (i + k) fd ∧
      ∀ e ∈ r.events, e.address ≤ i + k
  none_works : r.fd = none → r.table = table ∧ ∀ k < n, works ok todo (i + k) = false

/-- **One round that fails** leaves the rest to the addresses behind. -/
theorem Picked.next {n i : ℕ} {r : Tried} (events : List Event)
    (hevents : ∀ e ∈ events, e.address = i) (hfail : works ok todo i = false)
    (h : Picked ok todo n (i + 1) table r) :
    Picked ok todo (n + 1) i table { r with events := events ++ r.events } := by
  have hcases : ∀ {m : ℕ}, (∀ j < m, works ok todo (i + 1 + j) = false) →
      ∀ j < m + 1, works ok todo (i + j) = false := by
    intro m hm j hj
    cases j with
    | zero => exact hfail
    | succ j =>
      rw [show i + (j + 1) = i + 1 + j by omega]
      exact hm j (by omega)
  constructor
  · intro fd hfd
    obtain ⟨hnew, htable, k, hk, hworks, hbefore, hsteps, hle⟩ := h.found fd hfd
    refine ⟨hnew, htable, k + 1, by omega, ?_⟩
    rw [show i + (k + 1) = i + 1 + k by omega]
    refine ⟨hworks, hcases hbefore, ?_, ?_⟩
    · -- what is done in this round is done for another address
      have hnone : (events.filter fun e => e.address = i + 1 + k) = [] := by
        rw [List.filter_eq_nil_iff]
        intro e he
        rw [hevents e he, decide_eq_true_eq]
        omega
      rw [List.filter_append, hnone, List.nil_append, hsteps]
    · intro e he
      rcases List.mem_append.mp he with he | he
      · rw [hevents e he]
        omega
      · exact hle e he
  · intro hnone
    obtain ⟨htable, hall⟩ := h.none_works hnone
    exact ⟨htable, hcases hall⟩

/-- **What the loop over the addresses does.** -/
theorem tryAddrs_picked {α : Type*} (ok : Answers) (todo : List Step) :
    ∀ (addrs : List α) (i : ℕ) (table : Finset ℕ),
      Picked ok todo addrs.length i table (tryAddrs ok todo addrs i table)
  | [], i, table => ⟨nofun, fun _ => ⟨rfl, nofun⟩⟩
  | _ :: addrs, i, table => by
    rw [tryAddrs]
    by_cases hsocket : ok i .socket = true
    · rw [if_pos hsocket]
      have hworks : works ok todo i = (steps ok i (lowest table) todo).1 := by
        rw [steps_fst, works, List.all_cons, hsocket, Bool.true_and]
      by_cases hsteps : (steps ok i (lowest table) todo).1 = true
      · simp only [hsteps, if_true]
        refine ⟨?_, nofun⟩
        rintro _ ⟨⟩
        refine ⟨lowest_notMem table, rfl, 0, Nat.zero_lt_succ _, hworks.trans hsteps, nofun, ?_⟩
        have haddress : ∀ e ∈ allSteps todo i (lowest table), e.address = i := by simp [allSteps]
        rw [steps_snd hsteps]
        refine ⟨List.filter_eq_self.mpr fun e he => ?_, fun e he => (haddress e he).le⟩
        exact decide_eq_true (haddress e he)
      · simp only [if_neg hsteps, Finset.erase_insert (lowest_notMem table)]
        refine Picked.next (⟨i, .socket, some (lowest table)⟩ :: _) ?_ ?_
          (tryAddrs_picked ok todo addrs (i + 1) table)
        · rw [List.forall_mem_cons]
          exact ⟨rfl, address_of_mem_steps⟩
        · rw [hworks]
          exact Bool.eq_false_iff.mpr hsteps
    · rw [if_neg hsocket]
      refine Picked.next [⟨i, .socket, none⟩] (by simp) ?_
        (tryAddrs_picked ok todo addrs (i + 1) table)
      rw [works, List.all_cons, Bool.eq_false_iff.mpr hsocket, Bool.false_and]

theorem withAddrs_picksFirst {α : Type*} (ok : Answers) (todo : List Step) (addrs : List α)
    (table : Finset ℕ) :
    PicksFirst ok todo addrs.length table (withAddrs ok todo (.ok addrs) table) := by
  have hpicked := tryAddrs_picked ok todo addrs 0 table
  simp only [withAddrs]
  set r := tryAddrs ok todo addrs 0 table with hr
  cases hfd : r.fd with
  | none =>
    obtain ⟨htable, hall⟩ := hpicked.none_works hfd
    have hfind : (List.range addrs.length).find? (works ok todo) = none := by
      rw [List.find?_range_eq_none]
      intro i hi
      simpa using hall i hi
    simp only [PicksFirst, hfind]
    exact ⟨rfl, htable⟩
  | some fd =>
    obtain ⟨hnew, htable, k, hk, hworks, hbefore, hsteps, hle⟩ := hpicked.found fd hfd
    rw [Nat.zero_add] at hworks hsteps hle
    have hfind : (List.range addrs.length).find? (works ok todo) = some k := by
      rw [List.find?_range_eq_some]
      refine ⟨hworks, List.mem_range.mpr hk, fun j hj => ?_⟩
      simpa using hbefore j hj
    simp only [PicksFirst, hfind]
    exact ⟨fd, rfl, hsteps, hnew, htable, hle⟩

end Loop

/-- **Both functions return the socket of the first address that works** and leave no other behind,
for every list of addresses and every pattern of failures. -/
theorem isock_picks_first {α : Type*} (ok : Answers) (addrs : List α) (table : Finset ℕ) :
    PicksFirst ok [.connect] addrs.length table (isock_connect ok (.ok addrs) table) ∧
      PicksFirst ok [.setsockopt, .bind, .listen] addrs.length table
        (isock_listen ok (.ok addrs) table) :=
  ⟨withAddrs_picksFirst ok _ addrs table, withAddrs_picksFirst ok _ addrs table⟩

-- three addresses: no socket for the first, no connection to the second
example :
    let r := isock_connect (fun i step => i = 2 ∨ (i = 1 ∧ step = .socket)) (.ok [(), (), ()])
      {0, 1, 2}
    r.1 = 3 ∧ r.2.table = {0, 1, 2, 3} ∧
      r.2.events = [⟨0, .socket, none⟩, ⟨1, .socket, some 3⟩, ⟨1, .connect, some 3⟩,
        ⟨2, .socket, some 3⟩, ⟨2, .connect, some 3⟩] := by
  decide

end Isock

end Tlpiexer
