import Mathlib.Data.Nat.Notation

/-!
# Reading from a descriptor

`read` may deliver less than it is asked for, and a program has to work for every way in which it
does. A descriptor is given by what it will deliver, piece by piece: one `read` gets the next piece,
or the first part of it when it asks for less; behind the last piece is the end of the file, which a
`read` reports by delivering nothing. A piece can also be an error.

## Main results

* `ByteStream.read_regular` — on a descriptor without errors, a `read` takes a part of the contents
-/

namespace ByteStream

/-- What a descriptor will deliver: pieces of data, and errors (`none`). -/
abbrev Conn := List (Option (List UInt8))

/-- `read`: what it delivers, if it does not fail, and what is left. -/
def read (n : ℕ) : Conn → Option (List UInt8) × Conn
  | [] => (some [], [])
  | none :: conn => (none, conn)
  | some piece :: conn =>
    if piece.length ≤ n then (some piece, conn)
    else (some (piece.take n), some (piece.drop n) :: conn)

/-- All data of a descriptor. -/
def content (conn : Conn) : List UInt8 := conn.flatMap fun p => p.getD []

/-- There are no errors, and no `read` delivers nothing before the end of the file. -/
def Regular (conn : Conn) : Prop := ∀ p ∈ conn, ∃ piece, p = some piece ∧ piece ≠ []

@[simp] theorem content_nil : content [] = [] := rfl

@[simp] theorem content_cons (piece : List UInt8) (conn : Conn) :
    content (some piece :: conn) = piece ++ content conn := rfl

theorem regular_nil : Regular [] := fun _ h => nomatch h

theorem regular_cons {piece : List UInt8} {conn : Conn} :
    Regular (some piece :: conn) ↔ piece ≠ [] ∧ Regular conn := by
  simp [Regular]

theorem eq_nil_of_content_eq_nil {conn : Conn} (h : Regular conn) (hnil : content conn = []) :
    conn = [] := by
  cases conn with
  | nil => rfl
  | cons p conn =>
    obtain ⟨piece, rfl, hne⟩ := h p List.mem_cons_self
    exact absurd (List.append_eq_nil_iff.mp hnil).1 hne

/-- A `read` delivers not more than it asks for. -/
theorem length_le_of_read {n : ℕ} {conn conn' : Conn} {data : List UInt8}
    (h : read n conn = (some data, conn')) : data.length ≤ n := by
  match conn with
  | [] =>
    cases h
    exact Nat.zero_le n
  | none :: _ => cases h
  | some piece :: rest =>
    rw [read] at h
    split at h
    case isTrue hlen =>
      cases h
      exact hlen
    case isFalse =>
      cases h
      rw [List.length_take]
      exact Nat.min_le_left _ _

/-- **A `read` without errors** takes a part of the contents, not more than it asks for, and nothing
only if it asks for nothing or there is nothing left. -/
theorem read_regular {conn : Conn} (h : Regular conn) (n : ℕ) :
    ∃ data conn', read n conn = (some data, conn') ∧ Regular conn' ∧
      content conn = data ++ content conn' ∧ data.length ≤ n ∧
      (data = [] → n = 0 ∨ content conn = []) := by
  cases conn with
  | nil => exact ⟨[], [], rfl, regular_nil, rfl, Nat.zero_le n, fun _ => .inr rfl⟩
  | cons p conn =>
    obtain ⟨piece, rfl, hne⟩ := h p List.mem_cons_self
    obtain ⟨-, hconn⟩ := regular_cons.mp h
    by_cases hlen : piece.length ≤ n
    · exact ⟨piece, conn, if_pos hlen, hconn, rfl, hlen, fun hnil => absurd hnil hne⟩
    · refine ⟨piece.take n, some (piece.drop n) :: conn, if_neg hlen, ?_, ?_, ?_, ?_⟩
      · refine regular_cons.mpr ⟨?_, hconn⟩
        intro hnil
        have hzero := congrArg List.length hnil
        rw [List.length_drop, List.length_nil] at hzero
        omega
      · rw [content_cons, content_cons, ← List.append_assoc, List.take_append_drop]
      · rw [List.length_take]
        exact Nat.min_le_left _ _
      · intro hnil
        left
        have hzero := congrArg List.length hnil
        rw [List.length_take, List.length_nil] at hzero
        omega

end ByteStream
