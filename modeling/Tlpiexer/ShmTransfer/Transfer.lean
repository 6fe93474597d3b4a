import Mathlib.Tactic.ByContra
import Tlpiexer.ShmTransfer.Processes

/-!
# What the transfer delivers, and whether it ends

## Integrity

Wherever the token is, the output lags behind the blocks that were read by nothing or by the one
block in the buffer (`Data`). This needs no assumption about the tests of `shm->size`, so it holds
in every interleaving.

## The end of the transfer

The reader posts `sem_read` before it looks at `shm->size`. In between the writer may take the
semaphore and replace the block by the empty one that ends the transfer; the reader then leaves
without having taken that one, and nobody posts `sem_read` again for the writer's last `sem_wait`.
`Premature` is that step. It is the only way for the transfer to get stuck
(`not_stuck_of_orderly`), and once it has happened there is no other end (`doomed_step`).

## Main results

* `out_eq_flatten_take` — the output is a concatenation of blocks, complete when the writer ends
* `finished_iff_not_premature` — a transfer that cannot go on has finished exactly if the reader
  never left prematurely
* `exists_stuck` — it does not always finish
-/

namespace Tlpiexer

namespace ShmTransfer

open CString Transition

/-! ### Integrity -/

/-- The last block, of `k` bytes, is in the buffer and not yet in the output. -/
def Loaded (s : State) (k : ℕ) : Prop :=
  ∃ bs b, s.blocks = bs ++ [b] ∧ s.out = bs.flatten ∧ s.shm.data.val.take k = b

/-- What is where, depending on the token. -/
structure Data (input : Bytes) (s : State) : Prop where
  /-- What was read and what is still to be read make up the input. -/
  whole : s.blocks.flatten ++ s.input = input
  /-- With the token on the reading side, everything read was output. -/
  synced : s.semRead = 1 ∨ s.writer = .fill ∨ s.writer = .done ∨ s.reader = .post →
    s.out = s.blocks.flatten
  stored : ∀ k, s.writer = .store k → Loaded s k ∧ (k = 0 → s.input = [])
  loaded : s.writer = .post ∨ s.semWrite = 1 ∨ s.reader = .copy → Loaded s s.shm.size
  ended : s.writer = .post ∨ s.writer = .test → s.shm.size = 0 → s.input = []
  last : s.writer = .lastWait ∨ s.writer = .done → s.input = []

section Bytes

variable {input : Bytes} {s s' : State} {a : Label}

/-- The `read` puts a block into the buffer. -/
theorem take_data_of_read (data : CharArray bufSize) {k : ℕ} (hk : ReadOk input k) :
    (CharArray.ofBytes bufSize (overlay data.val (input.take k))).val.take k = input.take k := by
  have hlen : (input.take k).length = k := List.length_take_of_le hk.2.1
  have hfit : (input.take k).length ≤ bufSize := by
    rw [hlen]
    exact hk.1
  have htake := data.take_ofBytes_overlay hfit
  rw [hlen] at htake
  exact htake

/-- The `write` brings the output up to date. -/
theorem out_of_copy {k : ℕ} (h : Loaded s k) :
    s.out ++ s.shm.data.val.take k = s.blocks.flatten := by
  obtain ⟨bs, b, hblocks, hout, hdata⟩ := h
  rw [hblocks, hout, hdata, List.flatten_append, List.flatten_singleton]

theorem data_step (h : Control s) (hd : Data input s) (hm : Move s a s') : Data input s' := by
  have htoken := h.token
  obtain ⟨hwhole, hsynced, hstored, hloaded, hended, hlast⟩ := hd
  cases hm with
  | @read k hw hk =>
    have hout : s.out = s.blocks.flatten := hsynced (.inr (.inl hw))
    refine ⟨?_, ?_, ?_, ?_, by simp, by simp⟩
    · rw [List.flatten_append, List.flatten_singleton, List.append_assoc, List.take_append_drop]
      exact hwhole
    · grind [WriterPc.token, ReaderPc.token]
    · intro k' hk'
      obtain rfl : k = k' := WriterPc.store.inj hk'
      refine ⟨⟨s.blocks, _, rfl, hout, take_data_of_read s.shm.data hk⟩, fun hzero => ?_⟩
      rw [hk.2.2 hzero, List.drop_nil]
    · grind [WriterPc.token, ReaderPc.token]
  | copy hr =>
    obtain ⟨hread, hwrite, hw⟩ := h.of_reader (by rw [hr]; rfl)
    have hout := out_of_copy (hloaded (.inr (.inr hr)))
    refine ⟨hwhole, fun _ => hout, ?_, ?_, hended, hlast⟩ <;> grind
  | _ =>
    -- the other steps hand the token on and leave the bytes alone
    refine ⟨hwhole, ?_, ?_, ?_, ?_, ?_⟩ <;> grind [WriterPc.token, ReaderPc.token, Loaded]

theorem data_start (data : CharArray bufSize) (input : Bytes) : Data input (start data input) :=
  ⟨rfl, fun _ => rfl, by simp [start], by simp [start], by simp [start], by simp [start]⟩

end Bytes

section Runs

variable {input : Bytes} {s : State}

theorem control_of_reachable (h : (machine input).Reachable s) : Control s := by
  refine h.invariant (I := Control) ?_ fun s a t hs hstep => control_step hs (move_of_step hstep)
  rintro _ ⟨data, rfl⟩
  exact control_start data input

theorem data_of_reachable (h : (machine input).Reachable s) : Data input s := by
  refine (h.invariant (I := fun s => Control s ∧ Data input s) ?_ fun s a t hs hstep => ?_).2
  · rintro _ ⟨data, rfl⟩
    exact ⟨control_start data input, data_start data input⟩
  · have hm := move_of_step hstep
    exact ⟨control_step hs.1 hm, data_step hs.1 hs.2 hm⟩

/-- One token, five places. -/
theorem Control.synced_or_loaded (h : Control s) :
    (s.semRead = 1 ∨ s.writer = .fill ∨ s.writer = .done ∨ s.reader = .post) ∨
      (∃ k, s.writer = .store k) ∨ (s.writer = .post ∨ s.semWrite = 1 ∨ s.reader = .copy) := by
  have htoken := h.token
  cases hw : s.writer <;> cases hr : s.reader <;>
    simp_all [WriterPc.token, ReaderPc.token] <;> omega

end Runs

/-- **Integrity.** In every interleaving, and however the input is split, the output is the
concatenation of the first blocks that were read, all of them or all but the last one. When the
writer has got past its last `sem_wait`, the output is the whole input. -/
theorem out_eq_flatten_take {input : Bytes} {s : State} (h : (machine input).Reachable s) :
    s.blocks.flatten ++ s.input = input ∧
      (∃ n, s.blocks.length ≤ n + 1 ∧ s.out = (s.blocks.take n).flatten) ∧
      (s.writer = .done → s.out = input) := by
  have hd := data_of_reachable h
  have hbehind : ∀ {k}, Loaded s k →
      ∃ n, s.blocks.length ≤ n + 1 ∧ s.out = (s.blocks.take n).flatten := by
    rintro k ⟨bs, b, hblocks, hout, -⟩
    exact ⟨bs.length, by simp [hblocks], by simp [hblocks, hout]⟩
  refine ⟨hd.whole, ?_, fun hw => ?_⟩
  · rcases (control_of_reachable h).synced_or_loaded with hsynced | ⟨k, hw⟩ | hloaded
    · exact ⟨s.blocks.length, Nat.le_succ _, by rw [List.take_length]; exact hd.synced hsynced⟩
    · exact hbehind (hd.stored k hw).1
    · exact hbehind (hd.loaded hloaded)
  · have hwhole := hd.whole
    rw [hd.last (.inr hw), List.append_nil] at hwhole
    rw [hd.synced (.inr (.inr (.inl hw)))]
    exact hwhole

/-- One block of one byte, up to the `sem_post` of the reader. -/
def oneBlock : List Label :=
  [.writer, .read 1, .writer, .writer, .writer, .reader, .reader, .reader]

/-- The empty block, up to the writer's last `sem_wait`. -/
def lastBlock : List Label := [.writer, .read 0, .writer, .writer, .writer]

/-- Two blocks; the reader sees each of them through before the writer goes on. -/
def inTurn : List Label :=
  oneBlock ++ .reader :: oneBlock ++ .reader :: lastBlock ++
    [.reader, .reader, .reader, .reader, .writer]

theorem out_eq_flatten_take_inTurn :
    ∃ s, (machine [65, 66]).Reachable s ∧ s.blocks = [[65], [66], []] ∧ s.writer = .done ∧
      s.out = [65, 66] := by
  obtain ⟨s, hexec, hblocks, hw⟩ :
      ∃ s, (machine [65, 66]).exec (start (.ofBytes _ []) [65, 66]) inTurn = some s ∧
        s.blocks = [[65], [66], []] ∧ s.writer = .done := ⟨_, rfl, rfl, rfl⟩
  have hreach := Machine.reachable_of_exec (start_init _ _) hexec
  exact ⟨s, hreach, hblocks, hw, (out_eq_flatten_take hreach).2.2 hw⟩

/-! ### The end of the transfer -/

/-- The reader finds `shm->size` to be 0 after it copied a block that was not empty. -/
def Premature (s : State) (a : Label) : Prop :=
  a = .reader ∧ s.reader = .test ∧ s.shm.size = 0 ∧ s.copied ≠ 0

/-- Both processes have finished. -/
def State.Finished (s : State) : Prop := s.writer = .done ∧ s.reader = .done

/-- The reader has finished, and the writer waits for a `sem_read` that nobody will post. -/
def State.Stuck (s : State) : Prop :=
  s.reader = .done ∧ (s.writer = .wait ∨ s.writer = .lastWait) ∧ s.semRead = 0

/-- If the reader has left, it took the last block. -/
def Orderly (s : State) : Prop := s.reader = .done → s.AtEnd ∧ s.semWrite = 0

/-- The reader has left, and the writer is on its way to wait for it. -/
def Doomed (s : State) : Prop :=
  s.reader = .done ∧ s.semRead = 0 ∧ s.shm.size = 0 ∧
    (s.writer = .post ∨ s.writer = .test ∨ s.writer = .lastWait)

section Ending

variable {s s' : State} {a : Label}

theorem orderly_step (h : Control s) (ho : Orderly s) (hg : ¬ Premature s a) (hm : Move s a s') :
    Orderly s' := by
  cases hm with
  | quit hr hsize =>
    have hcopied : s.copied = 0 := by
      by_contra hne
      exact hg ⟨rfl, hr, hsize, hne⟩
    obtain ⟨hend, hsem⟩ := h.empty (.inr hr) hcopied
    exact fun _ => ⟨hend, hsem⟩
  | _ => grind [Orderly, State.AtEnd]

/-- Leaving prematurely means that the next block is there and the token is not. -/
theorem doomed_of_premature (h : Control s) (hp : Premature s a) (hm : Move s a s') :
    Doomed s' := by
  obtain ⟨rfl, hr, hsize, hcopied⟩ := hp
  have htoken := h.token
  have hwait := h.wait
  have hstale : s.writer = .post ∨ s.semWrite = 1 :=
    (h.stale (.inr hr) hcopied).resolve_left fun heq => hcopied (heq.symm.trans hsize)
  have hread : s.semRead = 0 := by
    rcases hstale with hw | hsem
    · have : s.writer.token = 1 := by rw [hw]; rfl
      omega
    · omega
  have hw : s.writer = .post ∨ s.writer = .test ∨ s.writer = .lastWait := by
    rcases hstale with hw | hsem
    · exact .inl hw
    · rcases WriterPc.eq_of_token_eq_zero (by omega : s.writer.token = 0) with hw | hw
      · exact absurd (hwait hw hsize).1 (by omega)
      · exact .inr hw
  cases hm with
  | quit _ _ => exact ⟨rfl, hread, hsize, hw⟩
  | _ => simp_all

theorem doomed_step (hd : Doomed s) (hm : Move s a s') : Doomed s' := by
  cases hm <;> grind [Doomed]

theorem not_stuck_of_orderly (h : Control s) (ho : Orderly s) : ¬ s.Stuck := by
  rintro ⟨hr, hw, hsem⟩
  have htoken := h.token
  obtain ⟨⟨hsize, hend⟩, hwrite⟩ := ho hr
  rcases hw with hw | hw
  · simp [hw] at hend
  · rw [hw, hr, hsem, hwrite] at htoken
    cases htoken

theorem exists_readOk (input : Bytes) : ∃ k, ReadOk input k := by
  rcases input with _ | ⟨b, rest⟩
  · exact ⟨0, by simp [ReadOk]⟩
  · exact ⟨1, by decide, by simp, by simp⟩

/-- A process that can not move is finished, or waits at a semaphore with value 0. -/
theorem cases_of_not_enabled {input : Bytes} (h : ¬ (machine input).Enabled s) :
    (s.writer = .done ∨ (s.writer = .wait ∨ s.writer = .lastWait) ∧ s.semRead = 0) ∧
      (s.reader = .done ∨ s.reader = .wait ∧ s.semWrite = 0) := by
  have hread : ∀ k, s.read k = none := fun k => Machine.step_eq_none_of_not_enabled h (.read k)
  have hwrite : s.write = none := Machine.step_eq_none_of_not_enabled h .writer
  have hout : s.readOut = none := Machine.step_eq_none_of_not_enabled h .reader
  constructor
  · cases hw : s.writer with
    | fill =>
      obtain ⟨k, hk⟩ := exists_readOk s.input
      have hnone := hread k
      rw [State.read, if_pos ⟨hw, hk⟩] at hnone
      cases hnone
    | _ => simp_all [State.write]
  · cases hr : s.reader <;> simp_all [State.readOut]

theorem not_enabled_of_finished {input : Bytes} (h : s.Finished) :
    ¬ (machine input).Enabled s := by
  rintro ⟨a, t, hstep⟩
  obtain ⟨hw, hr⟩ := h
  cases move_of_step hstep <;> simp_all

theorem not_enabled_of_stuck {input : Bytes} (h : s.Stuck) : ¬ (machine input).Enabled s := by
  rintro ⟨a, t, hstep⟩
  obtain ⟨hr, hw, hsem⟩ := h
  cases move_of_step hstep <;> simp_all

theorem finished_of_orderly {input : Bytes} (h : Control s) (ho : Orderly s)
    (hstop : ¬ (machine input).Enabled s) : s.Finished := by
  have htoken := h.token
  have hnot := not_stuck_of_orderly h ho
  obtain ⟨hw | ⟨hw, hread⟩, hr | ⟨hr, hwrite⟩⟩ := cases_of_not_enabled hstop
  · exact ⟨hw, hr⟩
  · have hseen := h.seen ⟨h.last (.inr hw), .inr (.inr hw)⟩ (.inr hw)
    simp [hr] at hseen
  · exact absurd ⟨hr, hw, hread⟩ hnot
  · rcases hw with hw | hw <;>
      simp [hw, hr, hread, hwrite, WriterPc.token, ReaderPc.token] at htoken

end Ending

/-- **When the transfer ends.** A run in which the reader never leaves prematurely does not get
stuck; and a run that can not go on has finished if and only if the reader never did. -/
theorem finished_iff_not_premature {input : Bytes} {s₀ s : State} {tr : List (State × Label)}
    (h₀ : (machine input).init s₀) (hrun : (machine input).Run s₀ tr s) :
    ((∀ p ∈ tr, ¬ Premature p.1 p.2) → ¬ s.Stuck) ∧
      (¬ (machine input).Enabled s → (s.Finished ↔ ∀ p ∈ tr, ¬ Premature p.1 p.2)) := by
  obtain ⟨data, rfl⟩ := h₀
  have hcontrol : Control s := control_of_reachable ⟨_, tr, start_init data input, hrun⟩
  have horderly : (∀ p ∈ tr, ¬ Premature p.1 p.2) → Orderly s := by
    intro hG
    refine (hrun.invariant_of_forall (I := fun s => Control s ∧ Orderly s)
      (G := fun s a => ¬ Premature s a) (fun s a t hs hg hstep => ?_) hG
      ⟨control_start data input, by simp [Orderly, start]⟩).2
    have hm := move_of_step hstep
    exact ⟨control_step hs.1 hm, orderly_step hs.1 hs.2 hg hm⟩
  refine ⟨fun hG => not_stuck_of_orderly hcontrol (horderly hG), fun hstop => ⟨?_, fun hG => ?_⟩⟩
  · intro hfin p hp hpre
    have hdoomed : Doomed s := by
      refine hrun.absorb (I := Control) (D := Doomed) (G := fun s a => ¬ Premature s a)
        (fun s a t hs hstep => control_step hs (move_of_step hstep)) (fun s a t hs hG hstep => ?_)
        (fun s a t _ hd hstep => doomed_step hd (move_of_step hstep)) (control_start data input)
        ⟨p, hp, not_not.mpr hpre⟩
      exact doomed_of_premature hs (not_not.mp hG) (move_of_step hstep)
    obtain ⟨-, -, -, hw⟩ := hdoomed
    simp [hfin.1] at hw
  · exact finished_of_orderly hcontrol (horderly hG) hstop

theorem finished_iff_not_premature_inTurn :
    ∃ s₀ tr s, (machine [65, 66]).init s₀ ∧ (machine [65, 66]).Run s₀ tr s ∧
      ¬ (machine [65, 66]).Enabled s ∧ s.Finished ∧ ∀ p ∈ tr, ¬ Premature p.1 p.2 := by
  obtain ⟨s, hexec, hfin⟩ :
      ∃ s, (machine [65, 66]).exec (start (.ofBytes _ []) [65, 66]) inTurn = some s ∧
        s.Finished := ⟨_, rfl, rfl, rfl⟩
  have hrun := Machine.run_of_exec hexec
  have hstop : ¬ (machine [65, 66]).Enabled s := not_enabled_of_finished hfin
  exact ⟨_, _, s, start_init _ _, hrun, hstop, hfin,
    ((finished_iff_not_premature (start_init _ _) hrun).2 hstop).1 hfin⟩

/-- The writer sends its last block between the reader's `sem_post` and its test, and waits for
ever. -/
theorem exists_stuck :
    ∃ s, (machine [65]).Reachable s ∧ s.Stuck ∧ ¬ (machine [65]).Enabled s ∧ ¬ s.Finished := by
  obtain ⟨s, hexec, hr, hw, hsem⟩ :
      ∃ s, (machine [65]).exec (start (.ofBytes _ []) [65]) (oneBlock ++ lastBlock ++ [.reader]) =
        some s ∧ s.reader = .done ∧ s.writer = .lastWait ∧ s.semRead = 0 :=
    ⟨_, rfl, rfl, rfl, rfl⟩
  have hstuck : s.Stuck := ⟨hr, .inr hw, hsem⟩
  refine ⟨s, Machine.reachable_of_exec (start_init _ _) hexec, hstuck,
    not_enabled_of_stuck hstuck, ?_⟩
  intro hfin
  simp [hfin.1] at hw

end ShmTransfer

end Tlpiexer
