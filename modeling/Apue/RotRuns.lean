import Apue.RotBlocks

/-!
The runs of rot13c2. Every step of the main loop and every completion brings the program
nearer to its end, and until then there is a next step: whatever the order of the
completions, the program ends, and its output is that of rot13a.
-/
namespace Apue.Rot13

open Decimal ByteFiles Programs Finset

/-- The steps that a buffer has before it. -/
def Buf.work (b : Buf) : ℕ :=
  match b.op, b.aio with
  | .UNUSED, _ => 0
  | .READ_PENDING, .reading => 4
  | .READ_PENDING, _ => 3
  | .WRITE_PENDING, .writing => 2
  | .WRITE_PENDING, _ => 1

namespace State

/-- The work that is left: for the blocks that are not begun, and in the buffers. -/
def work (s : State) (size : ℕ) : ℕ :=
  5 * ((size + BSZ - 1 - s.off) / BSZ) + ∑ i ∈ range NBUF, (s.bufs i).work

/-- The main loop has something to do with the buffer. -/
def useful (s : State) (size i : ℕ) : Bool :=
  match (s.bufs i).op, (s.bufs i).aio with
  | .UNUSED, _ => s.off < size
  | _, .done _ => true
  | _, _ => false

/-- The main loop finds something to do in the rest of its round. -/
def active (s : State) (size i : ℕ) : Bool :=
  (List.range NBUF).any fun j => decide (i ≤ j) && s.useful size j

def rank (s : State) (size : ℕ) : ℕ :=
  match s.pc with
  | .scan i => if s.active size i then NBUF - i else 20 + (NBUF - i)
  | .suspend => 15
  | .exited => 0
  | .quit => 0

/-- The steps that the program has before it at most. -/
def measure (s : State) (size : ℕ) : ℕ := 30 * s.work size + s.rank size

variable {input : List Byte} {s s' : State} {i size : ℕ} {b : Buf}

theorem rank_lt (s : State) (size : ℕ) : s.rank size < 30 := by
  rw [rank]
  have hbuf : NBUF = 8 := rfl
  split
  · split <;> omega
  all_goals omega

theorem measure_of_work (h : s'.work size < s.work size) : s'.measure size < s.measure size := by
  have hrank := rank_lt s' size
  rw [measure, measure]
  omega

/-- The work after a change of one buffer. -/
theorem work_lt (hi : i < NBUF) (hbufs : s'.bufs = Function.update s.bufs i b)
    (hoff : s'.off = s.off) (hwork : b.work < (s.bufs i).work) : s'.work size < s.work size := by
  have hsum := sum_setBuf Buf.work hi hbufs
  rw [work, work, hoff]
  omega

theorem active_eq_true : s.active size i = true ↔ ∃ j < NBUF, i ≤ j ∧ s.useful size j = true := by
  simp [active]

/-- The main loop passes a buffer with which it has nothing to do. -/
theorem active_succ (hnot : s.useful size i = false) :
    s.active size (i + 1) = s.active size i := by
  rw [Bool.eq_iff_iff, active_eq_true, active_eq_true]
  constructor
  · rintro ⟨j, hj, hij, huse⟩
    exact ⟨j, hj, by omega, huse⟩
  · rintro ⟨j, hj, hij, huse⟩
    refine ⟨j, hj, ?_, huse⟩
    have hne : i ≠ j := by
      rintro rfl
      rw [hnot] at huse
      cases huse
    omega

theorem measure_pass (hi : i < NBUF) (hpc : s.pc = .scan i) (hnot : s.useful size i = false) :
    ({ s with pc := .scan (i + 1) } : State).measure size < s.measure size := by
  have hactive : ({ s with pc := .scan (i + 1) } : State).active size (i + 1) = s.active size i :=
    active_succ hnot
  have hwork : ({ s with pc := .scan (i + 1) } : State).work size = s.work size := rfl
  rw [measure, measure, hwork, rank, rank, hpc]
  simp only [hactive]
  split <;> omega

/-- The step of the main loop at a buffer. -/
theorem Inv.measure_buffer (h : s.Inv input) (hi : i < NBUF) (hpc : s.pc = .scan i)
    (hs : s.run input.length = some s') : s'.measure input.length < s.measure input.length := by
  have hbuf := h.buf i hi
  rw [State.run, hpc] at hs
  simp only [if_pos hi] at hs
  cases hop : (s.bufs i).op with
  | UNUSED =>
    simp only [hop, State.unused] at hs
    obtain rfl := Option.some.inj hs
    split
    case isTrue hlt =>
      apply measure_of_work
      have hsum := sum_setBuf Buf.work hi
        (rfl : (s.setBuf i ((s.bufs i).startRead input.length s.off)).bufs = _)
      have hwork : (s.bufs i).work = 0 := by simp [Buf.work, hop]
      have hwork' : ((s.bufs i).startRead input.length s.off).work = 4 := rfl
      rw [hwork, hwork'] at hsum
      have hblocks : (input.length + BSZ - 1 - (s.off + BSZ)) / BSZ + 1 =
          (input.length + BSZ - 1 - s.off) / BSZ := by
        have hsize : BSZ = 4096 := rfl
        rw [hsize]
        omega
      rw [State.work, State.work]
      change 5 * ((input.length + BSZ - 1 - (s.off + BSZ)) / BSZ) +
        ∑ j ∈ range NBUF, ((s.setBuf i ((s.bufs i).startRead input.length s.off)).bufs j).work < _
      omega
    case isFalse hge => exact measure_pass hi hpc (by simp [useful, hop, hge])
  | READ_PENDING =>
    simp only [hop, State.readPending] at hs
    obtain rfl := Option.some.inj hs
    obtain ⟨-, -, hlast, haio | ⟨haio, -⟩⟩ := hbuf.read hop
    · rw [haio]
      exact measure_pass hi hpc (by simp [useful, hop, haio])
    · rw [haio]
      simp only
      split
      case isTrue hshort =>
        have hlen := length_readAt input (s.bufs i).aio_offset BSZ
        have hnot := hshort.2
        rw [hlast (by omega)] at hnot
        cases hnot
      · apply measure_of_work
        refine work_lt hi rfl rfl ?_
        simp [Buf.work, Buf.startWrite, hop, haio]
  | WRITE_PENDING =>
    simp only [hop, State.writePending] at hs
    obtain rfl := Option.some.inj hs
    obtain ⟨-, -, -, haio | haio⟩ := hbuf.write hop
    · rw [haio]
      exact measure_pass hi hpc (by simp [useful, hop, haio])
    · rw [haio]
      simp only [ne_eq, not_true_eq_false, if_false]
      apply measure_of_work
      refine work_lt hi rfl rfl ?_
      simp [Buf.work, Buf.free, hop, haio]

/-- The first buffer is used for the next block, or one of the buffers is ready. -/
theorem rank_round (hactive : s.active size 0 = true) :
    ({ s with pc := .scan 0 } : State).rank size = NBUF := by
  have hsame : ({ s with pc := .scan 0 } : State).active size 0 = s.active size 0 := rfl
  simp only [rank]
  rw [hsame, hactive, if_pos rfl, Nat.sub_zero]

theorem Inv.measure_run (h : s.Inv input) (hs : s.run input.length = some s') :
    s'.measure input.length < s.measure input.length := by
  have hbuf : NBUF = 8 := rfl
  cases hpc : s.pc with
  | scan i =>
    by_cases hi : i < NBUF
    · exact h.measure_buffer hi hpc hs
    · have hidle : s.active input.length i = false := by
        rw [Bool.eq_false_iff, ne_eq, active_eq_true]
        rintro ⟨j, hj, hij, -⟩
        omega
      have hrank : s.rank input.length = 20 := by
        rw [rank, hpc]
        simp only [hidle, Bool.false_eq_true, if_false]
        omega
      rw [State.run, hpc] at hs
      simp only [if_neg hi] at hs
      split at hs
      case isTrue hnone =>
        split at hs
        · obtain rfl := Option.some.inj hs
          rw [measure, measure, hrank]
          exact Nat.add_lt_add_left (show 0 < 20 by decide) _
        case isFalse hmore =>
          obtain rfl := Option.some.inj hs
          have hactive : s.active input.length 0 = true := by
            refine active_eq_true.mpr ⟨0, by decide, Nat.le_refl _, ?_⟩
            have hop := h.unused_of_numop hnone 0 (by decide)
            simp [useful, hop, Nat.not_le.mp hmore]
          rw [measure, measure, hrank, rank_round hactive]
          exact Nat.add_lt_add_left (by decide) _
      · obtain rfl := Option.some.inj hs
        rw [measure, measure, hrank]
        exact Nat.add_lt_add_left (show 15 < 20 by decide) _
  | suspend =>
    rw [State.run, hpc] at hs
    obtain ⟨hready, hs⟩ := Option.ite_none_right_eq_some.mp hs
    obtain rfl := Option.some.inj hs
    obtain ⟨j, hj, hready⟩ := List.any_eq_true.mp hready
    have hactive : s.active input.length 0 = true := by
      refine active_eq_true.mpr ⟨j, List.mem_range.mp hj, Nat.zero_le _, ?_⟩
      obtain ⟨hlisted, hdone⟩ := (Bool.and_eq_true _ _).mp hready
      rw [h.listed j (List.mem_range.mp hj)] at hlisted
      have hop := of_decide_eq_true hlisted
      rw [useful]
      split
      case h_1 hop' => exact absurd hop' hop
      case h_2 => rfl
      case h_3 hnot =>
        split at hdone
        case h_1 n haio => exact absurd haio (hnot n)
        case h_2 => cases hdone
    have hrank : s.rank input.length = 15 := by
      rw [rank, hpc]
    rw [measure, measure, hrank, rank_round hactive]
    exact Nat.add_lt_add_left (by decide) _
  | exited =>
    rw [State.run, hpc] at hs
    cases hs
  | quit =>
    rw [State.run, hpc] at hs
    cases hs

theorem Inv.measure_complete (h : s.Inv input) (hi : i < NBUF)
    (hs : s.complete input i = some s') : s'.measure input.length < s.measure input.length := by
  have hbuf := h.buf i hi
  apply measure_of_work
  rw [State.complete] at hs
  split at hs
  case h_1 haio =>
    obtain rfl := Option.some.inj hs
    refine work_lt hi rfl rfl ?_
    simp [Buf.work, Buf.received, hbuf.op_of_reading haio, haio]
  case h_2 haio =>
    split at hs
    · cases hs
    · obtain rfl := Option.some.inj hs
      refine work_lt hi rfl rfl ?_
      simp [Buf.work, Buf.sent, hbuf.op_of_writing haio, haio]
  · cases hs

theorem Inv.measure_step {e : Option ℕ} (h : s.Inv input) (hs : s.step input e = some s') :
    s'.measure input.length < s.measure input.length := by
  cases e with
  | none => exact h.measure_run hs
  | some i =>
    obtain ⟨hi, hs⟩ := Option.ite_none_right_eq_some.mp hs
    exact h.measure_complete hi hs

/-- Until the main loop has ended there is a next step. -/
theorem Inv.progress (h : s.Inv input) (hpc : s.pc ≠ .exited) :
    ∃ e s', s.step input e = some s' := by
  have hstep : ∀ e, (s.step input e).isSome = true → ∃ e s', s.step input e = some s' := by
    intro e he
    obtain ⟨s', hs'⟩ := Option.isSome_iff_exists.mp he
    exact ⟨e, s', hs'⟩
  cases hpc' : s.pc with
  | scan i =>
    refine hstep none ?_
    simp only [State.step, State.run, hpc']
    split
    · split <;> rfl
    · split
      · split <;> rfl
      · rfl
  | suspend =>
    -- one of the buffers is used, and its operation is complete or can be completed
    obtain ⟨i, hi, hop⟩ : ∃ i < NBUF, (s.bufs i).op ≠ .UNUSED := by
      by_contra hnone
      refine h.suspended hpc' ?_
      rw [h.numop]
      refine sum_eq_zero fun i hi => if_pos ?_
      by_contra hop
      exact hnone ⟨i, mem_range.mp hi, hop⟩
    have hbuf := h.buf i hi
    cases haio : (s.bufs i).aio with
    | none =>
      cases hop' : (s.bufs i).op with
      | UNUSED => exact absurd hop' hop
      | READ_PENDING =>
        obtain ⟨-, -, -, hread⟩ := hbuf.read hop'
        rw [haio] at hread
        rcases hread with hread | ⟨hread, -⟩ <;> cases hread
      | WRITE_PENDING =>
        obtain ⟨-, -, -, hwrite⟩ := hbuf.write hop'
        rw [haio] at hwrite
        rcases hwrite with hwrite | hwrite <;> cases hwrite
    | reading =>
      refine hstep (some i) ?_
      simp only [State.step, if_pos hi, State.complete, haio, Option.isSome_some]
    | writing =>
      refine hstep (some i) ?_
      have hfd := (hbuf.write (hbuf.op_of_writing haio)).1
      simp only [State.step, if_pos hi, State.complete, haio, hfd, Option.isSome_some]
    | done n =>
      refine hstep none ?_
      have hready : (List.range NBUF).any s.ready = true := by
        refine List.any_eq_true.mpr ⟨i, List.mem_range.mpr hi, ?_⟩
        simp [State.ready, h.listed i hi, hop, haio]
      simp only [State.step, State.run, hpc', hready, if_true, Option.isSome_some]
  | exited => exact absurd hpc' hpc
  | quit => exact absurd hpc' h.noQuit

end State

/-- Whatever the order of the completions, rot13c2 ends after finitely many steps, and when
it has ended no operation is outstanding, each block has been written once at its own
offset, and the output is the one of rot13a: the translation of the input. -/
theorem async_equals_sequential (input : List Byte) :
    (∀ s, Reachable input s → s.pc ≠ .quit ∧
      (s.pc = .exited → s.Finished input ∧ s.out = rot13a input)) ∧
    ∃ bound, ∀ events s, steps (State.step input) events State.initial = some s →
      events.length ≤ bound ∧ (s.pc = .exited ∨ ∃ e s', s.step input e = some s') := by
  refine ⟨fun s hreach => ?_, State.initial.measure input.length, fun events s hrun => ⟨?_, ?_⟩⟩
  · have hinv := State.Inv.of_reachable hreach
    refine ⟨hinv.noQuit, fun hexit => ?_⟩
    have hfinished := hinv.finished hexit
    exact ⟨hfinished, hfinished.out.trans (rot13a_eq input).symm⟩
  · have hlength : ∀ (s₀ : State) (events : List (Option ℕ)), s₀.Inv input →
        steps (State.step input) events s₀ = some s →
        events.length + s.measure input.length ≤ s₀.measure input.length := by
      intro s₀ events
      induction events generalizing s₀ with
      | nil =>
        intro _ hrun
        obtain rfl := Option.some.inj hrun
        simp
      | cons e events ih =>
        intro hinv hrun
        obtain ⟨s₁, hs₁, hrun⟩ := Option.bind_eq_some_iff.mp hrun
        have hrest := ih s₁ (hinv.step hs₁) hrun
        have hless := hinv.measure_step hs₁
        rw [List.length_cons]
        omega
    have hle := hlength State.initial events (State.Inv.initial input) hrun
    omega
  · by_cases hexit : s.pc = .exited
    · exact Or.inl hexit
    · exact Or.inr ((State.Inv.of_reachable ⟨events, hrun⟩).progress hexit)

end Apue.Rot13
