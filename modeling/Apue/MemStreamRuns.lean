import Apue.MemStream

/-!
Runs of the calls on a memory stream. A stream whose position is not behind its end, and
whose end is not behind its buffer, has lengths and offsets that fit in an int. Each call
then does what it does in whole numbers, and it keeps the stream so.
-/
namespace Apue.MemStream

open Decimal Buffers

inductive Op
  | read (len : ℕ)
  | write (data : List Byte)
  | seek (pos : ℤ) (whence : Whence)

/-- The length that is passed in a call. -/
def Op.len : Op → ℕ
  | .read len => len
  | .write data => data.length
  | .seek _ _ => 0

def step (ms : Stream) : Op → Option (Result × Stream)
  | .read len => mstreamRead ms len
  | .write data => mstreamWrite ms data
  | .seek pos whence => some (mstreamSeek ms pos whence)

/-- The calls one after the other; none if one of them leaves the buffer. -/
def run : Stream → List Op → Option (List Result × Stream)
  | ms, [] => some ([], ms)
  | ms, op :: ops => do
    let (result, ms) ← step ms op
    let (results, ms) ← run ms ops
    some (result :: results, ms)

structure Stream.Inside (ms : Stream) : Prop where
  curpos_le : ms.curpos ≤ ms.vsize
  vsize_le : ms.vsize ≤ ms.rsize
  rsize_pos : 0 < ms.rsize
  rsize_le : ms.rsize ≤ INT_MAX

/-- A stream that is written and not read has a null behind what is written. -/
def Stream.writeOnly (ms : Stream) : Bool := (ms.flags.write || ms.flags.append) && !ms.flags.read

def Stream.writable (ms : Stream) : Bool := ms.flags.append || ms.flags.write

/-- The place where the next write begins. -/
def Stream.place (ms : Stream) : ℕ := if ms.flags.append then ms.vsize else ms.curpos

/-- The place where a write of `len` bytes ends. -/
def Stream.written (ms : Stream) (len : ℕ) : ℕ := ms.place + min len (ms.rsize - ms.place)

theorem toInt_of_le {n : ℕ} (h : n ≤ INT_MAX) : toInt n = n := by
  unfold INT_MAX at h
  unfold toInt
  rw [Int.bmod_eq_of_le (by omega) (by omega)]

theorem sizeSub_of_le {a b : ℕ} (h : b ≤ a) (ha : a ≤ INT_MAX) : sizeSub a b = a - b := by
  unfold INT_MAX at ha
  unfold sizeSub
  omega

namespace Stream.Inside

variable {ms : Stream}

theorem place_le (h : ms.Inside) : ms.place ≤ ms.vsize := by
  unfold Stream.place
  have hcur := h.curpos_le
  split
  · exact le_refl _
  · exact hcur

theorem written_le (h : ms.Inside) (len : ℕ) : ms.written len ≤ ms.rsize := by
  have hplace := h.place_le
  have hend := h.vsize_le
  unfold Stream.written
  omega

/-- A read takes the bytes from the position on, as far as the end. -/
theorem mstreamRead_eq (h : ms.Inside) {len : ℕ} (hlen : len ≤ INT_MAX)
    (hread : ms.flags.read = true) :
    mstreamRead ms len =
      some (⟨(min len (ms.vsize - ms.curpos) : ℕ),
        (List.range' ms.curpos (min len (ms.vsize - ms.curpos))).map ms.buf.cell⟩,
        { ms with curpos := ms.curpos + min len (ms.vsize - ms.curpos) }) := by
  have hcur := h.curpos_le
  have hend := h.vsize_le
  have hint := h.rsize_le
  unfold mstreamRead
  rw [if_neg (by simp [hread])]
  by_cases hatEnd : ms.vsize ≤ ms.curpos
  · have hzero : min len (ms.vsize - ms.curpos) = 0 := by omega
    rw [if_pos hatEnd, hzero]
    simp
  · have hnr : toInt (min len (sizeSub ms.vsize ms.curpos) : ℕ) =
        (min len (ms.vsize - ms.curpos) : ℕ) := by
      rw [sizeSub_of_le hcur (by omega)]
      exact toInt_of_le (by omega)
    have hload : load ms.buf ms.curpos (min len (ms.vsize - ms.curpos) : ℕ) =
        some ((List.range' ms.curpos (min len (ms.vsize - ms.curpos))).map ms.buf.cell) := by
      unfold load
      unfold Stream.rsize at hend
      rw [if_pos (by omega), Int.toNat_natCast, Int.toNat_natCast]
    rw [if_neg hatEnd]
    simp only [hnr, hload, Option.bind_eq_bind, Option.bind_some, Int.toNat_natCast]

end Stream.Inside

variable {ms : Stream}

/-- The null behind data that has become longer stands behind the new end. -/
theorem endLonger_eq :
    ∃ buf, endLonger ms = some { ms with buf := buf, vsize := max ms.vsize ms.curpos } ∧
      buf.size = ms.rsize ∧ ∀ j < max ms.vsize ms.curpos, buf.cell j = ms.buf.cell j := by
  unfold endLonger
  by_cases hlonger : ms.vsize < ms.curpos
  · have hmax : max ms.vsize ms.curpos = ms.curpos := by omega
    rw [if_pos hlonger, hmax]
    by_cases hnull : (ms.flags.read && ms.flags.write) = true ∧ ms.curpos < ms.rsize
    · refine ⟨{ ms.buf with cell := Function.update ms.buf.cell ms.curpos 0 }, ?_, rfl, ?_⟩
      · have hset : ms.buf.set ms.curpos 0 =
            some { ms.buf with cell := Function.update ms.buf.cell ms.curpos 0 } :=
          if_pos hnull.2
        simp only [Stream.rsize, hset, Option.bind_eq_bind, Option.bind_some]
        exact if_pos hnull
      · intro j hj
        exact Function.update_of_ne (by omega) ..
    · exact ⟨ms.buf, if_neg hnull, rfl, fun _ _ => rfl⟩
  · have hmax : max ms.vsize ms.curpos = ms.vsize := by omega
    rw [if_neg hlonger, hmax]
    exact ⟨ms.buf, rfl, rfl, fun _ _ => rfl⟩

/-- The null in a stream for writing only stands at the position, or at the last place. -/
theorem endWritten_eq (hpos : 0 < ms.rsize) :
    ∃ buf, endWritten ms = some { ms with buf := buf } ∧ buf.size = ms.rsize ∧
      ∀ j, buf.cell j =
        if ms.writeOnly = true ∧ j = min ms.curpos (ms.rsize - 1) then 0 else ms.buf.cell j := by
  unfold endWritten
  by_cases honly : ms.writeOnly = true
  · have hcond : (ms.flags.write || ms.flags.append) = true ∧ ms.flags.read = false := by
      unfold Stream.writeOnly at honly
      simpa using honly
    have hat : ∀ i < ms.rsize, ms.buf.set i 0 =
        some { ms.buf with cell := Function.update ms.buf.cell i 0 } := fun i hi => if_pos hi
    have hcell : ∀ i, i = min ms.curpos (ms.rsize - 1) → ∀ j,
        Function.update ms.buf.cell i 0 j =
          if ms.writeOnly = true ∧ j = min ms.curpos (ms.rsize - 1) then 0
          else ms.buf.cell j := by
      intro i hi j
      simp only [Function.update_apply, hi, honly, true_and]
    rw [if_pos hcond]
    by_cases hroom : ms.curpos < ms.rsize
    · rw [if_pos hroom, hat _ hroom]
      exact ⟨_, rfl, rfl, hcell ms.curpos (by omega)⟩
    · rw [if_neg hroom, hat _ (by omega)]
      exact ⟨_, rfl, rfl, hcell (ms.rsize - 1) (by omega)⟩
  · have hcond : ¬ ((ms.flags.write || ms.flags.append) = true ∧ ms.flags.read = false) := by
      unfold Stream.writeOnly at honly
      simpa using honly
    rw [if_neg hcond]
    refine ⟨ms.buf, rfl, rfl, fun j => ?_⟩
    rw [if_neg fun hj => honly hj.1]

namespace Stream.Inside

variable {ms : Stream}

/-- A write puts what fits at its place, and a null may follow. -/
theorem mstreamWrite_eq (h : ms.Inside) {data : List Byte} (hlen : data.length ≤ INT_MAX)
    (hwrite : ms.writable = true) :
    ∃ buf, mstreamWrite ms data =
        some (⟨(min data.length (ms.rsize - ms.place) : ℕ), []⟩,
          { ms with buf := buf, vsize := max ms.vsize (ms.written data.length),
                    curpos := ms.written data.length }) ∧
      buf.size = ms.rsize ∧
      ∀ j < max ms.vsize (ms.written data.length), buf.cell j =
        if ms.writeOnly = true ∧ j = min (ms.written data.length) (ms.rsize - 1) then 0
        else (ms.buf.write ms.place (data.take (ms.rsize - ms.place))).cell j := by
  have hplace := h.place_le
  have hend := h.vsize_le
  have hint := h.rsize_le
  have hwritten := h.written_le data.length
  have hoff : toInt (if ms.flags.append then ms.vsize else ms.curpos : ℕ) = ms.place :=
    toInt_of_le (n := ms.place) (by omega)
  have hnw : toInt (min data.length (sizeSub ms.rsize ms.place) : ℕ) =
      (min data.length (ms.rsize - ms.place) : ℕ) := by
    rw [sizeSub_of_le (by omega) hint]
    exact toInt_of_le (by omega)
  have hstore : store ms.buf ms.place (min data.length (ms.rsize - ms.place) : ℕ) data =
      some (ms.buf.write ms.place (data.take (ms.rsize - ms.place))) := by
    unfold store
    rw [if_pos (by unfold Stream.rsize at *; omega), Int.toNat_natCast, Int.toNat_natCast,
      Nat.min_comm, ← List.take_eq_take_min]
  have hpos : ((ms.place : ℤ) + (min data.length (ms.rsize - ms.place) : ℕ)).toNat =
      ms.written data.length := by
    unfold Stream.written
    omega
  obtain ⟨longer, hlonger, hsize, hcells⟩ := @endLonger_eq
    { ms with buf := ms.buf.write ms.place (data.take (ms.rsize - ms.place)),
              curpos := ms.written data.length }
  obtain ⟨buf, hnull, hsize', hcells'⟩ := @endWritten_eq
    { ms with buf := longer, vsize := max ms.vsize (ms.written data.length),
              curpos := ms.written data.length }
    (by change 0 < longer.size; rw [hsize]; exact h.rsize_pos)
  refine ⟨buf, ?_, hsize'.trans hsize, fun j hj => ?_⟩
  · unfold mstreamWrite
    rw [if_neg (by unfold Stream.writable at hwrite; simp [hwrite])]
    simp only [hoff, hnw, hstore, hpos, hlonger, hnull, Option.bind_eq_bind, Option.bind_some]
  · rw [hcells' j, hcells j hj]
    change (if ms.writeOnly = true ∧ j = min (ms.written data.length) (longer.size - 1) then 0
      else _) = _
    rw [hsize]
    rfl

theorem mstreamSeek_inside (h : ms.Inside) (pos : ℤ) (whence : Whence) :
    (mstreamSeek ms pos whence).2.Inside := by
  unfold mstreamSeek
  by_cases hrange : toInt ((ms.base whence + pos) % 2 ^ 64) < 0 ∨
      (ms.vsize : ℤ) < toInt ((ms.base whence + pos) % 2 ^ 64)
  · rw [if_pos hrange]
    exact h
  · rw [if_neg hrange]
    refine ⟨?_, h.vsize_le, h.rsize_pos, h.rsize_le⟩
    change (toInt ((ms.base whence + pos) % 2 ^ 64)).toNat ≤ ms.vsize
    omega

theorem mstreamSeek_buf (ms : Stream) (pos : ℤ) (whence : Whence) :
    (mstreamSeek ms pos whence).2.buf = ms.buf := by
  simp only [mstreamSeek]
  split
  · rfl
  · rfl

/-- A call does not leave the buffer, and keeps the stream inside it. -/
theorem step_inside (h : ms.Inside) {op : Op} (hop : op.len ≤ INT_MAX) :
    ∃ result ms', step ms op = some (result, ms') ∧ ms'.Inside ∧ ms'.rsize = ms.rsize := by
  cases op with
  | read len =>
    by_cases hread : ms.flags.read = true
    · refine ⟨_, _, h.mstreamRead_eq hop hread, ⟨?_, h.vsize_le, h.rsize_pos, h.rsize_le⟩, rfl⟩
      have hcur := h.curpos_le
      change ms.curpos + min len (ms.vsize - ms.curpos) ≤ ms.vsize
      omega
    · exact ⟨⟨-1, []⟩, ms, if_pos (by simpa using hread), h, rfl⟩
  | write data =>
    by_cases hwrite : ms.writable = true
    · obtain ⟨buf, hrun, hsize, -⟩ := h.mstreamWrite_eq hop hwrite
      have hwritten := h.written_le data.length
      have hend := h.vsize_le
      refine ⟨_, _, hrun, ⟨le_max_right _ _, ?_, ?_, ?_⟩, hsize⟩
      · change max ms.vsize (ms.written data.length) ≤ buf.size
        omega
      · exact h.rsize_pos.trans_eq hsize.symm
      · exact hsize.trans_le h.rsize_le
    · exact ⟨⟨-1, []⟩, ms, if_pos (eq_false_of_ne_true hwrite), h, rfl⟩
  | seek pos whence =>
    exact ⟨_, _, rfl, h.mstreamSeek_inside pos whence, congrArg Buffer.size
      (mstreamSeek_buf ms pos whence)⟩

theorem run_inside (h : ms.Inside) {ops : List Op} (hops : ∀ op ∈ ops, op.len ≤ INT_MAX) :
    ∃ results ms', run ms ops = some (results, ms') ∧ ms'.Inside ∧ ms'.rsize = ms.rsize := by
  induction ops generalizing ms with
  | nil => exact ⟨[], ms, rfl, h, rfl⟩
  | cons op ops ih =>
    obtain ⟨result, ms₁, hstep, h₁, hsize₁⟩ := h.step_inside (hops op List.mem_cons_self)
    obtain ⟨results, ms₂, hrun, h₂, hsize₂⟩ :=
      ih h₁ fun op' hop' => hops op' (List.mem_cons_of_mem op hop')
    refine ⟨result :: results, ms₂, ?_, h₂, hsize₂.trans hsize₁⟩
    simp only [run, hstep, hrun, Option.bind_eq_bind, Option.bind_some]

end Stream.Inside

theorem findEnd_le (buf : Buffer Byte) (left off : ℕ) : findEnd buf left off ≤ off + left := by
  induction left generalizing off with
  | zero => exact le_refl off
  | succ left ih =>
    unfold findEnd
    split
    · omega
    · have hrest := ih (off + 1)
      omega

/-- A stream is opened with the position and the end in the buffer. -/
theorem fmemopen_inside {given : Bool} {memory : ℕ → Byte} {size : ℕ} {type : List Char}
    {ms : Stream} (h : fmemopen given memory size type = some ms) (hsize : size ≤ INT_MAX) :
    ms.Inside ∧ ms.rsize = size := by
  simp only [fmemopen] at h
  split at h
  · exact absurd h nofun
  rename_i hpos
  split at h
  · exact absurd h nofun
  split at h
  · exact absurd h nofun
  obtain rfl := Option.some.inj h
  have hfound : (if given = true ∧ (typeToFlags type).append = true
      then findEnd ⟨size, memory⟩ size 0 else 0) ≤ size := by
    have hend := findEnd_le ⟨size, memory⟩ size 0
    split
    · omega
    · exact Nat.zero_le size
  by_cases happend : (typeToFlags type).append = true
  · refine ⟨⟨?_, ?_, Nat.pos_of_ne_zero hpos, hsize⟩, rfl⟩
    · exact le_of_eq (if_pos happend).symm
    · exact (if_pos happend).trans_le hfound
  · refine ⟨⟨?_, ?_, Nat.pos_of_ne_zero hpos, hsize⟩, rfl⟩
    · exact (if_neg fun hgiven => happend hgiven.2).trans_le (Nat.zero_le _)
    · refine (if_neg happend).trans_le ?_
      split
      · exact Nat.zero_le _
      · exact le_refl _

/-- No call on a stream touches a byte outside its buffer, and the position and the end stay
inside. -/
theorem run_stays_inside {given : Bool} {memory : ℕ → Byte} {size : ℕ} {type : List Char}
    {ms : Stream} (hsize : size ≤ INT_MAX) (hopen : fmemopen given memory size type = some ms)
    {ops : List Op} (hops : ∀ op ∈ ops, op.len ≤ INT_MAX) :
    ∃ results ms', run ms ops = some (results, ms') ∧
      ms'.curpos ≤ ms'.vsize ∧ ms'.vsize ≤ ms'.rsize ∧ ms'.rsize = size := by
  obtain ⟨hinside, hrsize⟩ := fmemopen_inside hopen hsize
  obtain ⟨results, ms', hrun, h', hrsize'⟩ := hinside.run_inside hops
  exact ⟨results, ms', hrun, h'.curpos_le, h'.vsize_le, hrsize'.trans hrsize⟩

theorem run_stays_inside_full :
    ∃ results ms', run ⟨⟨3, fun _ => 7⟩, 0, 0, ⟨false, true, false, true, false⟩⟩
        [.write [97, 98], .seek 1 .set, .write [99, 100, 101], .read 4] = some (results, ms') ∧
      ms'.curpos ≤ ms'.vsize ∧ ms'.vsize ≤ ms'.rsize ∧ ms'.rsize = 3 :=
  @run_stays_inside true (fun _ => 7) 3 ['w'] _ (by decide) rfl _ (by decide)

end Apue.MemStream
