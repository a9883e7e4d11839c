import Apue.MemStreamRuns

/-!
A memory stream beside a file of bytes. The bytes of the stream below its end are those of
the file. What a write puts into the file is a parameter: a plain file takes the bytes that
fit, and the file of a stream that is written and not read also takes the null.
-/
namespace Apue.MemStream

open Decimal Buffers

/-- The bytes below the end. -/
def Stream.contents (ms : Stream) : List Byte := (List.range ms.vsize).map ms.buf.cell

/-- A file of `capacity` bytes takes the first bytes of `data` that fit at `p`. -/
def overwrite (capacity : ℕ) (bytes : List Byte) (p : ℕ) (data : List Byte) : List Byte :=
  bytes.take p ++ data.take (capacity - p) ++ bytes.drop (p + (data.take (capacity - p)).length)

/-- A write begins at the position, or at the end of the file for appending. -/
def filePlace (ms : Stream) (bytes : List Byte) : ℕ :=
  if ms.flags.append then bytes.length else ms.curpos

/-- The file of a stream after a write. -/
def plainWrite (ms : Stream) (bytes data : List Byte) : List Byte :=
  overwrite ms.rsize bytes (filePlace ms bytes) data

/-- If the stream is for writing only, a null stands where the write ends, or in the last
byte when it ends at the capacity. -/
def nullWrite (ms : Stream) (bytes data : List Byte) : List Byte :=
  if ms.writeOnly then
    (plainWrite ms bytes data).set
      (min (filePlace ms bytes + (data.take (ms.rsize - filePlace ms bytes)).length)
        (ms.rsize - 1)) 0
  else plainWrite ms bytes data

/-- The bytes of the stream are those of the file but for the last one of a full stream that is
for writing only. -/
def SameButLast (ms : Stream) (bytes : List Byte) : Prop :=
  ms.contents = bytes ∨
    (ms.writeOnly = true ∧ ms.vsize = ms.rsize ∧ ms.contents = bytes.dropLast ++ [0])

def Same (ms : Stream) (bytes : List Byte) : Prop := ms.contents = bytes

/-- What a call has to return from a file with these bytes. -/
def Answers (ms : Stream) (bytes : List Byte) (result : Result) : Op → Prop
  | .read len =>
    result = if ms.flags.read then
        ⟨((bytes.drop ms.curpos).take len).length, (bytes.drop ms.curpos).take len⟩
      else ⟨-1, []⟩
  | .write data =>
    result = if ms.writable then
        ⟨(data.take (ms.rsize - filePlace ms bytes)).length, []⟩
      else ⟨-1, []⟩
  | .seek _ _ => True

/-- The bytes of the file after a call. -/
def after (write : Stream → List Byte → List Byte → List Byte) (ms : Stream) (bytes : List Byte) :
    Op → List Byte
  | .write data => if ms.writable then write ms bytes data else bytes
  | _ => bytes

/-- A stream keeps the contents of a file in a run: they are the same before each call and at
the end, and each call returns what it has to. -/
def Keeps (same : Stream → List Byte → Prop) (write : Stream → List Byte → List Byte → List Byte) :
    Stream → List Byte → List Op → Prop
  | ms, bytes, [] => same ms bytes
  | ms, bytes, op :: ops =>
    same ms bytes ∧ ∃ result ms', step ms op = some (result, ms') ∧ Answers ms bytes result op ∧
      Keeps same write ms' (after write ms bytes op) ops

instance (ms : Stream) (bytes : List Byte) (result : Result) :
    (op : Op) → Decidable (Answers ms bytes result op)
  | .read _ => inferInstanceAs (Decidable (_ = _))
  | .write _ => inferInstanceAs (Decidable (_ = _))
  | .seek _ _ => inferInstanceAs (Decidable True)

instance (ms : Stream) (bytes : List Byte) : Decidable (SameButLast ms bytes) :=
  inferInstanceAs (Decidable (_ ∨ _))

instance decidableKeeps (same : Stream → List Byte → Prop)
    (write : Stream → List Byte → List Byte → List Byte)
    [∀ ms bytes, Decidable (same ms bytes)] :
    (ms : Stream) → (bytes : List Byte) → (ops : List Op) →
      Decidable (Keeps same write ms bytes ops)
  | ms, bytes, [] => inferInstanceAs (Decidable (same ms bytes))
  | ms, bytes, op :: ops =>
    match h : step ms op with
    | none => isFalse (by simp [Keeps, h])
    | some (result, ms') =>
      have := decidableKeeps same write ms' (after write ms bytes op) ops
      decidable_of_iff (same ms bytes ∧ Answers ms bytes result op ∧
        Keeps same write ms' (after write ms bytes op) ops) (by simp [Keeps, h])

theorem length_contents (ms : Stream) : ms.contents.length = ms.vsize := by
  unfold Stream.contents
  rw [List.length_map, List.length_range]

/-- The cells of a buffer below an end, after a text was written at a place up to the end. -/
theorem map_write {α : Type} (b : Buffer α) (text : List α) {p n : ℕ} (hp : p ≤ n) :
    (List.range (max n (p + text.length))).map (b.write p text).cell =
      ((List.range n).map b.cell).take p ++ text ++
        ((List.range n).map b.cell).drop (p + text.length) := by
  refine List.ext_getElem ?_ fun j hj hj' => ?_
  · simp
    omega
  · simp [Buffer.write] at hj ⊢
    grind

theorem map_set (f : ℕ → Byte) (n i : ℕ) (v : Byte) :
    (List.range n).map (fun j => if j = i then v else f j) = ((List.range n).map f).set i v := by
  refine List.ext_getElem ?_ fun j hj hj' => ?_
  · simp
  · simp only [List.getElem_map, List.getElem_range, List.getElem_set, eq_comm]

namespace Stream.Inside

variable {ms : Stream}

theorem filePlace_contents (ms : Stream) : filePlace ms ms.contents = ms.place := by
  unfold filePlace Stream.place
  rw [length_contents]

/-- A read returns the bytes of the file from the position on. -/
theorem read_answers (h : ms.Inside) {len : ℕ} (hlen : len ≤ INT_MAX) :
    ∃ result ms', mstreamRead ms len = some (result, ms') ∧
      Answers ms ms.contents result (.read len) ∧ ms'.contents = ms.contents := by
  by_cases hread : ms.flags.read = true
  · refine ⟨_, _, h.mstreamRead_eq hlen hread, ?_, rfl⟩
    have hdata : (List.range' ms.curpos (min len (ms.vsize - ms.curpos))).map ms.buf.cell =
        (ms.contents.drop ms.curpos).take len := by
      refine List.ext_getElem ?_ fun j hj hj' => ?_
      · simp [length_contents]
      · simp [Stream.contents]
    refine Eq.trans ?_ (if_pos hread).symm
    rw [← hdata, List.length_map, List.length_range']
  · exact ⟨_, _, if_pos (by simpa using hread), (if_neg hread).symm, rfl⟩

/-- A write to the stream is a write to the file, with its null. -/
theorem write_answers (h : ms.Inside) {data : List Byte} (hlen : data.length ≤ INT_MAX) :
    ∃ result ms', mstreamWrite ms data = some (result, ms') ∧
      Answers ms ms.contents result (.write data) ∧
      ms'.contents = after nullWrite ms ms.contents (.write data) := by
  by_cases hwrite : ms.writable = true
  · obtain ⟨buf, hrun, -, hcells⟩ := h.mstreamWrite_eq hlen hwrite
    have hplace := h.place_le
    have hlength : (data.take (ms.rsize - ms.place)).length =
        min data.length (ms.rsize - ms.place) := by
      rw [List.length_take, Nat.min_comm]
    have hend : ms.written data.length =
        ms.place + (data.take (ms.rsize - ms.place)).length := by
      rw [hlength]
      rfl
    have hplain : (List.range (max ms.vsize (ms.written data.length))).map
        (ms.buf.write ms.place (data.take (ms.rsize - ms.place))).cell =
          plainWrite ms ms.contents data := by
      rw [hend, map_write _ _ hplace]
      unfold plainWrite overwrite
      rw [filePlace_contents]
      rfl
    refine ⟨_, _, hrun, ?_, ?_⟩
    · refine Eq.trans ?_ (if_pos hwrite).symm
      rw [filePlace_contents, hlength]
    · have hmap : (List.range (max ms.vsize (ms.written data.length))).map buf.cell =
          (List.range (max ms.vsize (ms.written data.length))).map fun j =>
            if ms.writeOnly = true ∧ j = min (ms.written data.length) (ms.rsize - 1) then 0
            else (ms.buf.write ms.place (data.take (ms.rsize - ms.place))).cell j :=
        List.map_congr_left fun j hj => hcells j (List.mem_range.mp hj)
      refine hmap.trans (Eq.trans ?_ (if_pos hwrite).symm)
      unfold nullWrite
      by_cases honly : ms.writeOnly = true
      · simp only [honly, true_and, if_true]
        rw [map_set, hplain, filePlace_contents, hend]
      · rw [if_neg honly, ← hplain]
        exact List.map_congr_left fun j _ => if_neg fun hj => honly hj.1
  · exact ⟨_, _, if_pos (eq_false_of_ne_true hwrite), (if_neg hwrite).symm, (if_neg hwrite).symm⟩

theorem contents_seek (ms : Stream) (pos : ℤ) (whence : Whence) :
    (mstreamSeek ms pos whence).2.contents = ms.contents := by
  simp only [mstreamSeek]
  split
  · rfl
  · rfl

/-- Each call keeps the contents of the stream those of the file. -/
theorem step_answers (h : ms.Inside) {op : Op} (hop : op.len ≤ INT_MAX) :
    ∃ result ms', step ms op = some (result, ms') ∧ Answers ms ms.contents result op ∧
      ms'.contents = after nullWrite ms ms.contents op := by
  cases op with
  | read len => exact h.read_answers hop
  | write data => exact h.write_answers hop
  | seek pos whence => exact ⟨_, _, rfl, trivial, contents_seek ms pos whence⟩

theorem keeps (h : ms.Inside) {ops : List Op} (hops : ∀ op ∈ ops, op.len ≤ INT_MAX) :
    Keeps Same nullWrite ms ms.contents ops := by
  induction ops generalizing ms with
  | nil => exact rfl
  | cons op ops ih =>
    have hop := hops op List.mem_cons_self
    obtain ⟨result, ms', hstep, hanswers, hcontents⟩ := h.step_answers hop
    obtain ⟨result', ms'', hstep', h', -⟩ := h.step_inside hop
    obtain ⟨rfl, rfl⟩ := Prod.mk.inj (Option.some.inj (hstep.symm.trans hstep'))
    refine ⟨rfl, result, ms', hstep, hanswers, ?_⟩
    rw [← hcontents]
    exact ih h' fun op' hop' => hops op' (List.mem_cons_of_mem op hop')

end Stream.Inside

/-- A stream keeps the contents of a file that takes the nulls of a stream for writing only. -/
theorem keeps_contents {given : Bool} {memory : ℕ → Byte} {size : ℕ} {type : List Char}
    {ms : Stream} (hsize : size ≤ INT_MAX) (hopen : fmemopen given memory size type = some ms)
    {ops : List Op} (hops : ∀ op ∈ ops, op.len ≤ INT_MAX) :
    Keeps Same nullWrite ms ms.contents ops :=
  (fmemopen_inside hopen hsize).1.keeps hops

theorem keeps_contents_middle :
    Keeps Same nullWrite ⟨⟨8, fun _ => 0⟩, 0, 0, ⟨false, true, false, true, false⟩⟩ []
      [.write [97, 98, 99], .seek 0 .set, .write [120]] :=
  @keeps_contents true (fun _ => 0) 8 ['w'] _ (by decide) rfl _ (by decide)

/-- A write in the middle of a stream for writing only takes a byte away that the file keeps. -/
theorem not_keeps_plain :
    fmemopen true (fun _ => 0) 8 ['w'] =
        some ⟨⟨8, fun _ => 0⟩, 0, 0, ⟨false, true, false, true, false⟩⟩ ∧
      ¬ Keeps SameButLast plainWrite
        ⟨⟨8, fun _ => 0⟩, 0, 0, ⟨false, true, false, true, false⟩⟩ []
        [.write [97, 98, 99], .seek 0 .set, .write [120]] :=
  ⟨rfl, by decide +kernel⟩

end Apue.MemStream
