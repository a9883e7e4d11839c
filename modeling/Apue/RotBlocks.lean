import Apue.RotModel
import Mathlib.Algebra.Order.BigOperators.Group.Finset
import Mathlib.Data.List.Perm.Basic

/-!
The buffers of rot13c2. Each block of the input that was begun is in one buffer or has been
written, never both, and the output has the translation of the blocks that were written.
-/
namespace Apue.Rot13

open Decimal ByteFiles Programs Finset

theorem length_writeAt (file bytes : List Byte) (off : ℕ) :
    (writeAt file off bytes).length = max file.length (off + bytes.length) := by
  simp only [writeAt, List.length_append, List.length_take, List.length_replicate, List.length_drop]
  omega

/-- The bytes of a file outside a write stay as they are. -/
theorem getElem?_writeAt_of_lt {file bytes : List Byte} {off i : ℕ} (hi : i < off)
    (hfile : i < file.length) : (writeAt file off bytes)[i]? = file[i]? := by
  have htake : i < (file.take off).length := by
    rw [List.length_take]
    omega
  rw [writeAt, List.append_assoc, List.append_assoc, List.getElem?_append_left htake,
    List.getElem?_take_of_lt hi]

theorem getElem?_writeAt_inside {file bytes : List Byte} {off i : ℕ} (hi : i < bytes.length) :
    (writeAt file off bytes)[off + i]? = bytes[i]? := by
  have hpre : (file.take off ++ List.replicate (off - file.length) 0).length = off := by
    simp only [List.length_append, List.length_take, List.length_replicate]
    omega
  rw [writeAt, List.append_assoc, List.getElem?_append_right (by omega), hpre,
    Nat.add_sub_cancel_left, List.getElem?_append_left hi]

theorem getElem?_writeAt_of_ge {file bytes : List Byte} {off i : ℕ} (hi : off + bytes.length ≤ i) :
    (writeAt file off bytes)[i]? = file[i]? := by
  have hpre : (file.take off ++ List.replicate (off - file.length) 0 ++ bytes).length =
      off + bytes.length := by
    simp only [List.length_append, List.length_take, List.length_replicate]
    omega
  rw [writeAt, List.getElem?_append_right (by omega), hpre, List.getElem?_drop]
  congr 1
  omega

theorem length_readAt (file : List Byte) (off n : ℕ) :
    (readAt file off n).length = min n (file.length - off) := by
  rw [readAt, List.length_take, List.length_drop]

theorem getElem?_readAt {file : List Byte} {off n i : ℕ} (hi : i < n) :
    (readAt file off n)[i]? = file[off + i]? := by
  rw [readAt, List.getElem?_take_of_lt hi, List.getElem?_drop]

/-- The block of a buffer is not written yet. -/
def Buf.pending (b : Buf) : Bool :=
  match b.op with
  | .UNUSED => false
  | .READ_PENDING => true
  | .WRITE_PENDING => b.aio = .writing

/-- What a buffer holds, by its state. -/
structure BufOk (input : List Byte) (b : Buf) : Prop where
  unused : b.op = .UNUSED → b.aio = .none
  read : b.op = .READ_PENDING → b.aio_fildes = .ifd ∧ b.aio_nbytes = BSZ ∧
    (input.length ≤ b.aio_offset + BSZ → b.last = true) ∧
    (b.aio = .reading ∨ b.aio = .done (readAt input b.aio_offset BSZ).length ∧
      b.data.take (readAt input b.aio_offset BSZ).length = readAt input b.aio_offset BSZ)
  write : b.op = .WRITE_PENDING → b.aio_fildes = .ofd ∧
    b.aio_nbytes = (readAt input b.aio_offset BSZ).length ∧
    b.data.take b.aio_nbytes = (readAt input b.aio_offset BSZ).map translate ∧
    (b.aio = .writing ∨ b.aio = .done b.aio_nbytes)
  inside : b.op ≠ .UNUSED → b.aio_offset < input.length ∧ BSZ ∣ b.aio_offset

theorem BufOk.op_of_reading {input : List Byte} {b : Buf} (h : BufOk input b)
    (haio : b.aio = .reading) : b.op = .READ_PENDING := by
  cases hop : b.op with
  | UNUSED =>
    rw [h.unused hop] at haio
    cases haio
  | READ_PENDING => rfl
  | WRITE_PENDING =>
    obtain ⟨-, -, -, hwrite⟩ := h.write hop
    rw [haio] at hwrite
    rcases hwrite with hwrite | hwrite <;> cases hwrite

theorem BufOk.op_of_writing {input : List Byte} {b : Buf} (h : BufOk input b)
    (haio : b.aio = .writing) : b.op = .WRITE_PENDING := by
  cases hop : b.op with
  | UNUSED =>
    rw [h.unused hop] at haio
    cases haio
  | READ_PENDING =>
    obtain ⟨-, -, -, hread⟩ := h.read hop
    rw [haio] at hread
    rcases hread with hread | ⟨hread, -⟩ <;> cases hread
  | WRITE_PENDING => rfl

namespace State

def busy (b : Buf) : ℤ := if b.op = .UNUSED then 0 else 1

def slot (o : ℕ) (b : Buf) : ℕ := if b.pending ∧ b.aio_offset = o then 1 else 0

structure Inv (input : List Byte) (s : State) : Prop where
  aligned : BSZ ∣ s.off
  bounded : s.off < input.length + BSZ
  numop : s.numop = ∑ i ∈ range NBUF, busy (s.bufs i)
  once : ∀ o, s.written.count o + ∑ i ∈ range NBUF, slot o (s.bufs i) =
    if BSZ ∣ o ∧ o < s.off then 1 else 0
  buf : ∀ i < NBUF, BufOk input (s.bufs i)
  listed : ∀ i < NBUF, s.aiolist i = decide ((s.bufs i).op ≠ .UNUSED)
  length : s.out.length ≤ input.length
  out : ∀ k < input.length, k / BSZ * BSZ ∈ s.written →
    s.out[k]? = (input.map translate)[k]?
  noQuit : s.pc ≠ .quit
  exited : s.pc = .exited → s.numop = 0 ∧ input.length ≤ s.off
  suspended : s.pc = .suspend → s.numop ≠ 0

theorem Inv.initial (input : List Byte) : State.initial.Inv input where
  aligned := ⟨0, rfl⟩
  bounded := Nat.add_pos_right _ (by decide)
  numop := by decide
  once o := by
    have hslot : ∀ i ∈ range NBUF, slot o (State.initial.bufs i) = 0 := fun _ _ => rfl
    rw [sum_eq_zero hslot]
    simp [State.initial]
  buf _ _ := ⟨fun _ => rfl, nofun, nofun, fun h => absurd rfl h⟩
  listed _ _ := rfl
  length := Nat.zero_le _
  out := nofun
  noQuit := nofun
  exited := nofun
  suspended := nofun

variable {input : List Byte} {s s' : State} {i : ℕ} {b : Buf}

/-- A sum over the buffers when one of them changes. -/
theorem sum_setBuf {M : Type} [AddCommMonoid M] (f : Buf → M) (hi : i < NBUF)
    (hbufs : s'.bufs = Function.update s.bufs i b) :
    ∑ j ∈ range NBUF, f (s'.bufs j) + f (s.bufs i) = ∑ j ∈ range NBUF, f (s.bufs j) + f b := by
  have hmem : i ∈ range NBUF := mem_range.mpr hi
  have hrest : ∑ j ∈ (range NBUF).erase i, f (s'.bufs j) =
      ∑ j ∈ (range NBUF).erase i, f (s.bufs j) := by
    refine sum_congr rfl fun j hj => ?_
    rw [hbufs, Function.update_of_ne (ne_of_mem_erase hj)]
  rw [← add_sum_erase _ _ hmem, ← add_sum_erase _ (fun j => f (s.bufs j)) hmem, hrest, hbufs,
    Function.update_self, add_right_comm, add_comm (f b), add_right_comm]

theorem Inv.update_buf (h : s.Inv input) (hbufs : s'.bufs = Function.update s.bufs i b)
    (hb : BufOk input b) : ∀ j < NBUF, BufOk input (s'.bufs j) := by
  intro j hj
  rw [hbufs]
  by_cases hji : j = i
  · subst hji
    rwa [Function.update_self]
  · rw [Function.update_of_ne hji]
    exact h.buf j hj

/-- A buffer changes that was used before and is used after that. -/
theorem Inv.keepUsed (h : s.Inv input) (hi : i < NBUF)
    (hbufs : s'.bufs = Function.update s.bufs i b) (hlist : s'.aiolist = s.aiolist)
    (hop : (s.bufs i).op ≠ .UNUSED) (hop' : b.op ≠ .UNUSED) (hnumop : s'.numop = s.numop) :
    s'.numop = ∑ j ∈ range NBUF, busy (s'.bufs j) ∧
      ∀ j < NBUF, s'.aiolist j = decide ((s'.bufs j).op ≠ .UNUSED) := by
  refine ⟨?_, fun j hj => ?_⟩
  · have hsum := sum_setBuf busy hi hbufs
    have hbusy : busy (s.bufs i) = 1 := if_neg hop
    have hbusy' : busy b = 1 := if_neg hop'
    have hold := h.numop
    rw [hbusy, hbusy'] at hsum
    rw [hnumop]
    omega
  · rw [hlist, hbufs]
    by_cases hji : j = i
    · subst hji
      rw [Function.update_self, h.listed j hj]
      simp [hop, hop']
    · rw [Function.update_of_ne hji]
      exact h.listed j hj

/-- The loop goes on without a change. -/
theorem Inv.goto (h : s.Inv input) {pc : Pc} (hpc : pc ≠ .quit)
    (hexit : pc = .exited → s.numop = 0 ∧ input.length ≤ s.off)
    (hsuspend : pc = .suspend → s.numop ≠ 0) : ({ s with pc } : State).Inv input :=
  ⟨h.aligned, h.bounded, h.numop, h.once, h.buf, h.listed, h.length, h.out, hpc, hexit, hsuspend⟩

theorem next_block {off o : ℕ} (h : BSZ ∣ off) :
    (BSZ ∣ o ∧ o < off + BSZ) ↔ o = off ∨ BSZ ∣ o ∧ o < off := by
  have h' : 4096 ∣ off := h
  change (4096 ∣ o ∧ o < off + 4096) ↔ o = off ∨ 4096 ∣ o ∧ o < off
  omega

/-- The next block is read. -/
theorem Inv.unused (h : s.Inv input) (hi : i < NBUF) (hop : (s.bufs i).op = .UNUSED) :
    (s.unused input.length i).Inv input := by
  rw [State.unused]
  split
  case isFalse => exact h.goto nofun nofun nofun
  case isTrue hlt =>
    obtain ⟨b, hb⟩ : ∃ b, b = (s.bufs i).startRead input.length s.off := ⟨_, rfl⟩
    rw [← hb]
    have hbusy : busy (s.bufs i) = 0 := if_pos hop
    have hbusy' : busy b = 1 := by
      rw [hb]
      rfl
    have hslot : ∀ o, slot o (s.bufs i) = 0 := fun o => if_neg (by simp [Buf.pending, hop])
    have hslot' : ∀ o, slot o b = if s.off = o then 1 else 0 := fun o => by
      simp [slot, hb, Buf.startRead, Buf.pending]
    have hdvd := h.aligned
    refine ⟨?_, ?_, ?_, fun o => ?_, h.update_buf rfl ?_, fun j hj => ?_, h.length, h.out, nofun,
      nofun, nofun⟩
    · exact (Nat.dvd_add_right hdvd).mpr (Nat.dvd_refl _)
    · change s.off + BSZ < input.length + BSZ
      omega
    · have hsum := sum_setBuf busy hi (rfl : (s.setBuf i b).bufs = _)
      have hold := h.numop
      rw [hbusy, hbusy'] at hsum
      change s.numop + 1 = ∑ j ∈ range NBUF, busy ((s.setBuf i b).bufs j)
      omega
    · have hsum := sum_setBuf (slot o) hi (rfl : (s.setBuf i b).bufs = _)
      have hold := h.once o
      rw [hslot, hslot'] at hsum
      change s.written.count o + ∑ j ∈ range NBUF, slot o ((s.setBuf i b).bufs j) =
        if BSZ ∣ o ∧ o < s.off + BSZ then 1 else 0
      simp only [next_block hdvd]
      by_cases ho : o = s.off
      · subst ho
        simp only [lt_irrefl, and_false, if_false] at hold
        simp only [true_or, if_true] at hsum ⊢
        omega
      · rw [if_neg (Ne.symm ho)] at hsum
        simp only [ho, false_or]
        omega
    · rw [hb]
      refine ⟨nofun, fun _ => ⟨rfl, rfl, fun hlast => ?_, Or.inl rfl⟩, nofun, fun _ => ⟨hlt, hdvd⟩⟩
      exact if_pos hlast
    · change Function.update s.aiolist i true j = decide ((Function.update s.bufs i b j).op ≠ .UNUSED)
      by_cases hji : j = i
      · subst hji
        rw [Function.update_self, Function.update_self, hb]
        rfl
      · rw [Function.update_of_ne hji, Function.update_of_ne hji]
        exact h.listed j hj

/-- A step of a buffer that leaves its block where it is. -/
theorem Inv.local (h : s.Inv input) (hi : i < NBUF) {pc : Pc} (hpc : pc ≠ .quit)
    (hexit : pc = .exited → s.pc = .exited) (hsuspend : pc = .suspend → s.pc = .suspend)
    (hop : (s.bufs i).op ≠ .UNUSED) (hop' : b.op ≠ .UNUSED)
    (hslot : ∀ o, slot o b = slot o (s.bufs i)) (hb : BufOk input b) :
    ({ s.setBuf i b with pc } : State).Inv input := by
  obtain ⟨hnumop, hlisted⟩ := h.keepUsed hi (rfl : ({ s.setBuf i b with pc } : State).bufs = _) rfl
    hop hop' rfl
  refine ⟨h.aligned, h.bounded, hnumop, fun o => ?_, h.update_buf rfl hb, hlisted, h.length, h.out,
    hpc, fun he => h.exited (hexit he), fun he => h.suspended (hsuspend he)⟩
  have hsum := sum_setBuf (slot o) hi (rfl : ({ s.setBuf i b with pc } : State).bufs = _)
  have hold := h.once o
  rw [hslot] at hsum
  change s.written.count o + ∑ j ∈ range NBUF, slot o ((s.setBuf i b).bufs j) = _
  change ∑ j ∈ range NBUF, slot o ((s.setBuf i b).bufs j) + _ = _ at hsum
  change _ = if BSZ ∣ o ∧ o < s.off then 1 else 0
  omega

/-- A read that is complete: the block is translated and its write begins. A short read
belongs to the last block. -/
theorem Inv.readPending (h : s.Inv input) (hi : i < NBUF) (hop : (s.bufs i).op = .READ_PENDING) :
    (s.readPending i).Inv input := by
  obtain ⟨-, -, hlast, haio⟩ := (h.buf i hi).read hop
  have hinside := (h.buf i hi).inside (by rw [hop]; nofun)
  rw [State.readPending]
  rcases haio with haio | ⟨haio, hdata⟩
  · rw [haio]
    exact h.goto nofun nofun nofun
  · rw [haio]
    simp only
    have hlen := length_readAt input (s.bufs i).aio_offset BSZ
    rw [if_neg]
    · refine h.local hi nofun nofun nofun (by rw [hop]; nofun) nofun (fun o => ?_) ?_
      · simp [slot, Buf.pending, Buf.startWrite, hop]
      · refine ⟨nofun, nofun, fun _ => ⟨rfl, rfl, ?_, Or.inl rfl⟩, fun _ => hinside⟩
        simp only [Buf.startWrite]
        rw [hdata, List.take_left' (by rw [List.length_map])]
    · rintro ⟨hshort, hnot⟩
      rw [hlast (by omega)] at hnot
      cases hnot

/-- A write that is complete: the buffer is not used any more. -/
theorem Inv.writePending (h : s.Inv input) (hi : i < NBUF)
    (hop : (s.bufs i).op = .WRITE_PENDING) : (s.writePending i).Inv input := by
  obtain ⟨-, -, -, haio⟩ := (h.buf i hi).write hop
  rw [State.writePending]
  rcases haio with haio | haio
  · rw [haio]
    exact h.goto nofun nofun nofun
  · rw [haio]
    simp only [ne_eq, not_true_eq_false, if_false]
    have hbusy : busy (s.bufs i) = 1 := if_neg (by rw [hop]; nofun)
    have hslot : ∀ o, slot o (s.bufs i) = 0 := fun o => if_neg (by simp [Buf.pending, hop, haio])
    have hslot' : ∀ o, slot o (s.bufs i).free = 0 := fun o => rfl
    refine ⟨h.aligned, h.bounded, ?_, fun o => ?_, h.update_buf rfl ?_, fun j hj => ?_, h.length,
      h.out, nofun, nofun, nofun⟩
    · have hsum := sum_setBuf busy hi (rfl : (s.setBuf i (s.bufs i).free).bufs = _)
      have hold := h.numop
      have hfree : busy (s.bufs i).free = 0 := rfl
      rw [hbusy, hfree] at hsum
      change s.numop - 1 = ∑ j ∈ range NBUF, busy ((s.setBuf i (s.bufs i).free).bufs j)
      omega
    · have hsum := sum_setBuf (slot o) hi (rfl : (s.setBuf i (s.bufs i).free).bufs = _)
      have hold := h.once o
      rw [hslot, hslot'] at hsum
      change s.written.count o + ∑ j ∈ range NBUF, slot o ((s.setBuf i (s.bufs i).free).bufs j) =
        if BSZ ∣ o ∧ o < s.off then 1 else 0
      omega
    · exact ⟨fun _ => rfl, nofun, nofun, fun hne => absurd rfl hne⟩
    · change Function.update s.aiolist i false j =
        decide ((Function.update s.bufs i (s.bufs i).free j).op ≠ .UNUSED)
      by_cases hji : j = i
      · subst hji
        rw [Function.update_self, Function.update_self]
        rfl
      · rw [Function.update_of_ne hji, Function.update_of_ne hji]
        exact h.listed j hj

/-- The output after a write of the translation of a block. -/
theorem Inv.writeBlock (h : s.Inv input) {o k : ℕ} {bytes : List Byte} (ho : BSZ ∣ o)
    (hbytes : bytes = (readAt input o BSZ).map translate) (hk : k < input.length)
    (hmem : k / BSZ * BSZ ∈ o :: s.written) :
    (writeAt s.out o bytes)[k]? = (input.map translate)[k]? := by
  have hlen : bytes.length = min BSZ (input.length - o) := by
    rw [hbytes, List.length_map, length_readAt]
  have ho' : 4096 ∣ o := ho
  have hsize : BSZ = 4096 := rfl
  by_cases hin : o ≤ k ∧ k < o + bytes.length
  · obtain ⟨i, rfl⟩ : ∃ i, k = o + i := ⟨k - o, by omega⟩
    rw [getElem?_writeAt_inside (by omega), hbytes, List.getElem?_map, List.getElem?_map,
      getElem?_readAt (by omega)]
  · -- the byte is in another block, which has been written before
    have hbefore : k / BSZ * BSZ ∈ s.written := by
      refine (List.mem_cons.mp hmem).resolve_left fun heq => hin ?_
      rw [hsize] at heq hlen
      omega
    have hold := h.out k hk hbefore
    have hkout : k < s.out.length := by
      by_contra hge
      rw [List.getElem?_eq_none (Nat.not_lt.mp hge), eq_comm, List.getElem?_eq_none_iff,
        List.length_map] at hold
      omega
    rcases Nat.lt_or_ge k o with hlt | hge
    · rw [getElem?_writeAt_of_lt hlt hkout, hold]
    · rw [getElem?_writeAt_of_ge (by omega), hold]

/-- The kernel completes the operation of a buffer. -/
theorem Inv.complete (h : s.Inv input) (hi : i < NBUF) (hs : s.complete input i = some s') :
    s'.Inv input := by
  have hbuf := h.buf i hi
  rw [State.complete] at hs
  split at hs
  case h_1 haio =>
    have hop := hbuf.op_of_reading haio
    have hne : (s.bufs i).op ≠ .UNUSED := by
      rw [hop]
      nofun
    obtain ⟨hfd, hbytes, hlast, -⟩ := hbuf.read hop
    rw [hfd, hbytes] at hs
    obtain rfl := Option.some.inj hs
    refine h.local hi h.noQuit (fun he => he) (fun he => he) hne
      (by simpa [Buf.received] using hne) (fun o => ?_) ?_
    · simp [slot, Buf.pending, Buf.received, hop]
    · refine ⟨fun hop' => ?_, fun _ => ⟨hfd, hbytes, hlast, Or.inr ⟨rfl, ?_⟩⟩, fun hop' => ?_,
        fun _ => hbuf.inside hne⟩
      · exact absurd hop' hne
      · exact List.take_left' rfl
      · cases hop.symm.trans hop'
  case h_2 haio =>
    have hop := hbuf.op_of_writing haio
    have hne : (s.bufs i).op ≠ .UNUSED := by
      rw [hop]
      nofun
    obtain ⟨hfd, hbytes, hdata, -⟩ := hbuf.write hop
    obtain ⟨hinside, hdvd⟩ := hbuf.inside hne
    rw [hfd] at hs
    obtain rfl := Option.some.inj hs
    obtain ⟨hnumop, hlisted⟩ := h.keepUsed hi
      (rfl : ({ s.setBuf i (s.bufs i).sent with
        out := writeAt s.out (s.bufs i).aio_offset ((s.bufs i).data.take (s.bufs i).aio_nbytes)
        written := (s.bufs i).aio_offset :: s.written } : State).bufs = _) rfl hne hne rfl
    refine ⟨h.aligned, h.bounded, hnumop, fun o => ?_, h.update_buf rfl ?_, hlisted, ?_,
      fun k hk hmem => h.writeBlock hdvd hdata hk hmem, h.noQuit, h.exited, h.suspended⟩
    · have hsum := sum_setBuf (slot o) hi (rfl : (s.setBuf i (s.bufs i).sent).bufs = _)
      have hold := h.once o
      have hslot : slot o (s.bufs i) = if (s.bufs i).aio_offset = o then 1 else 0 := by
        simp [slot, Buf.pending, hop, haio]
      have hslot' : slot o (s.bufs i).sent = 0 := by
        simp [slot, Buf.pending, Buf.sent, hop]
      rw [hslot, hslot'] at hsum
      change ((s.bufs i).aio_offset :: s.written).count o +
        ∑ j ∈ range NBUF, slot o ((s.setBuf i (s.bufs i).sent).bufs j) =
          if BSZ ∣ o ∧ o < s.off then 1 else 0
      rw [List.count_cons]
      simp only [beq_iff_eq]
      omega
    · refine ⟨fun hop' => ?_, fun hop' => ?_, fun _ => ⟨hfd, hbytes, hdata, Or.inr rfl⟩,
        fun _ => ⟨hinside, hdvd⟩⟩
      · exact absurd hop' hne
      · cases hop.symm.trans hop'
    · change (writeAt s.out _ _).length ≤ input.length
      have hlen := length_readAt input (s.bufs i).aio_offset BSZ
      have hle := h.length
      rw [length_writeAt, hdata, List.length_map]
      omega
  · cases hs

theorem Inv.run (h : s.Inv input) (hs : s.run input.length = some s') : s'.Inv input := by
  rw [State.run] at hs
  split at hs
  case h_1 i _ =>
    split at hs
    case isTrue hi =>
      split at hs
      case h_1 hop =>
        obtain rfl := Option.some.inj hs
        exact h.unused hi hop
      case h_2 hop =>
        obtain rfl := Option.some.inj hs
        exact h.readPending hi hop
      case h_3 hop =>
        obtain rfl := Option.some.inj hs
        exact h.writePending hi hop
    · split at hs
      case isTrue hnone =>
        split at hs
        case isTrue hoff =>
          obtain rfl := Option.some.inj hs
          exact h.goto nofun (fun _ => ⟨hnone, hoff⟩) nofun
        · obtain rfl := Option.some.inj hs
          exact h.goto nofun nofun nofun
      case isFalse hsome =>
        obtain rfl := Option.some.inj hs
        exact h.goto nofun nofun fun _ => hsome
  · obtain ⟨-, hs⟩ := Option.ite_none_right_eq_some.mp hs
    obtain rfl := Option.some.inj hs
    exact h.goto nofun nofun nofun
  · cases hs
  · cases hs

theorem Inv.step {e : Option ℕ} (h : s.Inv input) (hs : s.step input e = some s') :
    s'.Inv input := by
  cases e with
  | none => exact h.run hs
  | some i =>
    obtain ⟨hi, hs⟩ := Option.ite_none_right_eq_some.mp hs
    exact h.complete hi hs

theorem Inv.of_reachable (h : Reachable input s) : s.Inv input := by
  obtain ⟨events, hrun⟩ := h
  exact steps_induct (P := fun s => s.Inv input) (fun s₀ e s₁ h₀ hs₁ => h₀.step hs₁) hrun
    (Inv.initial input)

/-- What has happened when the main loop exits: no operation is outstanding, each block has
been written once at its own offset, and the output is the translation of the input. -/
structure Finished (input : List Byte) (s : State) : Prop where
  idle : ∀ i < NBUF, (s.bufs i).aio ≠ .reading ∧ (s.bufs i).aio ≠ .writing
  written : s.written.Perm ((List.range ((input.length + BSZ - 1) / BSZ)).map (· * BSZ))
  out : s.out = input.map translate

theorem Inv.unused_of_numop (h : s.Inv input) (hzero : s.numop = 0) :
    ∀ i < NBUF, (s.bufs i).op = .UNUSED := by
  have hsum := h.numop
  rw [hzero, eq_comm, sum_eq_zero_iff_of_nonneg fun i _ => ?_] at hsum
  · intro i hi
    have hbusy := hsum i (mem_range.mpr hi)
    by_contra hop
    rw [busy, if_neg hop] at hbusy
    cases hbusy
  · rw [busy]
    split <;> decide

theorem Inv.finished (h : s.Inv input) (hexit : s.pc = .exited) : s.Finished input := by
  obtain ⟨hzero, hoff⟩ := h.exited hexit
  have hunused := h.unused_of_numop hzero
  have hcount : ∀ o, s.written.count o = if BSZ ∣ o ∧ o < s.off then 1 else 0 := by
    intro o
    have honce := h.once o
    rw [sum_eq_zero fun i hi => ?_, Nat.add_zero] at honce
    · exact honce
    · exact if_neg (by simp [Buf.pending, hunused i (mem_range.mp hi)])
  have hsize : BSZ = 4096 := rfl
  have haligned : 4096 ∣ s.off := h.aligned
  have hbounded := h.bounded
  refine ⟨fun i hi => ?_, ?_, ?_⟩
  · rw [(h.buf i hi).unused (hunused i hi)]
    exact ⟨nofun, nofun⟩
  · refine List.perm_iff_count.mpr fun o => ?_
    have hnodup : ((List.range ((input.length + BSZ - 1) / BSZ)).map (· * BSZ)).Nodup :=
      List.nodup_range.map fun a c hac => Nat.eq_of_mul_eq_mul_right (by decide) hac
    rw [hcount, hnodup.count]
    have hmem : (BSZ ∣ o ∧ o < s.off) ↔
        o ∈ (List.range ((input.length + BSZ - 1) / BSZ)).map (· * BSZ) := by
      rw [hsize] at hbounded ⊢
      simp only [List.mem_map, List.mem_range]
      constructor
      · rintro ⟨⟨a, rfl⟩, hlt⟩
        exact ⟨a, by omega, Nat.mul_comm _ _⟩
      · rintro ⟨a, ha, rfl⟩
        exact ⟨⟨a, Nat.mul_comm _ _⟩, by omega⟩
    simp only [hmem]
  · have hall : ∀ k < input.length, s.out[k]? = (input.map translate)[k]? := by
      intro k hk
      refine h.out k hk (List.count_pos_iff.mp ?_)
      have hblock : 4096 ∣ k / 4096 * 4096 := ⟨k / 4096, Nat.mul_comm _ _⟩
      rw [hcount, if_pos]
      · exact Nat.one_pos
      · exact ⟨hblock, by rw [hsize]; omega⟩
    have hlength := h.length
    refine List.ext_getElem? fun k => ?_
    rcases Nat.lt_or_ge k input.length with hlt | hge
    · exact hall k hlt
    · rw [List.getElem?_eq_none (by omega), List.getElem?_eq_none (by rw [List.length_map]; omega)]

end State

/-- The loop of rot13a writes the translation of the input from its offset on. -/
theorem rot13aLoop_eq (input : List Byte) (out : List Byte) (off : ℕ) (hout : out.length = off) :
    rot13aLoop input out off = out ++ (input.drop off).map translate := by
  fun_induction rot13aLoop input out off with
  | case1 out off hpos ih =>
    have hend : writeAt out off ((readAt input off BSZ).map translate) =
        out ++ (readAt input off BSZ).map translate := by
      rw [← hout]
      exact writeAt_end out _
    rw [ih, hend, List.append_assoc, ← List.map_append, ← List.drop_drop]
    · have hsplit : readAt input off BSZ ++ (input.drop off).drop (readAt input off BSZ).length =
          input.drop off :=
        List.prefix_iff_eq_append.mp (List.take_prefix BSZ (input.drop off))
      rw [hsplit]
    · rw [hend, List.length_append, List.length_map, hout]
  | case2 out off hnot =>
    have hlen := length_readAt input off BSZ
    have hsize : 0 < BSZ := by decide
    rw [List.drop_eq_nil_of_le (by omega)]
    simp

theorem rot13a_eq (input : List Byte) : rot13a input = input.map translate := by
  rw [rot13a, rot13aLoop_eq input [] 0 rfl]
  simp

end Apue.Rot13
