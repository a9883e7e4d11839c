import Apue.PrinterWithin

/-!
The loop over the responses, and with it all of printer_status: it looks only at bytes that it
received if and only if each response is decided by the data of its own first read.
-/
namespace Apue.Printer

open Programs Decimal Buffers Print

/-- What Within says of a response, by its status line. -/
theorem within_iff {pieces : List (List Byte)} (hdata : (connection IOBUFSZ pieces).1 ≠ []) :
    Within pieces ↔
      match statusLine (ofText (connection IOBUFSZ pieces).1) with
      | none => False
      | some none => 0 ∈ (connection IOBUFSZ pieces).1 ∧ Within (connection IOBUFSZ pieces).2
      | some (some (b, cp, code)) =>
        if httpInfo code = true then Within (connection IOBUFSZ pieces).2
        else if httpSuccess code = true then FieldWithin b cp (connection IOBUFSZ pieces).2
        else True := by
  constructor
  · intro h
    cases h with
    | silent hsilent => exact absurd hsilent hdata
    | noCode hline hnull hrest =>
      rw [hline]
      exact ⟨hnull, hrest⟩
    | @info _ b cp code hline hinfo hrest =>
      rw [hline]
      exact (if_pos hinfo).mpr hrest
    | @success _ b cp code hline hsuccess hfield =>
      rw [hline]
      change if httpInfo code = true then _ else _
      rw [if_neg (not_info_of_success hsuccess), if_pos hsuccess]
      exact hfield
    | @error _ b cp code hline hinfo hsuccess =>
      rw [hline]
      change if httpInfo code = true then _ else _
      rw [hinfo, hsuccess]
      trivial
  · intro h
    cases hline : statusLine (ofText (connection IOBUFSZ pieces).1) with
    | none =>
      rw [hline] at h
      exact h.elim
    | some line =>
      rw [hline] at h
      rcases line with _ | ⟨b, cp, code⟩
      · exact .noCode hline h.1 h.2
      · change if httpInfo code = true then _ else _ at h
        split at h
        · rename_i hinfo
          exact .info hline hinfo h
        · rename_i hinfo
          split at h
          · rename_i hsuccess
            exact .success hline hsuccess h
          · rename_i hsuccess
            exact .error hline (Bool.eq_false_iff.mpr hinfo) (Bool.eq_false_iff.mpr hsuccess)

/-- The string that begins with the data ends in it if there is a null. -/
theorem null_isSome (data : List Byte) :
    ((ofText data).takeWhile (fun b => b != 0) 0).isSome = true ↔ 0 ∈ data := by
  unfold Buffer.takeWhile
  rw [Option.isSome_map, Buffer.scan_isSome, List.mem_iff_getElem]
  refine exists_congr fun j => ?_
  constructor
  · rintro ⟨-, hj, hnull⟩
    refine ⟨hj, ?_⟩
    change (data.getD j 0 != 0) = false at hnull
    rw [List.getD_eq_getElem?_getD, List.getElem?_eq_getElem hj, Option.getD_some] at hnull
    exact bne_eq_false_iff_eq.mp hnull
  · rintro ⟨hj, hnull⟩
    refine ⟨Nat.zero_le j, hj, ?_⟩
    change (data.getD j 0 != 0) = false
    rw [List.getD_eq_getElem?_getD, List.getElem?_eq_getElem hj, Option.getD_some, hnull]
    rfl

/-- Without enough rounds printer_status may be cut off. Otherwise it looks beyond what came
in if and only if one of the responses is not decided by its own first read. -/
theorem responses_beyond_iff (fuel : ℕ) (jobid : ℤ) (rounds : ℕ) {bp : Buffer Byte}
    (hsize : bp.size = IOBUFSZ) (pieces : List (List Byte)) :
    ((fuel ≤ IOBUFSZ ∨ rounds ≤ weight pieces) ∧
        ((watchResponses true fuel jobid rounds bp).run connection pieces).1 = .diverged) ∨
      (((watchResponses true fuel jobid rounds bp).run connection pieces).1 = .aborted BEYOND ↔
        ¬ Within pieces) := by
  induction rounds generalizing bp pieces with
  | zero => exact .inl ⟨.inr (Nat.zero_le _), rfl⟩
  | succ rounds ih =>
    generalize hout : ((watchResponses true fuel jobid (rounds + 1) bp).run connection
      pieces).1 = out
    rw [watchResponses] at hout
    change ((if (connection bp.size pieces).1 = [] then _ else _ : Prog sig Bool).run connection
      (connection bp.size pieces).2).1 = out at hout
    rw [hsize] at hout
    by_cases hdata : (connection IOBUFSZ pieces).1 = []
    · rw [if_pos hdata] at hout
      obtain rfl := hout
      exact .inr (iff_of_false (by rintro ⟨⟩) (not_not.mpr (.silent hdata)))
    rw [if_neg hdata] at hout
    have hless := weight_connection hdata
    have hlen := length_connection_le IOBUFSZ pieces
    rw [within_iff hdata]
    generalize (connection IOBUFSZ pieces).1 = data at *
    generalize (connection IOBUFSZ pieces).2 = rest at *
    have hn : data.length ≤ (bp.write 0 data).size := hsize ▸ hlen
    -- The loop goes on with the next response.
    have hnext : ∀ bp' : Buffer Byte, bp'.size = IOBUFSZ →
        ((watchResponses true fuel jobid rounds bp').run connection rest).1 = out →
        ((fuel ≤ IOBUFSZ ∨ rounds + 1 ≤ weight pieces) ∧ out = .diverged) ∨
          (out = .aborted BEYOND ↔ ¬ Within rest) := by
      rintro bp' hsize' rfl
      refine (ih hsize' rest).imp_left fun hcut => ⟨?_, hcut.2⟩
      have hbound := hcut.1
      omega
    rw [received_write] at hout
    cases hline : statusLine (ofText data) with
    | none =>
      rw [watch_stop (by rw [hline]; exact Bool.false_ne_true)] at hout
      obtain rfl := hout
      exact .inr (iff_of_true rfl not_false)
    | some line =>
      have hwhole := received_statusLine (r := line) hn (by rw [received_write, hline])
      rcases line with _ | ⟨b, cp, code⟩
      · rw [watch_pass (hline ▸ rfl) hwhole] at hout
        change ((watch true _ >>= fun _ => watchLog true _ >>= fun _ => _ :
          Prog sig Bool).run connection rest).1 = out at hout
        by_cases hnull : 0 ∈ data
        · rw [watch_of ((null_isSome data).mpr hnull), Prog.ret_bind, watchLog, if_pos rfl,
            Prog.ret_bind] at hout
          refine (hnext (bp.write 0 data) hsize hout).imp_right fun h => h.trans (not_congr ?_)
          exact (and_iff_right hnull).symm
        · rw [watch_stop fun h => hnull ((null_isSome data).mp h)] at hout
          obtain rfl := hout
          exact .inr (iff_of_true rfl fun h => hnull h.1)
      · obtain ⟨bp', hwhole, rfl, hkeep, hcp⟩ := hwhole
        have hsize' : bp'.size = IOBUFSZ := hkeep.trans hsize
        rw [watch_pass (hline ▸ rfl) hwhole] at hout
        change ((if httpInfo code = true then _ else if httpSuccess code = true then _ else _ :
          Prog sig Bool).run connection rest).1 = out at hout
        change _ ∨ (_ ↔ ¬ if httpInfo code = true then _ else if httpSuccess code = true then _
          else _)
        by_cases hinfo : httpInfo code = true
        · rw [if_pos hinfo] at hout ⊢
          exact hnext bp' hsize' hout
        rw [if_neg hinfo] at hout ⊢
        by_cases hsuccess : httpSuccess code = true
        · rw [if_pos hsuccess] at hout ⊢
          rw [← hout]
          refine (judge_beyond_iff hsize' (hkeep ▸ hn) hcp rest).imp_left fun hcut => ?_
          exact ⟨.inl (hcut.1.trans hlen), hcut.2⟩
        · rw [if_neg hsuccess] at hout ⊢
          refine .inr (iff_of_false ?_ (not_not.mpr trivial))
          rw [← hout]
          cases bp'.set data.length 0 with
          | none => exact access_ne
          | some _ => exact (by rintro ⟨⟩)

/-- When printer_status looks only at bytes that it received. -/
theorem looks_within_iff (jobid : ℤ) (memory : ℕ → Byte) (pieces : List (List Byte)) :
    LooksWithin jobid memory pieces ↔ Within pieces := by
  unfold LooksWithin watchStatus
  constructor
  · intro h
    have hfuel : ¬ (IOBUFSZ + weight pieces + 1 ≤ IOBUFSZ ∨
        IOBUFSZ + weight pieces + 1 ≤ weight pieces) := by omega
    rcases @responses_beyond_iff (IOBUFSZ + weight pieces + 1) jobid
      (IOBUFSZ + weight pieces + 1) ⟨IOBUFSZ, memory⟩ rfl pieces with hcut | hiff
    · exact absurd hcut.1 hfuel
    · exact not_not.mp fun hn => h _ (hiff.mpr hn)
  · intro h fuel hbeyond
    rcases @responses_beyond_iff fuel jobid fuel ⟨IOBUFSZ, memory⟩ rfl pieces with
      ⟨-, hdiv⟩ | hiff
    · exact absurd (hdiv.symm.trans hbeyond) nofun
    · exact hiff.mp hbeyond h

/-- A response whose status line comes in alone. -/
def lineFirst : List (List Byte) :=
  ["HTTP/1.1 200 OK\r\n", "Content-Length: 8\r\n\r\n\x01\x01\x00\x00\x00\x00\x00\x07"].map
    fun piece => piece.toList.map fun c => UInt8.ofNat c.toNat

/-- The search for Content-Length comes to the end of the data, and looks at the byte there
before it asks for more. -/
theorem lineFirst_beyond : ¬ ∀ (jobid : ℤ) (memory : ℕ → Byte) (pieces : List (List Byte)),
    (∀ piece ∈ pieces, piece ≠ []) → LooksWithin jobid memory pieces := by
  intro h
  refine h 7 (fun _ => 0) lineFirst (by decide) 1 ?_
  rfl

end Apue.Printer
