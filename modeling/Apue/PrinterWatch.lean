import Apue.PrinterStatus

/-!
What printer_status looks at. The watched printer_status is printer_status with the number of
bytes of the response that bp holds beside datsz. When it is strict it stops where a scanning
loop is entered and datsz is not this number, where a read puts bytes over others that have
come in, and where a byte behind datsz or behind the bytes that came in is read. When it is not
strict, nothing is watched and it is printer_status.
-/
namespace Apue.Printer

open Programs Decimal Buffers Print

/-- What stops the strict printer_status. -/
def BEYOND : String := "a look beyond the bytes received"

def watch (strict : Bool) (c : Prop) [Decidable c] : Prog sig Unit :=
  if strict = true ∧ ¬ c then .abort BEYOND else .ret ()

/-- The buffer cut off at `n`, where an access from `n` on is not defined. -/
def received (bp : Buffer Byte) (n : ℕ) : Buffer Byte :=
  ⟨n, fun p => if p < n then bp.cell p else 0⟩

/-- The variables with the number of bytes of the response that bp holds. -/
structure Watched where
  pos : Position
  held : ℕ

/-- What may be looked at. -/
def Watched.seen (s : Watched) : Buffer Byte := received s.pos.bp (min s.pos.datsz s.held)

/-- What readmore has read comes behind the bytes that bp holds. -/
def watchMore (strict : Bool) (s : Watched) : Prog sig (Option Watched) := do
  match ← readmore s.pos.bp s.pos.i with
  | none => return none
  | some (bp, nr) => do
    watch strict (s.held ≤ s.pos.i)
    return some ⟨⟨bp, s.pos.i, s.pos.datsz + nr⟩, s.held + (nr - s.pos.i)⟩

def watchRefill (strict : Bool) (s : Watched) : Prog sig (Option Watched) :=
  if s.pos.datsz ≤ s.pos.i then watchMore strict s else .ret (some s)

def watchTake (strict : Bool) (search : Watched → Prog sig (Option (Watched × ℤ)))
    (s : Watched) : Prog sig (Option (Watched × ℤ)) := do
  watch strict ((s.seen.agrees sameLetter s.pos.i CONTENT_LENGTH).isSome = true)
  match ← inBounds (s.pos.bp.agrees sameLetter s.pos.i CONTENT_LENGTH) with
  | true => do
    watch strict (s.pos.datsz = s.held ∧ (lengthField s.seen s.pos.i).isSome = true)
    let r ← inBounds (lengthField s.pos.bp s.pos.i)
    return some (⟨⟨r.1, r.2.1, s.pos.datsz⟩, s.held⟩, r.2.2)
  | false => search ⟨{ s.pos with i := s.pos.i + 1 }, s.held⟩

def watchLength (strict : Bool) : ℕ → Watched → Prog sig (Option (Watched × ℤ))
  | 0, _ => .diverge
  | fuel + 1, s => do
    watch strict (s.pos.datsz = s.held ∧
      (seekC s.seen (s.pos.datsz - s.pos.i) s.pos.i).isSome = true)
    let i ← inBounds (seekC s.pos.bp (s.pos.datsz - s.pos.i) s.pos.i)
    match ← watchRefill strict ⟨{ s.pos with i := i }, s.held⟩ with
    | none => return none
    | some s => watchTake strict (watchLength strict fuel) s

def watchHeader (strict : Bool) : ℕ → Watched → Prog sig (Option Watched)
  | 0, _ => .diverge
  | fuel + 1, s => do
    watch strict (s.pos.datsz = s.held ∧
      (seekBlank s.seen (s.pos.datsz - 2 - s.pos.i) s.pos.i).isSome = true)
    let r ← inBounds (seekBlank s.pos.bp (s.pos.datsz - 2 - s.pos.i) s.pos.i)
    match ← watchRefill strict ⟨{ s.pos with i := r.2 }, s.held⟩ with
    | none => return none
    | some s => if r.1 then return some s else watchHeader strict fuel s

def watchBody (strict : Bool) (len : ℤ) (s : Watched) : Prog sig (Option Watched) :=
  if (s.pos.datsz : ℤ) - s.pos.i < len then watchMore strict s else .ret (some s)

def watchIpp (strict : Bool) (jobid : ℤ) (s : Watched) : Prog sig Bool := do
  watch strict ((ntoh s.seen (s.pos.i + 2) 2).isSome = true ∧
    (ntoh s.seen (s.pos.i + 4) 4).isSome = true)
  ippStatus jobid s.pos

def watchJudge (strict : Bool) (fuel : ℕ) (jobid : ℤ) (s : Watched) : Prog sig Bool :=
  orOut (watchLength strict fuel s) fun r =>
  orOut (watchRefill strict r.1) fun s =>
  orOut (watchHeader strict fuel s) fun s =>
  orOut (watchBody strict r.2 s) (watchIpp strict jobid)

/-- Beyond the bytes that it looks at, what log_msg does is not watched. -/
def watchLog (strict : Bool) (bp : Buffer Byte) : Prog sig Unit :=
  if strict = true then .ret () else logBuffer bp

/-- A response in a bad format is logged, as a string that begins with it. The reason of an
error is logged too, but it ends with the null that was put behind it. -/
def watchResponses (strict : Bool) (fuel : ℕ) (jobid : ℤ) : ℕ → Buffer Byte → Prog sig Bool
  | 0, _ => .diverge
  | rounds + 1, bp => do
    let data ← tread bp.size
    if data = [] then return false
    else do
      watch strict ((statusLine (received (bp.write 0 data) data.length)).isSome = true)
      match ← inBounds (statusLine (bp.write 0 data)) with
      | none => do
        watch strict (((received (bp.write 0 data) data.length).takeWhile
          (fun b => b != 0) 0).isSome = true)
        watchLog strict (bp.write 0 data)
        watchResponses strict fuel jobid rounds (bp.write 0 data)
      | some (bp, cp, code) =>
        if httpInfo code then watchResponses strict fuel jobid rounds bp
        else if httpSuccess code then
          watchJudge strict fuel jobid ⟨⟨bp, cp, data.length⟩, data.length⟩
        else do
          let _ ← inBounds (bp.set data.length 0)
          return false

def watchStatus (strict : Bool) (fuel : ℕ) (jobid : ℤ) (memory : ℕ → Byte) : Prog sig Bool :=
  watchResponses strict fuel jobid fuel ⟨IOBUFSZ, memory⟩

/-- printer_status looks only at bytes that it received. -/
def LooksWithin (jobid : ℤ) (memory : ℕ → Byte) (pieces : List (List Byte)) : Prop :=
  ∀ fuel, ((watchStatus true fuel jobid memory).run connection pieces).1 ≠ .aborted BEYOND

theorem watch_false (c : Prop) [Decidable c] : watch false c = .ret () := rfl

theorem watch_of {strict : Bool} {c : Prop} [Decidable c] (h : c) : watch strict c = .ret () :=
  if_neg fun hn => hn.2 h

theorem watch_not {c : Prop} [Decidable c] (h : ¬ c) : watch true c = .abort BEYOND :=
  if_pos ⟨rfl, h⟩

/-- A program whose value, if it has one, is only looked at through a function. -/
theorem orOut_map {α β : Type} {f : α → β} {p : Prog sig (Option α)} {q : Prog sig (Option β)}
    (h : (p >>= fun r => .ret (r.map f)) = q) (next : β → Prog sig Bool) :
    orOut p (fun a => next (f a)) = orOut q next := by
  rw [← h, orOut, orOut, Prog.bind_assoc]
  refine congrArg _ (funext fun r => ?_)
  cases r <;> rfl

theorem watchMore_false (s : Watched) :
    (watchMore false s >>= fun r => .ret (r.map Watched.pos)) = getMore s.pos := by
  rw [watchMore, getMore, Prog.bind_assoc]
  refine congrArg _ (funext fun r => ?_)
  cases r <;> rfl

theorem watchRefill_false (s : Watched) :
    (watchRefill false s >>= fun r => .ret (r.map Watched.pos)) = refill s.pos := by
  unfold watchRefill refill
  by_cases hend : s.pos.datsz ≤ s.pos.i
  · rw [if_pos hend, if_pos hend, watchMore_false]
  · rw [if_neg hend, if_neg hend]
    rfl

theorem watchBody_false (len : ℤ) (s : Watched) :
    (watchBody false len s >>= fun r => .ret (r.map Watched.pos)) = getBody len s.pos := by
  unfold watchBody getBody
  by_cases hless : (s.pos.datsz : ℤ) - s.pos.i < len
  · rw [if_pos hless, if_pos hless, watchMore_false]
  · rw [if_neg hless, if_neg hless]
    rfl

theorem watchLength_false (fuel : ℕ) (s : Watched) :
    (watchLength false fuel s >>= fun r => .ret (r.map fun x => (x.1.pos, x.2))) =
      findLength fuel s.pos := by
  induction fuel generalizing s with
  | zero => rfl
  | succ fuel ih =>
    simp only [watchLength, findLength, watch_false, Prog.ret_bind, Prog.bind_assoc]
    refine congrArg _ (funext fun i => ?_)
    rw [← watchRefill_false ⟨⟨s.pos.bp, i, s.pos.datsz⟩, s.held⟩, Prog.bind_assoc]
    refine congrArg _ (funext fun r => ?_)
    cases r with
    | none => rfl
    | some s =>
      simp only [Prog.ret_bind, Option.map_some, watchTake, takeLength, watch_false,
        Prog.bind_assoc]
      refine congrArg _ (funext fun same => ?_)
      cases same with
      | true =>
        simp only [Prog.bind_assoc]
        rfl
      | false => exact ih _

theorem watchHeader_false (fuel : ℕ) (s : Watched) :
    (watchHeader false fuel s >>= fun r => .ret (r.map Watched.pos)) = endOfHeader fuel s.pos := by
  induction fuel generalizing s with
  | zero => rfl
  | succ fuel ih =>
    simp only [watchHeader, endOfHeader, watch_false, Prog.ret_bind, Prog.bind_assoc]
    refine congrArg _ (funext fun found => ?_)
    rw [← watchRefill_false ⟨⟨s.pos.bp, found.2, s.pos.datsz⟩, s.held⟩, Prog.bind_assoc]
    refine congrArg _ (funext fun r => ?_)
    cases r with
    | none => rfl
    | some s =>
      by_cases hfound : found.1 = true
      · simp only [Prog.ret_bind, Option.map_some, if_pos hfound]
        rfl
      · simp only [Prog.ret_bind, Option.map_some, if_neg hfound]
        exact ih s

theorem watchJudge_false (fuel : ℕ) (jobid : ℤ) (s : Watched) :
    watchJudge false fuel jobid s = judge fuel jobid s.pos := by
  have hbody : ∀ len s, orOut (watchBody false len s) (watchIpp false jobid) =
      orOut (getBody len s.pos) (ippStatus jobid) :=
    fun len s => orOut_map (watchBody_false len s) (ippStatus jobid)
  have hheader : ∀ len s, (orOut (watchHeader false fuel s) fun s =>
      orOut (watchBody false len s) (watchIpp false jobid)) =
      orOut (endOfHeader fuel s.pos) fun pos => orOut (getBody len pos) (ippStatus jobid) := by
    intro len s
    simp only [hbody]
    exact orOut_map (watchHeader_false fuel s) fun pos => orOut (getBody len pos) (ippStatus jobid)
  unfold watchJudge judge
  simp only [hheader]
  rw [← orOut_map (watchLength_false fuel s)]
  refine congrArg _ (funext fun r => ?_)
  exact orOut_map (watchRefill_false r.1) fun pos =>
    orOut (endOfHeader fuel pos) fun pos => orOut (getBody r.2 pos) (ippStatus jobid)

theorem watchResponses_false (fuel : ℕ) (jobid : ℤ) (rounds : ℕ) (bp : Buffer Byte) :
    watchResponses false fuel jobid rounds bp = responses fuel jobid rounds bp := by
  induction rounds generalizing bp with
  | zero => rfl
  | succ rounds ih =>
    rw [watchResponses, responses]
    refine congrArg (tread bp.size >>= ·) (funext fun data => ?_)
    by_cases hdata : data = []
    · rw [if_pos hdata, if_pos hdata]
    · rw [if_neg hdata, if_neg hdata]
      refine congrArg (inBounds (statusLine (bp.write 0 data)) >>= ·) (funext fun r => ?_)
      rcases r with _ | ⟨bp', cp, code⟩
      · exact congrArg (logBuffer (bp.write 0 data) >>= ·) (funext fun _ => ih _)
      · exact if_congr Iff.rfl (ih bp') (if_congr Iff.rfl (watchJudge_false ..) rfl)

/-- What is not strict is printer_status. -/
theorem watchStatus_false (fuel : ℕ) (jobid : ℤ) (memory : ℕ → Byte) :
    watchStatus false fuel jobid memory = printerStatus fuel jobid memory :=
  watchResponses_false fuel jobid fuel ⟨IOBUFSZ, memory⟩

end Apue.Printer
